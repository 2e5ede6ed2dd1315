import Mathlib.Tactic

/-!
# Checked cells and loops

Reads and writes of arrays whose indices are checked, and the loops that make
them. An index outside of its array has no value, so a run that ends with a
value has used indices inside only. Each loop has one rule: what a turn keeps
is kept by all turns.
-/

namespace StudyCode.Checked

variable {α σ ρ : Type*}

/-! ## Cells -/

/-- The element at an index, which may be negative or behind the end. -/
def cellAt (l : List α) (i : ℤ) : Option α := if 0 ≤ i then l[i.toNat]? else none

/-- An index that is not negative reads the list. -/
@[simp] theorem cellAt_natCast (l : List α) (n : ℕ) : cellAt l (n : ℤ)=l[n]? := by
  simp [cellAt]

/-- An index inside reads its element. -/
theorem cellAt_of_lt {l : List α} {n : ℕ} (h : n < l.length) : cellAt l (n : ℤ)=some l[n] := by
  rw [cellAt_natCast,List.getElem?_eq_getElem h]

/-- A list with the element at an index replaced. -/
def putAt (l : List α) (i : ℤ) (v : α) : Option (List α) :=
  if 0 ≤ i ∧ i < l.length then some (l.set i.toNat v) else none

/-- Writing between two parts of a list. -/
theorem putAt_length (a b : List α) (c v : α) :
    putAt (a++c::b) a.length v=some (a++v::b) := by
  have hi : 0 ≤ (a.length : ℤ) ∧ (a.length : ℤ) < (a++c::b).length := by
    rw [List.length_append,List.length_cons]
    omega
  rw [putAt,if_pos hi]
  simp

/-- An index inside is written. -/
theorem putAt_of_lt {l : List α} {n : ℕ} (h : n < l.length) (v : α) :
    putAt l (n : ℤ) v=some (l.set n v) := by
  rw [putAt,if_pos ⟨by omega,by omega⟩,Int.toNat_natCast]

/-- Reading between two parts of a list. -/
theorem cellAt_length (a b : List α) (c : α) : cellAt (a++c::b) a.length=some c := by
  simp

/-- A text ends in front of the first terminator. -/
theorem takeWhile_terminated [DecidableEq α] {z : α} {t : List α} (ht : ∀ c ∈ t,c ≠ z)
    (r : List α) : (t++z::r).takeWhile (fun c => decide (c ≠ z))=t := by
  rw [List.takeWhile_append_of_pos (by simpa using ht)]
  simp

/-- Sum of two int values; an overflow has no value. -/
def addInt (a b : ℤ) : Option ℤ := if -2^31 ≤ a+b ∧ a+b < 2^31 then some (a+b) else none

/-- A sum that is defined is an int. -/
theorem addInt_eq_some {a b c : ℤ} (h : addInt a b=some c) : c=a+b ∧ -2^31 ≤ c ∧ c < 2^31 := by
  unfold addInt at h
  split at h
  · rename_i hin
    obtain rfl : a+b=c := by simpa using h
    exact ⟨rfl,hin⟩
  · simp at h

/-- A small sum is defined. -/
theorem addInt_natCast {a b : ℕ} (h : a+b < 2^31) : addInt (a : ℤ) b=some ((a+b : ℕ) : ℤ) := by
  rw [addInt,if_pos ⟨by omega,by omega⟩,Nat.cast_add]

/-- A counter below the limit of int counts on. -/
theorem addInt_one {n : ℕ} (h : n+1 < 2^31) : addInt (n : ℤ) 1=some ((n+1 : ℕ) : ℤ) := by
  rw [addInt,if_pos ⟨by omega,by omega⟩,Nat.cast_add,Nat.cast_one]

/-- An allocated array. Its contents are arbitrary until they are written. -/
structure Block (α : Type*) where
  /-- Number of cells. -/
  size : ℕ
  /-- Contents by position. -/
  cell : ℕ → α

/-- Checked read of one cell. -/
def Block.read (b : Block α) (i : ℤ) : Option α :=
  if 0 ≤ i ∧ i < b.size then some (b.cell i.toNat) else none

/-- Checked write of one cell. -/
def Block.write (b : Block α) (i : ℤ) (v : α) : Option (Block α) :=
  if 0 ≤ i ∧ i < b.size then some ⟨b.size,Function.update b.cell i.toNat v⟩ else none

/-- An index below the size reads a cell. -/
theorem Block.read_natCast {b : Block α} {n : ℕ} (h : n < b.size) :
    b.read (n : ℤ)=some (b.cell n) := by
  have hi : 0 ≤ (n : ℤ) ∧ (n : ℤ) < b.size := by omega
  simp [Block.read,hi]

/-- An index below the size writes a cell. -/
theorem Block.write_natCast {b : Block α} {n : ℕ} (h : n < b.size) (v : α) :
    b.write (n : ℤ) v=some ⟨b.size,Function.update b.cell n v⟩ := by
  have hi : 0 ≤ (n : ℤ) ∧ (n : ℤ) < b.size := by omega
  simp [Block.write,hi]

/-! ## Loops -/

/-- The turns of a counting loop without an exit. -/
def turns (body : ℤ → σ → Option σ) : ℕ → ℤ → σ → Option σ
  | 0,_,s => some s
  | n+1,i,s => (body i s).bind (turns body n (i+1))

/-- `for (i=lo; i<hi; i++)` whose body leaves the counter alone. -/
def forUp (body : ℤ → σ → Option σ) (lo hi : ℤ) (s : σ) : Option σ :=
  turns body (hi-lo).toNat lo s

/-- What every turn keeps holds behind the last one. -/
theorem forUp_spec {body : ℤ → σ → Option σ} {lo hi : ℕ} {s : σ} (Inv : ℕ → σ → Prop)
    (hle : lo ≤ hi) (hs : Inv lo s)
    (hstep : ∀ i s,lo ≤ i → i < hi → Inv i s → ∃ t,body (i : ℤ) s=some t ∧ Inv (i+1) t) :
    ∃ t,forUp body lo hi s=some t ∧ Inv hi t := by
  obtain ⟨n,rfl⟩ := Nat.exists_eq_add_of_le hle
  have hn : (((lo+n : ℕ) : ℤ)-lo).toNat=n := by omega
  unfold forUp
  rw [hn]
  clear hn hle
  induction n generalizing lo s with
  | zero => exact ⟨s,rfl,hs⟩
  | succ n ih =>
    obtain ⟨t,ht,hi⟩ := hstep lo s le_rfl (by omega) hs
    have hr := ih hi fun i u h1 h2 => hstep i u (by omega) (by omega)
    rw [show lo+1+n=lo+(n+1) by omega] at hr
    rw [turns,ht]
    exact_mod_cast hr

/-- The turns of a counting loop that may return from inside. -/
def scan (body : ℤ → σ → Option (ρ ⊕ σ)) : ℕ → ℤ → σ → Option (ρ ⊕ σ)
  | 0,_,s => some (.inr s)
  | n+1,i,s =>
    (body i s).bind fun
      | .inl r => some (.inl r)
      | .inr t => scan body n (i+1) t

/-- `for (i=lo; i<hi; i++)` with a return: left the returned value, right the
state behind the loop. -/
def scanUp (body : ℤ → σ → Option (ρ ⊕ σ)) (lo hi : ℤ) (s : σ) : Option (ρ ⊕ σ) :=
  scan body (hi-lo).toNat lo s

/-- Every turn keeps the invariant or returns a value as promised. -/
theorem scanUp_spec {body : ℤ → σ → Option (ρ ⊕ σ)} {lo hi : ℕ} {s : σ} (Inv : ℕ → σ → Prop)
    (Post : ρ → Prop) (hle : lo ≤ hi) (hs : Inv lo s)
    (hstep : ∀ i s,lo ≤ i → i < hi → Inv i s →
      ∃ o,body (i : ℤ) s=some o ∧ Sum.elim Post (Inv (i+1)) o) :
    ∃ o,scanUp body lo hi s=some o ∧ Sum.elim Post (Inv hi) o := by
  obtain ⟨n,rfl⟩ := Nat.exists_eq_add_of_le hle
  have hn : (((lo+n : ℕ) : ℤ)-lo).toNat=n := by omega
  unfold scanUp
  rw [hn]
  clear hn hle
  induction n generalizing lo s with
  | zero => exact ⟨.inr s,rfl,hs⟩
  | succ n ih =>
    obtain ⟨o,ho,hi⟩ := hstep lo s le_rfl (by omega) hs
    rw [scan,ho]
    cases o with
    | inl r => exact ⟨.inl r,rfl,hi⟩
    | inr t =>
      have hr := ih hi fun i u h1 h2 => hstep i u (by omega) (by omega)
      rw [show lo+1+n=lo+(n+1) by omega] at hr
      exact_mod_cast hr

/-- `while (test) body`; the fuel bounds the number of tests. -/
def whileSome (test : σ → Option Bool) (body : σ → Option σ) : ℕ → σ → Option σ
  | 0,_ => none
  | fuel+1,s =>
    (test s).bind fun more =>
      if more then (body s).bind (whileSome test body fuel) else some s

/-- A loop whose turns shrink a measure ends in a state that keeps the
invariant and fails the test. -/
theorem whileSome_spec {test : σ → Option Bool} {body : σ → Option σ} (Inv : σ → Prop)
    (size : σ → ℕ) (htest : ∀ s,Inv s → ∃ b,test s=some b)
    (hbody : ∀ s,Inv s → test s=some true → ∃ t,body s=some t ∧ Inv t ∧ size t < size s)
    {fuel : ℕ} {s : σ} (hs : Inv s) (hf : size s < fuel) :
    ∃ t,whileSome test body fuel s=some t ∧ Inv t ∧ test t=some false := by
  induction fuel generalizing s with
  | zero => omega
  | succ fuel ih =>
    obtain ⟨b,hb⟩ := htest s hs
    cases b with
    | false => exact ⟨s,by simp [whileSome,hb],hs,hb⟩
    | true =>
      obtain ⟨t,ht,hi,hlt⟩ := hbody s hs hb
      obtain ⟨u,hu,hr⟩ := ih hi (by omega)
      exact ⟨u,by simp [whileSome,hb,ht,hu],hr⟩

end StudyCode.Checked
