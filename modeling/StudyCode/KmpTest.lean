import StudyCode.Border
import StudyCode.CheckedLoop

/-!
# Knuth-Morris-Pratt search

`cal_next` fills the failure table of a pattern and `KMP` scans a text with
it. Both loops fall back along the table as long as the next characters
differ. The matcher state k is one less than the longest overlap of the text
read so far with the pattern, so the first full overlap ends at the first
occurrence.
-/

namespace StudyCode.KmpTest

open Checked Border

/-! ## cal_next and KMP -/

/-- The test of both fallback loops, `k > -1 && pat[k+1] != text[i]`. -/
def mismatch (pat text : List UInt8) (i k : ℤ) : Option Bool :=
  if k > -1 then do
    let a ← cellAt pat (k+1)
    let b ← cellAt text i
    some (a != b)
  else some false

/-- What `cal_next` and `KMP` do with one character: fall back while the next
characters differ, then count one more where they agree. -/
def advance (fuel : ℕ) (pat text : List UInt8) (next : Block ℤ) (i k : ℤ) : Option ℤ := do
  let k ← whileSome (mismatch pat text i) next.read fuel k
  let a ← cellAt pat (k+1)
  let b ← cellAt text i
  some (if a=b then k+1 else k)

/-- The turn of the loop of `cal_next` for position q. -/
def calNextTurn (fuel : ℕ) (str : List UInt8) (q : ℤ) (s : ℤ×Block ℤ) : Option (ℤ×Block ℤ) := do
  let k ← advance fuel str str s.2 q s.1
  let next ← s.2.write q k
  some (k,next)

/-- `cal_next`: the failure table, with -1 where no prefix is a suffix. -/
def calNext (fuel : ℕ) (str : List UInt8) (next : Block ℤ) (len : ℤ) : Option (Block ℤ) := do
  let next ← next.write 0 (-1)
  let s ← forUp (calNextTurn fuel str) 1 len (-1,next)
  some s.2

/-- The turn of the scan of `KMP` for position i; a match returns its start. -/
def kmpTurn (fuel : ℕ) (str ptr : List UInt8) (plen : ℤ) (next : Block ℤ) (i k : ℤ) :
    Option (ℤ ⊕ ℤ) := do
  let k ← advance fuel ptr str next i k
  some (if k=plen-1 then .inl (i-plen+1) else .inr k)

/-- The turn of the loop that prints the table. -/
def printTurn (next : Block ℤ) (i : ℤ) (printed : List ℤ) : Option (List ℤ) := do
  let v ← next.read i
  some (printed++[v])

/-- `KMP` on a text and a pattern with their lengths: the table it prints and
the value it returns. `junk` is what the allocated table holds at first. -/
def kmp (fuel : ℕ) (junk : ℕ → ℤ) (str : List UInt8) (slen : ℤ) (ptr : List UInt8) (plen : ℤ) :
    Option (List ℤ×ℤ) := do
  let next ← calNext fuel ptr ⟨plen.toNat,junk⟩ plen
  let printed ← forUp (printTurn next) 0 plen []
  let o ← scanUp (kmpTurn fuel str ptr plen next) 0 slen (-1)
  some (printed,o.elim id fun _ => -1)

/-! ## One character -/

/-- The table holds the longest proper overlap of each of the first n prefixes. -/
structure Table (pat : List UInt8) (next : Block ℤ) (n : ℕ) : Prop where
  /-- One cell for each character of the pattern. -/
  size : next.size=pat.length
  /-- Not more entries than cells. -/
  le : n ≤ pat.length
  /-- An entry is one less than an overlap. -/
  entry : ∀ q < n,∃ f,Longest pat (pat.take (q+1)) q f ∧ next.cell q=f-1

variable {pat text : List UInt8} {next : Block ℤ} {n b i m fuel : ℕ} {c : UInt8}

/-- The test behind a border. -/
theorem mismatch_succ (hi : text[i]?=some c) (hm : m+1 < pat.length) :
    mismatch pat text i (((m+1 : ℕ) : ℤ)-1)=some (decide (pat[m+1]? ≠ some c)) := by
  have hk : (((m+1 : ℕ) : ℤ)-1) > -1 := by omega
  have he : (((m+1 : ℕ) : ℤ)-1)+1=((m+1 : ℕ) : ℤ) := by omega
  rw [mismatch,if_pos hk,he,cellAt_of_lt hm,cellAt_natCast,hi,List.getElem?_eq_getElem hm]
  simp [bne,Bool.beq_eq_decide_eq]

/-- Without a border there is no mismatch. -/
theorem mismatch_zero (pat text : List UInt8) (i : ℤ) :
    mismatch pat text i (((0 : ℕ) : ℤ)-1)=some false := by
  simp [mismatch]

/-- The state of a fallback: one less than a candidate. -/
def Falling (pat t : List UInt8) (c : UInt8) (b : ℕ) (k : ℤ) : Prop :=
  ∃ m : ℕ,k=(m : ℤ)-1 ∧ Candidate pat t c b m

/-- The test of the inner loop is defined. -/
theorem Falling.test {t : List UInt8} (hb : b < pat.length) (hi : text[i]?=some c) (k : ℤ)
    (h : Falling pat t c b k) : ∃ o,mismatch pat text i k=some o := by
  obtain ⟨m,rfl,hm⟩ := h
  cases m with
  | zero => exact ⟨_,mismatch_zero pat text i⟩
  | succ m => exact ⟨_,mismatch_succ hi (lt_of_le_of_lt hm.le hb)⟩

/-- A turn of the fallback reads the table inside and shortens the candidate. -/
theorem Falling.turn {t : List UInt8} (ht : Table pat next n) (hb : b < pat.length) (hbn : b ≤ n)
    (hi : text[i]?=some c) (k : ℤ) (h : Falling pat t c b k)
    (htest : mismatch pat text i k=some true) :
    ∃ k',next.read k=some k' ∧ Falling pat t c b k' ∧ (k'+1).toNat < (k+1).toNat := by
  obtain ⟨m,rfl,hm⟩ := h
  cases m with
  | zero =>
    rw [mismatch_zero] at htest
    simp at htest
  | succ m =>
    have hle := hm.le
    rw [mismatch_succ hi (by omega)] at htest
    obtain ⟨f,hlong,hcell⟩ := ht.entry m (by omega)
    obtain ⟨hcand,hlt⟩ := hm.fall (Nat.succ_pos m) (by simpa using htest) hlong
    refine ⟨_,?_,⟨f,hcell,hcand⟩,by omega⟩
    have he : (((m+1 : ℕ) : ℤ)-1)=(m : ℤ) := by omega
    rw [he]
    exact Block.read_natCast (by rw [ht.size]; omega)

/-- The fallback keeps a candidate and ends at one that is extended, or empty. -/
theorem fallback_spec (ht : Table pat next n) (hb : b < pat.length) (hbn : b ≤ n)
    (hi : text[i]?=some c) {t : List UInt8} (hm : Candidate pat t c b m) (hf : m < fuel) :
    ∃ m' : ℕ,whileSome (mismatch pat text i) next.read fuel ((m : ℤ)-1)=some ((m' : ℤ)-1) ∧
      Candidate pat t c b m' ∧ (m'=0 ∨ pat[m']?=some c) := by
  obtain ⟨k,hk,⟨m',rfl,hm'⟩,hstop⟩ := whileSome_spec (Falling pat t c b) (fun k => (k+1).toNat)
    (Falling.test hb hi) (Falling.turn ht hb hbn hi) ⟨m,rfl,hm⟩
    (show ((m : ℤ)-1+1).toNat < fuel by omega)
  refine ⟨m',hk,hm',?_⟩
  cases m' with
  | zero => exact .inl rfl
  | succ m' =>
    rw [mismatch_succ hi (lt_of_le_of_lt hm'.le hb)] at hstop
    exact .inr (by simpa using hstop)

/-- One character more makes the longest overlap with the longer text. -/
theorem advance_spec (ht : Table pat next n) (hb : b < pat.length) (hbn : b ≤ n)
    (hi : text[i]?=some c) {t : List UInt8} (hm : Longest pat t b m) (hf : m < fuel) :
    ∃ m' : ℕ,advance fuel pat text next i ((m : ℤ)-1)=some ((m' : ℤ)-1) ∧
      Longest pat (t++[c]) (b+1) m' := by
  obtain ⟨m',hw,hc,hstop⟩ := fallback_spec ht hb hbn hi (hm.candidate c) hf
  have hlt : m' < pat.length := lt_of_le_of_lt hc.le hb
  have he : ((m' : ℤ)-1)+1=(m' : ℤ) := by omega
  unfold advance
  rw [hw]
  by_cases hp : pat[m']?=some c
  · refine ⟨m'+1,?_,hc.extend hp⟩
    simp [he,hi,hp]
  · have h0 : m'=0 := hstop.resolve_right hp
    subst h0
    refine ⟨0,?_,hc.empty hp⟩
    rw [List.getElem?_eq_getElem hlt] at hp
    have hne : pat[0] ≠ c := fun h => hp (by rw [h])
    simp [cellAt,hi,List.getElem?_eq_getElem hlt,hne]

/-! ## The failure table -/

/-- The table grows by the overlap found for the next prefix. -/
theorem Table.push (ht : Table pat next n) (hn : n < pat.length) {f : ℕ}
    (hf : Longest pat (pat.take (n+1)) n f) :
    Table pat ⟨next.size,Function.update next.cell n ((f : ℤ)-1)⟩ (n+1) := by
  refine ⟨ht.size,hn,?_⟩
  intro q hq
  by_cases he : q=n
  · subst he
    exact ⟨f,hf,by simp⟩
  · obtain ⟨g,hg,hcell⟩ := ht.entry q (by omega)
    refine ⟨g,hg,?_⟩
    dsimp only
    rw [Function.update_of_ne he,hcell]

/-- The state of `cal_next` before position q. -/
def Filling (pat : List UInt8) (q : ℕ) (s : ℤ×Block ℤ) : Prop :=
  Table pat s.2 q ∧ ∃ m : ℕ,s.1=(m : ℤ)-1 ∧ Longest pat (pat.take q) (q-1) m

/-- One turn fills one entry. -/
theorem Filling.turn (hf : pat.length < fuel) {q : ℕ} {s : ℤ×Block ℤ} (hq : 1 ≤ q)
    (hlt : q < pat.length) (h : Filling pat q s) :
    ∃ t,calNextTurn fuel pat q s=some t ∧ Filling pat (q+1) t := by
  obtain ⟨k,next⟩ := s
  obtain ⟨ht,m,rfl,hm⟩ := h
  have hget : pat[q]?=some pat[q] := List.getElem?_eq_getElem hlt
  have hfuel : m < fuel := by
    have := hm.le
    omega
  obtain ⟨m',ha,hm'⟩ := advance_spec ht (by omega) (by omega) hget hm hfuel
  have hsnoc : pat.take q++[pat[q]]=pat.take (q+1) := by
    rw [List.take_add_one,hget]
    rfl
  rw [hsnoc,show q-1+1=q by omega] at hm'
  have hsize : q < next.size := by
    have := ht.size
    dsimp only at this
    omega
  refine ⟨(_,_),?_,ht.push hlt hm',m',rfl,hm'⟩
  simp [calNextTurn,ha,Block.write_natCast hsize]

/-- `cal_next` fills the whole table, whatever it held before. -/
theorem calNext_spec (hp : pat ≠ []) (hf : pat.length < fuel) (junk : ℕ → ℤ) :
    ∃ next,calNext fuel pat ⟨pat.length,junk⟩ pat.length=some next ∧
      Table pat next pat.length := by
  have hlen : 0 < pat.length := List.length_pos_iff.mpr hp
  have hfirst : Filling pat 1 (-1,⟨pat.length,Function.update junk 0 (-1)⟩) := by
    have hlong : ∀ t,Longest pat t 0 0 := fun t => ⟨le_rfl,laps_zero pat t,fun j hj _ => hj⟩
    refine ⟨⟨rfl,hlen,?_⟩,0,rfl,hlong _⟩
    intro q hq
    obtain rfl : q=0 := by omega
    exact ⟨0,hlong _,by simp⟩
  obtain ⟨t,hloop,ht,-⟩ := forUp_spec (Filling pat) hlen hfirst
    fun q s hq hlt h => Filling.turn hf hq hlt h
  refine ⟨t.2,?_,ht⟩
  have hwrite := Block.write_natCast (b := ⟨pat.length,junk⟩) hlen (-1 : ℤ)
  rw [Nat.cast_zero] at hwrite
  rw [calNext,hwrite]
  exact congrArg (fun o => Option.bind o fun s => some s.2) hloop

/-- Each entry of the finished table is one less than the length of the longest
proper prefix of a prefix of the pattern that the prefix also ends in. -/
theorem calNext_longest_border (junk : ℕ → ℤ) (str : List UInt8) (hstr : str ≠ []) (fuel : ℕ)
    (hf : str.length < fuel) :
    ∃ next,calNext fuel str ⟨str.length,junk⟩ str.length=some next ∧ next.size=str.length ∧
      ∀ q < str.length,(∃ m : ℕ,next.cell q+1=m ∧ IsGreatest (borders (str.take (q+1))) m) ∧
        -1 ≤ next.cell q ∧ (1 ≤ q → next.cell q < q) := by
  obtain ⟨next,hnext,ht⟩ := calNext_spec hstr hf junk
  refine ⟨next,hnext,ht.size,?_⟩
  intro q hq
  obtain ⟨m,hm,hcell⟩ := ht.entry q hq
  have hle := hm.le
  refine ⟨⟨m,by omega,hm.isGreatest hq⟩,by omega,?_⟩
  intro h1
  omega

/-- The word `abab`. -/
theorem calNext_abab :
    (∃ next,calNext 5 [97,98,97,98] ⟨4,fun _ => 7⟩ 4=some next ∧ next.size=4 ∧
      ∀ q < 4,(∃ m : ℕ,next.cell q+1=m ∧
          IsGreatest (borders (([97,98,97,98] : List UInt8).take (q+1))) m) ∧
        -1 ≤ next.cell q ∧ (1 ≤ q → next.cell q < q)) :=
  calNext_longest_border (fun _ => 7) [97,98,97,98] (by decide) 5 (by decide)

/-! ## The scan -/

/-- The value of a search: the first position of the pattern, or -1. -/
def FirstOccurrence (ptr str : List UInt8) (ret : ℤ) : Prop :=
  (∃ i : ℕ,ret=i ∧ Occurs ptr str i ∧ ∀ j < i,¬Occurs ptr str j) ∨
    (ret=-1 ∧ ∀ i,¬Occurs ptr str i)

/-- The state of the scan before position i: no match ends so far. -/
def Scanning (ptr str : List UInt8) (i : ℕ) (k : ℤ) : Prop :=
  (∃ m : ℕ,k=(m : ℤ)-1 ∧ Longest ptr (str.take i) (ptr.length-1) m) ∧
    ∀ e ≤ i,¬Laps ptr (str.take e) ptr.length

variable {ptr str : List UInt8}

/-- A match that ends at the first possible place starts at the first one. -/
theorem first_of_laps (hi : i < str.length) (hno : ∀ e ≤ i,¬Laps ptr (str.take e) ptr.length)
    (hl : Laps ptr (str.take (i+1)) ptr.length) :
    FirstOccurrence ptr str ((i : ℤ)-ptr.length+1) := by
  have hlen : ptr.length ≤ i+1 := by
    have h := hl.2.length_le
    rw [List.take_length,List.length_take] at h
    omega
  have hend : i+1-ptr.length+ptr.length=i+1 := by omega
  refine .inl ⟨i+1-ptr.length,by omega,?_,?_⟩
  · exact (occurs_iff_laps (by omega)).mpr (by rwa [hend])
  · intro j hj ho
    exact hno (j+ptr.length) (by omega) ((occurs_iff_laps ho.1).mp ho)

/-- One turn reads one character. -/
theorem Scanning.turn (hp : ptr ≠ []) (hf : ptr.length < fuel) (ht : Table ptr next ptr.length)
    {i : ℕ} {k : ℤ} (hi : i < str.length) (h : Scanning ptr str i k) :
    ∃ o,kmpTurn fuel str ptr ptr.length next i k=some o ∧
      Sum.elim (FirstOccurrence ptr str) (Scanning ptr str (i+1)) o := by
  obtain ⟨⟨m,rfl,hm⟩,hno⟩ := h
  have hlen : 0 < ptr.length := List.length_pos_iff.mpr hp
  have hget : str[i]?=some str[i] := List.getElem?_eq_getElem hi
  have hfuel : m < fuel := by
    have := hm.le
    omega
  obtain ⟨m',ha,hm'⟩ := advance_spec ht (by omega) (by omega) hget hm hfuel
  have hsnoc : str.take i++[str[i]]=str.take (i+1) := by
    rw [List.take_add_one,hget]
    rfl
  rw [hsnoc,show ptr.length-1+1=ptr.length by omega] at hm'
  refine ⟨_,by rw [kmpTurn,ha]; rfl,?_⟩
  have hle' := hm'.le
  by_cases hfull : m'=ptr.length
  · subst hfull
    rw [if_pos rfl]
    exact first_of_laps hi hno hm'.laps
  · rw [if_neg (by omega)]
    refine ⟨⟨m',rfl,by omega,hm'.laps,fun j hj => hm'.max j (by omega)⟩,?_⟩
    intro e he
    by_cases hei : e ≤ i
    · exact hno e hei
    · obtain rfl : e=i+1 := by omega
      intro hl
      have := hm'.max ptr.length le_rfl hl
      omega

/-- The scan over the first n characters returns the first occurrence or goes
on with a state inside of the pattern. -/
theorem scan_spec (hp : ptr ≠ []) (hf : ptr.length < fuel) (ht : Table ptr next ptr.length)
    {n : ℕ} (hn : n ≤ str.length) :
    ∃ o,scanUp (kmpTurn fuel str ptr ptr.length next) 0 n (-1)=some o ∧
      Sum.elim (FirstOccurrence ptr str) (Scanning ptr str n) o := by
  have hlen : 0 < ptr.length := List.length_pos_iff.mpr hp
  have hfirst : Scanning ptr str 0 (-1) := by
    refine ⟨⟨0,rfl,Nat.zero_le _,laps_zero _ _,?_⟩,?_⟩
    · intro j _ hl
      have h := hl.2.length_le
      rw [List.length_take,Nat.min_eq_left hl.1] at h
      simpa using h
    · intro e he hl
      obtain rfl : e=0 := by omega
      have h := hl.2.length_le
      rw [List.take_length] at h
      simp at h
      exact hp h
  exact scanUp_spec (Scanning ptr str) _ (Nat.zero_le n) hfirst
    fun i k _ hi h => h.turn hp hf ht (by omega)

/-- The position in the pattern is inside. -/
theorem Scanning.inside (hp : ptr ≠ []) {k : ℤ} (h : Scanning ptr str n k) :
    0 ≤ k+1 ∧ k+1 < ptr.length := by
  obtain ⟨⟨m,rfl,hm⟩,-⟩ := h
  have hlen : 0 < ptr.length := List.length_pos_iff.mpr hp
  have := hm.le
  omega

/-- Without an occurrence in the whole text the search returns -1. -/
theorem Scanning.none_found {k : ℤ} (h : Scanning ptr str str.length k) :
    FirstOccurrence ptr str (-1) :=
  .inr ⟨rfl,fun _ ho => h.2 _ ho.1 ((occurs_iff_laps ho.1).mp ho)⟩

/-- One turn prints one entry. -/
theorem printTurn_spec (i : ℕ) (l : List ℤ) (hi : i < next.size)
    (hl : l=(List.range i).map next.cell) :
    ∃ t,printTurn next i l=some t ∧ t=(List.range (i+1)).map next.cell := by
  refine ⟨l++[next.cell i],?_,?_⟩
  · rw [printTurn,Block.read_natCast hi]
    rfl
  · rw [hl,List.range_succ,List.map_append]
    rfl

/-- The loop that prints the table reads each of its cells. -/
theorem print_spec (hn : next.size=n) :
    forUp (printTurn next) 0 n []=some ((List.range n).map next.cell) := by
  obtain ⟨t,ht,rfl⟩ := forUp_spec (fun i l => l=(List.range i).map next.cell) (Nat.zero_le n) rfl
    fun i l _ hi hl => printTurn_spec i l (by omega) hl
  exact_mod_cast ht

/-- The search ends within its arrays and returns the first occurrence, and
before every character of the text k+1 is a position of the pattern. -/
theorem kmp_first_occurrence (junk : ℕ → ℤ) (str ptr : List UInt8) (hp : ptr ≠ []) (fuel : ℕ)
    (hf : ptr.length < fuel) :
    ∃ next printed ret,calNext fuel ptr ⟨ptr.length,junk⟩ ptr.length=some next ∧
      kmp fuel junk str str.length ptr ptr.length=some (printed,ret) ∧
      FirstOccurrence ptr str ret ∧
      ∀ n ≤ str.length,∃ o,scanUp (kmpTurn fuel str ptr ptr.length next) 0 n (-1)=some o ∧
        ∀ k,o=.inr k → 0 ≤ k+1 ∧ k+1 < ptr.length := by
  obtain ⟨next,hnext,ht⟩ := calNext_spec hp hf junk
  obtain ⟨o,ho,hspec⟩ := scan_spec hp hf ht (le_refl str.length)
  refine ⟨next,(List.range ptr.length).map next.cell,o.elim id fun _ => -1,hnext,?_,?_,?_⟩
  · simp [kmp,hnext,print_spec ht.size,ho]
  · cases o with
    | inl r => exact hspec
    | inr k => exact Scanning.none_found hspec
  · intro n hn
    obtain ⟨o,ho,hspec⟩ := scan_spec hp hf ht hn
    refine ⟨o,ho,?_⟩
    rintro k rfl
    exact Scanning.inside hp hspec

/-- A pattern with a fallback inside: `aab` in `aaab`. -/
theorem kmp_aab_in_aaab : (∃ next printed ret,calNext 4 [97,97,98] ⟨3,fun _ => 7⟩ 3=some next ∧
      kmp 4 (fun _ => 7) [97,97,97,98] 4 [97,97,98] 3=some (printed,ret) ∧
      FirstOccurrence [97,97,98] [97,97,97,98] ret ∧
      ∀ n ≤ 4,∃ o,scanUp (kmpTurn 4 [97,97,97,98] [97,97,98] 3 next) 0 (n : ℕ) (-1)=some o ∧
        ∀ k,o=.inr k → 0 ≤ k+1 ∧ k+1 < 3) ∧
    kmp 4 (fun _ => 7) [97,97,97,98] 4 [97,97,98] 3=some ([-1,0,-1],1) :=
  ⟨kmp_first_occurrence (fun _ => 7) [97,97,97,98] [97,97,98] (by decide) 4 (by decide),by decide⟩

end StudyCode.KmpTest
