import Mathlib.Data.Nat.Digits.Lemmas
import StudyCode.CheckedLoop

/-!
# Happy numbers

`happy` replaces a number by the sum of its squared decimal digits until the
sum is 1 or has been seen before. The seen sums are marked in a table whose
size is taken from the digits of the first number only, 81 cells for each digit.
-/

namespace StudyCode.HappyNum

open Checked

/-! ## The loops -/

/-- `for (b = a; b; b = b / 10)` with one accumulator; the fuel bounds the
number of tests. -/
def overDigits (body : ℤ → ℤ → Option ℤ) : ℕ → ℤ → ℤ → Option ℤ
  | 0,_,_ => none
  | fuel+1,b,acc =>
    if b=0 then some acc else (body b acc).bind (overDigits body fuel (b.tdiv 10))

/-- Number of decimal digits. -/
def digitsOf (fuel : ℕ) (a : ℤ) : Option ℤ :=
  overDigits (fun _ digits => addInt digits 1) fuel a 0

/-- Sum of the squared decimal digits. -/
def sumOf (fuel : ℕ) (a : ℤ) : Option ℤ :=
  overDigits (fun b sum => addInt sum (b.tmod 10*b.tmod 10)) fuel a 0

/-- `while (1)` over the marks `p`, for a number of turns. -/
def happyLoop (fuel : ℕ) : ℕ → ℤ → List ℤ → Option ℤ
  | 0,_,_ => none
  | turns+1,a,p =>
    (sumOf fuel a).bind fun sum =>
      if sum=1 then some 1
      else
        (cellAt p sum).bind fun mark =>
          if mark=1 then some 0 else (putAt p sum 1).bind (happyLoop fuel turns sum)

/-- The whole test, with a table of 81 cleared cells for each digit. -/
def happy (fuel : ℕ) (num : ℤ) : Option ℤ :=
  (digitsOf fuel num).bind fun digits =>
    happyLoop fuel fuel num (List.replicate (digits*81).toNat 0)

/-! ## Orbits of a step -/

section Orbit

variable {f : ℕ → ℕ} {a : ℕ} {seen : List ℕ} {p : List ℤ}

/-- The numbers from `a` on come to 1. -/
def Reaches (f : ℕ → ℕ) (a : ℕ) : Prop := ∃ k,f^[k] a=1

/-- A number that is not one reaches one when the next does. -/
theorem reaches_step (hone : f 1=1) : Reaches f a ↔ Reaches f (f a) := by
  constructor
  · rintro ⟨k,hk⟩
    refine ⟨k,?_⟩
    rw [←Function.iterate_succ_apply,Function.iterate_succ_apply',hk,hone]
  · rintro ⟨k,hk⟩
    exact ⟨k+1,hk⟩

/-- Behind `a`, every number that is not 1 has a cell. -/
def Inside (f : ℕ → ℕ) (size a : ℕ) : Prop := ∀ k,f^[k+1] a=1 ∨ f^[k+1] a < size

/-- The next number stays inside. -/
theorem Inside.step {size : ℕ} (h : Inside f size a) : Inside f size (f a) := fun k => h (k+1)

/-- A set of numbers with cells that the step does not leave. -/
theorem inside_of_closed {size : ℕ} (S : ℕ → Prop) (hstep : ∀ v,S v → f v < size ∧ S (f v))
    (ha : S a) : Inside f size a := by
  have hall : ∀ k,S (f^[k] a) := by
    intro k
    induction k with
    | zero => exact ha
    | succ k ih =>
      rw [Function.iterate_succ_apply']
      exact (hstep _ ih).2
  intro k
  rw [Function.iterate_succ_apply']
  exact Or.inr (hstep _ (hall k)).1

/-- What the marks say in front of a turn. -/
structure Marked (f : ℕ → ℕ) (seen : List ℕ) (p : List ℤ) (a : ℕ) : Prop where
  /-- A cell is 1 for the seen numbers and 0 for the others. -/
  cells : ∀ v < p.length,p[v]?=some (if v ∈ seen then 1 else 0)
  /-- Every seen number has a cell. -/
  inside : ∀ v ∈ seen,v < p.length
  /-- The loop ends at 1, so 1 is never marked. -/
  one : 1 ∉ seen
  /-- Only the last seen number has a successor that may be new. -/
  succ : ∀ v ∈ seen,f v ∈ seen ∨ v=a

/-- At the start nothing is marked. -/
theorem marked_start (size a : ℕ) : Marked f [] (List.replicate size 0) a where
  cells v hv := by
    rw [List.length_replicate] at hv
    simp [hv]
  inside := by simp
  one := by simp
  succ := by simp

/-- Marking a new number keeps what the marks say. -/
theorem Marked.next (h : Marked f seen p a) (hin : f a < p.length) (hone : f a ≠ 1) :
    Marked f (f a::seen) (p.set (f a) 1) (f a) where
  cells v hv := by
    rw [List.length_set] at hv
    by_cases hva : f a=v
    · simp [hva,hv]
    · simp [hva,Ne.symm hva,h.cells v hv]
  inside v hv := by
    rw [List.length_set]
    rcases List.mem_cons.mp hv with rfl|hv
    · exact hin
    · exact h.inside v hv
  one hv := by
    rcases List.mem_cons.mp hv with heq|hv
    · exact hone heq.symm
    · exact h.one hv
  succ v hv := by
    rcases List.mem_cons.mp hv with rfl|hv
    · exact Or.inr rfl
    · rcases h.succ v hv with hs|rfl
      · exact Or.inl (List.mem_cons_of_mem _ hs)
      · exact Or.inl (List.mem_cons_self ..)

/-- From a number that has been seen before, nothing new comes. -/
theorem Marked.again (h : Marked f seen p a) (hseen : f a ∈ seen) (k : ℕ) :
    f^[k+1] a ∈ seen := by
  induction k with
  | zero => exact hseen
  | succ k ih =>
    rw [Function.iterate_succ_apply']
    rcases h.succ _ ih with hs|heq
    · exact hs
    · rw [heq]
      exact hseen

/-- Behind a number that has been seen before, 1 is not reached. -/
theorem Marked.not_reaches (h : Marked f seen p a) (hone : f 1=1) (hseen : f a ∈ seen) :
    ¬Reaches f a := by
  rw [reaches_step hone]
  rintro ⟨k,hk⟩
  have hmem := h.again hseen k
  rw [Function.iterate_succ_apply,hk] at hmem
  exact h.one hmem

/-- A new mark leaves one cleared cell less. -/
theorem Marked.count_set (h : Marked f seen p a) {v : ℕ} (hin : v < p.length) (hnew : v ∉ seen) :
    (p.set v 1).count 0+1=p.count 0 := by
  have hcell : p[v]=0 := by
    have hv := h.cells v hin
    rw [List.getElem?_eq_getElem hin,if_neg hnew] at hv
    exact Option.some.inj hv
  have hpos : 0 < p.count 0 := List.count_pos_iff.mpr (hcell ▸ List.getElem_mem hin)
  rw [List.count_set hin,hcell]
  simp
  omega

end Orbit

/-! ## Digits -/

/-- Sum of the squared decimal digits of a number. -/
def digitSquares (n : ℕ) : ℕ := ((Nat.digits 10 n).map fun c => c*c).sum

/-- A loop over the digits adds a weight for each of them. -/
theorem overDigits_eq (body : ℤ → ℤ → Option ℤ) (w : ℕ → ℕ)
    (hbody : ∀ b acc : ℕ,body b acc=addInt acc (w (b%10))) {fuel n acc : ℕ} (hfuel : n < fuel)
    (hmax : acc+((Nat.digits 10 n).map w).sum < 2^31) :
    overDigits body fuel n acc=some ((acc+((Nat.digits 10 n).map w).sum : ℕ) : ℤ) := by
  induction fuel generalizing n acc with
  | zero => omega
  | succ fuel ih =>
    rcases Nat.eq_zero_or_pos n with rfl|hpos
    · simp [overDigits]
    · rw [Nat.digits_def' (by norm_num) hpos,List.map_cons,List.sum_cons] at hmax ⊢
      have hzero : ¬(n : ℤ)=0 := by omega
      have hdiv : (n : ℤ).tdiv 10=((n/10 : ℕ) : ℤ) := (Int.ofNat_tdiv n 10).symm
      rw [overDigits,if_neg hzero,hbody,addInt_natCast (by omega),Option.bind_some,hdiv,
        ih (by omega) (by omega),Nat.add_assoc]

/-- An int has at most ten digits. -/
theorem digits_length_le {n : ℕ} (h : n < 2^31) : (Nat.digits 10 n).length ≤ 10 :=
  (Nat.digits_length_le_iff (by norm_num) n).mpr (by omega)

/-- The sum of squares by the number of digits. -/
theorem digitSquares_le (n : ℕ) : digitSquares n ≤ 81*(Nat.digits 10 n).length := by
  have h := List.sum_le_card_nsmul ((Nat.digits 10 n).map fun c => c*c) 81 ?_
  · simpa [digitSquares,Nat.mul_comm] using h
  · intro v hv
    obtain ⟨c,hc,rfl⟩ := List.mem_map.mp hv
    have hlt := Nat.digits_lt_base (by norm_num) hc
    interval_cases c <;> decide

/-- The loop counts the digits. -/
theorem digitsOf_eq {fuel n : ℕ} (hfuel : n < fuel) (hmax : n < 2^31) :
    digitsOf fuel n=some ((Nat.digits 10 n).length : ℤ) := by
  have hsum : ((Nat.digits 10 n).map fun _ => 1).sum=(Nat.digits 10 n).length := by simp
  have hlen := digits_length_le hmax
  have hmax : 0+((Nat.digits 10 n).map fun _ => 1).sum < 2^31 := by omega
  have h := overDigits_eq (fun _ digits => addInt digits 1) (fun _ => 1)
    (fun _ _ => by rw [Nat.cast_one]) hfuel hmax
  rw [hsum,Nat.zero_add] at h
  exact h

/-- The sum of squares of an int. -/
theorem digitSquares_le_of_int {n : ℕ} (h : n < 2^31) : digitSquares n ≤ 810 := by
  have hle := digitSquares_le n
  have hlen := digits_length_le h
  omega

/-- The loop sums up the squares. -/
theorem sumOf_eq {fuel n : ℕ} (hfuel : n < fuel) (hmax : n < 2^31) :
    sumOf fuel n=some (digitSquares n : ℤ) := by
  have hle := digitSquares_le_of_int hmax
  have hsquare : ∀ b : ℕ,(b : ℤ).tmod 10*(b : ℤ).tmod 10=((b%10*(b%10) : ℕ) : ℤ) := by
    intro b
    rw [Nat.cast_mul,Int.ofNat_tmod]
    rfl
  have hsum : 0+((Nat.digits 10 n).map fun c => c*c).sum < 2^31 := by
    rw [←digitSquares]
    omega
  have h := overDigits_eq (fun b sum => addInt sum (b.tmod 10*b.tmod 10)) (fun c => c*c)
    (fun b _ => by rw [hsquare b]) hfuel hsum
  rw [←digitSquares,Nat.zero_add] at h
  exact h

/-! ## One turn -/

section Turn

variable {fuel a : ℕ} {seen : List ℕ} {p : List ℤ}

/-- The sum is one. -/
theorem happyLoop_one (hfuel : a < fuel) (hmax : a < 2^31) (turns : ℕ) (h : digitSquares a=1) :
    happyLoop fuel (turns+1) a p=some 1 := by
  rw [happyLoop,sumOf_eq hfuel hmax,Option.bind_some,h,if_pos Nat.cast_one]

/-- The sum is outside of the table. -/
theorem happyLoop_outside (hfuel : a < fuel) (hmax : a < 2^31) (turns : ℕ)
    (hone : digitSquares a ≠ 1) (hout : p.length ≤ digitSquares a) :
    happyLoop fuel (turns+1) a p=none := by
  rw [happyLoop,sumOf_eq hfuel hmax,Option.bind_some,if_neg (by exact_mod_cast hone),
    cellAt_natCast,List.getElem?_eq_none hout,Option.bind_none]

/-- The sum was seen before. -/
theorem happyLoop_seen (hm : Marked digitSquares seen p a) (hfuel : a < fuel) (hmax : a < 2^31)
    (turns : ℕ) (hseen : digitSquares a ∈ seen) : happyLoop fuel (turns+1) a p=some 0 := by
  have hone : digitSquares a ≠ 1 := by
    intro h
    exact hm.one (h ▸ hseen)
  rw [happyLoop,sumOf_eq hfuel hmax,Option.bind_some,if_neg (by exact_mod_cast hone),
    cellAt_natCast,hm.cells _ (hm.inside _ hseen),Option.bind_some,if_pos hseen,if_pos rfl]

/-- The sum is new. -/
theorem happyLoop_new (hm : Marked digitSquares seen p a) (hfuel : a < fuel) (hmax : a < 2^31)
    (turns : ℕ) (hone : digitSquares a ≠ 1) (hin : digitSquares a < p.length)
    (hnew : digitSquares a ∉ seen) :
    happyLoop fuel (turns+1) a p=
      happyLoop fuel turns (digitSquares a) (p.set (digitSquares a) 1) := by
  rw [happyLoop,sumOf_eq hfuel hmax,Option.bind_some,if_neg (by exact_mod_cast hone),
    cellAt_natCast,hm.cells _ hin,Option.bind_some,if_neg hnew,if_neg (by norm_num),
    putAt_of_lt hin,Option.bind_some]

end Turn

/-! ## All turns -/

theorem digitSquares_one : digitSquares 1=1 := by simp [digitSquares]

/-- Where every sum has a cell, the loop ends with the right answer. -/
theorem happyLoop_answer {fuel turns a : ℕ} {seen : List ℕ} {p : List ℤ}
    (hm : Marked digitSquares seen p a) (hin : Inside digitSquares p.length a)
    (hfuel : a < fuel) (hmax : a < 2^31) (hbig : 810 < fuel) (hturns : p.count 0 < turns) :
    ∃ r,happyLoop fuel turns a p=some r ∧ (r=1 ↔ Reaches digitSquares a) := by
  induction turns generalizing a seen p with
  | zero => omega
  | succ turns ih =>
    have hle := digitSquares_le_of_int hmax
    by_cases hone : digitSquares a=1
    · refine ⟨1,happyLoop_one hfuel hmax turns hone,?_⟩
      simp only [true_iff]
      exact ⟨1,hone⟩
    by_cases hseen : digitSquares a ∈ seen
    · refine ⟨0,happyLoop_seen hm hfuel hmax turns hseen,?_⟩
      have hnot := hm.not_reaches digitSquares_one hseen
      simpa using hnot
    have hcell : digitSquares a < p.length := (hin 0).resolve_left hone
    have hcount := hm.count_set hcell hseen
    rw [happyLoop_new hm hfuel hmax turns hone hcell hseen,reaches_step digitSquares_one]
    refine ih (hm.next hcell hone) ?_ (by omega) (by omega) (by omega)
    rw [List.length_set]
    exact hin.step

/-- A loop that ends has used cells of the table only. -/
theorem inside_of_happyLoop {fuel turns a : ℕ} {seen : List ℕ} {p : List ℤ} {r : ℤ}
    (hm : Marked digitSquares seen p a) (hfuel : a < fuel) (hmax : a < 2^31) (hbig : 810 < fuel)
    (hr : happyLoop fuel turns a p=some r) : Inside digitSquares p.length a := by
  induction turns generalizing a seen p with
  | zero => cases hr
  | succ turns ih =>
    have hle := digitSquares_le_of_int hmax
    by_cases hone : digitSquares a=1
    · intro k
      rw [Function.iterate_succ_apply,hone,Function.iterate_fixed digitSquares_one]
      exact Or.inl rfl
    by_cases hseen : digitSquares a ∈ seen
    · intro k
      exact Or.inr (hm.inside _ (hm.again hseen k))
    rcases Nat.lt_or_ge (digitSquares a) p.length with hcell|hout
    · rw [happyLoop_new hm hfuel hmax turns hone hcell hseen] at hr
      have hlater := ih (hm.next hcell hone) (by omega) (by omega) hr
      rw [List.length_set] at hlater
      intro k
      cases k with
      | zero => exact Or.inr hcell
      | succ k => exact hlater k
    · rw [happyLoop_outside hfuel hmax turns hone hout] at hr
      cases hr

/-! ## Numbers whose sums have cells -/

/-- The last digit and the others. -/
theorem digitSquares_eq_add {n : ℕ} (h : 0 < n) :
    digitSquares n=n%10*(n%10)+digitSquares (n/10) := by
  rw [digitSquares,Nat.digits_def' (by norm_num) h,List.map_cons,List.sum_cons,digitSquares]

/-- One digit more. -/
theorem digits_length_succ {n : ℕ} (h : 0 < n) :
    (Nat.digits 10 n).length=(Nat.digits 10 (n/10)).length+1 := by
  rw [Nat.digits_def' (by norm_num) h,List.length_cons]

/-- Only a number of nines has the largest sum of its length. -/
theorem succ_eq_pow_of_digitSquares {n : ℕ} (h : digitSquares n=81*(Nat.digits 10 n).length) :
    n+1=10^(Nat.digits 10 n).length := by
  induction n using Nat.strong_induction_on with
  | _ n ih =>
    rcases Nat.eq_zero_or_pos n with rfl|hpos
    · simp
    · have hrest := digitSquares_le (n/10)
      rw [digitSquares_eq_add hpos,digits_length_succ hpos] at h
      have hnine : n%10=9 := by
        have hlt : n%10 < 10 := Nat.mod_lt _ (by norm_num)
        by_contra hne
        have hsq : n%10*(n%10) ≤ 8*8 := Nat.mul_le_mul (by omega) (by omega)
        omega
      rw [hnine] at h
      have htail := ih (n/10) (by omega) (by omega)
      rw [digits_length_succ hpos,pow_succ]
      omega

/-- The greatest sum is that of nines. -/
theorem nines (d : ℕ) : digitSquares (10^d-1)=81*d ∧ (Nat.digits 10 (10^d-1)).length=d := by
  induction d with
  | zero => simp [digitSquares]
  | succ d ih =>
    have hpow : 0 < 10^d := by positivity
    have hsucc : 10^(d+1)=10*10^d := by rw [pow_succ,Nat.mul_comm]
    have hpos : 0 < 10^(d+1)-1 := by omega
    have hmod : (10^(d+1)-1)%10=9 := by omega
    have hdiv : (10^(d+1)-1)/10=10^d-1 := by omega
    rw [digitSquares_eq_add hpos,digits_length_succ hpos,hmod,hdiv,ih.1,ih.2]
    omega

/-- Sums below 810 lead below 243. -/
theorem digitSquares_small : ∀ v < 810,digitSquares v < 243 := by
  decide +kernel

/-- Sums of two digits stay inside, except for 99. -/
theorem digitSquares_two_digits :
    ∀ v < 162,v ≠ 99 → digitSquares v < 162 ∧ digitSquares v ≠ 99 := by
  decide +kernel

/-- The table of a number is large enough for its sums. -/
def OwnTable (n : ℕ) : Prop := Inside digitSquares (81*(Nat.digits 10 n).length) n

/-- The table of 1. -/
theorem ownTable_one : OwnTable 1 := by
  intro k
  rw [Function.iterate_fixed digitSquares_one]
  exact Or.inl rfl

/-- A table of at least three digits is large enough for all sums but the first. -/
theorem ownTable_long {n : ℕ} (hmax : n < 2^31) (hlow : 100 ≤ n) (hnines : ∀ d,n ≠ 10^d-1) :
    OwnTable n := by
  have hlen : 3 ≤ (Nat.digits 10 n).length := by
    have hmono := Nat.le_length_digits_le 10 100 n hlow
    simpa using hmono
  have hlen' := digits_length_le hmax
  have hfirst : digitSquares n < 81*(Nat.digits 10 n).length := by
    refine lt_of_le_of_ne (digitSquares_le n) ?_
    intro heq
    have hpow := succ_eq_pow_of_digitSquares heq
    exact hnines (Nat.digits 10 n).length (by omega)
  refine inside_of_closed (fun v => v=n ∨ v < 810) ?_ (Or.inl rfl)
  rintro v (rfl|hv)
  · exact ⟨hfirst,Or.inr (by omega)⟩
  · have hsmall := digitSquares_small v hv
    exact ⟨by omega,Or.inr (by omega)⟩

/-- A table of two digits is large enough below 99. -/
theorem ownTable_two {n : ℕ} (hlow : 10 ≤ n) (hhigh : n < 99) : OwnTable n := by
  have hlen : 2 ≤ (Nat.digits 10 n).length := by
    have hmono := Nat.le_length_digits_le 10 10 n hlow
    simpa using hmono
  refine inside_of_closed (fun v => v < 162 ∧ v ≠ 99) ?_ ⟨by omega,by omega⟩
  rintro v ⟨hv,hne⟩
  have hnext := digitSquares_two_digits v hv hne
  exact ⟨by omega,hnext⟩

/-- A number of nines marks the cell behind its table first. -/
theorem not_ownTable_nines (d : ℕ) : ¬OwnTable (10^d-1) := by
  obtain ⟨hsum,hlen⟩ := nines d
  intro h
  rcases h 0 with h|h <;> rw [Function.iterate_one,hsum] at h
  · omega
  · rw [hlen] at h
    omega

/-- One digit other than 1 leads to a sum of at least 81. -/
theorem not_ownTable_digit {n : ℕ} (hlow : 2 ≤ n) (hhigh : n < 10) : ¬OwnTable n := by
  have hout : ∃ k < 8,digitSquares^[k+1] n ≠ 1 ∧ 81 ≤ digitSquares^[k+1] n := by
    revert n
    decide +kernel
  obtain ⟨k,-,hone,hbig⟩ := hout
  have hlen : (Nat.digits 10 n).length=1 := by
    rw [Nat.digits_of_lt 10 n (by omega) hhigh,List.length_singleton]
  intro h
  rcases h k with h|h
  · exact hone h
  · rw [hlen] at h
    omega

/-- When the own table is long enough. -/
theorem ownTable_iff {n : ℕ} (hpos : 1 ≤ n) (hmax : n < 2^31) :
    OwnTable n ↔ n=1 ∨ (10 ≤ n ∧ ∀ d,n ≠ 10^d-1) := by
  constructor
  · intro h
    by_cases hone : n=1
    · exact Or.inl hone
    · have hten : 10 ≤ n := by
        by_contra hlt
        exact not_ownTable_digit (by omega) (by omega) h
      refine Or.inr ⟨hten,?_⟩
      rintro d rfl
      exact not_ownTable_nines d h
  · rintro (rfl|⟨hten,hnines⟩)
    · exact ownTable_one
    · rcases Nat.lt_or_ge n 100 with hlt|hge
      · have hne := hnines 2
        exact ownTable_two hten (by omega)
      · exact ownTable_long hmax hge hnines

/-! ## The answer -/

/-- The call returns, and with 1 for the happy numbers only. -/
def Decides (num : ℤ) : Prop :=
  ∃ n,∀ fuel ≥ n,∃ r,happy fuel num=some r ∧ (r=1 ↔ Reaches digitSquares num.toNat)

/-- The call for a number that is not negative. -/
theorem happy_natCast {fuel n : ℕ} (hfuel : n < fuel) (hmax : n < 2^31) :
    happy fuel n=
      happyLoop fuel fuel n (List.replicate (81*(Nat.digits 10 n).length) 0) := by
  have hsize : ((Nat.digits 10 n).length*81 : ℤ).toNat=81*(Nat.digits 10 n).length := by omega
  rw [happy,digitsOf_eq hfuel hmax,Option.bind_some,hsize]

/-- The number is decided exactly when its table is long enough. -/
theorem decides_iff_ownTable {n : ℕ} (hmax : n < 2^31) : Decides n ↔ OwnTable n := by
  have hlen := digits_length_le hmax
  constructor
  · rintro ⟨m,hm⟩
    obtain ⟨r,hr,-⟩ := hm (m+n+811) (by omega)
    rw [happy_natCast (by omega) hmax] at hr
    have hin := inside_of_happyLoop (marked_start _ n) (by omega) hmax (by omega) hr
    rw [List.length_replicate] at hin
    exact hin
  · intro h
    refine ⟨n+811,fun fuel hfuel => ?_⟩
    rw [happy_natCast (by omega) hmax,Int.toNat_natCast]
    refine happyLoop_answer (marked_start _ n) ?_ (by omega) hmax (by omega) ?_
    · rw [List.length_replicate]
      exact h
    · rw [List.count_replicate_self]
      omega

/-- The table is large enough for 1 and for the numbers of two digits or more
that do not consist of nines, and for no others. -/
theorem happy_decides_iff (num : ℤ) (hpos : 1 ≤ num) (hmax : num < 2^31) :
    Decides num ↔ num=1 ∨ (10 ≤ num ∧ ∀ d : ℕ,num ≠ 10^d-1) := by
  obtain ⟨n,rfl⟩ := Int.eq_ofNat_of_zero_le (by omega : 0 ≤ num)
  rw [decides_iff_ownTable (by omega),ownTable_iff (by omega) (by omega)]
  refine or_congr (by omega) (and_congr (by omega) (forall_congr' fun d => not_congr ?_))
  have hcast : ((10^d : ℕ) : ℤ)=10^d := by rw [Nat.cast_pow,Nat.cast_ofNat]
  have hpow : 0 < 10^d := by positivity
  omega

/-- A happy number of two digits. -/
theorem happy_decides_nineteen : (1 : ℤ) ≤ 19 ∧ (19 : ℤ) < 2^31 ∧ Decides 19 := by
  refine ⟨by norm_num,by norm_num,(happy_decides_iff 19 (by norm_num) (by norm_num)).mpr ?_⟩
  refine Or.inr ⟨by norm_num,fun d => ?_⟩
  rcases d with _|_|d
  · norm_num
  · norm_num
  · have hpow : (1 : ℤ) ≤ 10^d := one_le_pow₀ (by norm_num)
    rw [pow_add]
    omega

/-- The call of `main` comes from 2 to 89, which has no cell. -/
theorem happy_two : (1 : ℤ) ≤ 2 ∧ (2 : ℤ) < 2^31 ∧ ¬Decides 2 := by
  refine ⟨by norm_num,by norm_num,?_⟩
  have hiff := decides_iff_ownTable (n := 2) (by norm_num)
  rw [Nat.cast_ofNat] at hiff
  rw [hiff]
  exact not_ownTable_digit le_rfl (by norm_num)

end StudyCode.HappyNum
