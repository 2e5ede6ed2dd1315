import Mathlib.Algebra.BigOperators.Group.List.Basic
import Mathlib.Algebra.Order.BigOperators.Group.List
import Mathlib.Data.List.Lex
import Mathlib.Tactic

/-!
# Mixed radix digits

The digits of a number for a list of radices, the first one the most
significant. Counting up to the product of the radices runs through all tuples
of digits in lexicographic order.
-/

namespace StudyCode.MixedRadix

/-- The digits of a number, one for each radix. -/
def digits : List ℕ → ℕ → List ℕ
  | [],_ => []
  | r::rs,i => i/rs.prod%r::digits rs i

/-- One digit for each radix. -/
@[simp] theorem length_digits (rs : List ℕ) (i : ℕ) : (digits rs i).length=rs.length := by
  induction rs with
  | nil => rfl
  | cons r rs ih => rw [digits,List.length_cons,List.length_cons,ih]

/-- The weight of each digit: the product of the radices behind it. -/
def weights : List ℕ → List ℕ
  | [] => []
  | _::rs => rs.prod::weights rs

/-- One weight for each radix. -/
@[simp] theorem length_weights (rs : List ℕ) : (weights rs).length=rs.length := by
  induction rs with
  | nil => rfl
  | cons r rs ih => rw [weights,List.length_cons,List.length_cons,ih]

/-- A weight is the product of the radices behind it. -/
theorem getElem?_weights {rs : List ℕ} {j : ℕ} (hj : j < rs.length) :
    (weights rs)[j]?=some (rs.drop (j+1)).prod := by
  induction rs generalizing j with
  | nil => simp at hj
  | cons r rs ih =>
    cases j with
    | zero => rfl
    | succ j => exact ih (by simpa using hj)

/-- Each digit by its position. -/
theorem getElem?_digits (rs : List ℕ) (i : ℕ) {j r : ℕ} (hj : rs[j]?=some r) :
    (digits rs i)[j]?=some (i/(rs.drop (j+1)).prod%r) := by
  induction rs generalizing j with
  | nil => simp at hj
  | cons s rs ih =>
    cases j with
    | zero =>
      obtain rfl : s=r := by simpa using hj
      rfl
    | succ j => exact ih hj

/-- The tuples of digits below their radices. -/
abbrev Within (p rs : List ℕ) : Prop := List.Forall₂ (· < ·) p rs

/-- Digits are below their radix. -/
theorem digits_within {rs : List ℕ} (h : ∀ r ∈ rs,1 ≤ r) (i : ℕ) : Within (digits rs i) rs := by
  induction rs with
  | nil => exact List.Forall₂.nil
  | cons r rs ih =>
    obtain ⟨hr,hrs⟩ := List.forall_mem_cons.mp h
    exact List.Forall₂.cons (Nat.mod_lt _ hr) (ih hrs)

/-- The digits only see what is left of a number below the product. -/
theorem digits_add (rs : List ℕ) (q i : ℕ) : digits rs (rs.prod*q+i)=digits rs i := by
  induction rs generalizing q with
  | nil => rfl
  | cons r rs ih =>
    rcases Nat.eq_zero_or_pos rs.prod with hz|hpos
    · rw [List.prod_cons,hz,Nat.mul_zero,Nat.zero_mul,Nat.zero_add]
    · have hsplit : (r::rs).prod*q+i=rs.prod*(r*q)+i := by
        rw [List.prod_cons]
        ring
      rw [hsplit,digits,digits,ih,Nat.mul_add_div hpos,Nat.mul_add_mod]

/-- A tuple below its radices is the digits of a number below the product. -/
theorem exists_digits {p rs : List ℕ} (h : Within p rs) : ∃ i < rs.prod,digits rs i=p := by
  induction h with
  | nil => exact ⟨0,by simp,rfl⟩
  | @cons d r p rs hd _ ih =>
    obtain ⟨i,hi,rfl⟩ := ih
    have hpos : 0 < rs.prod := by omega
    refine ⟨rs.prod*d+i,?_,?_⟩
    · have hle : rs.prod*(d+1) ≤ rs.prod*r := Nat.mul_le_mul_left _ hd
      rw [List.prod_cons,Nat.mul_comm r]
      rw [Nat.mul_succ] at hle
      omega
    · rw [digits,digits_add,Nat.mul_add_div hpos,Nat.div_eq_of_lt hi,Nat.add_zero,
        Nat.mod_eq_of_lt hd]

/-- Larger numbers have larger digits. -/
theorem digits_lex {rs : List ℕ} {i k : ℕ} (hik : i < k) (hk : k < rs.prod) :
    List.Lex (· < ·) (digits rs i) (digits rs k) := by
  induction rs generalizing i k with
  | nil =>
    rw [List.prod_nil] at hk
    omega
  | cons r rs ih =>
    rw [List.prod_cons,Nat.mul_comm] at hk
    have hpos : 0 < rs.prod := by
      rcases Nat.eq_zero_or_pos rs.prod with hz|hpos
      · rw [hz,Nat.zero_mul] at hk
        omega
      · exact hpos
    have hkr : k/rs.prod < r := Nat.div_lt_of_lt_mul hk
    have hle : i/rs.prod ≤ k/rs.prod := Nat.div_le_div_right hik.le
    rw [digits,digits,Nat.mod_eq_of_lt hkr,Nat.mod_eq_of_lt (by omega)]
    rcases Nat.lt_or_eq_of_le hle with hlt|heq
    · exact List.Lex.rel hlt
    · rw [heq]
      refine List.Lex.cons ?_
      have hi := Nat.div_add_mod i rs.prod
      have hk' := Nat.div_add_mod k rs.prod
      rw [heq] at hi
      rw [←hi,←hk',digits_add,digits_add]
      exact ih (by omega) (Nat.mod_lt _ hpos)

/-- All tuples of digits in the order of their numbers. -/
def tuples (rs : List ℕ) : List (List ℕ) := (List.range rs.prod).map (digits rs)

/-- The tuples are in order. -/
theorem tuples_lex (rs : List ℕ) : (tuples rs).Pairwise (List.Lex (· < ·)) := by
  rw [tuples,List.pairwise_map]
  refine List.Pairwise.imp_of_mem ?_ List.pairwise_lt_range
  intro i k _ hk hik
  exact digits_lex hik (List.mem_range.mp hk)

/-- No tuple comes twice. -/
theorem tuples_nodup (rs : List ℕ) : (tuples rs).Nodup := by
  refine (tuples_lex rs).imp ?_
  rintro p q hlex rfl
  exact List.Lex.to_ne (hlex.imp fun _ _ h => h.ne) rfl

/-- The tuples are all those below the radices. -/
theorem mem_tuples {rs : List ℕ} (h : ∀ r ∈ rs,1 ≤ r) (p : List ℕ) :
    p ∈ tuples rs ↔ Within p rs := by
  rw [tuples,List.mem_map]
  constructor
  · rintro ⟨i,-,rfl⟩
    exact digits_within h i
  · intro hp
    obtain ⟨i,hi,rfl⟩ := exists_digits hp
    exact ⟨i,List.mem_range.mpr hi,rfl⟩

end StudyCode.MixedRadix
