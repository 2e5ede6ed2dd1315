import Mathlib.Data.Finset.Card
import Mathlib.Tactic

/-!
# Loops that apply one step until a stop

A loop that applies a function until a condition holds ends exactly if the
orbit of its start meets the condition, and it does so before an element comes
twice. An orbit inside of N numbers therefore meets the condition among its
first N elements or never.
-/

namespace StudyCode.Orbit

variable {α : Type*} {f : α → α} {stop : α → Prop} {a b : α}

/-- From a the steps come to b, where they stop for the first time. -/
inductive Ends (f : α → α) (stop : α → Prop) : α → α → Prop
  /-- The walk stops where it is. -/
  | here {a : α} (h : stop a) : Ends f stop a a
  /-- It goes on. -/
  | next {a b : α} (h : ¬stop a) (rest : Ends f stop (f a) b) : Ends f stop a b

/-- The walk ends when some iterate stops. -/
theorem ends_iff_iterate : (∃ b,Ends f stop a b) ↔ ∃ k,stop (f^[k] a) := by
  constructor
  · rintro ⟨b,hb⟩
    induction hb with
    | here h => exact ⟨0,h⟩
    | next _ _ ih =>
      obtain ⟨k,hk⟩ := ih
      exact ⟨k+1,hk⟩
  · rintro ⟨k,hk⟩
    induction k generalizing a with
    | zero => exact ⟨a,.here hk⟩
    | succ k ih =>
      by_cases hstop : stop a
      · exact ⟨a,.here hstop⟩
      · obtain ⟨b,hb⟩ := ih (a:=f a) hk
        exact ⟨b,.next hstop hb⟩

/-- An orbit below N that comes to a stop does so among its first N elements. -/
theorem exists_iterate_lt {N : ℕ} {f : ℕ → ℕ} (stop : ℕ → Prop) {a : ℕ} (hlt : ∀ k,f^[k] a < N) :
    (∃ k,stop (f^[k] a)) ↔ ∃ k < N,stop (f^[k] a) := by
  classical
  constructor
  · intro h
    refine ⟨Nat.find h,?_,Nat.find_spec h⟩
    have hinj : Set.InjOn (fun i => f^[i] a) (Finset.range (Nat.find h+1) : Set ℕ) := by
      intro i hi j hj hij
      rw [Finset.mem_coe,Finset.mem_range] at hi hj
      by_contra hne
      -- a repetition would bring the stop nearer
      have hshift : ∀ i j,i < j → j < Nat.find h+1 → f^[i] a=f^[j] a → False := by
        intro i j hlt hj heq
        apply Nat.find_min h (m:=Nat.find h-j+i) (by omega)
        have hspec := Nat.find_spec h
        rwa [Function.iterate_add_apply,heq,←Function.iterate_add_apply,
          Nat.sub_add_cancel (by omega)]
      rcases Nat.lt_or_gt_of_ne hne with hlt|hlt
      · exact hshift i j hlt hj hij
      · exact hshift j i hlt hi hij.symm
    have hcard := Finset.card_le_card_of_injOn (s:=Finset.range (Nat.find h+1))
      (t:=Finset.range N) (fun i => f^[i] a) (fun i _ => Finset.mem_range.mpr (hlt i)) hinj
    rw [Finset.card_range,Finset.card_range] at hcard
    omega
  · rintro ⟨k,-,hk⟩
    exact ⟨k,hk⟩

/-! ## The loop -/

variable [DecidablePred stop] {fuel : ℕ}

/-- The loop; the fuel bounds the number of turns. -/
def run (f : α → α) (stop : α → Prop) [DecidablePred stop] : ℕ → α → Option α
  | 0,_ => none
  | fuel+1,a => if stop a then some a else run f stop fuel (f a)

/-- A run that ends. -/
theorem ends_of_run (h : run f stop fuel a=some b) : Ends f stop a b := by
  induction fuel generalizing a with
  | zero => cases h
  | succ fuel ih =>
    rw [run] at h
    split at h
    · next hstop =>
      cases h
      exact .here hstop
    · next hstop => exact .next hstop (ih h)

/-- With enough fuel it does. -/
theorem Ends.run (h : Ends f stop a b) : ∃ n,∀ fuel ≥ n,run f stop fuel a=some b := by
  induction h with
  | here h =>
    refine ⟨1,?_⟩
    intro fuel hfuel
    obtain ⟨fuel,rfl⟩ : ∃ k,fuel=k+1 := ⟨fuel-1,by omega⟩
    exact if_pos h
  | next hstop _ ih =>
    obtain ⟨n,hn⟩ := ih
    refine ⟨n+1,?_⟩
    intro fuel hfuel
    obtain ⟨fuel,rfl⟩ : ∃ k,fuel=k+1 := ⟨fuel-1,by omega⟩
    exact (if_neg hstop).trans (hn fuel (by omega))

end StudyCode.Orbit
