import Mathlib.Data.List.Basic
import Mathlib.Tactic

/-!
# Binary search for the end of a prefix

The loop halves an interval of positions with one test per step. On a list
whose elements pass the test from some position on, it returns that
position. The two searches of Python's bisect module are instances.
-/

namespace StudyCode.Bisect

variable {α : Type*}

/-- The loop on the positions from lo to hi; the fuel bounds its turns. An
element that passes the test ends the interval, any other one starts it. -/
def search (stop : α → Bool) (a : List α) : ℕ → ℕ → ℕ → ℕ
  | 0,lo,_ => lo
  | fuel+1,lo,hi =>
    if lo < hi then
      match a[(lo+hi)/2]? with
      | some e => if stop e then search stop a fuel lo ((lo+hi)/2)
          else search stop a fuel ((lo+hi)/2+1) hi
      | none => lo
    else lo

/-- The search over a whole list. Every turn shortens the interval, so the
length is fuel enough. -/
def bisect (stop : α → Bool) (a : List α) : ℕ := search stop a a.length 0 a.length

/-- The test is passed from some position of the list on. -/
def Suffix (stop : α → Bool) (a : List α) : Prop :=
  a.Pairwise fun x y => stop x=true → stop y=true

/-- Behind an element that stops the search every other one stops it too. -/
theorem Suffix.mono_getElem {stop : α → Bool} {a : List α} (h : Suffix stop a) {i j : ℕ} {x y : α}
    (hx : a[i]?=some x) (hy : a[j]?=some y) (hij : i ≤ j) (hs : stop x=true) : stop y=true := by
  obtain ⟨hi,rfl⟩ := List.getElem?_eq_some_iff.mp hx
  obtain ⟨hj,rfl⟩ := List.getElem?_eq_some_iff.mp hy
  rcases Nat.eq_or_lt_of_le hij with rfl|hlt
  · exact hs
  · exact List.pairwise_iff_getElem.mp h i j hi hj hlt hs

/-- An interval keeps the answer: what is left of it fails the test and what
is right of it passes. -/
structure Bracket (stop : α → Bool) (a : List α) (lo hi : ℕ) : Prop where
  /-- The interval is not inverted. -/
  le : lo ≤ hi
  /-- The interval is inside the list. -/
  hi_le : hi ≤ a.length
  /-- Elements before the interval fail. -/
  before : ∀ (i : ℕ) (e : α),i < lo → a[i]?=some e → stop e=false
  /-- Elements behind the interval pass. -/
  after : ∀ (i : ℕ) (e : α),hi ≤ i → a[i]?=some e → stop e=true

/-- The search closes the bracket around the first element that stops it. -/
theorem search_bracket {stop : α → Bool} {a : List α} (hs : Suffix stop a) {fuel lo hi : ℕ}
    (h : Bracket stop a lo hi) (hf : hi-lo ≤ fuel) :
    Bracket stop a (search stop a fuel lo hi) (search stop a fuel lo hi) := by
  induction fuel generalizing lo hi with
  | zero =>
    have : lo=hi := by have := h.le; omega
    subst this
    exact h
  | succ fuel ih =>
    unfold search
    split
    · rename_i hlt
      have hlen := h.hi_le
      have hmid : (lo+hi)/2 < a.length := by omega
      rw [List.getElem?_eq_getElem hmid]
      dsimp only
      have hget : a[(lo+hi)/2]?=some a[(lo+hi)/2] := List.getElem?_eq_getElem hmid
      split
      · rename_i hstop
        refine ih ⟨by omega,by omega,h.before,?_⟩ (by omega)
        intro i e hi he
        exact hs.mono_getElem hget he hi hstop
      · rename_i hstop
        refine ih ⟨by omega,by omega,?_,h.after⟩ (by omega)
        intro i e hi he
        by_contra hne
        exact hstop (hs.mono_getElem he hget (by omega) (by simpa using hne))
    · have : lo=hi := by have := h.le; omega
      subst this
      exact h

/-- The search returns the position from which the test is passed. -/
theorem bisect_bracket {stop : α → Bool} {a : List α} (hs : Suffix stop a) :
    Bracket stop a (bisect stop a) (bisect stop a) := by
  refine search_bracket hs ⟨Nat.zero_le _,le_rfl,?_,?_⟩ (by omega)
  · intro i e hi
    omega
  · intro i e hi he
    rw [List.getElem?_eq_none hi] at he
    cases he

/-- The search ends inside of the list or at its end. -/
theorem bisect_le {stop : α → Bool} {a : List α} (hs : Suffix stop a) :
    bisect stop a ≤ a.length :=
  (bisect_bracket hs).hi_le

/-- No element before the position found stops the search. -/
theorem take_bisect {stop : α → Bool} {a : List α} (hs : Suffix stop a) :
    ∀ e ∈ a.take (bisect stop a),stop e=false := by
  intro e he
  obtain ⟨i,hi,rfl⟩ := List.mem_take_iff_getElem.mp he
  exact (bisect_bracket hs).before i _ (by omega) (List.getElem?_eq_getElem (by omega))

/-- Every element from the position found on stops the search. -/
theorem drop_bisect {stop : α → Bool} {a : List α} (hs : Suffix stop a) :
    ∀ e ∈ a.drop (bisect stop a),stop e=true := by
  intro e he
  obtain ⟨i,hi,rfl⟩ := List.mem_drop_iff_getElem.mp he
  exact (bisect_bracket hs).after _ _ (Nat.le_add_right _ i) (List.getElem?_eq_getElem (by omega))

/-- The search cuts a list that is already cut by the test. -/
theorem bisect_append {stop : α → Bool} {l r : List α} (hl : ∀ e ∈ l,stop e=false)
    (hr : ∀ e ∈ r,stop e=true) : bisect stop (l++r)=l.length := by
  have hs : Suffix stop (l++r) := by
    refine List.pairwise_append.mpr ⟨?_,?_,?_⟩
    · exact List.pairwise_of_forall_mem_list fun x hx y _ h => by simp [hl x hx] at h
    · exact List.pairwise_of_forall_mem_list fun x _ y hy _ => hr y hy
    · exact fun x hx y _ h => by simp [hl x hx] at h
  have hb := bisect_bracket hs
  apply Nat.le_antisymm
  · by_contra hlt
    push Not at hlt
    have hlen := hb.hi_le
    rw [List.length_append] at hlen
    have hmem : r[0]∈r := List.getElem_mem (by omega)
    have hget : (l++r)[l.length]?=some r[0] := by
      rw [List.getElem?_append_right le_rfl,Nat.sub_self,List.getElem?_eq_getElem (by omega)]
    have := hb.before l.length _ hlt hget
    rw [hr _ hmem] at this
    cases this
  · by_contra hlt
    push Not at hlt
    have hmem : l[bisect stop (l++r)]∈l := List.getElem_mem hlt
    have hget : (l++r)[bisect stop (l++r)]?=some l[bisect stop (l++r)] := by
      rw [List.getElem?_append_left hlt,List.getElem?_eq_getElem hlt]
    have := hb.after _ _ le_rfl hget
    rw [hl _ hmem] at this
    cases this

end StudyCode.Bisect
