import Mathlib.Data.List.Sort
import Mathlib.Tactic

/-!
# Bubble sort on lists

A pass compares neighbours from the left and swaps those out of order. The
sort makes one pass for every element, each one comparison shorter than the
pass before. The result is the ascending rearrangement of the input, so two
lists of distinct elements with the same members sort to the same list.
-/

namespace StudyCode.BubbleSort

variable {α : Type*} [LinearOrder α]

/-- The first n comparisons of a pass. -/
def bubblePass : ℕ → List α → List α
  | n+1,a::b::l => if b < a then b::bubblePass n (a::l) else a::bubblePass n (b::l)
  | 0,l => l
  | _+1,[] => []
  | _+1,[a] => [a]

/-- The passes of the sort; pass i leaves the last i elements alone. -/
def bubbleSort (a : List α) : List α :=
  (List.range a.length).foldl (fun b i => bubblePass (a.length-i-1) b) a

/-- A pass over a block moves its largest element to the end of the block and
does not touch what follows. -/
theorem bubblePass_block (a : α) (l rest : List α) :
    ∃ block top,bubblePass l.length (a::l++rest)=block++top::rest ∧
      (block++[top]).Perm (a::l) ∧ ∀ x ∈ block,x ≤ top := by
  induction l generalizing a with
  | nil => exact ⟨[],a,by simp [bubblePass]⟩
  | cons b l ih =>
    simp only [List.length_cons,List.cons_append,bubblePass]
    split
    case isTrue hlt =>
      obtain ⟨block,top,he,hp,hb⟩ := ih a
      refine ⟨b::block,top,by rw [←List.cons_append,he,List.cons_append],?_,?_⟩
      · exact (hp.cons b).trans (List.Perm.swap a b l)
      · have ha : a ≤ top := by
          rcases List.mem_append.mp (hp.mem_iff.mpr (List.mem_cons_self (a:=a))) with h|h
          · exact hb a h
          · exact (List.mem_singleton.mp h).le
        simpa using ⟨hlt.le.trans ha,hb⟩
    case isFalse hge =>
      obtain ⟨block,top,he,hp,hb⟩ := ih b
      refine ⟨a::block,top,by rw [←List.cons_append,he,List.cons_append],hp.cons a,?_⟩
      have hbt : b ≤ top := by
        rcases List.mem_append.mp (hp.mem_iff.mpr (List.mem_cons_self (a:=b))) with h|h
        · exact hb b h
        · exact (List.mem_singleton.mp h).le
      simpa using ⟨(not_lt.mp hge).trans hbt,hb⟩

/-- After n passes the last n elements are in order and above the others. -/
structure Settled (a b : List α) (n : ℕ) : Prop where
  /-- A settled list splits at the part that is in place. -/
  split : ∃ low high,b=low++high ∧ high.length=n ∧ high.Pairwise (·≤·) ∧
    ∀ x ∈ low,∀ y ∈ high,x ≤ y
  /-- Passes only rearrange. -/
  perm : b.Perm a

/-- One pass settles one element more. -/
theorem Settled.step {a b : List α} {n : ℕ} (h : Settled a b n) (hn : n < a.length) :
    Settled a (bubblePass (a.length-n-1) b) (n+1) := by
  obtain ⟨low,high,rfl,hl,hs,hb⟩ := h.split
  have hlen := h.perm.length_eq
  rw [List.length_append] at hlen
  cases low with
  | nil => simp only [List.length_nil] at hlen;omega
  | cons x low =>
    have hk : a.length-n-1=low.length := by
      simp only [List.length_cons] at hlen
      omega
    obtain ⟨block,top,he,hp,ht⟩ := bubblePass_block x low high
    have hmem : ∀ y ∈ block++[top],∀ z ∈ high,y ≤ z := fun y hy z hz => hb y (hp.mem_iff.mp hy) z hz
    rw [hk,he]
    refine ⟨⟨block,top::high,rfl,by simp [hl],?_,?_⟩,?_⟩
    · exact List.pairwise_cons.mpr ⟨hmem top (by simp),hs⟩
    · intro y hy z hz
      rcases List.mem_cons.mp hz with rfl|hz
      · exact ht y hy
      · exact hmem y (by simp [hy]) z hz
    · have hq : (block++top::high).Perm (x::low++high) := by
        simpa using hp.append_right high
      exact hq.trans h.perm

/-- Every pass settles one element. -/
theorem settled_passes (a : List α) (n : ℕ) (hn : n ≤ a.length) :
    Settled a ((List.range n).foldl (fun b i => bubblePass (a.length-i-1) b) a) n := by
  induction n with
  | zero => exact ⟨⟨a,[],by simp⟩,List.Perm.refl a⟩
  | succ n ih =>
    rw [List.range_succ,List.foldl_append]
    exact (ih (by omega)).step hn

/-- Sorting rearranges the list. -/
theorem bubbleSort_perm (a : List α) : (bubbleSort a).Perm a :=
  (settled_passes a a.length (Nat.le_refl _)).perm

/-- The sorted list ascends. -/
theorem bubbleSort_pairwise (a : List α) : (bubbleSort a).Pairwise (·≤·) := by
  obtain ⟨low,high,he,hl,hs,-⟩ := (settled_passes a a.length (Nat.le_refl _)).split
  have hp := (bubbleSort_perm a).length_eq
  unfold bubbleSort at hp ⊢
  rw [he] at hp ⊢
  rw [List.length_append,hl] at hp
  obtain rfl := List.length_eq_zero_iff.mp (show low.length=0 by omega)
  exact hs

/-- Sorting keeps the members. -/
theorem mem_bubbleSort {a : List α} {x : α} : x ∈ bubbleSort a ↔ x ∈ a :=
  (bubbleSort_perm a).mem_iff

/-- Distinct elements sort to a strictly ascending list. -/
theorem bubbleSort_strict {a : List α} (h : a.Nodup) : (bubbleSort a).Pairwise (·<·) := by
  have hn := (bubbleSort_perm a).nodup_iff.mpr h
  exact ((bubbleSort_pairwise a).and hn).imp fun hx => lt_of_le_of_ne hx.1 hx.2

/-- Strictly ascending lists with the same members are equal. -/
theorem strict_ext {a b : List α} (ha : a.Pairwise (·<·)) (hb : b.Pairwise (·<·))
    (h : ∀ x,x ∈ a ↔ x ∈ b) : a=b := by
  have hp : a.Perm b := (List.perm_ext_iff_of_nodup (ha.imp ne_of_lt) (hb.imp ne_of_lt)).mpr h
  exact hp.eq_of_pairwise (fun x y _ _ hxy hyx => absurd hxy (not_lt.mpr hyx.le)) ha hb

end StudyCode.BubbleSort
