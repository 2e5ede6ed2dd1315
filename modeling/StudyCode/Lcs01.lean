import StudyCode.CheckedGrid

/-!
# Longest common subsequence

The table of `lcs` holds in row i and column j the answer for the first i
characters of X and the first j characters of Y. Read on reversed prefixes
this is a recursion on two lists, whose value is the length of a longest
common sublist.
-/

namespace StudyCode.Lcs01

open Checked

/-! ## lcs -/

/-- `max` of the source. -/
def maxInt (a b : ℤ) : ℤ := if a > b then a else b

/-- The value that the body of both loops stores in L[i][j]. -/
def lcsCell (X Y : List UInt8) (i j : ℤ) (L : Grid ℤ) : Option ℤ :=
  if i=0 ∨ j=0 then some 0
  else do
    let x ← cellAt X (i-1)
    let y ← cellAt Y (j-1)
    if x=y then
      let d ← L.read (i-1) (j-1)
      some (d+1)
    else
      let a ← L.read (i-1) j
      let b ← L.read i (j-1)
      some (maxInt a b)

/-- `lcs`; `junk` is what the table holds at first. -/
def lcs (junk : ℕ → ℕ → ℤ) (X Y : List UInt8) (m n : ℤ) : Option ℤ := do
  let L ← Grid.fill (lcsCell X Y) 0 (m+1) 0 (n+1) (Grid.declare (m+1) (n+1) junk)
  L.read m n

/-! ## Common sublists -/

section Common

variable {α : Type*}

/-- The lengths of the sequences that are subsequences of both. -/
def CommonLengths (X Y : List α) : Set ℕ := {k | ∃ S : List α,S.Sublist X ∧ S.Sublist Y ∧ S.length=k}

/-- Common subsequences do not depend on the order of both texts. -/
theorem commonLengths_comm (X Y : List α) : CommonLengths X Y=CommonLengths Y X := by
  ext k
  constructor <;> rintro ⟨S,h1,h2,hk⟩ <;> exact ⟨S,h2,h1,hk⟩

/-- Longer texts have the same common subsequences and more. -/
theorem commonLengths_append (X Y A B : List α) :
    CommonLengths X Y ⊆ CommonLengths (X++A) (Y++B) := by
  rintro k ⟨S,h1,h2,hk⟩
  exact ⟨S,h1.trans (List.sublist_append_left X A),h2.trans (List.sublist_append_left Y B),hk⟩

/-- Dropping the head of a sublist leaves a sublist of the tail. -/
theorem sublist_of_cons_cons {s x : α} {S xs : List α} (h : (s::S).Sublist (x::xs)) :
    S.Sublist xs := by
  cases h with
  | cons _ h => exact (List.sublist_cons_self s S).trans h
  | cons_cons _ h => exact h

variable [DecidableEq α]

/-- The recursion of the table on two lists, read from their heads. -/
def common : List α → List α → ℕ
  | [],_ => 0
  | _::_,[] => 0
  | x::xs,y::ys => if x=y then common xs ys+1 else max (common xs (y::ys)) (common (x::xs) ys)
termination_by xs ys => xs.length+ys.length

/-- An empty first text has nothing in common. -/
@[simp] theorem common_nil_left (ys : List α) : common [] ys=0 := by
  rw [common]

/-- Nor has an empty second text. -/
@[simp] theorem common_nil_right (xs : List α) : common xs []=0 := by
  cases xs <;> rw [common]

/-- Equal first characters are common. -/
theorem common_cons_same (x : α) (xs ys : List α) :
    common (x::xs) (x::ys)=common xs ys+1 := by
  rw [common,if_pos rfl]

/-- Of different first characters one is dropped. -/
theorem common_cons_ne {x y : α} (h : x ≠ y) (xs ys : List α) :
    common (x::xs) (y::ys)=max (common xs (y::ys)) (common (x::xs) ys) := by
  rw [common,if_neg h]

/-- No common sublist is longer. -/
theorem length_le_common {S xs ys : List α} (hx : S.Sublist xs) (hy : S.Sublist ys) :
    S.length ≤ common xs ys := by
  induction xs,ys using common.induct generalizing S with
  | case1 ys => simp [List.sublist_nil.mp hx]
  | case2 x xs => simp [List.sublist_nil.mp hy]
  | case3 xs x ys ih =>
    rw [common_cons_same]
    cases S with
    | nil => exact Nat.zero_le _
    | cons s S =>
      have := ih (sublist_of_cons_cons hx) (sublist_of_cons_cons hy)
      simpa using this
  | case4 x xs y ys hne ihx ihy =>
    rw [common_cons_ne hne]
    cases hx with
    | cons _ hx => exact (ihx hx hy).trans (le_max_left _ _)
    | cons_cons _ hx =>
      cases hy with
      | cons _ hy => exact (ihy (hx.cons_cons x) hy).trans (le_max_right _ _)
      | cons_cons _ hy => exact absurd rfl hne

/-- Some common sublist has the length. -/
theorem exists_common (xs ys : List α) :
    ∃ S : List α,S.Sublist xs ∧ S.Sublist ys ∧ S.length=common xs ys := by
  induction xs,ys using common.induct with
  | case1 ys => exact ⟨[],by simp⟩
  | case2 x xs => exact ⟨[],by simp⟩
  | case3 xs x ys ih =>
    obtain ⟨S,hx,hy,hl⟩ := ih
    refine ⟨x::S,hx.cons_cons x,hy.cons_cons x,?_⟩
    rw [common_cons_same,List.length_cons,hl]
  | case4 x xs y ys hne ihx ihy =>
    rw [common_cons_ne hne]
    rcases le_total (common xs (y::ys)) (common (x::xs) ys) with h|h
    · obtain ⟨S,hx,hy,hl⟩ := ihy
      exact ⟨S,hx,hy.cons y,by rw [max_eq_right h,hl]⟩
    · obtain ⟨S,hx,hy,hl⟩ := ihx
      exact ⟨S,hx.cons x,hy,by rw [max_eq_left h,hl]⟩

/-- On reversed words the recursion is the greatest common length of the words. -/
theorem common_isGreatest (X Y : List α) :
    IsGreatest (CommonLengths X Y) (common X.reverse Y.reverse) := by
  constructor
  · obtain ⟨S,hx,hy,hl⟩ := exists_common X.reverse Y.reverse
    refine ⟨S.reverse,?_,?_,by rw [List.length_reverse,hl]⟩
    · simpa using hx.reverse
    · simpa using hy.reverse
  · rintro k ⟨S,hx,hy,rfl⟩
    have := length_le_common hx.reverse hy.reverse
    rwa [List.length_reverse] at this

end Common

/-! ## The table -/

/-- What the cell of row i and column j has to hold. -/
def answer (X Y : List UInt8) (i j : ℕ) : ℤ := common (X.take i).reverse (Y.take j).reverse

/-- One character more. -/
theorem take_succ_reverse {α : Type*} {X : List α} {i : ℕ} (h : i < X.length) :
    (X.take (i+1)).reverse=X[i]::(X.take i).reverse := by
  rw [List.take_add_one,List.getElem?_eq_getElem h]
  simp

/-- The edges of the table. -/
theorem answer_edge (X Y : List UInt8) {i j : ℕ} (h : i=0 ∨ j=0) : answer X Y i j=0 := by
  rcases h with rfl|rfl <;> simp [answer]

/-- An entry for equal characters. -/
theorem answer_same {X Y : List UInt8} {i j : ℕ} (hi : i < X.length) (hj : j < Y.length)
    (h : X[i]=Y[j]) : answer X Y (i+1) (j+1)=answer X Y i j+1 := by
  unfold answer
  rw [take_succ_reverse hi,take_succ_reverse hj,h,common_cons_same]
  push_cast
  rfl

/-- An entry for different characters. -/
theorem answer_ne {X Y : List UInt8} {i j : ℕ} (hi : i < X.length) (hj : j < Y.length)
    (h : X[i] ≠ Y[j]) :
    answer X Y (i+1) (j+1)=maxInt (answer X Y i (j+1)) (answer X Y (i+1) j) := by
  unfold answer
  rw [take_succ_reverse hi,take_succ_reverse hj,common_cons_ne h,maxInt]
  push_cast
  split <;> omega

/-- The body computes the answer from the cells that are filled before. -/
theorem lcsCell_spec {X Y : List UInt8} {i j : ℕ} {L : Grid ℤ} (hi : i < X.length+1)
    (hj : j < Y.length+1)
    (hL : Grid.Filled (answer X Y) (X.length+1) (Y.length+1) 0 i j L) :
    lcsCell X Y i j L=some (answer X Y i j) := by
  have hread : ∀ a b : ℕ,a < X.length+1 → b < Y.length+1 → (a < i ∨ a=i ∧ b < j) →
      L.read a b=some (answer X Y a b) := by
    intro a b ha hb hd
    rw [Grid.read_natCast (by rw [hL.rows_eq]; exact ha) (by rw [hL.cols_eq]; exact hb),
      hL.done a ha b hb (by omega)]
  cases i with
  | zero => simp [lcsCell,answer_edge X Y (.inl rfl)]
  | succ i =>
    cases j with
    | zero => simp [lcsCell,answer_edge X Y (.inr rfl)]
    | succ j =>
      have hx : i < X.length := by omega
      have hy : j < Y.length := by omega
      have hne : ¬(((i+1 : ℕ) : ℤ)=0 ∨ ((j+1 : ℕ) : ℤ)=0) := by omega
      have hi' : ((i+1 : ℕ) : ℤ)-1=(i : ℤ) := by omega
      have hj' : ((j+1 : ℕ) : ℤ)-1=(j : ℤ) := by omega
      rw [lcsCell,if_neg hne,hi',hj',cellAt_of_lt hx,cellAt_of_lt hy]
      by_cases he : X[i]=Y[j]
      · simp [he,hread i j (by omega) (by omega) (by omega),answer_same hx hy he]
      · have ha := hread i (j+1) (by omega) (by omega) (by omega)
        have hb := hread (i+1) j (by omega) (by omega) (by omega)
        push_cast at ha hb
        simp [he,ha,hb,answer_ne hx hy he]

/-- The function fills its table inside and returns the last cell. -/
theorem lcs_eq (junk : ℕ → ℕ → ℤ) (X Y : List UInt8) :
    lcs junk X Y X.length Y.length=some (common X.reverse Y.reverse : ℤ) := by
  obtain ⟨t,ht,hr,hc,hcell⟩ := Grid.fill_spec (g := Grid.declare (X.length+1) (Y.length+1) junk)
    (T := answer X Y) (Nat.zero_le (X.length+1)) (Nat.zero_le (Y.length+1)) (by rfl) (by rfl)
    (by omega) fun i j L _ hi _ hj hL => lcsCell_spec hi hj hL
  have hfill : Grid.fill (lcsCell X Y) 0 (X.length+1) 0 (Y.length+1)
      (Grid.declare (X.length+1) (Y.length+1) junk)=some t := by exact_mod_cast ht
  rw [lcs,hfill]
  have hread := Grid.read_natCast (g := t) (i := X.length) (j := Y.length) (by omega) (by omega)
  rw [hcell _ (by omega) _ (by omega)] at hread
  simpa [answer] using hread

/-- `lcs` returns the greatest length of a common subsequence. It is symmetric
in its words and does not shrink when characters are appended. -/
theorem lcs_optimal (junk : ℕ → ℕ → ℤ) (X Y : List UInt8) :
    ∃ v : ℕ,lcs junk X Y X.length Y.length=some (v : ℤ) ∧ IsGreatest (CommonLengths X Y) v ∧
      lcs junk Y X Y.length X.length=some (v : ℤ) ∧
      ∀ A B : List UInt8,∃ w : ℕ,
        lcs junk (X++A) (Y++B) (X++A).length (Y++B).length=some (w : ℤ) ∧ v ≤ w := by
  have hmax := common_isGreatest X Y
  have hswap := common_isGreatest Y X
  rw [commonLengths_comm] at hswap
  refine ⟨_,lcs_eq junk X Y,hmax,?_,?_⟩
  · rw [lcs_eq,hmax.unique hswap]
  · intro A B
    exact ⟨_,lcs_eq junk (X++A) (Y++B),
      (common_isGreatest (X++A) (Y++B)).2 (commonLengths_append X Y A B hmax.1)⟩

end StudyCode.Lcs01
