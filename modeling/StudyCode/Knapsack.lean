import StudyCode.CheckedGrid

/-!
# The 0/1 knapsack tables

Both programs fill the same table, one from two arrays and one from an array
of items. The column of capacity 0 is never computed and stays 0. With
positive weights the last cell is the greatest value of a set of items that
fits. An item of weight 0 is missed by every set that leaves no room for it,
so the answer may then depend on the order of the items.
-/

namespace StudyCode.Knapsack

open Checked

/-! ## knapsack -/

/-- `Item` of knapsack_02.c. -/
structure Item where
  /-- Weight of the item. -/
  weight : ℤ
  /-- Value of the item. -/
  value : ℤ
deriving DecidableEq,Repr

/-- The value both programs store in dp[i][j], from their access to the weight
and the value of an item. The counters that only disabled code prints are
left out. -/
def pickCell (weight value : ℤ → Option ℤ) (i j : ℤ) (dp : Grid ℤ) : Option ℤ := do
  let w ← weight (i-1)
  if w ≤ j then
    let v ← value (i-1)
    let d ← dp.read (i-1) (j-w)
    let a ← addInt v d
    let b ← dp.read (i-1) j
    some (if a > b then a else b)
  else dp.read (i-1) j

/-- The value that the loops of the initialisation store. -/
def clearCell (_ _ : ℤ) (_ : Grid ℤ) : Option ℤ := some 0

/-- The body of both programs: clear the table, fill it from row and column 1
on, and return its last cell. `junk` is what the table holds at first. -/
def knapsackWith (weight value : ℤ → Option ℤ) (junk : ℕ → ℕ → ℤ) (n W : ℤ) : Option ℤ := do
  let dp ← Grid.fill clearCell 0 (n+1) 0 (W+1) (Grid.declare (n+1) (W+1) junk)
  let dp ← Grid.fill (pickCell weight value) 1 (n+1) 1 (W+1) dp
  dp.read n W

/-- `knapsack` of knapsack_01.c. -/
def knapsack01 (junk : ℕ → ℕ → ℤ) (W : ℤ) (wt val : List ℤ) (n : ℤ) : Option ℤ :=
  knapsackWith (cellAt wt) (cellAt val) junk n W

/-- `knapsack` of knapsack_02.c. -/
def knapsack02 (junk : ℕ → ℕ → ℤ) (items : List Item) (n W : ℤ) : Option ℤ :=
  knapsackWith (fun k => (cellAt items k).map Item.weight)
    (fun k => (cellAt items k).map Item.value) junk n W

/-! ## Sets of items -/

/-- Total weight of a selection. -/
def weight (S : List Item) : ℤ := (S.map Item.weight).sum

/-- Total value of a selection. -/
def value (S : List Item) : ℤ := (S.map Item.value).sum

@[simp] theorem weight_nil : weight []=0 := rfl

@[simp] theorem value_nil : value []=0 := rfl

/-- The first item adds its weight. -/
@[simp] theorem weight_cons (it : Item) (S : List Item) :
    weight (it::S)=it.weight+weight S := by simp [weight]

/-- The first item adds its value. -/
@[simp] theorem value_cons (it : Item) (S : List Item) :
    value (it::S)=it.value+value S := by simp [value]

/-- The weight does not depend on the order. -/
theorem weight_perm {S S' : List Item} (h : S.Perm S') : weight S=weight S' :=
  (h.map Item.weight).sum_eq

/-- The value does not depend on the order. -/
theorem value_perm {S S' : List Item} (h : S.Perm S') : value S=value S' :=
  (h.map Item.value).sum_eq

/-- Weights and values that are not negative. -/
def Counted (l : List Item) : Prop := ∀ it ∈ l,0 ≤ it.weight ∧ 0 ≤ it.value

/-- The other items count too. -/
theorem Counted.tail {it : Item} {l : List Item} (h : Counted (it::l)) : Counted l :=
  fun x hx => h x (.tail it hx)

/-- The first item counts. -/
theorem Counted.head {it : Item} {l : List Item} (h : Counted (it::l)) :
    0 ≤ it.weight ∧ 0 ≤ it.value := h it (.head l)

/-- The order does not matter. -/
theorem Counted.perm {l l' : List Item} (h : Counted l) (hp : l'.Perm l) : Counted l' :=
  fun it hit => h it (hp.mem_iff.mp hit)

/-- A value is not negative. -/
theorem Counted.value_nonneg {l : List Item} (h : Counted l) : 0 ≤ value l := by
  induction l with
  | nil => simp
  | cons it l ih =>
    have := ih h.tail
    have := h.head
    rw [value_cons]
    omega

/-- One item is worth no more than all. -/
theorem Counted.value_le_of_mem {l : List Item} (h : Counted l) {it : Item} (hit : it ∈ l) :
    it.value ≤ value l := by
  apply List.single_le_sum
  · intro v hv
    obtain ⟨x,hx,rfl⟩ := List.mem_map.mp hv
    exact (h x hx).2
  · exact List.mem_map_of_mem hit

/-- A weight is not negative. -/
theorem Counted.weight_nonneg {l : List Item} (h : Counted l) : 0 ≤ weight l := by
  induction l with
  | nil => simp
  | cons it l ih =>
    have := ih h.tail
    have := h.head
    rw [weight_cons]
    omega

/-- A selection counts. -/
theorem Counted.sublist {S l : List Item} (h : Counted l) (hs : S.Sublist l) : Counted S :=
  fun it hit => h it (hs.subset hit)

/-! ## The table -/

/-- The recursion of the table on the items of a row, the last one first. -/
def tableValue : List Item → ℕ → ℤ
  | [],_ => 0
  | _::_,0 => 0
  | it::r,j+1 =>
    if it.weight ≤ (j+1 : ℕ) then
      max (it.value+tableValue r (((j+1 : ℕ) : ℤ)-it.weight).toNat) (tableValue r (j+1))
    else tableValue r (j+1)

/-- Column 0 stays 0. -/
theorem tableValue_zero (l : List Item) : tableValue l 0=0 := by
  cases l <;> rfl

/-- An entry is between 0 and the value of all items of its row. -/
theorem tableValue_bounds {l : List Item} (h : Counted l) (j : ℕ) :
    0 ≤ tableValue l j ∧ tableValue l j ≤ value l := by
  induction l generalizing j with
  | nil => simp [tableValue]
  | cons it r ih =>
    have hit := h.head
    have hr := h.tail.value_nonneg
    cases j with
    | zero =>
      rw [tableValue_zero,value_cons]
      omega
    | succ j =>
      have h1 := ih h.tail (((j+1 : ℕ) : ℤ)-it.weight).toNat
      have h2 := ih h.tail (j+1)
      rw [tableValue,value_cons]
      split <;> omega

/-- What the cell of row i and column j has to hold. -/
def answer (items : List Item) (i j : ℕ) : ℤ := tableValue (items.take i).reverse j

/-- The edges of the table. -/
theorem answer_edge (items : List Item) {i j : ℕ} (h : i < 1 ∨ j < 1) : answer items i j=0 := by
  unfold answer
  rcases h with h|h
  · obtain rfl : i=0 := by omega
    simp [tableValue]
  · obtain rfl : j=0 := by omega
    exact tableValue_zero _

/-- An entry of the table from those of the row above. -/
theorem answer_succ {items : List Item} {i : ℕ} (hi : i < items.length) (j : ℕ) :
    answer items (i+1) (j+1)=
      if items[i].weight ≤ (j+1 : ℕ) then
        max (items[i].value+answer items i (((j+1 : ℕ) : ℤ)-items[i].weight).toNat)
          (answer items i (j+1))
      else answer items i (j+1) := by
  have ht : (items.take (i+1)).reverse=items[i]::(items.take i).reverse := by
    rw [List.take_add_one,List.getElem?_eq_getElem hi]
    simp
  rw [answer,ht,tableValue]
  rfl

/-- The values of two selections. -/
theorem value_append (S S' : List Item) : value (S++S')=value S+value S' := by
  simp [value]

/-- No sum of the loop leaves the range of int. -/
theorem addInt_answer {items : List Item} (h : Counted items) (hsum : value items < 2^31) {i : ℕ}
    (hi : i < items.length) (j : ℕ) :
    addInt items[i].value (answer items i j)=some (items[i].value+answer items i j) := by
  have hsplit : items=items.take i++items[i]::items.drop (i+1) := by simp
  have hv : value items=value (items.take i)+(items[i].value+value (items.drop (i+1))) := by
    conv_lhs => rw [hsplit]
    rw [value_append,value_cons]
  have hb := tableValue_bounds ((h.sublist (List.take_sublist i items)).perm
    (List.reverse_perm _)) j
  rw [value_perm (List.reverse_perm _)] at hb
  have hd := (h.sublist (List.drop_sublist (i+1) items)).value_nonneg
  have hit := h _ (List.getElem_mem hi)
  unfold answer
  rw [addInt,if_pos]
  omega

variable {items : List Item} {weightAt valueAt : ℤ → Option ℤ}

/-- The body computes the answer from the cells that are filled before. -/
theorem pickCell_spec (h : Counted items) (hsum : value items < 2^31)
    (hw : ∀ k : ℕ,weightAt k=items[k]?.map Item.weight)
    (hv : ∀ k : ℕ,valueAt k=items[k]?.map Item.value) {W i j : ℕ} {dp : Grid ℤ} (hi1 : 1 ≤ i)
    (hi : i < items.length+1) (hj1 : 1 ≤ j) (hj : j < W+1)
    (hd : Grid.Filled (answer items) (items.length+1) (W+1) 1 i j dp) :
    pickCell weightAt valueAt i j dp=some (answer items i j) := by
  obtain ⟨i,rfl⟩ := Nat.exists_eq_add_of_le' hi1
  obtain ⟨j,rfl⟩ := Nat.exists_eq_add_of_le' hj1
  have hlt : i < items.length := by omega
  have hget : items[i]?=some items[i] := List.getElem?_eq_getElem hlt
  have hpos := h _ (List.getElem_mem hlt)
  have hread : ∀ b : ℕ,b < W+1 → dp.read (i : ℤ) b=some (answer items i b) := by
    intro b hb
    rw [Grid.read_natCast (by rw [hd.rows_eq]; omega) (by rw [hd.cols_eq]; exact hb),
      hd.done i (by omega) b hb (.inl (by omega))]
  have hi' : ((i+1 : ℕ) : ℤ)-1=(i : ℤ) := by omega
  rw [pickCell,hi',hw,hget,answer_succ hlt]
  by_cases hle : items[i].weight ≤ ((j+1 : ℕ) : ℤ)
  · have hcol : (((((j+1 : ℕ) : ℤ)-items[i].weight).toNat : ℕ) : ℤ)=
        ((j+1 : ℕ) : ℤ)-items[i].weight := by omega
    have hleft := hread (((j+1 : ℕ) : ℤ)-items[i].weight).toNat (by omega)
    rw [hcol] at hleft
    simp only [Option.map_some,Option.bind_eq_bind,Option.bind_some,if_pos hle,hv,hget,hleft,
      addInt_answer h hsum hlt,hread (j+1) hj]
    congr 1
    split <;> omega
  · simp only [Option.map_some,Option.bind_eq_bind,Option.bind_some,if_neg hle,hread (j+1) hj]

/-- Both programs return the last cell of the recursion and stay inside of
their arrays. -/
theorem knapsackWith_eq (h : Counted items) (hsum : value items < 2^31)
    (hw : ∀ k : ℕ,weightAt k=items[k]?.map Item.weight)
    (hv : ∀ k : ℕ,valueAt k=items[k]?.map Item.value) (junk : ℕ → ℕ → ℤ) (W : ℕ) :
    knapsackWith weightAt valueAt junk items.length W=some (tableValue items.reverse W) := by
  obtain ⟨z,hz,hzr,hzc,hzero⟩ := Grid.fill_spec
    (g := Grid.declare (items.length+1) (W+1) junk) (T := fun _ _ => 0)
    (Nat.zero_le (items.length+1)) (Nat.zero_le (W+1)) (by rfl) (by rfl) (by omega)
    fun i j g _ _ _ _ _ => (rfl : clearCell i j g=some 0)
  obtain ⟨t,ht,htr,htc,hcell⟩ := Grid.fill_spec (g := z) (T := answer items)
    (Nat.succ_le_succ (Nat.zero_le items.length)) (Nat.succ_le_succ (Nat.zero_le W)) hzr hzc
    (fun a ha b hb he => by rw [hzero a ha b hb,answer_edge items he])
    fun i j g hi1 hi hj1 hj hd => pickCell_spec h hsum hw hv hi1 hi hj1 hj hd
  have hread := Grid.read_natCast (g := t) (i := items.length) (j := W) (by omega) (by omega)
  rw [hcell _ (by omega) _ (by omega),answer,List.take_length] at hread
  push_cast at hz ht
  simp [knapsackWith,hz,ht,hread]

/-- The first implementation computes the table. -/
theorem knapsack01_eq (h : Counted items) (hsum : value items < 2^31) (junk : ℕ → ℕ → ℤ) (W : ℕ) :
    knapsack01 junk W (items.map Item.weight) (items.map Item.value) items.length=
      some (tableValue items.reverse W) :=
  knapsackWith_eq h hsum (fun k => by simp) (fun k => by simp) junk W

/-- The second implementation computes the same table. -/
theorem knapsack02_eq (h : Counted items) (hsum : value items < 2^31) (junk : ℕ → ℕ → ℤ) (W : ℕ) :
    knapsack02 junk items items.length W=some (tableValue items.reverse W) :=
  knapsackWith_eq h hsum (fun k => by simp) (fun k => by simp) junk W

/-! ## What the table counts -/

/-- The items that need room. -/
def heavy (l : List Item) : List Item := l.filter fun it => 0 < it.weight

/-- The items that need none. -/
def light (l : List Item) : List Item := l.filter fun it => ¬0 < it.weight

/-- An item with a weight is heavy. -/
theorem heavy_cons_of_pos {it : Item} (h : 0 < it.weight) (l : List Item) :
    heavy (it::l)=it::heavy l := by simp [heavy,h]

/-- An item without one is not. -/
theorem heavy_cons_of_le {it : Item} (h : it.weight ≤ 0) (l : List Item) :
    heavy (it::l)=heavy l := by simp [heavy,h]

/-- An item with a weight is not light. -/
theorem light_cons_of_pos {it : Item} (h : 0 < it.weight) (l : List Item) :
    light (it::l)=light l := by simp [light,h]

/-- An item without one is. -/
theorem light_cons_of_le {it : Item} (h : it.weight ≤ 0) (l : List Item) :
    light (it::l)=it::light l := by simp [light,h]

/-- The light items count. -/
theorem Counted.light {l : List Item} (h : Counted l) : Counted (light l) :=
  h.sublist List.filter_sublist

/-- The heavy items count. -/
theorem Counted.heavy {l : List Item} (h : Counted l) : Counted (heavy l) :=
  h.sublist List.filter_sublist

/-- The heavy items of another order. -/
theorem heavy_perm {l l' : List Item} (h : l.Perm l') : (heavy l).Perm (heavy l') := h.filter _

/-- The light items of another order. -/
theorem light_perm {l l' : List Item} (h : l.Perm l') : (light l).Perm (light l') := h.filter _

/-- An entry is at most the value of some set of heavy items that fits,
together with all light items. -/
theorem tableValue_le {l : List Item} (h : Counted l) (j : ℕ) :
    ∃ S : List Item,S.Sublist (heavy l) ∧ weight S ≤ j ∧
      tableValue l j ≤ value S+value (light l) := by
  induction l generalizing j with
  | nil => exact ⟨[],by simp [tableValue,light]⟩
  | cons it r ih =>
    have hit := h.head
    cases j with
    | zero =>
      have := h.light.value_nonneg
      exact ⟨[],by simp,by simp,by rw [tableValue_zero,value_nil]; omega⟩
    | succ j =>
      obtain ⟨S,hs,hw,hv⟩ := ih h.tail (j+1)
      obtain ⟨S',hs',hw',hv'⟩ := ih h.tail (((j+1 : ℕ) : ℤ)-it.weight).toNat
      rw [tableValue]
      rcases lt_or_ge 0 it.weight with hpos|hzero
      · rw [heavy_cons_of_pos hpos,light_cons_of_pos hpos]
        split
        · rcases le_total (it.value+tableValue r (((j+1 : ℕ) : ℤ)-it.weight).toNat)
            (tableValue r (j+1)) with hm|hm
          · exact ⟨S,hs.cons it,hw,by omega⟩
          · exact ⟨it::S',hs'.cons_cons it,by rw [weight_cons]; omega,by rw [value_cons]; omega⟩
        · exact ⟨S,hs.cons it,hw,hv⟩
      · rw [heavy_cons_of_le hzero,light_cons_of_le hzero,value_cons]
        have hsame : (((j+1 : ℕ) : ℤ)-it.weight).toNat=j+1 := by omega
        rw [hsame]
        exact ⟨S,hs,hw,by split <;> omega⟩

/-- An entry is at least the value of every set of heavy items that fits, and
counts all light items when the set leaves room. -/
theorem le_tableValue {l : List Item} (h : Counted l) {S : List Item} (hs : S.Sublist (heavy l))
    {j : ℕ} : (weight S ≤ j → value S ≤ tableValue l j) ∧
      (weight S < j → value S+value (light l) ≤ tableValue l j) := by
  induction l generalizing S j with
  | nil =>
    obtain rfl : S=[] := List.sublist_nil.mp hs
    simp [tableValue,light]
  | cons it r ih =>
    have hit := h.head
    cases j with
    | zero =>
      have hS := (h.heavy.sublist hs).weight_nonneg
      rw [tableValue_zero]
      refine ⟨fun hw => ?_,fun hw => by omega⟩
      cases S with
      | nil => simp
      | cons x S =>
        have hx : x ∈ heavy (it::r) := hs.subset (.head S)
        have hxpos : 0 < x.weight := by simpa using (List.mem_filter.mp hx).2
        have htail := (h.heavy.sublist hs).tail.weight_nonneg
        rw [weight_cons] at hw
        omega
    | succ j =>
      rw [tableValue]
      rcases lt_or_ge 0 it.weight with hpos|hzero
      · rw [heavy_cons_of_pos hpos] at hs
        rw [light_cons_of_pos hpos]
        cases hs with
        | cons _ hs =>
          have hi := ih h.tail hs (j := j+1)
          constructor <;> intro hw <;> split <;> omega
        | cons_cons _ hs =>
          rename_i S
          have hi := ih h.tail hs (j := (((j+1 : ℕ) : ℤ)-it.weight).toNat)
          have hS := (h.tail.heavy.sublist hs).weight_nonneg
          rw [weight_cons,value_cons]
          constructor <;> intro hw <;> rw [if_pos (by omega)] <;> omega
      · rw [heavy_cons_of_le hzero] at hs
        rw [light_cons_of_le hzero,value_cons]
        have hsame : (((j+1 : ℕ) : ℤ)-it.weight).toNat=j+1 := by omega
        rw [hsame,if_pos (by omega)]
        have hi := ih h.tail hs (j := j+1)
        constructor <;> intro hw <;> omega

/-! ## Optimality -/

/-- The values of the sets of items that fit. -/
def FittingValues (items : List Item) (W : ℕ) : Set ℤ :=
  {v | ∃ S : List Item,S.Sublist items ∧ weight S ≤ W ∧ value S=v}

/-- With weights all items are heavy. -/
theorem heavy_eq_self {l : List Item} (h : ∀ it ∈ l,0 < it.weight) : heavy l=l :=
  List.filter_eq_self.mpr fun it hit => by simpa using h it hit

/-- With weights no item is light. -/
theorem light_eq_nil {l : List Item} (h : ∀ it ∈ l,0 < it.weight) : light l=[] :=
  List.filter_eq_nil_iff.mpr fun it hit => by simpa using h it hit

/-- With positive weights the last cell is the greatest value that fits. -/
theorem tableValue_isGreatest {items : List Item} (hpos : ∀ it ∈ items,1 ≤ it.weight ∧ 0 ≤ it.value)
    (W : ℕ) : IsGreatest (FittingValues items W) (tableValue items.reverse W) := by
  have hr : ∀ it ∈ items.reverse,0 < it.weight := fun it hit => (hpos it (by simpa using hit)).1
  have hc : Counted items.reverse := by
    intro it hit
    have := hpos it (by simpa using hit)
    omega
  have hfit : ∀ S : List Item,S.Sublist items.reverse → weight S ≤ W →
      value S ≤ tableValue items.reverse W := by
    intro S hs hw
    exact (le_tableValue hc (by rwa [heavy_eq_self hr])).1 hw
  constructor
  · obtain ⟨S,hs,hw,hv⟩ := tableValue_le hc W
    rw [heavy_eq_self hr] at hs
    rw [light_eq_nil hr,value_nil,add_zero] at hv
    have hle := hfit S hs hw
    have hperm : S.reverse.Perm S := List.reverse_perm S
    refine ⟨S.reverse,by simpa using hs.reverse,by rwa [weight_perm hperm],?_⟩
    rw [value_perm hperm]
    omega
  · rintro v ⟨S,hs,hw,rfl⟩
    have hperm : S.reverse.Perm S := List.reverse_perm S
    have := hfit S.reverse hs.reverse (by rwa [weight_perm hperm])
    rwa [value_perm hperm] at this

/-- Both programs return the greatest value of a set of items that fits. -/
theorem knapsack_optimal (junk junk' : ℕ → ℕ → ℤ) (W : ℕ) (items : List Item)
    (hpos : ∀ it ∈ items,1 ≤ it.weight ∧ 0 ≤ it.value) (hsum : value items < 2^31) :
    ∃ v,knapsack01 junk W (items.map Item.weight) (items.map Item.value) items.length=some v ∧
      knapsack02 junk' items items.length W=some v ∧ IsGreatest (FittingValues items W) v := by
  have hc : Counted items := by
    intro it hit
    have := hpos it hit
    omega
  exact ⟨_,knapsack01_eq hc hsum junk W,knapsack02_eq hc hsum junk' W,tableValue_isGreatest hpos W⟩

/-- The items of the second program's main. -/
theorem knapsack_three_items : ∃ v,
    knapsack01 (fun _ _ => 9) 50 [10,20,25] [60,100,120] 3=some v ∧
      knapsack02 (fun _ _ => 9) [⟨10,60⟩,⟨20,100⟩,⟨25,120⟩] 3 50=some v ∧
      IsGreatest (FittingValues [⟨10,60⟩,⟨20,100⟩,⟨25,120⟩] 50) v :=
  knapsack_optimal (fun _ _ => 9) (fun _ _ => 9) 50 [⟨10,60⟩,⟨20,100⟩,⟨25,120⟩] (by decide)
    (by decide)

/-! ## The order of the items -/

/-- Every rearrangement of the items gives the same value, in both programs. -/
def OrderIndependent (junk junk' : ℕ → ℕ → ℤ) (W : ℕ) (items : List Item) : Prop :=
  ∀ items' : List Item,items'.Perm items →
    knapsack01 junk W (items'.map Item.weight) (items'.map Item.value) items'.length=
      knapsack01 junk W (items.map Item.weight) (items.map Item.value) items.length ∧
    knapsack02 junk' items' items'.length W=knapsack02 junk' items items.length W

/-- There is no room at all, nothing of value is weightless, or sets that leave
no room are worth no more than sets that do. -/
def RoomForLight (W : ℕ) (items : List Item) : Prop :=
  W=0 ∨ (∀ it ∈ items,it.weight=0 → it.value=0) ∨
    ∀ S : List Item,S.Sublist (heavy items) → weight S=W →
      ∃ S' : List Item,S'.Sublist (heavy items) ∧ weight S' < W ∧ value S ≤ value S'

/-- A sublist of a rearrangement is a rearrangement of a sublist. -/
theorem exists_sublist_perm {S l l' : List Item} (hs : S.Sublist l') (hp : l'.Perm l) :
    ∃ S' : List Item,S'.Perm S ∧ S'.Sublist l := (hs.subperm.trans hp.subperm : S.Subperm l)

/-- Light items without a value are worth nothing. -/
theorem value_light_eq_zero {l : List Item} (h : ∀ it ∈ l,it.weight=0 → it.value=0)
    (hc : Counted l) : value (light l)=0 := by
  apply List.sum_eq_zero
  intro v hv
  obtain ⟨it,hit,rfl⟩ := List.mem_map.mp hv
  obtain ⟨hmem,hle⟩ := List.mem_filter.mp hit
  have := (hc it hmem).1
  exact h it hmem (by simp at hle; omega)

/-- Under the condition no order of the items beats another one. -/
theorem tableValue_le_of_perm {W : ℕ} {items l l' : List Item} (hc : Counted items)
    (hroom : RoomForLight W items) (hl : l.Perm items) (hl' : l'.Perm items) :
    tableValue l' W ≤ tableValue l W := by
  have hlc : Counted l := hc.perm hl
  have hlight : ∀ k : List Item,k.Perm items → value (light k)=value (light items) :=
    fun k hk => value_perm (light_perm hk)
  obtain ⟨S,hs,hw,hv⟩ := tableValue_le (hc.perm hl') W
  obtain ⟨T,hT,hTs⟩ := exists_sublist_perm hs (heavy_perm hl')
  rw [hlight l' hl',←value_perm hT] at hv
  rw [←weight_perm hT] at hw
  have hmove : ∀ R : List Item,R.Sublist (heavy items) →
      (weight R ≤ W → value R ≤ tableValue l W) ∧
        (weight R < W → value R+value (light items) ≤ tableValue l W) := by
    intro R hR
    obtain ⟨R',hp,hs'⟩ := exists_sublist_perm hR (heavy_perm hl.symm)
    have := le_tableValue hlc hs' (j := W)
    rwa [value_perm hp,weight_perm hp,hlight l hl] at this
  rcases hroom with rfl|hno|hroom
  · rw [tableValue_zero,tableValue_zero]
  · rw [value_light_eq_zero hno hc,add_zero] at hv
    exact hv.trans ((hmove T hTs).1 hw)
  · rcases hw.lt_or_eq with hlt|heq
    · exact hv.trans ((hmove T hTs).2 hlt)
    · obtain ⟨T',hT',hlt,hle⟩ := hroom T hTs heq
      have := (hmove T' hT').2 hlt
      omega

/-- When the light items come last in the recursion, a set of heavy items that
fills the capacity loses all of them. -/
theorem tableValue_light_last {p z : List Item} (hp : ∀ it ∈ p,0 < it.weight) (hpc : Counted p)
    (hz : Counted z) (hlight : heavy z=[]) (j : ℕ) :
    ∃ S : List Item,S.Sublist p ∧ weight S ≤ j ∧
      (weight S < j → tableValue (p++z) j ≤ value S+value (light z)) ∧
      (weight S=j → tableValue (p++z) j ≤ value S) := by
  induction p generalizing j with
  | nil =>
    obtain ⟨S,hs,-,hv⟩ := tableValue_le hz j
    rw [hlight,List.sublist_nil] at hs
    subst hs
    refine ⟨[],by simp,by simp,fun _ => hv,?_⟩
    intro hj
    obtain rfl : j=0 := by
      rw [weight_nil] at hj
      omega
    simp [tableValue_zero]
  | cons it p ih =>
    have hit := hp it (.head p)
    cases j with
    | zero => exact ⟨[],by simp,by simp,by simp,by simp [tableValue_zero]⟩
    | succ j =>
      obtain ⟨S,hs,hw,h1,h2⟩ := ih (fun x hx => hp x (.tail it hx)) hpc.tail (j+1)
      obtain ⟨S',hs',hw',h1',h2'⟩ := ih (fun x hx => hp x (.tail it hx)) hpc.tail
        (((j+1 : ℕ) : ℤ)-it.weight).toNat
      rw [List.cons_append,tableValue]
      split
      · rcases le_total (it.value+tableValue (p++z) (((j+1 : ℕ) : ℤ)-it.weight).toNat)
          (tableValue (p++z) (j+1)) with hm|hm
        · rw [max_eq_right hm]
          exact ⟨S,hs.cons it,hw,h1,h2⟩
        · rw [max_eq_left hm]
          refine ⟨it::S',hs'.cons_cons it,?_,?_,?_⟩ <;>
            simp only [weight_cons,value_cons] <;> omega
      · exact ⟨S,hs.cons it,hw,h1,h2⟩

/-- When the light items come first in the recursion, all of them count. -/
theorem le_tableValue_light_first {z p : List Item} (hz : ∀ it ∈ z,it.weight=0) (hp : Counted p)
    {S : List Item} (hs : S.Sublist (heavy p)) {j : ℕ} (hw : weight S ≤ j) (hj : 1 ≤ j) :
    value S+value z ≤ tableValue (z++p) j := by
  induction z with
  | nil =>
    have := (le_tableValue hp hs).1 hw
    simpa using this
  | cons it z ih =>
    have hi := ih fun x hx => hz x (.tail it hx)
    have h0 := hz it (.head z)
    obtain ⟨j,rfl⟩ := Nat.exists_eq_add_of_le' hj
    have hsame : (((j+1 : ℕ) : ℤ)-it.weight).toNat=j+1 := by omega
    rw [List.cons_append,tableValue,hsame,if_pos (by omega),value_cons]
    omega

/-- The order does not matter exactly when it does not for the table. -/
theorem orderIndependent_iff_tableValue {items : List Item} (hc : Counted items)
    (hsum : value items < 2^31) (junk junk' : ℕ → ℕ → ℤ) (W : ℕ) :
    OrderIndependent junk junk' W items ↔
      ∀ l : List Item,l.Perm items → tableValue l W=tableValue items.reverse W := by
  have hrun : ∀ k : List Item,k.Perm items →
      knapsack01 junk W (k.map Item.weight) (k.map Item.value) k.length=
        some (tableValue k.reverse W) ∧
      knapsack02 junk' k k.length W=some (tableValue k.reverse W) := by
    intro k hk
    have hs : value k < 2^31 := by rwa [value_perm hk]
    exact ⟨knapsack01_eq (hc.perm hk) hs junk W,knapsack02_eq (hc.perm hk) hs junk' W⟩
  obtain ⟨h1,h2⟩ := hrun items (.refl items)
  constructor
  · intro h l hl
    have hp : l.reverse.Perm items := (List.reverse_perm l).trans hl
    have he := (h l.reverse hp).1
    rw [(hrun l.reverse hp).1,h1,List.reverse_reverse] at he
    exact Option.some.inj he
  · intro h k hk
    obtain ⟨hk1,hk2⟩ := hrun k hk
    have he := h k.reverse ((List.reverse_perm k).trans hk)
    exact ⟨by rw [hk1,h1,he],by rw [hk2,h2,he]⟩

/-- The light and the heavy items in two orders: the values differ unless the
condition holds. -/
theorem roomForLight_of_same {W : ℕ} {items : List Item} (hc : Counted items)
    (h : ∀ l l' : List Item,l.Perm items → l'.Perm items → tableValue l W=tableValue l' W) :
    RoomForLight W items := by
  by_cases hW : W=0
  · exact .inl hW
  by_cases hno : ∀ it ∈ items,it.weight=0 → it.value=0
  · exact .inr (.inl hno)
  refine .inr (.inr ?_)
  have hall : (heavy items++light items).Perm items := by
    unfold heavy light
    simp only [decide_not]
    exact List.filter_append_perm _ items
  have hheavy : ∀ it ∈ heavy items,0 < it.weight := fun it hit => by
    simpa using (List.mem_filter.mp hit).2
  have hweightless : ∀ it ∈ light items,it.weight=0 := by
    intro it hit
    obtain ⟨hmem,hle⟩ := List.mem_filter.mp hit
    have := (hc it hmem).1
    simp at hle
    omega
  have hlight : light (light items)=light items :=
    List.filter_eq_self.mpr fun it hit => (List.mem_filter.mp hit).2
  have hnone : heavy (light items)=[] :=
    List.filter_eq_nil_iff.mpr fun it hit => by simp [hweightless it hit]
  have hpositive : 0 < value (light items) := by
    push Not at hno
    obtain ⟨it,hit,h0,hv⟩ := hno
    have hmem : it ∈ light items := List.mem_filter.mpr ⟨hit,by simp [h0]⟩
    have hle := hc.light.value_le_of_mem hmem
    have := (hc it hit).2
    omega
  obtain ⟨S₀,hs₀,hw₀,hlt,heq⟩ := tableValue_light_last hheavy hc.heavy hc.light hnone W
  rw [hlight] at hlt
  have hfirst : ∀ S : List Item,S.Sublist (heavy items) → weight S ≤ W →
      value S+value (light items) ≤ tableValue (heavy items++light items) W := by
    intro S hs hw
    rw [h _ _ hall (List.perm_append_comm.trans hall)]
    exact le_tableValue_light_first hweightless hc.heavy (by rwa [heavy_eq_self hheavy]) hw
      (by omega)
  have hroom : weight S₀ < W := by
    rcases hw₀.lt_or_eq with hl|he
    · exact hl
    · have h1 := hfirst S₀ hs₀ hw₀
      have h2 := heq he
      omega
  intro S hs hw
  have h1 := hfirst S hs hw.le
  have h2 := hlt hroom
  exact ⟨S₀,hs₀,hroom,by omega⟩

/-- The order of the items is irrelevant exactly when weightless items always
find room, or have no value, or nothing fits. -/
theorem orderIndependent_iff_roomForLight (junk junk' : ℕ → ℕ → ℤ) (W : ℕ) (items : List Item)
    (hc : ∀ it ∈ items,0 ≤ it.weight ∧ 0 ≤ it.value) (hsum : value items < 2^31) :
    OrderIndependent junk junk' W items ↔ RoomForLight W items := by
  rw [orderIndependent_iff_tableValue hc hsum]
  constructor
  · intro h
    exact roomForLight_of_same hc fun l l' hl hl' => (h l hl).trans (h l' hl').symm
  · intro h l hl
    have hr : items.reverse.Perm items := List.reverse_perm items
    exact le_antisymm (tableValue_le_of_perm hc h hr hl) (tableValue_le_of_perm hc h hl hr)

/-- One weightless item and room to spare. -/
theorem orderIndependent_with_room :
    OrderIndependent (fun _ _ => 9) (fun _ _ => 9) 2 [⟨0,5⟩,⟨1,3⟩] ↔
      RoomForLight 2 [⟨0,5⟩,⟨1,3⟩] :=
  orderIndependent_iff_roomForLight (fun _ _ => 9) (fun _ _ => 9) 2 [⟨0,5⟩,⟨1,3⟩] (by decide)
    (by decide)

/-- With capacity 1 the weightless item of value 5 is lost when it stands
before the item of weight 1. -/
theorem order_matters :
    ([⟨1,3⟩,⟨0,5⟩] : List Item).Perm [⟨0,5⟩,⟨1,3⟩] ∧
      knapsack01 (fun _ _ => 9) 1 [0,1] [5,3] 2=some 5 ∧
      knapsack01 (fun _ _ => 9) 1 [1,0] [3,5] 2=some 8 ∧
      knapsack02 (fun _ _ => 9) [⟨0,5⟩,⟨1,3⟩] 2 1=some 5 ∧
      knapsack02 (fun _ _ => 9) [⟨1,3⟩,⟨0,5⟩] 2 1=some 8 ∧
      ¬OrderIndependent (fun _ _ => 9) (fun _ _ => 9) 1 [⟨0,5⟩,⟨1,3⟩] := by
  refine ⟨List.Perm.swap _ _ _,by decide,by decide,by decide,by decide,?_⟩
  intro h
  have he := (h [⟨1,3⟩,⟨0,5⟩] (List.Perm.swap _ _ _)).2
  revert he
  decide

end StudyCode.Knapsack
