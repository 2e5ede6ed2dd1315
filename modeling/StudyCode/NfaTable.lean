import StudyCode.NfaSubset

/-!
# The table against the subset automaton

The invariant of the two loops of NFA_to_DFA says which cells are filled,
what they spell and how the second row came about. One cell has four
outcomes. They keep the invariant, and they keep the rows distinct unless
the cell leads to the second row again.
-/

namespace StudyCode.Nfa

open BubbleSort

variable {g : NamedGraph} {words names : List ℤ} {tm : TranMatrix} {ns : List ℤ} {j c : ℕ} {t : Str}

/-- The set in a row of column 0. -/
def TranMatrix.row (tm : TranMatrix) (k : ℕ) : Str := (tm.tn 0 k).ch

/-- The cell of a row and a character. -/
def TranMatrix.cell (tm : TranMatrix) (j c : ℕ) : TableNode := tm.tn (c+1) j

/-- Cells that are filled when the loops stand at row j and character c. -/
def Done (n j c j' c' : ℕ) : Prop := c' < n ∧ (j' < j ∨ j'=j ∧ c' < c)

/-- One cell more is done. -/
theorem done_succ {n j c j' c' : ℕ} (h : Done n j (c+1) j' c') :
    (Done n j c j' c' ∧ ¬(j'=j ∧ c'=c)) ∨ j'=j ∧ c'=c := by
  by_cases he : j'=j ∧ c'=c
  · exact Or.inr he
  · exact Or.inl ⟨⟨h.1,by have := h.2;omega⟩,he⟩

/-- What holds when the loops stand at row j and character c. -/
structure Table (g : NamedGraph) (words names : List ℤ) (j c : ℕ) (st : TranMatrix × List ℤ) :
    Prop where
  /-- The columns keep their characters. -/
  words_eq : st.1.transword=words
  /-- The first row is there. -/
  pos : 0 < st.1.numTn
  /-- The rows are inside the column. -/
  bound : st.1.numTn ≤ maxNodes
  /-- Rows are sorted. -/
  sorted : ∀ k < st.1.numTn,(st.1.row k).Pairwise (·<·)
  /-- Rows are not empty. -/
  ne_nil : ∀ k < st.1.numTn,st.1.row k≠[]
  /-- Rows spell sets that some word leads to. -/
  reach : ∀ k < st.1.numTn,∃ u,(∀ a ∈ u,a ∈ words) ∧ Spells g.toGraph (st.1.row k) (g.auto.eval u)
  /-- The first row is the closure of the start state. -/
  first : Spells g.toGraph (st.1.row 0) (g.auto.eval [])
  /-- Cells ahead are blank. -/
  blank : ∀ j' c',j < j' ∨ j'=j ∧ c ≤ c' → (st.1.cell j' c').ch=[]
  /-- Filled cells are sorted. -/
  cell_sorted : ∀ j' c',Done words.length j c j' c' → (st.1.cell j' c').ch.Pairwise (·<·)
  /-- Filled cells spell the step of their row. -/
  cell_spells : ∀ j' c' w T,Done words.length j c j' c' → words[c']?=some w →
    Spells g.toGraph (st.1.row j') T → Spells g.toGraph (st.1.cell j' c').ch (g.auto.stepSet T w)
  /-- The set of a filled cell is listed under the name of the cell. -/
  listed : ∀ j' c',Done words.length j c j' c' → (st.1.cell j' c').ch≠[] →
    ∃ k < st.1.numTn,st.1.row k=(st.1.cell j' c').ch ∧ (st.1.cell j' c').newname=(st.1.tn 0 k).newname
  /-- Rows are named in the order of the input. -/
  named : ∀ k < st.1.numTn,(st.1.tn 0 k).newname=names.getD k 0
  /-- The names that are left. -/
  rest : st.2=names.drop st.1.numTn
  /-- While there is one row, every cell is empty or leads back to it. -/
  single : st.1.numTn=1 → ∀ j' c',Done words.length j c j' c' →
    (st.1.cell j' c').ch=[] ∨ (st.1.cell j' c').ch=st.1.row 0
  /-- The second row is the first new set of row 0. Every other cell that
  leads to it has left a copy of it further down. -/
  second : 1 < st.1.numTn → ∃ c0,Done words.length j c 0 c0 ∧ (st.1.cell 0 c0).ch=st.1.row 1 ∧
    st.1.row 1≠st.1.row 0 ∧
    (∀ c' < c0,(st.1.cell 0 c').ch=[] ∨ (st.1.cell 0 c').ch=st.1.row 0) ∧
    ∀ j' c',Done words.length j c j' c' → ¬(j'=0 ∧ c'=c0) → (st.1.cell j' c').ch=st.1.row 1 →
      ∃ k,2 ≤ k ∧ k < st.1.numTn ∧ st.1.row k=st.1.row 1

/-- CheckTable answers 1 for a set: it is in no row, or in row 1. -/
def New (tm : TranMatrix) (t : Str) : Prop :=
  (∀ k < tm.numTn,tm.row k≠t) ∨ 1 < tm.numTn ∧ tm.row 1=t

/-- The possible results of filling a cell with the set t. -/
inductive Outcome (tm : TranMatrix) (ns : List ℤ) (j c : ℕ) (t : Str) :
    Option (TranMatrix × List ℤ) → Prop
  /-- The empty set is not listed. -/
  | empty (nm : ℤ) : t=[] → Outcome tm ns j c t (some (tm.set (c+1) j ⟨nm,t⟩,ns))
  /-- A set found in another row than row 1 takes its name. -/
  | known (k : ℕ) : k < tm.numTn → k≠1 → tm.row k=t →
      Outcome tm ns j c t (some (tm.set (c+1) j ⟨(tm.tn 0 k).newname,t⟩,ns))
  /-- Any other set is named and appended. -/
  | appended (nm : ℤ) (ns' : List ℤ) : t≠[] → New tm t → tm.numTn < maxNodes →
      (nm,ns')=scanName (tm.cell j c).newname ns →
      Outcome tm ns j c t
        (some ({(tm.set (c+1) j ⟨nm,t⟩).set 0 tm.numTn ⟨nm,t⟩ with numTn := tm.numTn+1},ns'))
  /-- There is no row left to append to. -/
  | full : t≠[] → New tm t → maxNodes ≤ tm.numTn → Outcome tm ns j c t none

/-- The last node written counts. -/
theorem set_set (i : ℕ) (a b : TableNode) : (tm.set i j a).set i j b=tm.set i j b := by
  unfold TranMatrix.set
  congr 1
  funext x y
  split
  case isTrue => rfl
  case isFalse h => exact if_neg h

/-- A cell leaves the rows. -/
theorem set_row (k : ℕ) (a : TableNode) : (tm.set (c+1) j a).tn 0 k=tm.tn 0 k := by
  change (if 0=c+1 ∧ k=j then a else tm.tn 0 k)=_
  exact if_neg (by omega)

/-- The cells where one was written. -/
theorem set_cell (j' c' : ℕ) (a : TableNode) :
    (tm.set (c+1) j a).cell j' c'=if j'=j ∧ c'=c then a else tm.cell j' c' := by
  unfold TranMatrix.cell TranMatrix.set
  dsimp only
  by_cases h : j'=j ∧ c'=c
  · rw [if_pos h,if_pos ⟨by omega,h.1⟩]
  · rw [if_neg h,if_neg (by omega)]

/-- Filling a cell leaves the rows. -/
theorem row_set (k : ℕ) (a : TableNode) : (tm.set (c+1) j a).row k=tm.row k :=
  congrArg TableNode.ch (set_row k a)

/-- A cell that was written reads back. -/
theorem cell_set_self (a : TableNode) : (tm.set (c+1) j a).cell j c=a := by
  rw [set_cell,if_pos ⟨rfl,rfl⟩]

/-- The other cells stay. -/
theorem cell_set_ne {j' c' : ℕ} (h : ¬(j'=j ∧ c'=c)) (a : TableNode) :
    (tm.set (c+1) j a).cell j' c'=tm.cell j' c' := by
  rw [set_cell,if_neg h]

/-- CheckTable finds a row with the set, or answers 1 when there is none. -/
theorem checkTable_cases (tm : TranMatrix) (t : Str) :
    (checkTable tm t < tm.numTn ∧ tm.row (checkTable tm t)=t) ∨
      (checkTable tm t=1 ∧ ∀ k < tm.numTn,tm.row k≠t) := by
  unfold checkTable
  cases h : (List.range tm.numTn).find? fun i => (tm.tn 0 i).ch=t with
  | none =>
    refine Or.inr ⟨rfl,fun k hk he => ?_⟩
    have := List.find?_eq_none.mp h k (List.mem_range.mpr hk)
    exact this (decide_eq_true he)
  | some k =>
    have hk := List.find?_some h
    exact Or.inl ⟨List.mem_range.mp (List.mem_of_find?_eq_some h),of_decide_eq_true hk⟩

/-- What entering a set does. -/
theorem enter_outcome (hw : tm.cell j c=⟨(tm.cell j c).newname,t⟩) :
    Outcome tm ns j c t (enter tm ns (c+1) j) := by
  have hch : (tm.tn (c+1) j).ch=t := by
    change (tm.cell j c).ch=t
    rw [hw]
  have hself : tm.set (c+1) j ⟨(tm.cell j c).newname,t⟩=tm := by
    rw [←hw]
    unfold TranMatrix.set TranMatrix.cell
    congr 1
    funext a b
    split
    case isTrue h => rw [h.1,h.2]
    case isFalse => rfl
  unfold enter
  simp only [hch]
  split
  case isTrue h0 =>
    have ho : Outcome tm ns j c t (some (tm.set (c+1) j ⟨(tm.cell j c).newname,t⟩,ns)) :=
      Outcome.empty _ h0
    rwa [hself] at ho
  case isFalse h0 =>
    have hcase := checkTable_cases tm t
    split
    case isTrue h1 =>
      have hnew : New tm t := by
        rw [h1] at hcase
        rcases hcase with h|h
        · exact Or.inr h
        · exact Or.inl h.2
      split
      case isTrue hlt => exact Outcome.appended _ _ h0 hnew hlt rfl
      case isFalse hge => exact Outcome.full h0 hnew (not_lt.mp hge)
    case isFalse h1 =>
      rcases hcase with h|h
      · exact Outcome.known _ h.1 h1 h.2
      · exact absurd h.1 h1

/-- An outcome does not depend on what the cell held before. -/
theorem Outcome.of_set {nm : ℤ} (hn : nm=(tm.cell j c).newname)
    {r : Option (TranMatrix × List ℤ)}
    (h : Outcome (tm.set (c+1) j ⟨nm,t⟩) ns j c t r) : Outcome tm ns j c t r := by
  have hnew : New (tm.set (c+1) j ⟨nm,t⟩) t → New tm t := by
    unfold New
    simp only [row_set]
    exact id
  cases h with
  | empty nm' h0 =>
    rw [set_set]
    exact Outcome.empty nm' h0
  | known k hk h1 hr =>
    rw [set_set,set_row]
    exact Outcome.known k hk h1 (by rwa [row_set] at hr)
  | appended nm' ns' h0 hN hlt hs =>
    rw [set_set]
    refine Outcome.appended nm' ns' h0 (hnew hN) hlt ?_
    rw [hs,set_cell,if_pos ⟨rfl,rfl⟩,hn]
  | full h0 hN hge => exact Outcome.full h0 (hnew hN) hge

/-- Filling the next cell: the set is the step of the row. -/
theorem Table.fillCell_outcome {w : ℤ} (h : Table g words names j c (tm,ns))
    (hj : j < tm.numTn) (hw : words[c]?=some w) :
    ∃ t,t.Pairwise (·<·) ∧
      (∀ T,Spells g.toGraph (tm.row j) T → Spells g.toGraph t (g.auto.stepSet T w)) ∧
      Outcome tm ns j c t (fillCell g.toGraph j (tm,ns) (c+1)) := by
  obtain ⟨u,-,hu⟩ := h.reach j hj
  obtain ⟨t1,t2,h1,h2,hs,hsp⟩ := Nfa.cell_spells (w:=w) hu
  refine ⟨t2,hs,fun T hT => by rwa [hT.unique hu],?_⟩
  have hblank : (tm.tn (c+1) j).ch=[] := h.blank j c (Or.inr ⟨rfl,Nat.le_refl c⟩)
  have hwords : tm.transword=words := h.words_eq
  have he : fillCell g.toGraph j (tm,ns) (c+1)=
      enter (tm.set (c+1) j ⟨(tm.tn (c+1) j).newname,t2⟩) ns (c+1) j := by
    unfold fillCell
    simp only [Nat.add_sub_cancel,hwords,hw,hblank]
    change (smove g.toGraph (tm.row j) [] w).bind _=_
    rw [h1]
    change (eClosure g.toGraph t1).bind _=_
    rw [h2]
    rfl
  rw [he]
  refine Outcome.of_set rfl (enter_outcome ?_)
  rw [set_cell,if_pos ⟨rfl,rfl⟩]

/-- How the second row came about: a cell of row 0 leads to it, and every other
cell that leads to it has left a copy of it further down. -/
def SecondRow (n j c : ℕ) (tm : TranMatrix) : Prop :=
  ∃ c0,Done n j c 0 c0 ∧ (tm.cell 0 c0).ch=tm.row 1 ∧ tm.row 1≠tm.row 0 ∧
    (∀ c' < c0,(tm.cell 0 c').ch=[] ∨ (tm.cell 0 c').ch=tm.row 0) ∧
    ∀ j' c',Done n j c j' c' → ¬(j'=0 ∧ c'=c0) → (tm.cell j' c').ch=tm.row 1 →
      ∃ k,2 ≤ k ∧ k < tm.numTn ∧ tm.row k=tm.row 1

/-- A cell that leads to the second row has a row of its own set. -/
theorem Table.second_set {nm : ℤ} (h : Table g words names j c (tm,ns)) (h1 : 1 < tm.numTn)
    (hk : t≠[] → ∃ k < tm.numTn,k≠1 ∧ tm.row k=t ∧ nm=(tm.tn 0 k).newname) :
    SecondRow words.length j (c+1) (tm.set (c+1) j ⟨nm,t⟩) := by
  obtain ⟨c0,hd0,hc0,hne10,hbefore,hcopy⟩ := h.second h1
  have hd' := hd0.2
  refine ⟨c0,⟨hd0.1,by omega⟩,?_,?_,?_,?_⟩
  · rw [cell_set_ne (by omega),row_set]
    exact hc0
  · rw [row_set,row_set]
    exact hne10
  · intro c' hc'
    rw [cell_set_ne (by omega),row_set]
    exact hbefore c' hc'
  · intro j' c' hd hne he
    simp only [row_set] at he ⊢
    rcases done_succ hd with ⟨hd,hne'⟩|⟨rfl,rfl⟩
    · rw [cell_set_ne hne'] at he
      exact hcopy j' c' hd hne he
    · rw [cell_set_self] at he
      have hne1 : t≠[] := fun h0 => h.ne_nil 1 h1 (he.symm.trans h0)
      obtain ⟨k,hk,hk1,hr,-⟩ := hk hne1
      have hk0 : k≠0 := by
        rintro rfl
        exact hne10 (he.symm.trans hr.symm)
      exact ⟨k,by omega,hk,hr.trans he⟩

/-- A cell whose set needs no new row keeps the invariant. -/
theorem Table.keep {w nm : ℤ} (h : Table g words names j c (tm,ns)) (hj : j < tm.numTn)
    (hw : words[c]?=some w) (hs : t.Pairwise (·<·))
    (hsp : ∀ T,Spells g.toGraph (tm.row j) T → Spells g.toGraph t (g.auto.stepSet T w))
    (hk : t≠[] → ∃ k < tm.numTn,k≠1 ∧ tm.row k=t ∧ nm=(tm.tn 0 k).newname) :
    Table g words names j (c+1) (tm.set (c+1) j ⟨nm,t⟩,ns) where
  words_eq := h.words_eq
  pos := h.pos
  bound := h.bound
  sorted := by
    simp only [row_set]
    exact h.sorted
  ne_nil := by
    simp only [row_set]
    exact h.ne_nil
  reach := by
    simp only [row_set]
    exact h.reach
  first := by
    simp only [row_set]
    exact h.first
  blank := by
    intro j' c' ha
    rw [cell_set_ne (by omega)]
    exact h.blank j' c' (by omega)
  cell_sorted := by
    intro j' c' hd
    rcases done_succ hd with ⟨hd,hne⟩|⟨rfl,rfl⟩
    · rw [cell_set_ne hne]
      exact h.cell_sorted j' c' hd
    · rw [cell_set_self]
      exact hs
  cell_spells := by
    intro j' c' w' T hd hw' hT
    rw [row_set] at hT
    rcases done_succ hd with ⟨hd,hne⟩|⟨rfl,rfl⟩
    · rw [cell_set_ne hne]
      exact h.cell_spells j' c' w' T hd hw' hT
    · rw [hw] at hw'
      obtain rfl := Option.some.inj hw'
      rw [cell_set_self]
      exact hsp T hT
  listed := by
    intro j' c' hd hne0
    rcases done_succ hd with ⟨hd,hne⟩|⟨rfl,rfl⟩
    · rw [cell_set_ne hne] at hne0 ⊢
      obtain ⟨k,hk,hr,hn⟩ := h.listed j' c' hd hne0
      exact ⟨k,hk,(row_set k _).trans hr,by rw [hn,set_row]⟩
    · rw [cell_set_self] at hne0 ⊢
      obtain ⟨k,hk,-,hr,hn⟩ := hk hne0
      exact ⟨k,hk,(row_set k _).trans hr,by rw [set_row]; exact hn⟩
  named := by
    intro k hk
    rw [set_row]
    exact h.named k hk
  rest := h.rest
  single := by
    intro h1 j' c' hd
    rw [row_set]
    rcases done_succ hd with ⟨hd,hne⟩|⟨rfl,rfl⟩
    · rw [cell_set_ne hne]
      exact h.single h1 j' c' hd
    · rw [cell_set_self]
      by_cases h0 : t=[]
      · exact Or.inl h0
      · obtain ⟨k,hk,-,hr,-⟩ := hk h0
        have h1' : tm.numTn=1 := h1
        obtain rfl : k=0 := by omega
        exact Or.inr hr.symm
  second h1 := h.second_set h1 hk

/-- A matrix with a cell filled and its set appended. -/
def TranMatrix.append (tm : TranMatrix) (j c : ℕ) (n : TableNode) : TranMatrix :=
  {(tm.set (c+1) j n).set 0 tm.numTn n with numTn := tm.numTn+1}

/-- The rows where one was added. -/
theorem append_row (k : ℕ) (n : TableNode) :
    (tm.append j c n).tn 0 k=if k=tm.numTn then n else tm.tn 0 k := by
  change (if 0=0 ∧ k=tm.numTn then n else (tm.set (c+1) j n).tn 0 k)=_
  rw [set_row]
  simp

/-- The cells where one was added. -/
theorem append_cell (j' c' : ℕ) (n : TableNode) :
    (tm.append j c n).cell j' c'=if j'=j ∧ c'=c then n else tm.cell j' c' := by
  rw [←set_cell]
  change (if c'+1=0 ∧ j'=tm.numTn then n else (tm.set (c+1) j n).tn (c'+1) j')=_
  exact if_neg (by omega)

/-- One row more. -/
theorem append_numTn (n : TableNode) : (tm.append j c n).numTn=tm.numTn+1 := rfl

/-- Appending leaves the rows in front. -/
theorem row_append {k : ℕ} (hk : k < tm.numTn) (n : TableNode) :
    (tm.append j c n).row k=tm.row k := by
  unfold TranMatrix.row
  rw [append_row,if_neg hk.ne]

/-- The row that was added. -/
theorem row_append_last (n : TableNode) : (tm.append j c n).row tm.numTn=n.ch := by
  unfold TranMatrix.row
  rw [append_row,if_pos rfl]

/-- The cell that was added. -/
theorem cell_append_self (n : TableNode) : (tm.append j c n).cell j c=n := by
  rw [append_cell,if_pos ⟨rfl,rfl⟩]

/-- The other cells stay. -/
theorem cell_append_ne {j' c' : ℕ} (h : ¬(j'=j ∧ c'=c)) (n : TableNode) :
    (tm.append j c n).cell j' c'=tm.cell j' c' := by
  rw [append_cell,if_neg h]

/-- A row behind the append is an old one or the last. -/
theorem lt_append {k : ℕ} {n : TableNode} (hk : k < (tm.append j c n).numTn) :
    k < tm.numTn ∨ k=tm.numTn := by
  rw [append_numTn] at hk
  omega

/-- The first set that is appended becomes the second row. -/
theorem Table.second_first {nm : ℤ} (h : Table g words names 0 c (tm,ns))
    (hc : c < words.length) (h0 : t≠[]) (hN : New tm t) (h1 : tm.numTn=1) :
    SecondRow words.length 0 (c+1) (tm.append 0 c ⟨nm,t⟩) := by
  have hpos : 0 < tm.numTn := h.pos
  have hsingle := h.single h1
  have hne : tm.row 0≠t := by
    rcases hN with hN|hN
    · exact hN 0 hpos
    · omega
  have hrow1 : (tm.append 0 c ⟨nm,t⟩).row 1=t := by
    rw [←h1,row_append_last]
  refine ⟨c,⟨hc,Or.inr ⟨rfl,Nat.lt_succ_self c⟩⟩,?_,?_,?_,?_⟩
  · rw [cell_append_self,hrow1]
  · rw [hrow1,row_append hpos]
    exact hne.symm
  · intro c' hc'
    rw [cell_append_ne (by omega),row_append hpos]
    exact hsingle 0 c' ⟨hc'.trans hc,Or.inr ⟨rfl,hc'⟩⟩
  · intro j' c' hd hne' he
    rcases done_succ hd with ⟨hd,hne''⟩|hself
    · rw [cell_append_ne hne'',hrow1] at he
      rcases hsingle j' c' hd with hz|hz
      · exact absurd (he.symm.trans hz) h0
      · exact absurd (hz.symm.trans he) hne
    · exact absurd hself hne'

/-- A set appended later leaves the second row, of which it may be a copy. -/
theorem Table.second_later {nm : ℤ} (h : Table g words names j c (tm,ns)) (h1 : 1 < tm.numTn) :
    SecondRow words.length j (c+1) (tm.append j c ⟨nm,t⟩) := by
  have hpos : 0 < tm.numTn := h.pos
  obtain ⟨c0,hd0,hc0,hne10,hbefore,hcopy⟩ := h.second h1
  have hd' := hd0.2
  refine ⟨c0,⟨hd0.1,by omega⟩,?_,?_,?_,?_⟩
  · rw [cell_append_ne (by omega),row_append h1]
    exact hc0
  · rw [row_append h1,row_append hpos]
    exact hne10
  · intro c' hc'
    rw [cell_append_ne (by omega),row_append hpos]
    exact hbefore c' hc'
  · intro j' c' hd hne he
    rw [row_append h1] at he ⊢
    rcases done_succ hd with ⟨hd,hne'⟩|⟨rfl,rfl⟩
    · rw [cell_append_ne hne'] at he
      obtain ⟨k,hk2,hk,hr⟩ := hcopy j' c' hd hne he
      exact ⟨k,hk2,Nat.lt_succ_of_lt hk,(row_append hk _).trans hr⟩
    · rw [cell_append_self] at he
      exact ⟨tm.numTn,h1,Nat.lt_succ_self _,(row_append_last _).trans he⟩

/-- A cell whose set is appended keeps the invariant. -/
theorem Table.grow {w nm : ℤ} {ns' : List ℤ} (h : Table g words names j c (tm,ns))
    (hj : j < tm.numTn) (hw : words[c]?=some w) (hs : t.Pairwise (·<·))
    (hsp : ∀ T,Spells g.toGraph (tm.row j) T → Spells g.toGraph t (g.auto.stepSet T w))
    (h0 : t≠[]) (hN : New tm t) (hlt : tm.numTn < maxNodes) (hl : maxNodes ≤ names.length)
    (hname : (nm,ns')=scanName (tm.cell j c).newname ns) :
    Table g words names j (c+1) (tm.append j c ⟨nm,t⟩,ns') := by
  have hc : c < words.length := (List.getElem?_eq_some_iff.mp hw).1
  have hpos : 0 < tm.numTn := h.pos
  have hrest : ns=names.drop tm.numTn := h.rest
  have hdrop : names.drop tm.numTn=names[tm.numTn]::names.drop (tm.numTn+1) :=
    List.drop_eq_getElem_cons (by omega)
  rw [hrest,hdrop] at hname
  obtain ⟨rfl,rfl⟩ := Prod.mk.inj hname
  constructor
  case words_eq => exact h.words_eq
  case pos => exact Nat.succ_pos _
  case bound => exact hlt
  case sorted =>
    intro k hk
    rcases lt_append hk with hk|rfl
    · rw [row_append hk]
      exact h.sorted k hk
    · rw [row_append_last]
      exact hs
  case ne_nil =>
    intro k hk
    rcases lt_append hk with hk|rfl
    · rw [row_append hk]
      exact h.ne_nil k hk
    · rw [row_append_last]
      exact h0
  case reach =>
    intro k hk
    rcases lt_append hk with hk|rfl
    · rw [row_append hk]
      exact h.reach k hk
    · obtain ⟨u,hu,hsu⟩ := h.reach j hj
      refine ⟨u++[w],?_,?_⟩
      · intro a ha
        rcases List.mem_append.mp ha with ha|ha
        · exact hu a ha
        · rw [List.mem_singleton.mp ha]
          exact List.mem_of_getElem? hw
      · rw [row_append_last,εNFA.eval_append_singleton]
        exact hsp _ hsu
  case first =>
    rw [row_append hpos]
    exact h.first
  case blank =>
    intro j' c' ha
    rw [cell_append_ne (by omega)]
    exact h.blank j' c' (by omega)
  case cell_sorted =>
    intro j' c' hd
    rcases done_succ hd with ⟨hd,hne⟩|⟨rfl,rfl⟩
    · rw [cell_append_ne hne]
      exact h.cell_sorted j' c' hd
    · rw [cell_append_self]
      exact hs
  case cell_spells =>
    intro j' c' w' T hd hw' hT
    have hj' : j' < tm.numTn := by
      have := hd.2
      omega
    rw [row_append hj'] at hT
    rcases done_succ hd with ⟨hd,hne⟩|⟨rfl,rfl⟩
    · rw [cell_append_ne hne]
      exact h.cell_spells j' c' w' T hd hw' hT
    · rw [hw] at hw'
      obtain rfl := Option.some.inj hw'
      rw [cell_append_self]
      exact hsp T hT
  case listed =>
    intro j' c' hd hne0
    rcases done_succ hd with ⟨hd,hne⟩|⟨rfl,rfl⟩
    · rw [cell_append_ne hne] at hne0 ⊢
      obtain ⟨k,hk,hr,hn⟩ := h.listed j' c' hd hne0
      refine ⟨k,Nat.lt_succ_of_lt hk,(row_append hk _).trans hr,?_⟩
      rw [hn,append_row,if_neg (Nat.ne_of_lt hk)]
    · refine ⟨tm.numTn,Nat.lt_succ_self _,?_,?_⟩
      · rw [row_append_last,cell_append_self]
      · rw [cell_append_self,append_row,if_pos rfl]
  case named =>
    intro k hk
    rw [append_row]
    rcases lt_append hk with hk|rfl
    · rw [if_neg (Nat.ne_of_lt hk)]
      exact h.named k hk
    · rw [if_pos rfl,List.getD_eq_getElem?_getD,List.getElem?_eq_getElem (hlt.trans_le hl)]
      rfl
  case rest => rfl
  case single =>
    intro h1
    rw [append_numTn] at h1
    omega
  case second =>
    intro _
    rcases Nat.eq_or_lt_of_le (Nat.succ_le_of_lt hpos) with h1|h1
    · obtain rfl : j=0 := by omega
      exact h.second_first hc h0 hN h1.symm
    · exact h.second_later h1

/-! ## The condition -/

/-- The non-empty sets of states that words over the characters lead to. -/
def reachSets (g : Graph) (words : List ℤ) : Set (Set ℕ) :=
  {T | T.Nonempty ∧ ∃ u,(∀ a ∈ u,a ∈ words) ∧ T=g.auto.eval u}

/-- The second set of the search is entered again: a character c is the first
to lead from the start set to a new set, and another set or another
character leads to the same set. -/
def Rediscovered (g : Graph) (words : List ℤ) : Prop :=
  ∃ pre c post,words=pre++c::post ∧
    (∀ d ∈ pre,g.auto.stepSet (g.auto.eval []) d=∅ ∨
      g.auto.stepSet (g.auto.eval []) d=g.auto.eval []) ∧
    g.auto.stepSet (g.auto.eval []) c≠∅ ∧ g.auto.stepSet (g.auto.eval []) c≠g.auto.eval [] ∧
    ∃ u d,(∀ a ∈ u,a ∈ words) ∧ d ∈ words ∧ ¬(g.auto.eval u=g.auto.eval [] ∧ d=c) ∧
      g.auto.stepSet (g.auto.eval u) d=g.auto.stepSet (g.auto.eval []) c

/-- No set is listed twice. -/
def Distinct (tm : TranMatrix) : Prop :=
  ∀ k l,k < tm.numTn → l < tm.numTn → tm.row k=tm.row l → k=l

/-- The cells of row 0 before the second row was found lead nowhere new. -/
theorem Table.quiet {w : ℤ} {c' : ℕ} (h : Table g words names j c (tm,ns))
    (hd : Done words.length j c 0 c') (hw : words[c']?=some w)
    (hq : (tm.cell 0 c').ch=[] ∨ (tm.cell 0 c').ch=tm.row 0) :
    g.auto.stepSet (g.auto.eval []) w=∅ ∨ g.auto.stepSet (g.auto.eval []) w=g.auto.eval [] := by
  have hc := h.cell_spells 0 c' w _ hd hw h.first
  rcases hq with hq|hq
  · exact Or.inl (hc.eq_nil_iff.mp hq)
  · exact Or.inr (Spells.unique (by rwa [hq] at hc) h.first)

/-- The second row shows its character: the ones before it lead nowhere new. -/
theorem Table.second_split (h : Table g words names j c (tm,ns)) {c0 : ℕ} {w0 : ℤ}
    (hd : Done words.length j c 0 c0) (hw : words[c0]?=some w0)
    (hc0 : (tm.cell 0 c0).ch=tm.row 1) (h1 : 1 < tm.numTn) (hne : tm.row 1≠tm.row 0)
    (hb : ∀ c' < c0,(tm.cell 0 c').ch=[] ∨ (tm.cell 0 c').ch=tm.row 0) :
    words=words.take c0++w0::words.drop (c0+1) ∧
    (∀ d ∈ words.take c0,g.auto.stepSet (g.auto.eval []) d=∅ ∨
      g.auto.stepSet (g.auto.eval []) d=g.auto.eval []) ∧
    g.auto.stepSet (g.auto.eval []) w0≠∅ ∧ g.auto.stepSet (g.auto.eval []) w0≠g.auto.eval [] ∧
    Spells g.toGraph (tm.row 1) (g.auto.stepSet (g.auto.eval []) w0) := by
  have hs := h.cell_spells 0 c0 w0 _ hd hw h.first
  rw [hc0] at hs
  obtain ⟨hlt,hget⟩ := List.getElem?_eq_some_iff.mp hw
  refine ⟨?_,?_,?_,?_,hs⟩
  · rw [←hget,←List.drop_eq_getElem_cons hlt,List.take_append_drop]
  · intro d hmem
    obtain ⟨k,hk⟩ := List.mem_iff_getElem?.mp hmem
    have hkc : k < c0 := by
      have := (List.getElem?_eq_some_iff.mp hk).1
      rw [List.length_take] at this
      omega
    rw [List.getElem?_take_of_lt hkc] at hk
    have hd' := hd.2
    exact h.quiet ⟨hkc.trans hlt,by omega⟩ hk (hb k hkc)
  · exact fun he => h.ne_nil 1 h1 (hs.eq_nil_iff.mpr he)
  · intro he
    rw [he] at hs
    exact hne (hs.eq h.first (h.sorted 1 h1) (h.sorted 0 h.pos))

/-- With distinct rows, a cell that leads to row 1 again is a rediscovery. -/
theorem Table.rediscovered {w : ℤ} (h : Table g words names j c (tm,ns)) (hj : j < tm.numTn)
    (hw : words[c]?=some w) (hnd : words.Nodup) (hdist : Distinct tm) (h1 : 1 < tm.numTn)
    (hsp : ∀ T,Spells g.toGraph (tm.row j) T → Spells g.toGraph (tm.row 1) (g.auto.stepSet T w)) :
    Rediscovered g.toGraph words := by
  obtain ⟨c0,hd0,hc0,hne10,hbefore,-⟩ := h.second h1
  have hw0 := List.getElem?_eq_getElem hd0.1
  obtain ⟨hsplit,hpre,hne,hnes,hs1⟩ := h.second_split hd0 hw0 hc0 h1 hne10 hbefore
  obtain ⟨u,hu,hsu⟩ := h.reach j hj
  refine ⟨_,_,_,hsplit,hpre,hne,hnes,u,w,hu,List.mem_of_getElem? hw,?_,(hsp _ hsu).unique hs1⟩
  rintro ⟨hu0,hww⟩
  rw [hu0] at hsu
  obtain rfl := hdist j 0 hj h.pos (hsu.eq h.first (h.sorted j hj) (h.sorted 0 h.pos))
  have hcc : c0=c := by
    obtain ⟨hlt,hget⟩ := List.getElem?_eq_some_iff.mp hw
    exact (List.Nodup.getElem_inj_iff hnd).mp (hww.symm.trans hget.symm)
  have := hd0.2
  omega

/-- The set a string denotes. -/
def denote (g : Graph) (s : Str) : Set ℕ := {p | ∃ x ∈ s,g.name p=some x}

/-- A text denotes the set that it spells. -/
theorem Spells.denote {s : Str} {T : Set ℕ} (h : Spells g.toGraph s T) : denote g.toGraph s=T := by
  ext p
  constructor
  · rintro ⟨x,hx,hp⟩
    obtain ⟨q,hq,hqx⟩ := (h.mem x).mp hx
    rwa [name_inj hp hqx]
  · intro hp
    obtain ⟨x,hx⟩ := name_of_lt (h.valid p hp)
    exact ⟨x,(h.mem x).mpr ⟨p,hp,hx⟩,hx⟩

/-- Distinct rows and a further set are more sets than the column has rows. -/
theorem Table.not_full {w : ℤ} (h : Table g words names j c (tm,ns)) (hj : j < tm.numTn)
    (hw : words[c]?=some w) (hs : t.Pairwise (·<·))
    (hsp : ∀ T,Spells g.toGraph (tm.row j) T → Spells g.toGraph t (g.auto.stepSet T w))
    (h0 : t≠[]) (hdist : Distinct tm) (hfresh : ∀ k < tm.numTn,tm.row k≠t)
    (hr : (reachSets g.toGraph words).encard ≤ maxNodes) : tm.numTn < maxNodes := by
  have hin : ∀ s u,s≠[] → (∀ a ∈ u,a ∈ words) → Spells g.toGraph s (g.auto.eval u) →
      Nfa.denote g.toGraph s ∈ reachSets g.toGraph words := by
    intro s u hs0 hu hsu
    rw [hsu.denote]
    exact ⟨Set.nonempty_iff_ne_empty.mpr fun he => hs0 (hsu.eq_nil_iff.mpr he),u,hu,rfl⟩
  obtain ⟨uj,huj,hsuj⟩ := h.reach j hj
  have hspt := hsp _ hsuj
  rw [←εNFA.eval_append_singleton] at hspt
  have hwt : ∀ a ∈ uj++[w],a ∈ words := by
    intro a ha
    rcases List.mem_append.mp ha with ha|ha
    · exact huj a ha
    · rw [List.mem_singleton.mp ha]
      exact List.mem_of_getElem? hw
  let f : ℕ → Set ℕ := fun k => Nfa.denote g.toGraph (if k < tm.numTn then tm.row k else t)
  have hf : ∀ k,f k ∈ reachSets g.toGraph words := by
    intro k
    by_cases hk : k < tm.numTn
    · obtain ⟨u,hu,hsu⟩ := h.reach k hk
      simp only [f,if_pos hk]
      exact hin _ u (h.ne_nil k hk) hu hsu
    · simp only [f,if_neg hk]
      exact hin _ _ h0 hwt hspt
  have heq : ∀ {s s' : Str} {U V : Set ℕ},Spells g.toGraph s U → Spells g.toGraph s' V →
      s.Pairwise (·<·) → s'.Pairwise (·<·) →
      Nfa.denote g.toGraph s=Nfa.denote g.toGraph s' → s=s' := by
    intro s s' U V hU hV hps hps' he
    rw [hU.denote,hV.denote] at he
    exact hU.eq (he▸hV) hps hps'
  have hinj : Set.InjOn f (Finset.range (tm.numTn+1)) := by
    intro k hk l hl hkl
    have hk' := Finset.mem_range.mp hk
    have hl' := Finset.mem_range.mp hl
    by_cases hkn : k < tm.numTn <;> by_cases hln : l < tm.numTn
    · obtain ⟨u,-,hsu⟩ := h.reach k hkn
      obtain ⟨v,-,hsv⟩ := h.reach l hln
      simp only [f,if_pos hkn,if_pos hln] at hkl
      exact hdist k l hkn hln (heq hsu hsv (h.sorted k hkn) (h.sorted l hln) hkl)
    · obtain ⟨u,-,hsu⟩ := h.reach k hkn
      simp only [f,if_pos hkn,if_neg hln] at hkl
      exact absurd (heq hsu hspt (h.sorted k hkn) hs hkl) (hfresh k hkn)
    · obtain ⟨v,-,hsv⟩ := h.reach l hln
      simp only [f,if_neg hkn,if_pos hln] at hkl
      exact absurd (heq hspt hsv hs (h.sorted l hln) hkl).symm (hfresh l hln)
    · omega
  have hcard : (((Finset.range (tm.numTn+1)).image f : Finset (Set ℕ)) : Set (Set ℕ)).encard ≤
      maxNodes := by
    refine (Set.encard_le_encard ?_).trans hr
    intro T hT
    obtain ⟨k,-,rfl⟩ := Finset.mem_image.mp (Finset.mem_coe.mp hT)
    exact hf k
  rw [Set.encard_coe_eq_coe_finsetCard,Finset.card_image_of_injOn hinj,Finset.card_range] at hcard
  exact_mod_cast hcard

end StudyCode.Nfa
