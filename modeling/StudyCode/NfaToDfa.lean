import StudyCode.NfaTable

/-!
# The subset construction as a whole

The loops keep the invariant of the table from the first row to the end.
When the second set is entered only once they also keep the rows distinct
and never leave the column, and the finished table is the subset automaton.
When it is entered again a finished table lists it twice.
-/

namespace StudyCode.Nfa

variable {g : NamedGraph} {words names : List ℤ} {j c : ℕ}

/-- One cell of a run that goes on keeps the invariant. -/
theorem Table.step {st st' : TranMatrix × List ℤ} (h : Table g words names j c st)
    (hj : j < st.1.numTn) (hc : c < words.length) (hl : maxNodes ≤ names.length)
    (hr : fillCell g.toGraph j st (c+1)=some st') :
    Table g words names j (c+1) st' ∧ st.1.numTn ≤ st'.1.numTn := by
  obtain ⟨tm,ns⟩ := st
  have hw := List.getElem?_eq_getElem hc
  obtain ⟨t,hs,hsp,ho⟩ := h.fillCell_outcome hj hw
  rw [hr] at ho
  cases ho with
  | empty nm h0 => exact ⟨h.keep hj hw hs hsp fun hn => absurd h0 hn,Nat.le_refl _⟩
  | known k hk h1 hk' => exact ⟨h.keep hj hw hs hsp fun _ => ⟨k,hk,h1,hk',rfl⟩,Nat.le_refl _⟩
  | appended nm ns' h0 hN hlt hn => exact ⟨h.grow hj hw hs hsp h0 hN hlt hl hn,Nat.le_succ _⟩

/-- Distinct rows stay distinct and inside the column while no cell leads
back to the second set. -/
theorem Table.step_distinct {st : TranMatrix × List ℤ} (h : Table g words names j c st)
    (hj : j < st.1.numTn) (hc : c < words.length) (hnd : words.Nodup)
    (hr : (reachSets g.toGraph words).encard ≤ maxNodes) (hclear : ¬Rediscovered g.toGraph words)
    (hdist : Distinct st.1) :
    ∃ st',fillCell g.toGraph j st (c+1)=some st' ∧ Distinct st'.1 := by
  obtain ⟨tm,ns⟩ := st
  have hw := List.getElem?_eq_getElem hc
  obtain ⟨t,hs,hsp,ho⟩ := h.fillCell_outcome hj hw
  have hkept : ∀ a,Distinct (tm.set (c+1) j a) := by
    intro a k l hk hl he
    unfold TranMatrix.row at he
    rw [set_row,set_row] at he
    exact hdist k l hk hl he
  have hfresh : New tm t → ∀ k < tm.numTn,tm.row k≠t := by
    rintro (hN|⟨h1,rfl⟩)
    · exact hN
    · exact absurd (h.rediscovered hj hw hnd hdist h1 hsp) hclear
  generalize fillCell g.toGraph j (tm,ns) (c+1)=r at ho
  cases ho with
  | empty nm h0 => exact ⟨_,rfl,hkept _⟩
  | known k hk h1 hk' => exact ⟨_,rfl,hkept _⟩
  | appended nm ns' h0 hN hlt hn =>
    refine ⟨_,rfl,?_⟩
    change Distinct (tm.append j c ⟨nm,t⟩)
    intro k l hk hl he
    change k < tm.numTn+1 at hk
    change l < tm.numTn+1 at hl
    unfold TranMatrix.row at he
    rw [append_row,append_row] at he
    split at he <;> split at he
    case isTrue.isTrue hk' hl' => omega
    case isTrue.isFalse hk' hl' => exact absurd he.symm (hfresh hN l (by omega))
    case isFalse.isTrue hk' hl' => exact absurd he (hfresh hN k (by omega))
    case isFalse.isFalse hk' hl' =>
      have hkn : k < tm.numTn := by omega
      have hln : l < tm.numTn := by omega
      exact hdist k l hkn hln he
  | full h0 hN hge =>
    exact absurd (h.not_full hj hw hs hsp h0 hdist (hfresh hN) hr) (not_lt.mpr hge)

/-- At the end of a row the loops stand at the start of the next. -/
theorem Table.nextRow {st : TranMatrix × List ℤ} (h : Table g words names j words.length st) :
    Table g words names (j+1) 0 st := by
  have hd : ∀ {j' c'},Done words.length (j+1) 0 j' c' → Done words.length j words.length j' c' :=
    fun hd => ⟨hd.1,by have := hd.1;have := hd.2;omega⟩
  refine ⟨h.words_eq,h.pos,h.bound,h.sorted,h.ne_nil,h.reach,h.first,?_,?_,?_,?_,h.named,h.rest,?_,?_⟩
  · exact fun j' c' ha => h.blank j' c' (by omega)
  · exact fun j' c' hd' => h.cell_sorted j' c' (hd hd')
  · exact fun j' c' w T hd' => h.cell_spells j' c' w T (hd hd')
  · exact fun j' c' hd' => h.listed j' c' (hd hd')
  · exact fun h1 j' c' hd' => h.single h1 j' c' (hd hd')
  · intro h1
    obtain ⟨c0,hd0,hc0,hne,hb,hcopy⟩ := h.second h1
    exact ⟨c0,⟨hd0.1,by have := hd0.2;omega⟩,hc0,hne,hb,fun j' c' hd' => hcopy j' c' (hd hd')⟩

/-- The columns from c on. -/
theorem Table.cells (m : ℕ) {st st' : TranMatrix × List ℤ} (h : Table g words names j c st)
    (hm : c+m=words.length) (hj : j < st.1.numTn) (hl : maxNodes ≤ names.length)
    (hr : (List.range' (c+1) m).foldlM (fillCell g.toGraph j) st=some st') :
    Table g words names j words.length st' ∧ st.1.numTn ≤ st'.1.numTn := by
  induction m generalizing c st with
  | zero =>
    obtain rfl := Option.some.inj hr
    obtain rfl : c=words.length := by omega
    exact ⟨h,Nat.le_refl _⟩
  | succ m ih =>
    rw [List.range'_succ,List.foldlM_cons] at hr
    obtain ⟨st1,h1,h2⟩ := Option.bind_eq_some_iff.mp hr
    obtain ⟨hT,hle⟩ := h.step hj (by omega) hl h1
    obtain ⟨hT',hle'⟩ := ih hT (by omega) (hj.trans_le hle) h2
    exact ⟨hT',hle.trans hle'⟩

/-- The sets of a table are different. -/
theorem Table.cells_distinct (m : ℕ) {st : TranMatrix × List ℤ} (h : Table g words names j c st)
    (hm : c+m=words.length) (hj : j < st.1.numTn) (hl : maxNodes ≤ names.length)
    (hnd : words.Nodup) (hr : (reachSets g.toGraph words).encard ≤ maxNodes)
    (hclear : ¬Rediscovered g.toGraph words) (hdist : Distinct st.1) :
    ∃ st',(List.range' (c+1) m).foldlM (fillCell g.toGraph j) st=some st' ∧ Distinct st'.1 := by
  induction m generalizing c st with
  | zero => exact ⟨st,rfl,hdist⟩
  | succ m ih =>
    obtain ⟨st1,h1,hdist1⟩ := h.step_distinct hj (by omega) hnd hr hclear hdist
    obtain ⟨hT,hle⟩ := h.step hj (by omega) hl h1
    obtain ⟨st2,h2,hdist2⟩ := ih hT (by omega) (hj.trans_le hle) hdist1
    refine ⟨st2,?_,hdist2⟩
    rw [List.range'_succ,List.foldlM_cons,h1]
    exact h2

/-- A row is filled cell by cell. -/
theorem fillRow_eq {st : TranMatrix × List ℤ} (h : Table g words names j c st) :
    fillRow g.toGraph j st=(List.range' 1 words.length).foldlM (fillCell g.toGraph j) st := by
  unfold fillRow TranMatrix.transnum
  rw [h.words_eq]

/-- A run of the outer loop that ends leaves every row filled. -/
theorem Table.loop (fuel : ℕ) {st st' : TranMatrix × List ℤ} (h : Table g words names j 0 st)
    (hj : j ≤ st.1.numTn) (hl : maxNodes ≤ names.length)
    (hr : fillLoop g.toGraph fuel j st=some st') : Table g words names st'.1.numTn 0 st' := by
  induction fuel generalizing j st with
  | zero => cases hr
  | succ fuel ih =>
    rw [fillLoop] at hr
    split at hr
    case isTrue hlt =>
      obtain ⟨st1,h1,h2⟩ := Option.bind_eq_some_iff.mp hr
      rw [fillRow_eq h] at h1
      obtain ⟨hT,hle⟩ := h.cells words.length (by omega) hlt hl h1
      exact ih hT.nextRow (by omega) h2
    case isFalse hge =>
      obtain rfl := Option.some.inj hr
      obtain rfl : j=st.1.numTn := by omega
      exact h

/-- While the second set is entered only once the outer loop ends. -/
theorem Table.loop_distinct (fuel : ℕ) {st : TranMatrix × List ℤ} (h : Table g words names j 0 st)
    (hj : j ≤ st.1.numTn) (hf : maxNodes < j+fuel) (hl : maxNodes ≤ names.length)
    (hnd : words.Nodup) (hr : (reachSets g.toGraph words).encard ≤ maxNodes)
    (hclear : ¬Rediscovered g.toGraph words) (hdist : Distinct st.1) :
    ∃ st',fillLoop g.toGraph fuel j st=some st' ∧ Distinct st'.1 := by
  induction fuel generalizing j st with
  | zero =>
    have := h.bound
    omega
  | succ fuel ih =>
    rw [fillLoop]
    split
    case isTrue hlt =>
      obtain ⟨st1,h1,hdist1⟩ := h.cells_distinct words.length (by omega) hlt hl hnd hr hclear hdist
      obtain ⟨hT,hle⟩ := h.cells words.length (by omega) hlt hl h1
      obtain ⟨st2,h2,hdist2⟩ := ih hT.nextRow (by omega) (by omega) hdist1
      refine ⟨st2,?_,hdist2⟩
      rw [fillRow_eq h,h1]
      exact h2
    case isFalse hge => exact ⟨st,rfl,hdist⟩

/-! ## The first row -/

/-- The first name spells the start. -/
theorem spells_start : ∃ x,g.nodeTable[0]?.map Vertex.data=some x ∧ Spells g.toGraph [x] {0} := by
  obtain ⟨x,hx⟩ := name_of_lt (g:=g) g.pos
  refine ⟨x,hx,⟨fun y => ?_,fun p hp => by rw [Set.mem_singleton_iff.mp hp];exact g.pos⟩⟩
  rw [List.mem_singleton]
  constructor
  · rintro rfl
    exact ⟨0,rfl,hx⟩
  · rintro ⟨p,rfl,hp⟩
    exact Option.some.inj (hp.symm.trans hx)

/-- Closing again changes nothing. -/
theorem closures_spells (n : ℕ) {t : Str} {T : Set ℕ} (h : Spells g.toGraph t T) (ht : t.Nodup) :
    ∃ t',(List.range (n+1)).foldlM (fun t _ => eClosure g.toGraph t) t=some t' ∧
      t'.Pairwise (·<·) ∧ Spells g.toGraph t' (g.auto.εClosure T) := by
  induction n with
  | zero =>
    obtain ⟨t',h1,hs,hsp⟩ := eClosure_spells h ht
    refine ⟨t',?_,hs,hsp⟩
    change (eClosure g.toGraph t).bind _=_
    rw [h1]
    rfl
  | succ n ih =>
    obtain ⟨t1,h1,hs1,hsp1⟩ := ih
    obtain ⟨t2,h2,hs2,hsp2⟩ := eClosure_spells hsp1 (hs1.imp ne_of_lt)
    rw [εClosure_idem] at hsp2
    refine ⟨t2,?_,hs2,hsp2⟩
    rw [List.range_succ,List.foldlM_append]
    change Option.bind ((List.range (n+1)).foldlM (fun t _ => eClosure g.toGraph t) t) _=_
    rw [h1]
    change (eClosure g.toGraph t1).bind _=_
    rw [h2]
    rfl

/-- The matrix with its first row. -/
def started (words names : List ℤ) (t : Str) : TranMatrix × List ℤ :=
  ({(initMatrix words).set 0 0 ⟨(scanName 0 names).1,t⟩ with numTn := 1},(scanName 0 names).2)

/-- The first row. -/
theorem started_row (t : Str) (k : ℕ) :
    (started words names t).1.tn 0 k=if k=0 then ⟨(scanName 0 names).1,t⟩ else ⟨0,[]⟩ := by
  change (if 0=0 ∧ k=0 then _ else _)=_
  simp [initMatrix]

/-- No cell is filled at the start. -/
theorem started_cell (t : Str) (j c : ℕ) : (started words names t).1.cell j c=⟨0,[]⟩ := by
  change (if c+1=0 ∧ j=0 then (⟨(scanName 0 names).1,t⟩ : TableNode) else ⟨0,[]⟩)=_
  exact if_neg (by omega)

/-- The table at the start. -/
theorem started_table {t : Str} (hs : t.Pairwise (·<·))
    (hsp : Spells g.toGraph t (g.auto.eval [])) (hl : maxNodes ≤ names.length) :
    Table g words names 0 0 (started words names t) := by
  have hk : ∀ {k},k < (started words names t).1.numTn → k=0 := fun hk => Nat.lt_one_iff.mp hk
  have hrow : (started words names t).1.row 0=t := by
    unfold TranMatrix.row
    rw [started_row,if_pos rfl]
  have hd : ∀ {j' c'},¬Done words.length 0 0 j' c' := fun hd => by
    have := hd.2
    omega
  obtain ⟨n0,rest,rfl⟩ : ∃ n0 rest,names=n0::rest :=
    List.exists_cons_of_length_pos (Nat.lt_of_lt_of_le (by decide) hl)
  have hb : 1 ≤ maxNodes := by decide
  refine ⟨rfl,Nat.one_pos,hb,?_,?_,?_,?_,?_,?_,?_,?_,?_,?_,?_,?_⟩
  · intro k hk'
    rw [hk hk',hrow]
    exact hs
  · intro k hk'
    rw [hk hk',hrow]
    intro h0
    have h0' : (0 : ℕ) ∈ g.auto.eval [] := εNFA.εClosure.base 0 rfl
    rw [hsp.eq_nil_iff.mp h0] at h0'
    exact h0'
  · intro k hk'
    rw [hk hk',hrow]
    exact ⟨[],by simp,hsp⟩
  · rw [hrow]
    exact hsp
  · intro j' c' _
    rw [started_cell]
  · exact fun j' c' hd' => absurd hd' hd
  · exact fun j' c' w T hd' => absurd hd' hd
  · exact fun j' c' hd' => absurd hd' hd
  · intro k hk'
    rw [hk hk',started_row,if_pos rfl]
    rfl
  · rfl
  · exact fun _ j' c' hd' => absurd hd' hd
  · intro h1
    exact absurd h1 (lt_irrefl 1)

/-- The first row spells the closure of the start state, unless there is no
character and so no call of E_Closure. -/
theorem firstSet_spells (h : words≠[] ∨ g.auto.eval []={0}) :
    ∃ t,firstSet g.toGraph (initMatrix words)=some t ∧ t.Pairwise (·<·) ∧
      Spells g.toGraph t (g.auto.eval []) := by
  obtain ⟨x,hx,hsp⟩ := spells_start (g:=g)
  obtain ⟨v,hv,rfl⟩ := Option.map_eq_some_iff.mp hx
  have he : firstSet g.toGraph (initMatrix words)=
      (List.range words.length).foldlM (fun t _ => eClosure g.toGraph t) [v.data] := by
    unfold firstSet
    rw [hv]
    rfl
  rw [he]
  cases words with
  | nil =>
    rcases h with h|h
    · exact absurd rfl h
    · exact ⟨[v.data],rfl,List.pairwise_singleton _ _,by rwa [h]⟩
  | cons w words => exact closures_spells words.length hsp (List.nodup_singleton _)

/-- The conversion fills the table from its start. -/
theorem nfaToDfa_eq {t : Str} (h : firstSet g.toGraph (initMatrix words)=some t) :
    nfaToDfa g.toGraph (initMatrix words) names=
      (fillLoop g.toGraph (maxNodes+1) 0 (started words names t)).map Prod.fst := by
  unfold nfaToDfa
  rw [h]
  change Option.bind _ _=_
  rw [Option.map_eq_bind]
  rfl

/-! ## The finished table -/

/-- The row of column 0 with a name. -/
def rowOf (tm : TranMatrix) (name : ℤ) : Option ℕ :=
  (List.range tm.numTn).find? fun k => (tm.tn 0 k).newname=name

/-- One step of the table: from a row to the row named by its cell, or to the
dead state none when the cell is empty. -/
def tableStep (tm : TranMatrix) (s : Option ℕ) (a : ℤ) : Option ℕ :=
  match s,tm.transword.idxOf? a with
  | some j,some c => if (tm.cell j c).ch=[] then none else rowOf tm (tm.cell j c).newname
  | _,_ => none

/-- The set a word leads to in the table, from row 0 on. -/
def tableRun (tm : TranMatrix) (word : List ℤ) : Str :=
  match word.foldl (tableStep tm) (some 0) with
  | some j => tm.row j
  | none => []

/-- The table of the subset automaton. -/
structure SubsetTable (g : Graph) (words : List ℤ) (tm : TranMatrix) : Prop where
  /-- Every row is a reachable set. -/
  row : ∀ j < tm.numTn,∃ T ∈ reachSets g words,Spells g (tm.row j) T
  /-- Every reachable set has a row. -/
  all : ∀ T ∈ reachSets g words,∃ j < tm.numTn,Spells g (tm.row j) T
  /-- No set has two rows. -/
  once : ∀ j k T,j < tm.numTn → k < tm.numTn → Spells g (tm.row j) T → Spells g (tm.row k) T → j=k
  /-- A cell is the closed set its row leads to, named as the row of that
  set. -/
  cell : ∀ j < tm.numTn,∀ c w T,words[c]?=some w → Spells g (tm.row j) T →
    Spells g (tm.cell j c).ch (g.auto.stepSet T w) ∧ (g.auto.stepSet T w≠∅ →
      ∃ k < tm.numTn,Spells g (tm.row k) (g.auto.stepSet T w) ∧
        (tm.cell j c).newname=(tm.tn 0 k).newname)
  /-- The table run over a word ends in the states the word leads to. -/
  run : ∀ word,(∀ a ∈ word,a ∈ words) → Spells g (tableRun tm word) (g.auto.eval word)

section Finished

variable {tm : TranMatrix} {ns : List ℤ}

/-- Behind the loop every cell is done. -/
theorem done_of_lt {w : ℤ} (hj : j < tm.numTn) (hw : words[c]?=some w) :
    Done words.length tm.numTn 0 j c :=
  ⟨(List.getElem?_eq_some_iff.mp hw).1,Or.inl hj⟩

/-- A filled cell spells a step, and a non-empty step has a row of that
name. -/
theorem Table.cell_row (h : Table g words names tm.numTn 0 (tm,ns)) {w : ℤ} {T : Set ℕ}
    (hj : j < tm.numTn) (hw : words[c]?=some w) (hT : Spells g.toGraph (tm.row j) T) :
    Spells g.toGraph (tm.cell j c).ch (g.auto.stepSet T w) ∧ (g.auto.stepSet T w≠∅ →
      ∃ k < tm.numTn,Spells g.toGraph (tm.row k) (g.auto.stepSet T w) ∧
        (tm.cell j c).newname=(tm.tn 0 k).newname) := by
  have hs := h.cell_spells j c w T (done_of_lt hj hw) hw hT
  refine ⟨hs,fun hne => ?_⟩
  obtain ⟨k,hk,hr,hn⟩ := h.listed j c (done_of_lt hj hw) fun h0 => hne (hs.eq_nil_iff.mp h0)
  have hr' : tm.row k=(tm.cell j c).ch := hr
  exact ⟨k,hk,by rwa [hr'],hn⟩

/-- Distinct names find their rows. -/
theorem Table.rowOf_eq (h : Table g words names tm.numTn 0 (tm,ns)) (hn : names.Nodup)
    (hl : maxNodes ≤ names.length) {k : ℕ} (hk : k < tm.numTn) :
    rowOf tm (tm.tn 0 k).newname=some k := by
  have hb : tm.numTn ≤ maxNodes := h.bound
  have hname : ∀ {i},i < tm.numTn → ∃ hi : i < names.length,(tm.tn 0 i).newname=names[i] := by
    intro i hi
    refine ⟨by omega,?_⟩
    have hni := h.named i hi
    rw [List.getD_eq_getElem?_getD,List.getElem?_eq_getElem (by omega)] at hni
    exact hni
  unfold rowOf
  cases hf : (List.range tm.numTn).find? fun i => (tm.tn 0 i).newname=(tm.tn 0 k).newname with
  | none => exact absurd (decide_eq_true rfl) (List.find?_eq_none.mp hf k (List.mem_range.mpr hk))
  | some i =>
    have hi := List.mem_range.mp (List.mem_of_find?_eq_some hf)
    have hd := List.find?_some hf
    have he := of_decide_eq_true hd
    obtain ⟨hil,hin⟩ := hname hi
    obtain ⟨hkl,hkn⟩ := hname hk
    rw [hin,hkn] at he
    rw [(List.Nodup.getElem_inj_iff hn).mp he]

/-- A word leads to the row of its set. -/
theorem Table.run_spells (h : Table g words names tm.numTn 0 (tm,ns)) (hn : names.Nodup)
    (hl : maxNodes ≤ names.length) (word : List ℤ) (hword : ∀ a ∈ word,a ∈ words) :
    (∃ j < tm.numTn,word.foldl (tableStep tm) (some 0)=some j ∧
      Spells g.toGraph (tm.row j) (g.auto.eval word)) ∨
    (word.foldl (tableStep tm) (some 0)=none ∧ g.auto.eval word=∅) := by
  induction word using List.reverseRecOn with
  | nil => exact Or.inl ⟨0,h.pos,rfl,h.first⟩
  | append_singleton word a ih =>
    have ha : a ∈ words := hword a (by simp)
    rw [List.foldl_append,εNFA.eval_append_singleton]
    rcases ih (fun b hb => hword b (by simp [hb])) with ⟨j,hj,hf,hs⟩|⟨hf,he⟩
    · obtain ⟨c,hc⟩ := Option.isSome_iff_exists.mp (List.isSome_idxOf?.mpr ha)
      have hw : words[c]?=some a := by
        obtain ⟨hlt,hget,-⟩ := List.idxOf?_eq_some_iff.mp hc
        rw [List.getElem?_eq_getElem hlt,hget]
      obtain ⟨hcell,hrow⟩ := h.cell_row hj hw hs
      have hwords : tm.transword=words := h.words_eq
      have hstep : tableStep tm (some j) a=
          if (tm.cell j c).ch=[] then none else rowOf tm (tm.cell j c).newname := by
        unfold tableStep
        rw [hwords,hc]
      rw [hf,List.foldl_cons,List.foldl_nil,hstep]
      by_cases h0 : (tm.cell j c).ch=[]
      · rw [if_pos h0]
        exact Or.inr ⟨rfl,hcell.eq_nil_iff.mp h0⟩
      · rw [if_neg h0]
        obtain ⟨k,hk,hsk,hnm⟩ := hrow fun he => h0 (hcell.eq_nil_iff.mpr he)
        refine Or.inl ⟨k,hk,?_,hsk⟩
        rw [hnm,h.rowOf_eq hn hl hk]
    · rw [hf,he]
      exact Or.inr ⟨rfl,εNFA.stepSet_empty a⟩

/-- A finished table with distinct rows is the subset automaton. -/
theorem Table.subsetTable (h : Table g words names tm.numTn 0 (tm,ns)) (hdist : Distinct tm)
    (hn : names.Nodup) (hl : maxNodes ≤ names.length) : SubsetTable g.toGraph words tm := by
  refine ⟨?_,?_,?_,fun j hj c w T hw hT => h.cell_row hj hw hT,?_⟩
  · intro j hj
    obtain ⟨u,hu,hs⟩ := h.reach j hj
    have hne : (g.auto.eval u).Nonempty :=
      Set.nonempty_iff_ne_empty.mpr fun he => h.ne_nil j hj (hs.eq_nil_iff.mpr he)
    exact ⟨_,⟨hne,u,hu,rfl⟩,hs⟩
  · rintro T ⟨hne,u,hu,rfl⟩
    rcases h.run_spells hn hl u hu with ⟨j,hj,-,hs⟩|⟨-,he⟩
    · exact ⟨j,hj,hs⟩
    · exact absurd he (Set.nonempty_iff_ne_empty.mp hne)
  · exact fun j k T hj hk hsj hsk => hdist j k hj hk (hsj.eq hsk (h.sorted j hj) (h.sorted k hk))
  · intro word hword
    unfold tableRun
    rcases h.run_spells hn hl word hword with ⟨j,-,hf,hs⟩|⟨hf,he⟩
    · rw [hf]
      exact hs
    · rw [hf,he]
      exact ⟨by simp,by simp⟩

/-- A finished table that lists no set twice shows that the second set is
entered only once. -/
theorem Table.not_rediscovered (h : Table g words names tm.numTn 0 (tm,ns))
    (hok : SubsetTable g.toGraph words tm) : ¬Rediscovered g.toGraph words := by
  rintro ⟨pre,a,post,hsplit,hpre,hne,hnes,u,d,hu,hd,hother,heq⟩
  have hget : words[pre.length]?=some a := by
    rw [hsplit,List.getElem?_append_right (Nat.le_refl _),Nat.sub_self]
    rfl
  have hcell := h.cell_spells 0 _ a _ (done_of_lt h.pos hget) hget h.first
  have h1 : 1 < tm.numTn := by
    by_contra h1
    have hpos : 0 < tm.numTn := h.pos
    rcases h.single (by change tm.numTn=1;omega) 0 _ (done_of_lt hpos hget) with h0|h0
    · exact hne (hcell.eq_nil_iff.mp h0)
    · exact hnes (Spells.unique (by rwa [h0] at hcell) h.first)
  obtain ⟨c0,hd0,hc0,hne10,hbefore,hcopy⟩ := h.second h1
  obtain ⟨w0,hw0⟩ : ∃ w0,words[c0]?=some w0 := ⟨_,List.getElem?_eq_getElem hd0.1⟩
  obtain ⟨hsplit0,hpre0,hne0,hnes0,hs1⟩ := h.second_split hd0 hw0 hc0 h1 hne10 hbefore
  have hc : c0=pre.length := by
    rcases lt_trichotomy c0 pre.length with hlt|he|hlt
    · have hmem : w0 ∈ pre := by
        have hg : words[c0]?=pre[c0]? := by
          rw [hsplit,List.getElem?_append_left hlt]
        rw [hw0] at hg
        exact List.mem_of_getElem? hg.symm
      rcases hpre _ hmem with h0|h0
      · exact absurd h0 hne0
      · exact absurd h0 hnes0
    · exact he
    · have hmem : a ∈ words.take c0 :=
        List.mem_of_getElem? ((List.getElem?_take_of_lt hlt).trans hget)
      rcases hpre0 a hmem with h0|h0
      · exact absurd h0 hne
      · exact absurd h0 hnes
  have ha : w0=a := by
    subst hc
    rw [hget] at hw0
    exact (Option.some.inj hw0).symm
  rw [ha] at hs1
  obtain ⟨k,hk⟩ := List.mem_iff_getElem?.mp hd
  have hune : (g.auto.eval u).Nonempty := by
    rw [Set.nonempty_iff_ne_empty]
    intro he
    rw [he,εNFA.stepSet_empty] at heq
    exact hne heq.symm
  obtain ⟨j,hj,hsj⟩ := hok.all _ ⟨hune,u,hu,rfl⟩
  have hcj := h.cell_spells j k d _ (done_of_lt hj hk) hk hsj
  rw [heq] at hcj
  have hrow : (tm.cell j k).ch=tm.row 1 :=
    hcj.eq hs1 (h.cell_sorted j k (done_of_lt hj hk)) (h.sorted 1 h1)
  have hnot : ¬(j=0 ∧ k=c0) := by
    rintro ⟨rfl,rfl⟩
    refine hother ⟨hsj.unique h.first,?_⟩
    rw [hw0] at hk
    rw [←ha]
    exact (Option.some.inj hk).symm
  obtain ⟨l,hl2,hl,hlr⟩ := hcopy j k (done_of_lt hj hk) hnot hrow
  have hlr' : tm.row l=tm.row 1 := hlr
  have := hok.once l 1 _ hl h1 (by rw [hlr'];exact hs1) hs1
  omega

end Finished

/-- For every graph and every list of distinct characters with at most ten
reachable sets, the construction ends with the table of the subset automaton
exactly when E_Closure is called on the first row or has nothing to add to
it, and the second set of the search is entered only once. -/
theorem nfaToDfa_subset_iff (g : NamedGraph) (words names : List ℤ) (hnd : words.Nodup)
    (hn : names.Nodup) (hl : maxNodes ≤ names.length)
    (hr : (reachSets g.toGraph words).encard ≤ maxNodes) :
    (∃ tm,nfaToDfa g.toGraph (initMatrix words) names=some tm ∧ SubsetTable g.toGraph words tm) ↔
      (words≠[] ∨ g.auto.eval []={0}) ∧ ¬Rediscovered g.toGraph words := by
  by_cases hfirst : words≠[] ∨ g.auto.eval []={0}
  · obtain ⟨t,ht,hs,hsp⟩ := firstSet_spells hfirst
    have hT := (started_table hs hsp hl : Table g words names 0 0 (started words names t))
    rw [nfaToDfa_eq ht]
    constructor
    · rintro ⟨tm,htm,hok⟩
      obtain ⟨st,hst,rfl⟩ := Option.map_eq_some_iff.mp htm
      have hfin := hT.loop _ (Nat.zero_le _) hl hst
      exact ⟨hfirst,hfin.not_rediscovered hok⟩
    · rintro ⟨-,hclear⟩
      have hdist : Distinct (started words names t).1 := fun k l hk hl' _ => by
        rw [Nat.lt_one_iff.mp hk,Nat.lt_one_iff.mp hl']
      obtain ⟨st,hst,hdist'⟩ :=
        hT.loop_distinct (maxNodes+1) (Nat.zero_le _) (by omega) hl hnd hr hclear hdist
      have hfin := hT.loop _ (Nat.zero_le _) hl hst
      exact ⟨st.1,by rw [hst];rfl,hfin.subsetTable hdist' hn hl⟩
  · refine iff_of_false ?_ fun h => hfirst h.1
    rintro ⟨tm,htm,hok⟩
    obtain ⟨hw,hne⟩ := not_or.mp hfirst
    obtain rfl := not_not.mp hw
    obtain ⟨x,hx,hsp⟩ := spells_start (g:=g)
    obtain ⟨v,hv,rfl⟩ := Option.map_eq_some_iff.mp hx
    have ht : firstSet g.toGraph (initMatrix [])=some [v.data] := by
      unfold firstSet
      rw [hv]
      rfl
    rw [nfaToDfa_eq ht] at htm
    obtain rfl := Option.some.inj htm
    obtain ⟨T,⟨-,u,hu,rfl⟩,hT⟩ := hok.row 0 Nat.one_pos
    obtain rfl : u=[] := List.eq_nil_iff_forall_not_mem.mpr fun a ha => List.not_mem_nil (hu a ha)
    exact hne (hT.unique hsp)

/-- A word ends at places of the table. -/
theorem eval_lt {p : ℕ} {u : List ℤ} (hp : p ∈ g.auto.eval u) : p < g.nodeTable.length := by
  induction u using List.reverseRecOn with
  | nil => exact εClosure_lt (fun q hq => by rw [Set.mem_singleton_iff.mp hq];exact g.pos) hp
  | append_singleton u a ih =>
    rw [εNFA.eval_append_singleton] at hp
    obtain ⟨q,-,hq⟩ := εNFA.mem_stepSet_iff.mp hp
    exact εClosure_lt (fun r hr => step_lt hr) hq

/-- The reachable sets are subsets of the states. -/
theorem reachSets_encard_le (g : NamedGraph) (words : List ℤ) :
    (reachSets g.toGraph words).encard ≤ (2^g.nodeTable.length : ℕ) := by
  have hsub : reachSets g.toGraph words ⊆ 𝒫 (Finset.range g.nodeTable.length : Set ℕ) := by
    rintro T ⟨-,u,-,rfl⟩ p hp
    exact Finset.mem_coe.mpr (Finset.mem_range.mpr (eval_lt hp))
  refine (Set.encard_le_encard hsub).trans ?_
  have hfin := Finset.finite_toSet (Finset.range g.nodeTable.length)
  rw [←hfin.powerset.cast_ncard_eq,Set.ncard_powerset _ hfin,Set.ncard_coe_finset,Finset.card_range]

/-- Three states in a row over one character, the last one with a loop. -/
def chainGraph : NamedGraph where
  nodeTable := [⟨48,[⟨1,97⟩]⟩,⟨49,[⟨2,97⟩]⟩,⟨50,[⟨2,97⟩]⟩]
  pos := by decide
  few := by decide
  distinct := by decide
  nonNul := by decide
  dests := by decide

/-- The edges of the chain. -/
theorem chainGraph_step (p q : ℕ) (a : Option ℤ) :
    q ∈ chainGraph.auto.step p a ↔ a.getD epsilon=97 ∧ (p=0 ∧ q=1 ∨ p=1 ∧ q=2 ∨ p=2 ∧ q=2) := by
  constructor
  · rintro ⟨v,e,hv,he,hc,rfl⟩
    obtain ⟨hp,rfl⟩ := List.getElem?_eq_some_iff.mp hv
    change p < 3 at hp
    interval_cases p <;> obtain rfl := List.mem_singleton.mp he <;> exact ⟨hc.symm,by decide⟩
  · rintro ⟨ha,⟨rfl,rfl⟩|⟨rfl,rfl⟩|⟨rfl,rfl⟩⟩
    · exact ⟨_,_,rfl,List.mem_singleton_self _,ha.symm,rfl⟩
    · exact ⟨_,_,rfl,List.mem_singleton_self _,ha.symm,rfl⟩
    · exact ⟨_,_,rfl,List.mem_singleton_self _,ha.symm,rfl⟩

/-- The chain has no empty edge. -/
theorem chainGraph_closure (T : Set ℕ) : chainGraph.auto.εClosure T=T := by
  refine Set.Subset.antisymm (fun p hp => ?_) (chainGraph.auto.subset_εClosure T)
  induction hp with
  | base p hp => exact hp
  | step p q hq _ _ => exact absurd ((chainGraph_step p q none).mp hq).1 (by decide)

/-- The moves of the chain. -/
theorem chainGraph_stepSet (T : Set ℕ) (q : ℕ) :
    q ∈ chainGraph.auto.stepSet T 97 ↔ 0 ∈ T ∧ q=1 ∨ 1 ∈ T ∧ q=2 ∨ 2 ∈ T ∧ q=2 := by
  simp only [εNFA.mem_stepSet_iff,chainGraph_closure,chainGraph_step]
  constructor
  · rintro ⟨p,hp,-,⟨rfl,rfl⟩|⟨rfl,rfl⟩|⟨rfl,rfl⟩⟩
    · exact Or.inl ⟨hp,rfl⟩
    · exact Or.inr (Or.inl ⟨hp,rfl⟩)
    · exact Or.inr (Or.inr ⟨hp,rfl⟩)
  · rintro (⟨hp,rfl⟩|⟨hp,rfl⟩|⟨hp,rfl⟩)
    · exact ⟨0,hp,rfl,by simp⟩
    · exact ⟨1,hp,rfl,by simp⟩
    · exact ⟨2,hp,rfl,by simp⟩

/-- The second set of the chain is entered once, and its table is built. -/
theorem nfaToDfa_subset_iff_chain :
    ∃ tm,nfaToDfa chainGraph.toGraph (initMatrix [97]) [65,66,67,68,69,70,71,72,73,74]=some tm ∧
      SubsetTable chainGraph.toGraph [97] tm := by
  refine (nfaToDfa_subset_iff chainGraph [97] [65,66,67,68,69,70,71,72,73,74] (by decide)
    (by decide) (by decide) ((reachSets_encard_le chainGraph [97]).trans ?_)).mpr
    ⟨Or.inl (by decide),?_⟩
  · exact Nat.cast_le.mpr (by decide)
  · rintro ⟨pre,a,post,hsplit,-,-,-,u,d,-,hd,hother,heq⟩
    obtain rfl : d=97 := List.mem_singleton.mp hd
    obtain rfl : a=97 := by
      have ha : a ∈ [(97 : ℤ)] := by rw [hsplit];simp
      exact List.mem_singleton.mp ha
    have hstart : chainGraph.auto.eval []={0} := chainGraph_closure _
    have h1 : 1 ∈ chainGraph.auto.stepSet (chainGraph.auto.eval u) 97 := by
      rw [heq,hstart,chainGraph_stepSet]
      simp
    have h0 : 0 ∈ chainGraph.auto.eval u := by
      have := (chainGraph_stepSet _ _).mp h1
      simpa using this
    have hu : u=[] := by
      rcases List.eq_nil_or_concat u with rfl|⟨v,b,rfl⟩
      · rfl
      · rw [List.concat_eq_append,εNFA.eval_append_singleton] at h0
        obtain ⟨p,-,hq⟩ := εNFA.mem_stepSet_iff.mp h0
        rw [chainGraph_closure,chainGraph_step] at hq
        omega
    exact hother ⟨by rw [hu],rfl⟩

/-- Two characters that lead from the start state to the same state. -/
def forkGraph : NamedGraph where
  nodeTable := [⟨48,[⟨1,98⟩,⟨1,97⟩]⟩,⟨49,[]⟩]
  pos := by decide
  few := by decide
  distinct := by decide
  nonNul := by decide
  dests := by decide

/-- The fork has at most four sets, and its second set is listed twice. -/
theorem forkGraph_not_subset :
    (reachSets forkGraph.toGraph [97,98]).encard ≤ maxNodes ∧
    ¬∃ tm,nfaToDfa forkGraph.toGraph (initMatrix [97,98]) [65,66,67,68,69,70,71,72,73,74]=some tm ∧
      SubsetTable forkGraph.toGraph [97,98] tm := by
  refine ⟨(reachSets_encard_le forkGraph [97,98]).trans (Nat.cast_le.mpr (by decide)),?_⟩
  rintro ⟨tm,htm,hok⟩
  have hrows : (nfaToDfa forkGraph.toGraph (initMatrix [97,98])
      [65,66,67,68,69,70,71,72,73,74]).map (fun tm => (tm.numTn,tm.row 1,tm.row 2))=
        some (3,[49],[49]) := by decide +kernel
  rw [htm,Option.map_some] at hrows
  obtain ⟨hnum,hr⟩ := Prod.mk.inj (Option.some.inj hrows)
  obtain ⟨h1,h2⟩ := Prod.mk.inj hr
  obtain ⟨T,-,hT⟩ := hok.row 1 (by omega)
  have hT' : Spells forkGraph.toGraph (tm.row 2) T := by rwa [h2,←h1]
  exact absurd (hok.once 1 2 T (by omega) (by omega) hT hT') (by decide)

end StudyCode.Nfa
