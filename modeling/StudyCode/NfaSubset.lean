import Mathlib.Computability.EpsilonNFA
import Mathlib.Data.Set.Card
import StudyCode.Nfa

/-!
# What the subset construction computes

The graph is read as an automaton with moves on the empty word, and a string
of names as the set of states it spells. The move and closure loops compute
the automaton's step and closure on such sets, in one sorted spelling for
every set. The table is followed cell by cell. It is the subset automaton
exactly when the second set that is found is entered only once: a later
visit to it is answered with row 1, which CheckTable also reports for a set
that is new.
-/

namespace StudyCode.Nfa

open BubbleSort

/-- A graph of at most nine states with distinct names other than NUL whose
edges lead to its states. -/
structure NamedGraph extends Graph where
  /-- There is a start state. -/
  pos : 0 < nodeTable.length
  /-- There are at most nine states. -/
  few : nodeTable.length ≤ 9
  /-- No two states share a name. -/
  distinct : (nodeTable.map Vertex.data).Nodup
  /-- No name is the string terminator. -/
  nonNul : ∀ v ∈ nodeTable,v.data≠0
  /-- Edges stay inside the table. -/
  dests : ∀ v ∈ nodeTable,∀ e ∈ v.adj,e.dest < nodeTable.length

/-- The name of a state. -/
def Graph.name (g : Graph) (p : ℕ) : Option ℤ := g.nodeTable[p]?.map Vertex.data

/-- The automaton of the graph: state 0 starts, '*' edges are moves on the
empty word. Acceptance plays no part in the construction. -/
def Graph.auto (g : Graph) : εNFA ℤ ℕ where
  step p a := {q | ∃ v e,g.nodeTable[p]?=some v ∧ e ∈ v.adj ∧ e.cost=a.getD epsilon ∧ e.dest=q}
  start := {0}
  accept := Set.univ

/-- A string lists exactly the names of a set of states. -/
structure Spells (g : Graph) (s : Str) (T : Set ℕ) : Prop where
  /-- The characters are the names. -/
  mem : ∀ x,x ∈ s ↔ ∃ p ∈ T,g.name p=some x
  /-- The members are states. -/
  valid : ∀ p ∈ T,p < g.nodeTable.length

/-- Strings in the loops: names of states, none of them twice. -/
structure Named (g : Graph) (t : Str) : Prop where
  /-- No name occurs twice. -/
  nodup : t.Nodup
  /-- Every character is a name. -/
  name : ∀ x ∈ t,∃ p,g.name p=some x

variable {g : NamedGraph} {t : Str} {T : Set ℕ}

/-- A place of the table has a name. -/
theorem name_of_lt {p : ℕ} (h : p < g.nodeTable.length) : ∃ x,g.name p=some x :=
  ⟨_,by rw [Graph.name,List.getElem?_eq_getElem h,Option.map_some]⟩

/-- No name is zero. -/
theorem name_ne_zero {p : ℕ} {x : ℤ} (h : g.name p=some x) : x≠0 := by
  obtain ⟨v,hv,rfl⟩ := Option.map_eq_some_iff.mp h
  exact g.nonNul v (List.mem_of_getElem? hv)

/-- Names determine states. -/
theorem name_inj {p q : ℕ} {x : ℤ} (hp : g.name p=some x) (hq : g.name q=some x) : p=q := by
  rw [Graph.name,←List.getElem?_map] at hp hq
  obtain ⟨hlp,hp⟩ := List.getElem?_eq_some_iff.mp hp
  obtain ⟨hlq,hq⟩ := List.getElem?_eq_some_iff.mp hq
  exact (List.Nodup.getElem_inj_iff g.distinct).mp (hp.trans hq.symm)

/-- A string spells one set only. -/
theorem Spells.unique {U : Set ℕ} (h : Spells g.toGraph t T) (h' : Spells g.toGraph t U) : T=U := by
  have hsub : ∀ {A B : Set ℕ},Spells g.toGraph t A → Spells g.toGraph t B → A ⊆ B := by
    intro A B hA hB p hp
    obtain ⟨x,hx⟩ := name_of_lt (hA.valid p hp)
    obtain ⟨q,hq,hqx⟩ := (hB.mem x).mp ((hA.mem x).mpr ⟨p,hp,hx⟩)
    rwa [name_inj hx hqx]
  exact Set.Subset.antisymm (hsub h h') (hsub h' h)

/-- Sorted strings that spell the same set are equal. -/
theorem Spells.eq {s : Str} (h : Spells g.toGraph s T) (h' : Spells g.toGraph t T)
    (hs : s.Pairwise (·<·)) (ht : t.Pairwise (·<·)) : s=t :=
  strict_ext hs ht fun x => (h.mem x).trans (h'.mem x).symm

/-- The empty text spells the empty set. -/
theorem Spells.eq_nil_iff (h : Spells g.toGraph t T) : t=[] ↔ T=∅ := by
  constructor
  · rintro rfl
    refine Set.eq_empty_of_forall_notMem fun p hp => ?_
    obtain ⟨x,hx⟩ := name_of_lt (h.valid p hp)
    exact List.not_mem_nil ((h.mem x).mpr ⟨p,hp,hx⟩)
  · rintro rfl
    refine List.eq_nil_iff_forall_not_mem.mpr fun x hx => ?_
    obtain ⟨p,hp,-⟩ := (h.mem x).mp hx
    exact hp

/-- A text that spells a set holds names. -/
theorem Spells.named (h : Spells g.toGraph t T) (ht : t.Nodup) : Named g.toGraph t :=
  ⟨ht,fun x hx => ((h.mem x).mp hx).imp fun _ hp => hp.2⟩

/-- A string of distinct names leaves the terminator in the array. -/
theorem Named.length_lt (h : Named g.toGraph t) : t.length < maxNodes := by
  have hs : t ⊆ g.nodeTable.map Vertex.data := by
    intro x hx
    obtain ⟨p,hp⟩ := h.name x hx
    obtain ⟨v,hv,rfl⟩ := Option.map_eq_some_iff.mp hp
    exact List.mem_map_of_mem (List.mem_of_getElem? hv)
  have hl := (h.nodup.subperm hs).length_le
  rw [List.length_map] at hl
  exact lt_of_le_of_lt (hl.trans g.few) (by decide)

/-- The end of a text of names. -/
theorem Named.strEnd (h : Named g.toGraph t) : strEnd t=some t.length := if_pos h.length_lt

/-! ## The loops that collect states -/

/-- A loop of the construction that succeeds and appends the named characters
that satisfy P. -/
def Grows (g : Graph) (t : Str) (P : ℤ → Prop) (r : Option Str) : Prop :=
  ∃ t',r=some t' ∧ Named g t' ∧ t <+: t' ∧ ∀ x,x ∈ t' ↔ x ∈ t ∨ P x

/-- What a text grows by. -/
theorem Grows.congr {P Q : ℤ → Prop} {r : Option Str} (h : Grows g.toGraph t P r)
    (hPQ : ∀ x,P x ↔ Q x) : Grows g.toGraph t Q r := by
  obtain ⟨t',hr,hn,hp,hm⟩ := h
  exact ⟨t',hr,hn,hp,fun x => by rw [hm,hPQ]⟩

/-- Loops compose: each turn adds its own characters. -/
theorem Grows.foldlM {β : Type} {f : Str → β → Option Str} {P : β → ℤ → Prop} (l : List β)
    (h : ∀ a ∈ l,∀ t,Named g.toGraph t → Grows g.toGraph t (P a) (f t a)) (ht : Named g.toGraph t) :
    Grows g.toGraph t (fun x => ∃ a ∈ l,P a x) (l.foldlM f t) := by
  induction l generalizing t with
  | nil => exact ⟨t,rfl,ht,List.prefix_rfl,by simp⟩
  | cons a l ih =>
    obtain ⟨t',hr,hn,hp,hm⟩ := h a List.mem_cons_self t ht
    obtain ⟨t'',hr',hn',hp',hm'⟩ := ih (fun b hb => h b (List.mem_cons_of_mem a hb)) hn
    refine ⟨t'',by rw [List.foldlM_cons,hr];exact hr',hn',hp.trans hp',fun x => ?_⟩
    rw [hm',hm]
    simp [or_assoc]

/-- A name is new when it is not in the text. -/
theorem checkChar_eq_one {x : ℤ} (hx : x≠0) : checkChar t x=1 ↔ x ∉ t := by
  have hc : x ∈ cells t ↔ x ∈ t := by simp [cells,List.mem_replicate,hx]
  unfold checkChar
  split <;> simp_all

/-- An edge adds its target at most. -/
theorem scanEdge_grows {w : ℤ} {e : Edge} (he : e.dest < g.nodeTable.length)
    (ht : Named g.toGraph t) :
    Grows g.toGraph t (fun x => e.cost=w ∧ g.name e.dest=some x) (scanEdge g.toGraph w t e) := by
  unfold scanEdge
  split
  case isFalse hc => exact ⟨t,rfl,ht,List.prefix_rfl,by simp [hc]⟩
  case isTrue hc =>
    have hv := List.getElem?_eq_getElem he
    have hx : g.name e.dest=some g.nodeTable[e.dest].data := by rw [Graph.name,hv,Option.map_some]
    rw [hv]
    dsimp only
    split
    case isTrue hnew =>
      have hnot := (checkChar_eq_one (name_ne_zero hx)).mp hnew
      refine ⟨t++[g.nodeTable[e.dest].data],if_pos ht.length_lt,⟨?_,?_⟩,List.prefix_append _ _,?_⟩
      · exact List.nodup_append.mpr ⟨ht.nodup,List.nodup_singleton _,by
          intro a ha b hb
          rw [List.mem_singleton.mp hb]
          exact ne_of_mem_of_not_mem ha hnot⟩
      · intro x hmem
        rcases List.mem_append.mp hmem with h|h
        · exact ht.name x h
        · exact ⟨e.dest,by rw [List.mem_singleton.mp h,hx]⟩
      · intro x
        simp [hc,hx,eq_comm]
    case isFalse hold =>
      refine ⟨t,rfl,ht,List.prefix_rfl,fun x => ⟨Or.inl,?_⟩⟩
      rintro (h|⟨-,h⟩)
      · exact h
      · rw [hx] at h
        obtain rfl := Option.some.inj h
        exact not_not.mp fun hn => hold ((checkChar_eq_one (name_ne_zero hx)).mpr hn)

/-- The scan of a name adds the names of the states its state leads to. -/
theorem scanVertices_grows {w x : ℤ} (a : Option ℤ) (ha : a.getD epsilon=w)
    (ht : Named g.toGraph t) :
    Grows g.toGraph t (fun y => ∃ p q,g.name p=some x ∧ q ∈ g.auto.step p a ∧ g.name q=some y)
      (scanVertices g.toGraph w t x) := by
  have hstep : ∀ v ∈ g.nodeTable,∀ t,Named g.toGraph t →
      Grows g.toGraph t (fun y => v.data=x ∧ ∃ e ∈ v.adj,e.cost=w ∧ g.name e.dest=some y)
        (if v.data=x then v.adj.foldlM (scanEdge g.toGraph w) t else some t) := by
    intro v hv t ht
    split
    case isTrue hx =>
      exact (Grows.foldlM v.adj (fun e he t ht => scanEdge_grows (g.dests v hv e he) ht) ht).congr
        fun y => by simp [hx]
    case isFalse hx => exact ⟨t,rfl,ht,List.prefix_rfl,by simp [hx]⟩
  refine (Grows.foldlM g.nodeTable hstep ht).congr fun y => ?_
  constructor
  · rintro ⟨v,hv,hx,e,he,hc,hy⟩
    obtain ⟨p,hp⟩ := List.mem_iff_getElem?.mp hv
    exact ⟨p,e.dest,by rw [Graph.name,hp,Option.map_some,hx],⟨v,e,hp,he,by rw [hc,ha],rfl⟩,hy⟩
  · rintro ⟨p,q,hp,⟨v,e,hv,he,hc,rfl⟩,hy⟩
    rw [Graph.name,hv,Option.map_some] at hp
    exact ⟨v,List.mem_of_getElem? hv,Option.some.inj hp,e,he,by rw [hc,ha],hy⟩

/-- A step ends at a place of the table. -/
theorem step_lt {p q : ℕ} {a : Option ℤ} (h : q ∈ g.auto.step p a) : q < g.nodeTable.length := by
  obtain ⟨v,e,hv,he,-,rfl⟩ := h
  exact g.dests v (List.mem_of_getElem? hv) e he

/-- Smove into a blank cell spells the states one step away. -/
theorem smove_spells {w : ℤ} (h : Spells g.toGraph t T) :
    ∃ t',smove g.toGraph t [] w=some t' ∧ t'.Pairwise (·<·) ∧
      Spells g.toGraph t' (⋃ p ∈ T,g.auto.step p (some w)) := by
  have hn : Named g.toGraph [] := ⟨List.nodup_nil,by simp⟩
  obtain ⟨t',hr,hn',-,hm⟩ :=
    Grows.foldlM (cells t) (fun x _ t ht => scanVertices_grows (w:=w) (x:=x) (some w) rfl ht) hn
  refine ⟨bubbleSort t',?_,bubbleSort_strict hn'.nodup,⟨fun y => ?_,fun q hq => ?_⟩⟩
  · rw [smove,hn.strEnd]
    show ((cells t).foldlM (scanVertices g.toGraph w) []).bind _=_
    rw [hr]
    rfl
  · rw [mem_bubbleSort,hm]
    constructor
    · rintro (h0|⟨x,hx,p,q,hp,hq,hy⟩)
      · cases h0
      · have hx' : x ∈ t := by
          rcases List.mem_append.mp hx with h0|h0
          · exact h0
          · exact absurd (List.eq_of_mem_replicate h0) (name_ne_zero hp)
        obtain ⟨p',hp',hpx⟩ := (h.mem x).mp hx'
        rw [name_inj hpx hp] at hp'
        exact ⟨q,Set.mem_biUnion hp' hq,hy⟩
    · rintro ⟨q,hq,hy⟩
      obtain ⟨p,hp,hq⟩ := Set.mem_iUnion₂.mp hq
      obtain ⟨x,hx⟩ := name_of_lt (h.valid p hp)
      exact Or.inr ⟨x,List.mem_append_left _ ((h.mem x).mpr ⟨p,hp,hx⟩),p,q,hx,hq,hy⟩
  · obtain ⟨p,-,hq⟩ := Set.mem_iUnion₂.mp hq
    exact step_lt hq

/-- One move on the empty word, between names. -/
def Eps (g : Graph) (x y : ℤ) : Prop :=
  ∃ p q,g.name p=some x ∧ q ∈ g.auto.step p none ∧ g.name q=some y

/-- The worklist loop of E_Closure. What is scanned already keeps its
successors in the string, and everything in it comes from the start. -/
theorem closeLoop_spec (fuel i : ℕ) (hf : i+fuel=maxNodes+1) (ht : Named g.toGraph t)
    (hi : i ≤ t.length) (hdone : ∀ k < i,∀ x,t[k]?=some x → ∀ y,Eps g.toGraph x y → y ∈ t) :
    ∃ t',closeLoop g.toGraph fuel i t=some t' ∧ Named g.toGraph t' ∧ t <+: t' ∧
      (∀ x ∈ t',∀ y,Eps g.toGraph x y → y ∈ t') ∧
      ∀ y ∈ t',∃ x ∈ t,Relation.ReflTransGen (Eps g.toGraph) x y := by
  induction fuel generalizing i t with
  | zero =>
    have hl := ht.length_lt
    omega
  | succ fuel ih =>
    rw [closeLoop]
    cases hx : t[i]? with
    | none =>
      have hi' : i=t.length := le_antisymm hi (List.getElem?_eq_none_iff.mp hx)
      refine ⟨t,if_pos (hi'▸ht.length_lt),ht,List.prefix_rfl,fun x hmem y hxy => ?_,
        fun y hy => ⟨y,hy,Relation.ReflTransGen.refl⟩⟩
      obtain ⟨k,hk⟩ := List.mem_iff_getElem?.mp hmem
      exact hdone k (hi'▸(List.getElem?_eq_some_iff.mp hk).1) x hk y hxy
    | some x =>
      obtain ⟨t1,hr,hn,hp,hm⟩ := scanVertices_grows (w:=epsilon) (x:=x) none rfl ht
      have hlt := (List.getElem?_eq_some_iff.mp hx).1
      have hdone1 : ∀ k < i+1,∀ z,t1[k]?=some z → ∀ y,Eps g.toGraph z y → y ∈ t1 := by
        intro k hk z hz y hzy
        have hkt : t[k]?=some z := by
          have hkl : k < t.length := by omega
          have := hp.getElem hkl
          rw [List.getElem?_eq_getElem hkl,this,←List.getElem?_eq_getElem,hz]
        rcases Nat.lt_succ_iff_lt_or_eq.mp hk with hk|rfl
        · exact (hm y).mpr (Or.inl (hdone k hk z hkt y hzy))
        · rw [hx] at hkt
          obtain rfl := Option.some.inj hkt
          exact (hm y).mpr (Or.inr hzy)
      obtain ⟨t',hr',hn',hp',hcl,hfrom⟩ :=
        ih (i+1) (by omega) hn (hlt.trans_le hp.length_le) hdone1
      refine ⟨t',?_,hn',hp.trans hp',hcl,fun y hy => ?_⟩
      · show (scanVertices g.toGraph epsilon t x).bind _=_
        rw [hr]
        exact hr'
      · obtain ⟨z,hz,hzy⟩ := hfrom y hy
        rcases (hm z).mp hz with h|h
        · exact ⟨z,h,hzy⟩
        · exact ⟨x,List.mem_of_getElem? hx,Relation.ReflTransGen.head h hzy⟩

/-- So does the closure. -/
theorem εClosure_lt (h : ∀ p ∈ T,p < g.nodeTable.length) {p : ℕ} (hp : p ∈ g.auto.εClosure T) :
    p < g.nodeTable.length := by
  induction hp with
  | base p hp => exact h p hp
  | step p q hq _ _ => exact step_lt hq

/-- E_Closure spells the closure of the set, sorted. -/
theorem eClosure_spells (h : Spells g.toGraph t T) (ht : t.Nodup) :
    ∃ t',eClosure g.toGraph t=some t' ∧ t'.Pairwise (·<·) ∧
      Spells g.toGraph t' (g.auto.εClosure T) := by
  have hn := h.named ht
  obtain ⟨t',hr,hn',hp,hcl,hfrom⟩ :=
    closeLoop_spec (maxNodes+1) 0 (by omega) hn (Nat.zero_le _) (by intro k hk;omega)
  refine ⟨bubbleSort t',?_,bubbleSort_strict hn'.nodup,⟨fun y => ?_,fun p hp => εClosure_lt h.valid hp⟩⟩
  · rw [eClosure,hn.strEnd]
    show (closeLoop g.toGraph (maxNodes+1) 0 t).bind _=_
    rw [hr]
    rfl
  · rw [mem_bubbleSort]
    constructor
    · intro hy
      obtain ⟨x,hx,hxy⟩ := hfrom y hy
      clear hy
      induction hxy with
      | refl =>
        obtain ⟨p,hp,hpx⟩ := (h.mem x).mp hx
        exact ⟨p,εNFA.εClosure.base p hp,hpx⟩
      | @tail y z hxy hyz ih =>
        obtain ⟨p,q,hpy,hq,hqz⟩ := hyz
        obtain ⟨p',hp',hpy'⟩ := ih
        rw [name_inj hpy' hpy] at hp'
        exact ⟨q,εNFA.εClosure.step p q hq hp',hqz⟩
    · rintro ⟨p,hp,hpy⟩
      induction hp generalizing y with
      | base p hpT => exact hp.subset ((h.mem y).mpr ⟨p,hpT,hpy⟩)
      | step p q hq hpc ih =>
        obtain ⟨x,hx⟩ := name_of_lt (εClosure_lt h.valid hpc)
        exact hcl x (ih x hx) y ⟨p,q,hx,hq,hpy⟩

/-- What one cell holds: the closed set its row leads to. -/
theorem cell_spells {w : ℤ} (h : Spells g.toGraph t T) :
    ∃ t1 t2,smove g.toGraph t [] w=some t1 ∧ eClosure g.toGraph t1=some t2 ∧
      t2.Pairwise (·<·) ∧ Spells g.toGraph t2 (g.auto.stepSet T w) := by
  obtain ⟨t1,h1,hs1,hsp1⟩ := smove_spells (w:=w) h
  obtain ⟨t2,h2,hs2,hsp2⟩ := eClosure_spells hsp1 (hs1.imp ne_of_lt)
  refine ⟨t1,t2,h1,h2,hs2,?_⟩
  have he : g.auto.εClosure (⋃ p ∈ T,g.auto.step p (some w))=g.auto.stepSet T w := by
    ext q
    rw [εNFA.mem_εClosure_iff_exists,εNFA.mem_stepSet_iff]
    constructor
    · rintro ⟨r,hr,hq⟩
      obtain ⟨p,hp,hr⟩ := Set.mem_iUnion₂.mp hr
      exact ⟨p,hp,(εNFA.mem_εClosure_iff_exists _).mpr ⟨r,hr,hq⟩⟩
    · rintro ⟨p,hp,hq⟩
      obtain ⟨r,hr,hq⟩ := (εNFA.mem_εClosure_iff_exists _).mp hq
      exact ⟨r,Set.mem_biUnion hp hr,hq⟩
  rwa [he] at hsp2

/-! ## Arrays of states -/

/-- A second closure adds nothing. -/
theorem εClosure_idem (M : εNFA ℤ ℕ) (T : Set ℕ) : M.εClosure (M.εClosure T)=M.εClosure T := by
  refine Set.Subset.antisymm (fun p hp => ?_) (M.subset_εClosure _)
  induction hp with
  | base p hp => exact hp
  | step p q hq _ ih => exact εNFA.εClosure.step p q hq ih

/-- A graph of at most nine states, or none, with distinct names other than NUL
whose edges lead to its states. -/
structure Graph.Valid (g : Graph) : Prop where
  /-- There are at most nine states. -/
  few : g.nodeTable.length ≤ 9
  /-- No two states share a name. -/
  distinct : (g.nodeTable.map Vertex.data).Nodup
  /-- No name is the string terminator. -/
  nonNul : ∀ v ∈ g.nodeTable,v.data≠0
  /-- Edges stay inside the table. -/
  dests : ∀ v ∈ g.nodeTable,∀ e ∈ v.adj,e.dest < g.nodeTable.length

/-- An edge over a character. -/
def Graph.EdgeOver (g : Graph) (w : ℤ) (p q : ℕ) : Prop :=
  ∃ v e,g.nodeTable[p]?=some v ∧ e ∈ v.adj ∧ e.cost=w ∧ e.dest=q

/-- The states that edges over '*' lead to from a set. -/
def Graph.closed (g : Graph) (T : Set ℕ) : Set ℕ :=
  {q | ∃ p ∈ T,Relation.ReflTransGen (g.EdgeOver epsilon) p q}

/-- The targets of the edges over a character from a set. -/
def Graph.moved (g : Graph) (w : ℤ) (T : Set ℕ) : Set ℕ := {q | ∃ p ∈ T,g.EdgeOver w p q}

/-- The closure is what the empty edges reach. -/
theorem εClosure_eq_closed (g : Graph) (T : Set ℕ) : g.auto.εClosure T=g.closed T := by
  ext q
  constructor
  · intro h
    induction h with
    | base p hp => exact ⟨p,hp,Relation.ReflTransGen.refl⟩
    | step p q hq _ ih =>
      obtain ⟨r,hr,hrp⟩ := ih
      exact ⟨r,hr,hrp.tail hq⟩
  · rintro ⟨p,hp,hpq⟩
    induction hpq with
    | refl => exact εNFA.εClosure.base p hp
    | tail _ hstep ih => exact εNFA.εClosure.step _ _ hstep ih

/-- The move is one step of every member. -/
theorem biUnion_step_eq_moved (g : Graph) (w : ℤ) (T : Set ℕ) :
    ⋃ p ∈ T,g.auto.step p (some w)=g.moved w T := by
  ext q
  rw [Set.mem_iUnion₂]
  constructor
  · rintro ⟨p,hp,hq⟩
    exact ⟨p,hp,hq⟩
  · rintro ⟨p,hp,hq⟩
    exact ⟨p,hp,hq⟩

/-- What a run of E_Closure or Smove leaves: the sorted array of a set. -/
def Leaves (g : Graph) (r : Option Str) (T : Set ℕ) : Prop :=
  ∃ t,r=some t ∧ (cells t).length=maxNodes ∧ t.Pairwise (·<·) ∧ Spells g t T

/-- The cells of a text. -/
theorem Named.length_cells (h : Named g.toGraph t) : (cells t).length=maxNodes := by
  have hlt := h.length_lt
  rw [cells,List.length_append,List.length_replicate]
  omega

/-- The move leaves the names of the set that was moved to. -/
theorem smove_leaves (w : ℤ) (h : Spells g.toGraph t T) :
    Leaves g.toGraph (smove g.toGraph t [] w) (g.moved w T) := by
  obtain ⟨t',hr,hs,hsp⟩ := smove_spells (w:=w) h
  have hnd : t'.Nodup := hs.imp ne_of_lt
  refine ⟨t',hr,(hsp.named hnd).length_cells,hs,?_⟩
  rwa [biUnion_step_eq_moved] at hsp

/-- A closed array is left as it is. -/
theorem eClosure_leaves (h : Spells g.toGraph t T) (ht : t.Nodup) :
    Leaves g.toGraph (eClosure g.toGraph t) (g.closed T) ∧
      (eClosure g.toGraph t).bind (eClosure g.toGraph)=eClosure g.toGraph t := by
  obtain ⟨t',hr,hs,hsp⟩ := eClosure_spells h ht
  have hnd : t'.Nodup := hs.imp ne_of_lt
  obtain ⟨t'',hr',hs',hsp'⟩ := eClosure_spells hsp hnd
  rw [εClosure_idem] at hsp'
  constructor
  · refine ⟨t',hr,(hsp.named hnd).length_cells,hs,?_⟩
    rwa [εClosure_eq_closed] at hsp
  · rw [hr,Option.bind_some,hr',hsp.eq hsp' hs hs']

/-- In a graph without states every array of states is empty and stays so. -/
theorem noStates_leaves {g : Graph} (hg : g.nodeTable=[]) {t : Str} {T : Set ℕ} (h : Spells g t T)
    (w : ℤ) :
    eClosure g t=some [] ∧ smove g t [] w=some [] ∧ Spells g [] (g.closed T) ∧
      Spells g [] (g.moved w T) := by
  have hT : T=∅ := by
    refine Set.eq_empty_of_forall_notMem fun p hp => ?_
    have hlt := h.valid p hp
    rw [hg] at hlt
    cases hlt
  have ht : t=[] := by
    refine List.eq_nil_iff_forall_not_mem.mpr fun x hx => ?_
    obtain ⟨p,hp,-⟩ := (h.mem x).mp hx
    rw [hT] at hp
    exact hp
  have hscan : ∀ u x,scanVertices g w u x=some u := by
    intro u x
    rw [scanVertices,hg]
    rfl
  have hnone : Spells g [] ∅ := ⟨fun x => by simp,fun p hp => hp.elim⟩
  have hclosed : g.closed T=∅ := by simp [Graph.closed,hT]
  have hmoved : g.moved w T=∅ := by simp [Graph.moved,hT]
  refine ⟨?_,?_,?_,?_⟩
  · rw [ht]
    rfl
  · have hfold : (cells []).foldlM (scanVertices g w) []=some [] := by
      generalize cells []=l
      induction l with
      | nil => rfl
      | cons x l ih =>
        rw [List.foldlM_cons,hscan]
        exact ih
    rw [ht,smove]
    show (List.foldlM (scanVertices g w) [] (cells [])).bind _=_
    rw [hfold]
    rfl
  · rw [hclosed]
    exact hnone
  · rw [hmoved]
    exact hnone

/-- E_Closure leaves the closure of a set of states and Smove the targets of its
edges over a character, each state once and in order. Sorted arrays of one set
are equal, and closing twice is closing once. -/
theorem closure_and_move (g : Graph) (hg : g.Valid) :
    (∀ t T,Spells g t T → t.Nodup → Leaves g (eClosure g t) (g.closed T) ∧
      (eClosure g t).bind (eClosure g)=eClosure g t) ∧
    (∀ t T w,Spells g t T → Leaves g (smove g t [] w) (g.moved w T)) ∧
    ∀ t u T,Spells g t T → Spells g u T → t.Pairwise (·<·) → u.Pairwise (·<·) → t=u := by
  have hext : ∀ t u T,Spells g t T → Spells g u T → t.Pairwise (·<·) → u.Pairwise (·<·) → t=u :=
    fun t u T ht hu hts hus => strict_ext hts hus fun x => (ht.mem x).trans (hu.mem x).symm
  rcases Nat.eq_zero_or_pos g.nodeTable.length with h0|hpos
  · have hnil : g.nodeTable=[] := List.length_eq_zero_iff.mp h0
    refine ⟨?_,?_,hext⟩
    · intro t T h _
      obtain ⟨hr,-,hsp,-⟩ := noStates_leaves hnil h 0
      rw [hr]
      exact ⟨⟨[],rfl,rfl,List.Pairwise.nil,hsp⟩,rfl⟩
    · intro t T w h
      obtain ⟨-,hr,-,hsp⟩ := noStates_leaves hnil h w
      rw [hr]
      exact ⟨[],rfl,rfl,List.Pairwise.nil,hsp⟩
  · let named : NamedGraph := ⟨g,hpos,hg.few,hg.distinct,hg.nonNul,hg.dests⟩
    exact ⟨fun t T h ht => eClosure_leaves (g:=named) h ht,
      fun t T w h => smove_leaves (g:=named) w h,hext⟩

/-- Two states with edges over '*' in both directions. -/
def pairGraph : Graph := ⟨[⟨66,[⟨1,epsilon⟩]⟩,⟨65,[⟨0,epsilon⟩,⟨1,97⟩]⟩]⟩

/-- The closure of one name of two. -/
theorem closure_and_move_pair :
    pairGraph.Valid ∧ eClosure pairGraph [66]=some [65,66] ∧
      Leaves pairGraph (eClosure pairGraph [66]) (pairGraph.closed {0}) := by
  have hvalid : pairGraph.Valid := ⟨by decide,by decide,by decide,by decide⟩
  have hsp : Spells pairGraph [66] {0} := by
    refine ⟨fun x => ?_,fun p hp => ?_⟩
    · simp [pairGraph,Graph.name,eq_comm]
    · rw [Set.mem_singleton_iff.mp hp]
      decide
  exact ⟨hvalid,by decide,((closure_and_move pairGraph hvalid).1 [66] {0} hsp (by decide)).1⟩

end StudyCode.Nfa
