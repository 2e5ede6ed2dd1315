import Mathlib.Data.List.Basic
import Mathlib.Data.List.Nodup
import Mathlib.Logic.Function.Iterate
import Mathlib.Tactic

/-!
# Search trees as towers of frontiers

A frontier is a row of nodes with the tokens between them. Opening all nodes
of a frontier gives the frontier one level below; a tree whose leaves are at
one depth is a tower of frontiers over its root, and the tokens of the tree
are what opening the last frontier leaves. A local change of the tree is the
replacement of a segment in one frontier that opens to the same items, and
leaves all other frontiers alone.
-/

namespace StudyCode.Frontier

/-- An entry of a frontier. -/
inductive Item (ι τ : Type*) where
  /-- A node that is not opened. -/
  | node (x : ι)
  /-- A token between nodes. -/
  | tok (t : τ)

variable {ι τ : Type*}

/-- Items that an item stands for when nodes are opened. -/
def Item.items (e : ι → List (Item ι τ)) : Item ι τ → List (Item ι τ)
  | .node x => e x
  | .tok t => [.tok t]

/-- Open all nodes of a frontier. -/
def grow (e : ι → List (Item ι τ)) (l : List (Item ι τ)) : List (Item ι τ) := l.flatMap (Item.items e)

/-- The node of an item. -/
def Item.id? : Item ι τ → Option ι
  | .node x => some x
  | .tok _ => none

/-- The token of an item. -/
def Item.tok? : Item ι τ → Option τ
  | .node _ => none
  | .tok t => some t

/-- Nodes of a frontier. -/
def ids (l : List (Item ι τ)) : List ι := l.filterMap Item.id?

/-- Tokens of a frontier. -/
def toks (l : List (Item ι τ)) : List τ := l.filterMap Item.tok?

section Basic

variable {e e' : ι → List (Item ι τ)} {l l' : List (Item ι τ)}

@[simp] theorem grow_nil : grow e []=[] := rfl

@[simp] theorem grow_node (x : ι) : grow e (.node x::l)=e x++grow e l := rfl

@[simp] theorem grow_tok (t : τ) : grow e (.tok t::l)=.tok t::grow e l := rfl

/-- Segments grow on their own. -/
@[simp] theorem grow_append : grow e (l++l')=grow e l++grow e l' := List.flatMap_append

@[simp] theorem ids_nil : ids ([] : List (Item ι τ))=[] := rfl

@[simp] theorem ids_node (x : ι) : ids (.node x::l)=x::ids l := rfl

@[simp] theorem ids_tok (t : τ) : ids (.tok t::l)=ids l := rfl

/-- Nodes of segments. -/
@[simp] theorem ids_append : ids (l++l')=ids l++ids l' := List.filterMap_append

@[simp] theorem toks_nil : toks ([] : List (Item ι τ))=[] := rfl

@[simp] theorem toks_node (x : ι) : toks (.node x::l)=toks l := rfl

@[simp] theorem toks_tok (t : τ) : toks (.tok t::l)=t::toks l := rfl

/-- Tokens of segments. -/
@[simp] theorem toks_append : toks (l++l')=toks l++toks l' := List.filterMap_append

/-- Tokens hold no nodes. -/
@[simp] theorem ids_map_tok {α : Type*} (f : α → τ) (a : List α) :
    ids (a.map fun x => (Item.tok (f x) : Item ι τ))=[] := by
  induction a with
  | nil => rfl
  | cons x a ih => simpa using ih

/-- Tokens among tokens. -/
@[simp] theorem toks_map_tok {α : Type*} (f : α → τ) (a : List α) :
    toks (a.map fun x => (Item.tok (f x) : Item ι τ))=a.map f := by
  induction a with
  | nil => rfl
  | cons x a ih => simpa using ih

/-- A node splits its segment. -/
theorem mem_ids_iff {x : ι} : x∈ids l ↔ ∃ A B,l=A++.node x::B := by
  constructor
  · intro h
    obtain ⟨a,ha,hx⟩ := List.mem_filterMap.mp h
    cases a with
    | node y =>
      cases hx
      exact List.append_of_mem ha
    | tok t => cases hx
  · rintro ⟨A,B,rfl⟩
    simp

/-- Growing depends on the nodes of the segment only. -/
theorem grow_congr (h : ∀ x ∈ ids l,e' x=e x) : grow e' l=grow e l := by
  induction l with
  | nil => rfl
  | cons a l ih =>
    cases a with
    | node x =>
      rw [grow_node,grow_node,h x (by simp),ih fun z hz => h z (by simp [hz])]
    | tok t => rw [grow_tok,grow_tok,ih fun z hz => h z hz]

/-- The nodes of a grown segment. -/
theorem ids_grow : ids (grow e l)=(ids l).flatMap fun x => ids (e x) := by
  induction l with
  | nil => rfl
  | cons a l ih =>
    cases a with
    | node x => simp [ih]
    | tok t => simpa using ih

/-- Growing keeps the tokens in order. -/
theorem toks_sublist_grow : (toks l).Sublist (toks (grow e l)) := by
  induction l with
  | nil => exact List.Sublist.refl _
  | cons a l ih =>
    cases a with
    | node x =>
      rw [toks_node,grow_node,toks_append]
      exact ih.trans (List.sublist_append_right _ _)
    | tok t => exact ih.cons_cons t

/-- Opened nodes that hold tokens add to the tokens of a frontier. -/
theorem toks_grow_length (h : ∀ x ∈ ids l,1 ≤ (toks (e x)).length) :
    (toks l).length+(ids l).length ≤ (toks (grow e l)).length := by
  induction l with
  | nil => rfl
  | cons a l ih =>
    cases a with
    | node x =>
      have h1 := h x (by simp)
      have h2 := ih fun z hz => h z (by simp [hz])
      simp only [toks_node,ids_node,grow_node,toks_append,List.length_append,List.length_cons]
      omega
    | tok t =>
      have h2 := ih fun z hz => h z hz
      simp only [toks_tok,ids_tok,grow_tok,List.length_cons]
      omega

/-- Opened nodes that hold one node more than tokens. -/
theorem ids_grow_length (h : ∀ x ∈ ids l,(ids (e x)).length=(toks (e x)).length+1) :
    (ids (grow e l)).length+(toks l).length=(toks (grow e l)).length+(ids l).length := by
  induction l with
  | nil => rfl
  | cons a l ih =>
    cases a with
    | node x =>
      have h1 := h x (by simp)
      have h2 := ih fun z hz => h z (by simp [hz])
      simp only [toks_node,ids_node,grow_node,ids_append,toks_append,List.length_append,
        List.length_cons]
      omega
    | tok t =>
      have h2 := ih fun z hz => h z hz
      simp only [toks_tok,ids_tok,grow_tok,List.length_cons]
      omega

end Basic

/-! ## Nodes with tokens between them -/

/-- Nodes followed by tokens. -/
def leftPairs (c : List ι) (k : List τ) : List (Item ι τ) :=
  (c.zip k).flatMap fun p => [.node p.1,.tok p.2]

/-- Tokens followed by nodes. -/
def rightPairs (k : List τ) (c : List ι) : List (Item ι τ) :=
  (k.zip c).flatMap fun p => [.tok p.1,.node p.2]

/-- Nodes with tokens between them. -/
def weave : List ι → List τ → List (Item ι τ)
  | [],_ => []
  | x::c,k => .node x::rightPairs k c

section Weave

variable {c c1 c2 : List ι} {k k1 k2 : List τ}

@[simp] theorem rightPairs_nil : rightPairs ([] : List τ) c=[] := rfl

@[simp] theorem rightPairs_cons (t : τ) (x : ι) :
    rightPairs (t::k) (x::c)=.tok t::.node x::rightPairs k c := rfl

@[simp] theorem leftPairs_nil : leftPairs ([] : List ι) k=[] := rfl

@[simp] theorem leftPairs_cons (t : τ) (x : ι) :
    leftPairs (x::c) (t::k)=.node x::.tok t::leftPairs c k := rfl

/-- The nodes of pairs. -/
theorem ids_rightPairs (h : k.length=c.length) : ids (rightPairs k c)=c := by
  induction k generalizing c with
  | nil =>
    cases c with
    | nil => rfl
    | cons x c => cases h
  | cons t k ih =>
    cases c with
    | nil => cases h
    | cons x c => simp [ih (Nat.succ.inj h)]

/-- The tokens of pairs. -/
theorem toks_rightPairs (h : k.length=c.length) : toks (rightPairs k c)=k := by
  induction k generalizing c with
  | nil => rfl
  | cons t k ih =>
    cases c with
    | nil => cases h
    | cons x c => simp [ih (Nat.succ.inj h)]

/-- The nodes of a woven segment. -/
theorem ids_weave (h : c.length=k.length+1) : ids (weave c k)=c := by
  cases c with
  | nil => rfl
  | cons x c => simp [weave,ids_rightPairs (Nat.succ.inj h).symm]

/-- The tokens of a woven segment. -/
theorem toks_weave (h : c.length=k.length+1) : toks (weave c k)=k := by
  cases c with
  | nil => cases h
  | cons x c => simp [weave,toks_rightPairs (Nat.succ.inj h).symm]

/-- A weave around one of its nodes. -/
theorem weave_split (h : c1.length=k1.length) (x : ι) :
    weave (c1++x::c2) (k1++k2)=leftPairs c1 k1++.node x::rightPairs k2 c2 := by
  induction c1 generalizing k1 with
  | nil =>
    have hk : k1=[] := List.length_eq_zero_iff.mp h.symm
    subst hk
    rfl
  | cons y c1 ih =>
    cases k1 with
    | nil => cases h
    | cons t k1 =>
      have hi := ih (Nat.succ.inj h)
      cases c1 with
      | nil =>
        have hk : k1=[] := List.length_eq_zero_iff.mp (Nat.succ.inj h).symm
        subst hk
        rfl
      | cons z c1 =>
        show Item.node y::.tok t::weave (z::c1++x::c2) (k1++k2)=
          Item.node y::.tok t::(leftPairs (z::c1) k1++.node x::rightPairs k2 c2)
        rw [hi]

/-- A weave around one of its tokens. -/
theorem weave_append (h : c1.length=k1.length+1) (t : τ) (hc : c2≠[]) :
    weave (c1++c2) (k1++t::k2)=weave c1 k1++.tok t::weave c2 k2 := by
  induction k1 generalizing c1 with
  | nil =>
    obtain ⟨x,rfl⟩ := List.length_eq_one_iff.mp h
    cases c2 with
    | nil => exact (hc rfl).elim
    | cons y c2 => rfl
  | cons u k1 ih =>
    cases c1 with
    | nil => cases h
    | cons x c1 =>
      have hi := ih (Nat.succ.inj h)
      cases c1 with
      | nil => cases h
      | cons y c1 =>
        show Item.node x::.tok u::weave (y::c1++c2) (k1++t::k2)=
          Item.node x::.tok u::(weave (y::c1) k1++.tok t::weave c2 k2)
        rw [hi]

/-- Weaving from the left. -/
theorem weave_cons (x : ι) (t : τ) (hc : c≠[]) : weave (x::c) (t::k)=.node x::.tok t::weave c k :=
  weave_append (show [x].length=([] : List τ).length+1 from rfl) t hc

/-- Weaving from the right. -/
theorem weave_concat (h : c.length=k.length+1) (x : ι) (t : τ) :
    weave (c++[x]) (k++[t])=weave c k++[.tok t,.node x] :=
  weave_append h t (List.cons_ne_nil x [])

/-- Left pairs end with their last token. -/
theorem leftPairs_concat (h : c1.length=k1.length) (x : ι) (t : τ) :
    leftPairs (c1++[x]) (k1++[t])=leftPairs c1 k1++[.node x,.tok t] := by
  unfold leftPairs
  rw [List.zip_append h,List.flatMap_append]
  rfl

end Weave

/-! ## Towers -/

/-- Frontiers over a root, numbered from the leaves up; every node has the
number of its frontier as rank and stands once in it. -/
structure Tower (e : ι → List (Item ι τ)) (root : ι) (h : ℕ) (lev : ℕ → List (Item ι τ))
    (rank : ι → ℕ) : Prop where
  /-- The top frontier is the root. -/
  top : lev h=[.node root]
  /-- Opening a frontier gives the one below. -/
  step : ∀ i,i < h → lev i=grow e (lev (i+1))
  /-- Nodes have the number of their frontier. -/
  rank_eq : ∀ i,i ≤ h → ∀ x ∈ ids (lev i),rank x=i
  /-- Nodes do not repeat. -/
  nodup : ∀ i,i ≤ h → (ids (lev i)).Nodup

namespace Tower

variable {e e' : ι → List (Item ι τ)} {root : ι} {h : ℕ} {lev : ℕ → List (Item ι τ)}
  {rank rank' : ι → ℕ}

/-- The root is on the top frontier. -/
theorem root_mem (T : Tower e root h lev rank) : root∈ids (lev h) := by
  rw [T.top]
  simp

/-- The frontier below a node's frontier, around one of its items. -/
theorem open_node (T : Tower e root h lev rank) {i : ℕ} (hi : i < h) {p : ι}
    {A B C D : List (Item ι τ)} {w : List (Item ι τ)} (hp : lev (i+1)=A++.node p::B)
    (he : e p=C++w++D) : lev i=(grow e A++C)++w++(D++grow e B) := by
  rw [T.step i hi,hp,grow_append,grow_node,he]
  simp only [List.append_assoc]

/-- Every node below the root stands in a node of the next frontier. -/
theorem exists_parent (T : Tower e root h lev rank) {i : ℕ} (hi : i < h) {x : ι}
    (hx : x∈ids (lev i)) : ∃ p ∈ ids (lev (i+1)),x∈ids (e p) := by
  rw [T.step i hi,ids_grow] at hx
  exact List.mem_flatMap.mp hx

/-- Children are on the frontier below. -/
theorem child_mem (T : Tower e root h lev rank) {i : ℕ} (hi : i < h) {p x : ι}
    (hp : p∈ids (lev (i+1))) (hx : x∈ids (e p)) : x∈ids (lev i) := by
  rw [T.step i hi,ids_grow]
  exact List.mem_flatMap.mpr ⟨p,hp,hx⟩

/-- A node has different children. -/
theorem nodup_node (T : Tower e root h lev rank) {i : ℕ} (hi : i < h) {p : ι}
    (hp : p∈ids (lev (i+1))) : (ids (e p)).Nodup := by
  obtain ⟨A,B,hAB⟩ := mem_ids_iff.mp hp
  have hn := T.nodup i (by omega)
  rw [T.step i hi,hAB,grow_append,grow_node,ids_append,ids_append] at hn
  exact (List.nodup_append.mp (List.nodup_append.mp hn).2.1).1

/-- Tokens of a frontier stay in the frontiers below and among the tokens of
the tree. -/
theorem toks_sublist (T : Tower e root h lev rank) {i : ℕ} (hi : i ≤ h) :
    (toks (lev i)).Sublist (toks (grow e (lev 0))) := by
  induction i with
  | zero => exact toks_sublist_grow
  | succ i ih =>
    refine List.Sublist.trans ?_ (ih (by omega))
    rw [T.step i (by omega)]
    exact toks_sublist_grow

/-- Tokens of an opened frontier are among the tokens of the tree. -/
theorem toks_grow_sublist (T : Tower e root h lev rank) {i : ℕ} (hi : i ≤ h) :
    (toks (grow e (lev i))).Sublist (toks (grow e (lev 0))) := by
  cases i with
  | zero => exact List.Sublist.refl _
  | succ i =>
    rw [←T.step i hi]
    exact T.toks_sublist (by omega)

/-- Tokens of a node are among the tokens of the tree, in their order. -/
theorem toks_node_sublist (T : Tower e root h lev rank) {i : ℕ} (hi : i ≤ h) {x : ι}
    (hx : x∈ids (lev i)) : (toks (e x)).Sublist (toks (grow e (lev 0))) := by
  obtain ⟨A,B,hAB⟩ := mem_ids_iff.mp hx
  have hsub : (toks (e x)).Sublist (toks (grow e (lev i))) := by
    rw [hAB,grow_append,grow_node,toks_append,toks_append]
    exact (List.sublist_append_left _ _).trans (List.sublist_append_right _ _)
  exact hsub.trans (T.toks_grow_sublist hi)

/-- Nodes of different frontiers are different. -/
theorem level_unique (T : Tower e root h lev rank) {i j : ℕ} (hi : i ≤ h) (hj : j ≤ h) {x : ι}
    (hx : x∈ids (lev i)) (hx' : x∈ids (lev j)) : i=j :=
  (T.rank_eq i hi x hx).symm.trans (T.rank_eq j hj x hx')

/-- Changes of the leaves do not touch the frontiers. -/
theorem congr (T : Tower e root h lev rank)
    (hsame : ∀ j,j < h → ∀ z ∈ ids (lev (j+1)),e' z=e z) : Tower e' root h lev rank := by
  refine ⟨T.top,fun i hi => ?_,T.rank_eq,T.nodup⟩
  rw [T.step i hi]
  exact (grow_congr (hsame i hi)).symm

/-- Replace a segment below a node. The frontiers above and below stay. -/
theorem replace (T : Tower e root h lev rank) {i : ℕ} (hi : i < h) {p : ι}
    (hp : p∈ids (lev (i+1))) {C w w' D : List (Item ι τ)} (he : e p=C++w++D)
    (he' : e' p=C++w'++D) (hgrow : 0 < i → grow e' w'=grow e w)
    (hsame : ∀ j,0 < j → j ≤ h → ∀ z ∈ ids (lev j),z≠p → z∉ids w → e' z=e z)
    (hrank : ∀ j,j ≤ h → ∀ z ∈ ids (lev j),rank' z=rank z) (hrank' : ∀ z ∈ ids w',rank' z=i)
    (hnew : ∀ z ∈ ids w',z∈ids w ∨ ∀ j,j ≤ h → z∉ids (lev j)) (hnd : (ids w').Nodup) :
    ∃ A B,lev i=A++w++B ∧ Tower e' root h (Function.update lev i (A++w'++B)) rank' := by
  obtain ⟨A0,B0,hp0⟩ := mem_ids_iff.mp hp
  have hlev := T.open_node hi hp0 he
  have hopen : grow e' A0=grow e A0 → grow e' B0=grow e B0 →
      grow e' (lev (i+1))=(grow e A0++C)++w'++(D++grow e B0) := by
    intro hA hB
    rw [hp0,grow_append,grow_node,he',hA,hB]
    simp only [List.append_assoc]
  generalize grow e A0++C=A at hlev hopen
  generalize D++grow e B0=B at hlev hopen
  have hndi := T.nodup i (by omega)
  rw [hlev] at hndi
  simp only [ids_append,List.nodup_append,List.mem_append] at hndi
  obtain ⟨⟨hAn,-,hAw⟩,hBn,hB⟩ := hndi
  have hw : ∀ z ∈ ids w,z∈ids (lev i) := fun z hz => by simp [hlev,hz]
  have hA : ∀ z ∈ ids A,z∈ids (lev i) := fun z hz => by simp [hlev,hz]
  have hB' : ∀ z ∈ ids B,z∈ids (lev i) := fun z hz => by simp [hlev,hz]
  have hother : ∀ j,0 < j → j ≤ h → j≠i → ∀ z ∈ ids (lev j),z≠p → e' z=e z :=
    fun j h0 hj hne z hz hzp => hsame j h0 hj z hz hzp fun hzw =>
      hne (T.level_unique hj (by omega) hz (hw z hzw))
  have hpne : ∀ j,j ≤ h → j≠i+1 → ∀ z ∈ ids (lev j),z≠p := fun j hj hne z hz hzp =>
    hne (T.level_unique hj (by omega) hz (hzp ▸ hp))
  refine ⟨A,B,hlev,?_,?_,?_,?_⟩
  · rw [Function.update_of_ne (by omega)]
    exact T.top
  · intro j hj
    by_cases hji : j=i
    · subst hji
      have hnd1 := T.nodup (j+1) (by omega)
      rw [hp0] at hnd1
      simp only [ids_append,ids_node,List.nodup_append,List.nodup_cons,List.mem_cons] at hnd1
      obtain ⟨-,⟨hpB,-⟩,hAp⟩ := hnd1
      rw [Function.update_self,Function.update_of_ne (by omega),hopen]
      · exact grow_congr fun z hz => hother (j+1) (by omega) hj (by omega) z (by simp [hp0,hz])
          (hAp z hz p (Or.inl rfl))
      · exact grow_congr fun z hz => hother (j+1) (by omega) hj (by omega) z (by simp [hp0,hz])
          fun hzp => hpB (hzp ▸ hz)
    · rw [Function.update_of_ne hji,T.step j hj]
      by_cases hji' : j+1=i
      · subst hji'
        have hz : ∀ z ∈ ids (lev (j+1)),z∉ids w → e' z=e z := fun z hz =>
          hsame (j+1) (by omega) (by omega) z hz (hpne (j+1) (by omega) (by omega) z hz)
        have hgA : grow e' A=grow e A := grow_congr fun z h => hz z (hA z h) fun hzw => hAw z h z hzw rfl
        have hgB : grow e' B=grow e B := grow_congr fun z h => hz z (hB' z h) fun hzw =>
          hB z (Or.inr hzw) z h rfl
        rw [Function.update_self,hlev]
        simp only [grow_append]
        rw [hgA,hgB,hgrow (by omega)]
      · rw [Function.update_of_ne hji']
        exact (grow_congr fun z hz => hother (j+1) (by omega) (by omega) hji' z hz
          (hpne (j+1) (by omega) (by omega) z hz)).symm
  · intro j hj z hz
    by_cases hji : j=i
    · subst hji
      rw [Function.update_self] at hz
      simp only [ids_append,List.mem_append] at hz
      rcases hz with (hz|hz)|hz
      · rw [hrank j hj z (hA z hz),T.rank_eq j hj z (hA z hz)]
      · exact hrank' z hz
      · rw [hrank j hj z (hB' z hz),T.rank_eq j hj z (hB' z hz)]
    · rw [Function.update_of_ne hji] at hz
      rw [hrank j hj z hz,T.rank_eq j hj z hz]
  · intro j hj
    by_cases hji : j=i
    · subst hji
      rw [Function.update_self]
      simp only [ids_append,List.nodup_append,List.mem_append]
      refine ⟨⟨hAn,hnd,?_⟩,hBn,?_⟩
      · intro a ha b hb hab
        subst hab
        rcases hnew a hb with hw'|hfresh
        · exact hAw a ha a hw' rfl
        · exact hfresh j hj (hA a ha)
      · rintro a (ha|ha) b hb hab
        · exact hB a (Or.inl ha) b hb hab
        · subst hab
          rcases hnew a ha with hw'|hfresh
          · exact hB a (Or.inr hw') a hb rfl
          · exact hfresh j hj (hB' a hb)
    · rw [Function.update_of_ne hji]
      exact T.nodup j hj

/-- Nodes of a tower after a segment has been replaced. -/
theorem mem_replace (T : Tower e root h lev rank) {i : ℕ} (hi : i ≤ h) {A B w w' : List (Item ι τ)}
    (hlev : lev i=A++w++B) {j : ℕ} (hj : j ≤ h) {z : ι}
    (hz : z∈ids (Function.update lev i (A++w'++B) j)) :
    (j=i ∧ z∈ids w') ∨ (z∈ids (lev j) ∧ z∉ids w) := by
  by_cases hji : j=i
  · subst hji
    have hnd := T.nodup j hj
    rw [hlev] at hnd
    simp only [ids_append,List.nodup_append,List.mem_append] at hnd
    obtain ⟨⟨-,-,hAw⟩,-,hB⟩ := hnd
    rw [Function.update_self] at hz
    simp only [ids_append,List.mem_append] at hz
    rcases hz with (hz|hz)|hz
    · exact Or.inr ⟨by simp [hlev,hz],fun hw => hAw z hz z hw rfl⟩
    · exact Or.inl ⟨rfl,hz⟩
    · exact Or.inr ⟨by simp [hlev,hz],fun hw => hB z (Or.inr hw) z hz rfl⟩
  · rw [Function.update_of_ne hji] at hz
    refine Or.inr ⟨hz,fun hw => hji (T.level_unique hj hi hz ?_)⟩
    simp [hlev,hw]

/-- Put a new root over a segment that replaces the old root. -/
theorem lift (T : Tower e root h lev rank) {r : ι} {w : List (Item ι τ)} (he' : e' r=w)
    (hgrow : 0 < h → grow e' w=e root)
    (hsame : ∀ j,0 < j → j < h → ∀ z ∈ ids (lev j),e' z=e z)
    (hrank : ∀ j,j ≤ h → ∀ z ∈ ids (lev j),rank' z=rank z) (hrank' : ∀ z ∈ ids w,rank' z=h)
    (hr : rank' r=h+1) (hnd : (ids w).Nodup) :
    Tower e' r (h+1) (Function.update (Function.update lev h w) (h+1) [.node r]) rank' := by
  have hlow : ∀ j,j < h → Function.update (Function.update lev h w) (h+1) [.node r] j=lev j :=
    fun j hj => by rw [Function.update_of_ne (by omega),Function.update_of_ne (by omega)]
  have hmid : Function.update (Function.update lev h w) (h+1) [.node r] h=w := by
    rw [Function.update_of_ne (by omega),Function.update_self]
  refine ⟨Function.update_self _ _ _,?_,?_,?_⟩
  · intro j hj
    by_cases hjh : j=h
    · subst hjh
      rw [hmid,Function.update_self,grow_node,he',grow_nil,List.append_nil]
    · rw [hlow j (by omega),T.step j (by omega)]
      by_cases hjh' : j+1=h
      · subst hjh'
        rw [hmid,hgrow (by omega),T.top,grow_node,grow_nil,List.append_nil]
      · rw [hlow (j+1) (by omega)]
        exact (grow_congr (hsame (j+1) (by omega) (by omega))).symm
  · intro j hj z hz
    by_cases hj1 : j=h+1
    · subst hj1
      rw [Function.update_self] at hz
      simp only [ids_node,ids_nil,List.mem_singleton] at hz
      rw [hz,hr]
    · by_cases hjh : j=h
      · subst hjh
        rw [hmid] at hz
        exact hrank' z hz
      · rw [hlow j (by omega)] at hz
        rw [hrank j (by omega) z hz,T.rank_eq j (by omega) z hz]
  · intro j hj
    by_cases hj1 : j=h+1
    · subst hj1
      rw [Function.update_self]
      exact List.nodup_singleton r
    · by_cases hjh : j=h
      · subst hjh
        rw [hmid]
        exact hnd
      · rw [hlow j (by omega)]
        exact T.nodup j (by omega)

/-- Nodes of a tower after a new root has been put over a segment. -/
theorem mem_lift {w : List (Item ι τ)} {r : ι} {j : ℕ} (hj : j ≤ h+1) {z : ι}
    (hz : z∈ids (Function.update (Function.update lev h w) (h+1) [.node r] j)) :
    (j=h+1 ∧ z=r) ∨ (j=h ∧ z∈ids w) ∨ (j < h ∧ z∈ids (lev j)) := by
  by_cases hj1 : j=h+1
  · subst hj1
    rw [Function.update_self] at hz
    exact Or.inl ⟨rfl,by simpa using hz⟩
  · rw [Function.update_of_ne hj1] at hz
    by_cases hjh : j=h
    · subst hjh
      rw [Function.update_self] at hz
      exact Or.inr (Or.inl ⟨rfl,hz⟩)
    · rw [Function.update_of_ne hjh] at hz
      exact Or.inr (Or.inr ⟨by omega,hz⟩)

/-- Drop a root that has a single node below it. -/
theorem collapse (T : Tower e root (h+1) lev rank) {x : ι} (hx : lev h=[.node x]) :
    Tower e x h lev rank :=
  ⟨hx,fun i hi => T.step i (by omega),fun i hi => T.rank_eq i (by omega),
    fun i hi => T.nodup i (by omega)⟩

end Tower

/-! ## Positions in a tower -/

/-- A frontier is empty or ends with a token that has a property. -/
def Ends (P : τ → Prop) (A : List (Item ι τ)) : Prop := A=[] ∨ ∃ A' t,A=A'++[.tok t] ∧ P t

/-- A frontier is empty or starts with a token that has a property. -/
def Starts (Q : τ → Prop) (B : List (Item ι τ)) : Prop := B=[] ∨ ∃ t B',B=.tok t::B' ∧ Q t

section Position

variable {P Q : τ → Prop} {A B C D : List (Item ι τ)} {e : ι → List (Item ι τ)}

/-- Growing keeps how a segment ends. -/
theorem Ends.grow (h : Ends P A) : Ends P (grow e A) := by
  rcases h with rfl|⟨A',t,rfl,ht⟩
  · exact Or.inl rfl
  · exact Or.inr ⟨Frontier.grow e A',t,by simp,ht⟩

/-- Growing keeps how a segment starts. -/
theorem Starts.grow (h : Starts Q B) : Starts Q (grow e B) := by
  rcases h with rfl|⟨t,B',rfl,ht⟩
  · exact Or.inl rfl
  · exact Or.inr ⟨t,Frontier.grow e B',by simp,ht⟩

/-- The end of an appended segment. -/
theorem Ends.append (hA : Ends P A) (hC : Ends P C) : Ends P (A++C) := by
  rcases hC with rfl|⟨C',t,rfl,ht⟩
  · rw [List.append_nil]
    exact hA
  · exact Or.inr ⟨A++C',t,by simp,ht⟩

/-- The start of an appended segment. -/
theorem Starts.append (hD : Starts Q D) (hB : Starts Q B) : Starts Q (D++B) := by
  rcases hD with rfl|⟨t,D',rfl,ht⟩
  · exact hB
  · exact Or.inr ⟨t,D'++B,by simp,ht⟩

/-- Pairs end in their last token. -/
theorem ends_leftPairs {c : List ι} {k : List τ} (h : c.length=k.length) (hk : ∀ t ∈ k,P t) :
    Ends P (leftPairs c k) := by
  rcases List.eq_nil_or_concat k with rfl|⟨k',t,rfl⟩
  · exact Or.inl (by rw [List.length_eq_zero_iff.mp h]; rfl)
  · rcases List.eq_nil_or_concat c with rfl|⟨c',x,rfl⟩
    · simp at h
    · simp only [List.concat_eq_append,List.length_append,List.length_cons,List.length_nil,
        Nat.add_right_cancel_iff] at h
      refine Or.inr ⟨leftPairs c' k'++[.node x],t,?_,hk t (by simp)⟩
      rw [List.concat_eq_append,List.concat_eq_append,leftPairs_concat h]
      simp

/-- Pairs start with their first token. -/
theorem starts_rightPairs {c : List ι} {k : List τ} (hk : ∀ t ∈ k,Q t) :
    Starts Q (rightPairs k c) := by
  cases k with
  | nil => exact Or.inl rfl
  | cons t k =>
    cases c with
    | nil => exact Or.inl rfl
    | cons x c => exact Or.inr ⟨t,.node x::rightPairs k c,rfl,hk t (by simp)⟩

/-- In an ordered row a closed property of the last token holds of all. -/
theorem Ends.forall_toks {R : τ → τ → Prop} (h : Ends P A) (hs : (toks A).Pairwise R)
    (hP : ∀ t u,R t u → P u → P t) : ∀ t ∈ toks A,P t := by
  rcases h with rfl|⟨A',u,rfl,hu⟩
  · intro t ht
    cases ht
  · intro t ht
    simp only [toks_append,toks_tok,toks_nil,List.pairwise_append,List.mem_append,
      List.mem_singleton] at hs ht
    rcases ht with ht|rfl
    · exact hP t u (hs.2.2 t ht u rfl) hu
    · exact hu

/-- In order, what holds of the first token holds of all. -/
theorem Starts.forall_toks {R : τ → τ → Prop} (h : Starts Q B) (hs : (toks B).Pairwise R)
    (hQ : ∀ t u,R t u → Q t → Q u) : ∀ t ∈ toks B,Q t := by
  rcases h with rfl|⟨u,B',rfl,hu⟩
  · intro t ht
    cases ht
  · intro t ht
    simp only [toks_tok,List.pairwise_cons,List.mem_cons] at hs ht
    rcases ht with rfl|ht
    · exact hu
    · exact hQ u t (hs.1 t ht) hu

/-- A node of a frontier between tokens with given properties. -/
def Seat (lev : ℕ → List (Item ι τ)) (P Q : τ → Prop) (i : ℕ) (x : ι) : Prop :=
  ∃ A B,lev i=A++.node x::B ∧ Ends P A ∧ Starts Q B

variable {root x p : ι} {h i : ℕ} {lev : ℕ → List (Item ι τ)} {rank : ι → ℕ}

/-- A seat is on its frontier. -/
theorem Seat.mem (hs : Seat lev P Q i x) : x∈ids (lev i) := by
  obtain ⟨A,B,hAB,-,-⟩ := hs
  simp [hAB]

/-- The root has a seat. -/
theorem Tower.seat_root (T : Tower e root h lev rank) : Seat lev P Q h root :=
  ⟨[],[],T.top,Or.inl rfl,Or.inl rfl⟩

/-- A longer row cannot end where a shorter one is followed by a greater
token. -/
theorem Ends.not_starts {R : τ → τ → Prop} {y : ι} (hA : Ends P (A++.node x::C))
    (hB : Starts Q (C++.node y::D)) (hs : (toks (A++.node x::C)).Pairwise R)
    (hP : ∀ t u,R t u → P u → P t) (hPQ : ∀ t,P t → ¬Q t) : False := by
  have hall := hA.forall_toks hs hP
  cases C with
  | nil =>
    rcases hA with hA|⟨A',t,hA,-⟩
    · simp at hA
    · have := congrArg List.getLast? hA
      simp at this
  | cons c C =>
    rcases hB with hB|⟨t,B',hB,ht⟩
    · cases hB
    · have hc : c=.tok t := (List.cons.inj hB).1
      subst hc
      exact hPQ t (hall t (by simp)) ht

/-- Two nodes of a row are one node, or one is behind the other. -/
theorem node_trichotomy {y : ι} {A' B' : List (Item ι τ)} (h : A++.node x::B=A'++.node y::B') :
    (x=y ∧ A=A' ∧ B=B') ∨ (∃ C,A'=A++.node x::C ∧ B=C++.node y::B') ∨
      ∃ C,A=A'++.node y::C ∧ B'=C++.node x::B := by
  rcases List.append_eq_append_iff.mp h with ⟨C,rfl,hC⟩|⟨C,rfl,hC⟩
  · cases C with
    | nil =>
      obtain ⟨hxy,hB⟩ := List.cons.inj hC
      exact Or.inl ⟨Item.node.inj hxy,(List.append_nil A).symm,hB⟩
    | cons c C =>
      obtain ⟨rfl,hC'⟩ := List.cons.inj hC
      exact Or.inr (Or.inl ⟨C,rfl,hC'⟩)
  · cases C with
    | nil =>
      obtain ⟨hxy,hB⟩ := List.cons.inj hC
      exact Or.inl ⟨(Item.node.inj hxy).symm,List.append_nil A',hB.symm⟩
    | cons c C =>
      obtain ⟨rfl,hC'⟩ := List.cons.inj hC
      exact Or.inr (Or.inr ⟨C,rfl,hC'⟩)

/-- The place for lower tokens is not behind the place for higher ones. -/
theorem Seat.before {R : τ → τ → Prop} {P' Q' : τ → Prop} {y : ι} (hx : Seat lev P Q i x)
    (hy : Seat lev P' Q' i y) (hs : (toks (lev i)).Pairwise R) (hP : ∀ t u,R t u → P u → P t)
    (hPQ : ∀ t,P t → ¬Q' t) :
    (x=y ∧ ∃ A B,lev i=A++.node x::B ∧ Ends P A ∧ Starts Q' B) ∨
      ∃ A C B,lev i=A++.node x::C++.node y::B ∧ Ends P A ∧ Starts Q (C++.node y::B) ∧
        Ends P' (A++.node x::C) ∧ Starts Q' B := by
  obtain ⟨A,B,hAB,hA,hB⟩ := hx
  obtain ⟨A',B',hAB',hA',hB'⟩ := hy
  rcases node_trichotomy (hAB.symm.trans hAB') with ⟨hxy,rfl,rfl⟩|⟨C,rfl,rfl⟩|⟨C,rfl,rfl⟩
  · exact Or.inl ⟨hxy,A,B,hAB,hA,hB'⟩
  · exact Or.inr ⟨A,C,B',hAB',hA,hB,hA',hB'⟩
  · have hpre : (toks (A'++.node y::C)).Pairwise R := by
      rw [hAB,toks_append] at hs
      exact (List.pairwise_append.mp hs).1
    exact (hA.not_starts hB' hpre hP hPQ).elim

/-- Between ordered tokens there is one place. -/
theorem Seat.unique {R : τ → τ → Prop} {y : ι} (hx : Seat lev P Q i x) (hy : Seat lev P Q i y)
    (hs : (toks (lev i)).Pairwise R) (hP : ∀ t u,R t u → P u → P t) (hPQ : ∀ t,P t → ¬Q t) : x=y := by
  rcases hx.before hy hs hP hPQ with ⟨hxy,-⟩|⟨A,C,B,hAB,-,hB,hA',-⟩
  · exact hxy
  · have hpre : (toks (A++.node x::C)).Pairwise R := by
      rw [hAB,toks_append] at hs
      exact (List.pairwise_append.mp hs).1
    exact (hA'.not_starts hB hpre hP hPQ).elim

/-- Step down to an item of a node. -/
theorem Seat.descend (hs : Seat lev P Q (i+1) p) (T : Tower e root h lev rank) (hi : i < h)
    (he : e p=C++.node x::D) (hC : Ends P C) (hD : Starts Q D) : Seat lev P Q i x := by
  obtain ⟨A,B,hAB,hA,hB⟩ := hs
  refine ⟨grow e A++C,D++grow e B,?_,hA.grow.append hC,hD.append hB.grow⟩
  have he' : e p=C++[.node x]++D := by
    rw [he]
    simp
  rw [T.open_node hi hAB he']
  simp

end Position

/-! ## Below a node -/

/-- Open all nodes a number of times. -/
def spread (e : ι → List (Item ι τ)) : ℕ → List (Item ι τ) → List (Item ι τ)
  | 0,l => l
  | n+1,l => spread e n (grow e l)

section Spread

variable {e : ι → List (Item ι τ)}

@[simp] theorem spread_nil (n : ℕ) : spread e n []=[] := by
  induction n with
  | zero => rfl
  | succ n ih => exact ih

/-- Segments spread on their own. -/
@[simp] theorem spread_append (n : ℕ) (l l' : List (Item ι τ)) :
    spread e n (l++l')=spread e n l++spread e n l' := by
  induction n generalizing l l' with
  | zero => rfl
  | succ n ih => rw [spread,grow_append,ih,spread,spread]

@[simp] theorem spread_tok (n : ℕ) (t : τ) (l : List (Item ι τ)) :
    spread e n (.tok t::l)=.tok t::spread e n l := by
  induction n generalizing l with
  | zero => rfl
  | succ n ih => rw [spread,grow_tok,ih,spread]

/-- A node that is spread comes from one of the segment. -/
theorem mem_ids_spread {n : ℕ} {l : List (Item ι τ)} {x : ι} :
    x∈ids (spread e n l) ↔ ∃ y ∈ ids l,x∈ids (spread e n [.node y]) := by
  induction l with
  | nil => simp
  | cons a l ih =>
    cases a with
    | node y =>
      rw [show Item.node y::l=[.node y]++l from rfl,spread_append,ids_append,List.mem_append,ih]
      simp
    | tok t => simpa using ih

/-- Spreading a frontier of a tower gives the frontier of the leaves. -/
theorem Tower.spread_eq {root : ι} {h i : ℕ} {lev : ℕ → List (Item ι τ)} {rank : ι → ℕ}
    (T : Tower e root h lev rank) (hi : i ≤ h) : spread e i (lev i)=lev 0 := by
  induction i with
  | zero => rfl
  | succ i ih => rw [spread,←T.step i (by omega),ih (by omega)]

end Spread

/-! ## Counting nodes -/

/-- Number of nodes above the leaves. -/
def innerCount (lev : ℕ → List (Item ι τ)) : ℕ → ℕ
  | 0 => 0
  | h+1 => innerCount lev h+(ids (lev (h+1))).length

/-- Only the frontiers up to the height are counted. -/
theorem innerCount_update_of_lt {lev : ℕ → List (Item ι τ)} {h i : ℕ} (hi : h < i) (l : List (Item ι τ)) :
    innerCount (Function.update lev i l) h=innerCount lev h := by
  induction h with
  | zero => rfl
  | succ h ih => rw [innerCount,innerCount,ih (by omega),Function.update_of_ne (by omega)]

/-- Counting after one frontier has changed. -/
theorem innerCount_update (lev : ℕ → List (Item ι τ)) {h i : ℕ} (h0 : 0 < i) (hi : i ≤ h)
    (l : List (Item ι τ)) :
    innerCount (Function.update lev i l) h+(ids (lev i)).length=innerCount lev h+(ids l).length := by
  induction h with
  | zero => omega
  | succ h ih =>
    rw [innerCount,innerCount]
    by_cases hih : i=h+1
    · subst hih
      rw [innerCount_update_of_lt (by omega),Function.update_self]
      omega
    · rw [Function.update_of_ne (by omega)]
      have := ih (by omega)
      omega

/-- Nodes that hold tokens are no more than the tokens between the leaves. -/
theorem Tower.innerCount_le {e : ι → List (Item ι τ)} {root : ι} {h : ℕ} {lev : ℕ → List (Item ι τ)}
    {rank : ι → ℕ} (T : Tower e root h lev rank)
    (htok : ∀ i,i < h → ∀ x ∈ ids (lev (i+1)),1 ≤ (toks (e x)).length) :
    ∀ n,n ≤ h → innerCount lev n+(toks (lev n)).length ≤ (toks (lev 0)).length := by
  intro n hn
  induction n with
  | zero => simp [innerCount]
  | succ n ih =>
    have h1 := ih (by omega)
    have h2 := toks_grow_length (htok n (by omega))
    rw [←T.step n (by omega)] at h2
    rw [innerCount]
    omega

/-- Frontiers with nodes count at least one node each. -/
theorem le_innerCount {lev : ℕ → List (Item ι τ)} {h : ℕ} (hne : ∀ i,i < h → ids (lev (i+1))≠[]) :
    h ≤ innerCount lev h := by
  induction h with
  | zero => exact Nat.zero_le _
  | succ h ih =>
    have h1 := ih fun i hi => hne i (by omega)
    have h2 := List.length_pos_iff.mpr (hne h (by omega))
    rw [innerCount]
    omega

/-- Frontiers over nodes that hold one node more than tokens. -/
theorem Tower.ids_length {e : ι → List (Item ι τ)} {root : ι} {h : ℕ} {lev : ℕ → List (Item ι τ)}
    {rank : ι → ℕ} (T : Tower e root h lev rank)
    (hone : ∀ i,i < h → ∀ x ∈ ids (lev (i+1)),(ids (e x)).length=(toks (e x)).length+1) {d : ℕ}
    (hd : d ≤ h) : (ids (lev (h-d))).length=(toks (lev (h-d))).length+1 := by
  induction d with
  | zero =>
    rw [Nat.sub_zero,T.top]
    rfl
  | succ d ih =>
    have h1 := ih (by omega)
    rw [show h-d=h-(d+1)+1 by omega] at h1
    have h2 := ids_grow_length (hone (h-(d+1)) (by omega))
    rw [←T.step (h-(d+1)) (by omega)] at h2
    omega

end StudyCode.Frontier
