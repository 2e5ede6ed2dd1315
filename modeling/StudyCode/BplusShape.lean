import Mathlib.Data.Fintype.Card
import StudyCode.BplusNodes
import StudyCode.Frontier

/-!
# The shape of a B+ tree

A node opens to its pairs or to its children with the separators between
them. A tree has a shape when its nodes form a tower with leaves at the
bottom, internal nodes that have one child more than separators above, and
parents that are the nodes which hold their children. Replacing a segment
below one node keeps the shape; splitting is such a replacement.
-/

namespace StudyCode.Bplus

open Frontier

variable {κ ν β : Type}

/-- Tokens of a tree: separators and pairs. -/
inductive Tok (κ ν : Type) where
  /-- A separator. -/
  | sep (k : κ)
  /-- A pair. -/
  | kv (p : KeyValue κ ν)

/-- Key of a token. -/
def Tok.key : Tok κ ν → κ
  | sep k => k
  | kv p => p.key

/-- Pair of a token. -/
def Tok.pair? : Tok κ ν → Option (KeyValue κ ν)
  | sep _ => none
  | kv p => some p

/-- Items that a node holds. -/
def Node.items : Node κ ν β → List (Item ℕ (Tok κ ν))
  | inter n => weave n.clist (n.ilist.map Tok.sep)
  | leaf n => n.vlist.map fun p => .tok (.kv p)

/-- Items that a node of a tree holds. -/
def Tree.items (s : Tree κ ν β) (x : ℕ) : List (Item ℕ (Tok κ ν)) := (s.node x).items

/-- An internal node with one child more than separators. -/
def Node.Joint (n : Node κ ν β) : Prop := ∃ r,n=.inter r ∧ r.clist.length=r.ilist.length+1

section Node

variable (n : Node κ ν β) (v w : Option ℕ)

@[simp] theorem Node.setPar_par : (n.setPar v).par=v := by cases n <;> rfl

/-- A new parent leaves the items. -/
@[simp] theorem Node.setPar_items : (n.setPar v).items=n.items := by cases n <;> rfl

/-- A new parent leaves the kind of a node. -/
@[simp] theorem Node.setPar_isleaf : (n.setPar v).isleaf=n.isleaf := by cases n <;> rfl

/-- The last parent counts. -/
@[simp] theorem Node.setPar_setPar : (n.setPar v).setPar w=n.setPar w := by cases n <;> rfl

/-- A node that gets its own parent stays. -/
@[simp] theorem Node.setPar_self : n.setPar n.par=n := by cases n <;> rfl

/-- A new parent leaves the children and separators. -/
theorem Node.Joint.setPar {n : Node κ ν β} (h : n.Joint) : (n.setPar v).Joint := by
  obtain ⟨r,rfl,hr⟩ := h
  exact ⟨{r with par := v},rfl,hr⟩

/-- A leaf has no children. -/
theorem Node.ids_items_leaf {n : Node κ ν β} (h : n.isleaf=true) : ids n.items=[] := by
  cases n with
  | inter r => cases h
  | leaf r => exact ids_map_tok _ _

/-- The children among the items of an internal node. -/
theorem Node.ids_items_inter {r : InterNode κ} (h : r.clist.length=r.ilist.length+1) :
    ids (Node.inter r : Node κ ν β).items=r.clist :=
  ids_weave (by simpa using h)

end Node

section Objects

variable (s : Tree κ ν β)

@[simp] theorem Tree.set_next (x : ℕ) (n : Node κ ν β) : (s.set x n).next=s.next := rfl

@[simp] theorem Tree.set_root (x : ℕ) (n : Node κ ν β) : (s.set x n).root=s.root := rfl

@[simp] theorem Tree.set_leaf (x : ℕ) (n : Node κ ν β) : (s.set x n).leaf=s.leaf := rfl

/-- A node that was written reads back. -/
@[simp] theorem Tree.set_node_self (x : ℕ) (n : Node κ ν β) : (s.set x n).node x=n :=
  Function.update_self _ _ _

/-- The other nodes stay. -/
theorem Tree.set_node_of_ne {x y : ℕ} (h : y≠x) (n : Node κ ν β) :
    (s.set x n).node y=s.node y :=
  Function.update_of_ne h _ _

/-- The nodes of a tree where one gets a new parent. -/
theorem Tree.setPar_node (x y : ℕ) (p : Option ℕ) :
    (s.setPar x p).node y=if y=x then (s.node y).setPar p else s.node y := by
  unfold Tree.setPar
  by_cases h : y=x
  · subst h
    simp
  · rw [Tree.set_node_of_ne s h,if_neg h]

/-- The nodes of a tree where some get the same parent. -/
theorem Tree.adopt_node (p : ℕ) (c : List ℕ) (y : ℕ) :
    (s.adopt p c).node y=if y∈c then (s.node y).setPar (some p) else s.node y := by
  unfold Tree.adopt
  induction c generalizing s with
  | nil => simp
  | cons x c ih =>
    rw [List.foldl_cons,ih,Tree.setPar_node]
    by_cases hx : y=x <;> by_cases hc : y∈c <;> simp [hx,hc]

@[simp] theorem Tree.adopt_next (p : ℕ) (c : List ℕ) : (s.adopt p c).next=s.next := by
  unfold Tree.adopt
  induction c generalizing s with
  | nil => rfl
  | cons x c ih => rw [List.foldl_cons,ih]; rfl

@[simp] theorem Tree.adopt_root (p : ℕ) (c : List ℕ) : (s.adopt p c).root=s.root := by
  unfold Tree.adopt
  induction c generalizing s with
  | nil => rfl
  | cons x c ih => rw [List.foldl_cons,ih]; rfl

@[simp] theorem Tree.adopt_leaf (p : ℕ) (c : List ℕ) : (s.adopt p c).leaf=s.leaf := by
  unfold Tree.adopt
  induction c generalizing s with
  | nil => rfl
  | cons x c ih => rw [List.foldl_cons,ih]; rfl

/-- The nodes of a tree with a new object. -/
theorem Tree.new_node (n : Node κ ν β) (y : ℕ) :
    (s.new n).1.node y=if y=s.next then n else s.node y := by
  unfold Tree.new
  by_cases h : y=s.next
  · subst h
    simp
  · rw [if_neg h]
    exact Function.update_of_ne h _ _

/-- Items where at most the parent of a node changed. -/
theorem items_setPar {s s' : Tree κ ν β} {z : ℕ} (h : ∃ v,s'.node z=(s.node z).setPar v) :
    s'.items z=s.items z := by
  obtain ⟨v,hv⟩ := h
  rw [Tree.items,hv,Node.setPar_items,Tree.items]

end Objects

/-! ## Shapes -/

/-- The nodes of a tree form a tower with the right classes and parents. -/
structure Shape (s : Tree κ ν β) (h : ℕ) (lev : ℕ → List (Item ℕ (Tok κ ν))) (rank : ℕ → ℕ) :
    Prop where
  /-- The frontiers of the tree. -/
  tower : Tower s.items s.root h lev rank
  /-- Nodes are objects. -/
  lt : ∀ i,i ≤ h → ∀ x ∈ ids (lev i),x < s.next
  /-- The bottom frontier has leaves. -/
  leaf : ∀ x ∈ ids (lev 0),(s.node x).isleaf=true
  /-- The others have internal nodes. -/
  joint : ∀ i,i < h → ∀ x ∈ ids (lev (i+1)),(s.node x).Joint
  /-- Parents of children. -/
  par : ∀ i,i < h → ∀ x ∈ ids (lev (i+1)),∀ c ∈ ids (s.items x),(s.node c).par=some x
  /-- Parent of the root. -/
  par_root : (s.node s.root).par=none

namespace Shape

variable {s s' : Tree κ ν β} {h : ℕ} {lev : ℕ → List (Item ℕ (Tok κ ν))} {rank rank' : ℕ → ℕ}

/-- A tree of one leaf. -/
theorem single {n : Leaf κ ν β} (hn : s.node s.root=.leaf n) (hpar : n.par=none)
    (hlt : s.root < s.next) : Shape s 0 (fun _ => [.node s.root]) fun _ => 0 := by
  refine ⟨⟨rfl,fun i hi => by omega,fun i hi x _ => (Nat.le_zero.mp hi).symm,
    fun i _ => List.nodup_singleton _⟩,?_,?_,fun i hi => by omega,fun i hi => by omega,?_⟩
  · intro i _ x hx
    have : x=s.root := by simpa using hx
    rw [this]
    exact hlt
  · intro x hx
    have : x=s.root := by simpa using hx
    rw [this,hn]
    rfl
  · rw [hn]
    exact hpar

/-- Replace a segment below a node. -/
theorem replace (S : Shape s h lev rank) (hroot : s'.root=s.root) (hnext : s.next ≤ s'.next)
    {i : ℕ} (hi : i < h) {p : ℕ} (hp : p∈ids (lev (i+1)))
    {C w w' D : List (Item ℕ (Tok κ ν))} (he : s.items p=C++w++D) (he' : s'.items p=C++w'++D)
    (hjoint : (s'.node p).Joint) (hgrow : 0 < i → grow s'.items w'=grow s.items w)
    (hsame : ∀ z,z < s.next → z≠p → z∉ids w → ∃ v,s'.node z=(s.node z).setPar v)
    (hrank : ∀ z,z < s.next → rank' z=rank z) (hrank' : ∀ z ∈ ids w',rank' z=i)
    (hnew : ∀ z ∈ ids w',z∈ids w ∨ (s.next ≤ z ∧ z < s'.next)) (hnd : (ids w').Nodup)
    (hkind : ∀ z ∈ ids w',if i=0 then (s'.node z).isleaf=true else (s'.node z).Joint)
    (hpar : ∀ c,c < s.next → (s.node c).par≠some p → (∀ z ∈ ids w,(s.node c).par≠some z) →
      (s'.node c).par=(s.node c).par)
    (hparp : ∀ c ∈ ids (s'.items p),(s'.node c).par=some p)
    (hparw : ∀ z ∈ ids w',∀ c ∈ ids (s'.items z),(s'.node c).par=some z) :
    ∃ A B,lev i=A++w++B ∧ Shape s' h (Function.update lev i (A++w'++B)) rank' := by
  have T := S.tower
  have hitems : ∀ z,z < s.next → z≠p → z∉ids w → s'.items z=s.items z := by
    intro z hz hzp hzw
    exact items_setPar (hsame z hz hzp hzw)
  obtain ⟨A,B,hlev,T'⟩ := T.replace hi hp he he' hgrow
    (fun j _ hj z hz => hitems z (S.lt j hj z hz)) (fun j hj z hz => hrank z (S.lt j hj z hz))
    hrank' (fun z hz => (hnew z hz).imp id fun hz' j hj hmem => by
      have := S.lt j hj z hmem
      omega) hnd
  have hw : ∀ z ∈ ids w,z∈ids (lev i) := fun z hz => by simp [hlev,hz]
  have hold : ∀ j,j ≤ h → ∀ z ∈ ids (lev j),z < s'.next := fun j hj z hz =>
    (S.lt j hj z hz).trans_le hnext
  refine ⟨A,B,hlev,by rw [hroot]; exact T',?_,?_,?_,?_,?_⟩
  · intro j hj z hz
    rcases T.mem_replace (by omega) hlev hj hz with ⟨-,hz'⟩|⟨hz',-⟩
    · rcases hnew z hz' with hzw|hzn
      · exact hold i (by omega) z (hw z hzw)
      · exact hzn.2
    · exact hold j hj z hz'
  · intro z hz
    rcases T.mem_replace (by omega) hlev (Nat.zero_le h) hz with ⟨h0,hz'⟩|⟨hz',hzw⟩
    · have := hkind z hz'
      rwa [if_pos h0.symm] at this
    · have hzp : z≠p := fun hzp => by
        have := T.level_unique (Nat.zero_le h) (by omega) hz' (hzp ▸ hp)
        omega
      obtain ⟨v,hv⟩ := hsame z (S.lt 0 (Nat.zero_le h) z hz') hzp hzw
      rw [hv,Node.setPar_isleaf]
      exact S.leaf z hz'
  · intro j hj z hz
    rcases T.mem_replace (by omega) hlev (show j+1 ≤ h by omega) hz with ⟨h1,hz'⟩|⟨hz',hzw⟩
    · have := hkind z hz'
      rwa [if_neg (by omega)] at this
    · by_cases hzp : z=p
      · rw [hzp]
        exact hjoint
      · obtain ⟨v,hv⟩ := hsame z (S.lt (j+1) hj z hz') hzp hzw
        rw [hv]
        exact (S.joint j hj z hz').setPar v
  · intro j hj z hz c hc
    rcases T.mem_replace (by omega) hlev (show j+1 ≤ h by omega) hz with ⟨h1,hz'⟩|⟨hz',hzw⟩
    · exact hparw z hz' c hc
    · by_cases hzp : z=p
      · rw [hzp] at hc ⊢
        exact hparp c hc
      · rw [hitems z (S.lt (j+1) hj z hz') hzp hzw] at hc
        have hcz := S.par j hj z hz' c hc
        rw [hpar c (S.lt j (by omega) c (T.child_mem hj hz' hc)) (fun h => hzp ?_) fun y hy h => ?_,hcz]
        · exact Option.some.inj (hcz.symm.trans h)
        · rw [hcz] at h
          exact hzw (Option.some.inj h ▸ hy)
  · rw [hroot,hpar s.root (S.lt h le_rfl _ T.root_mem) (by rw [S.par_root]; simp)
      (fun z _ => by rw [S.par_root]; simp),S.par_root]

/-- Put a new root over a segment that replaces the old root. -/
theorem lift (S : Shape s h lev rank) (hnext : s.next ≤ s'.next) {r : ℕ} (hroot : s'.root=r)
    (hr : s.next ≤ r ∧ r < s'.next) {w : List (Item ℕ (Tok κ ν))} (he' : s'.items r=w)
    (hjoint : (s'.node r).Joint) (hparr : (s'.node r).par=none)
    (hgrow : 0 < h → grow s'.items w=s.items s.root)
    (hsame : ∀ z,z < s.next → z≠s.root → ∃ v,s'.node z=(s.node z).setPar v)
    (hrank : ∀ z,z < s.next → rank' z=rank z) (hrank' : ∀ z ∈ ids w,rank' z=h)
    (hrankr : rank' r=h+1) (hnew : ∀ z ∈ ids w,z=s.root ∨ (s.next ≤ z ∧ z < s'.next))
    (hnd : (ids w).Nodup)
    (hkind : ∀ z ∈ ids w,if h=0 then (s'.node z).isleaf=true else (s'.node z).Joint)
    (hpar : ∀ c,c < s.next → c≠s.root → (s.node c).par≠some s.root →
      (s'.node c).par=(s.node c).par)
    (hparp : ∀ c ∈ ids w,(s'.node c).par=some r)
    (hparw : ∀ z ∈ ids w,∀ c ∈ ids (s'.items z),(s'.node c).par=some z) :
    Shape s' (h+1) (Function.update (Function.update lev h w) (h+1) [.node r]) rank' := by
  have T := S.tower
  have hrootlt := S.lt h le_rfl _ T.root_mem
  have hne : ∀ j,j < h → ∀ z ∈ ids (lev j),z≠s.root := fun j hj z hz hzr => by
    have := T.level_unique (by omega) le_rfl hz (hzr ▸ T.root_mem)
    omega
  have hitems : ∀ j,j < h → ∀ z ∈ ids (lev j),s'.items z=s.items z := by
    intro j hj z hz
    exact items_setPar (hsame z (S.lt j (by omega) z hz) (hne j hj z hz))
  refine ⟨?_,?_,?_,?_,?_,?_⟩
  · rw [hroot]
    exact T.lift he' hgrow (fun j _ hj z hz => hitems j hj z hz)
      (fun j hj z hz => hrank z (S.lt j hj z hz)) hrank' hrankr hnd
  · intro j hj z hz
    rcases Tower.mem_lift hj hz with ⟨-,rfl⟩|⟨-,hz'⟩|⟨hj',hz'⟩
    · exact hr.2
    · rcases hnew z hz' with rfl|hzn
      · exact hrootlt.trans_le hnext
      · exact hzn.2
    · exact (S.lt j (by omega) z hz').trans_le hnext
  · intro z hz
    rcases Tower.mem_lift (Nat.zero_le _) hz with ⟨h0,-⟩|⟨h0,hz'⟩|⟨hj',hz'⟩
    · omega
    · have := hkind z hz'
      rwa [if_pos h0.symm] at this
    · obtain ⟨v,hv⟩ := hsame z (S.lt 0 (by omega) z hz') (hne 0 hj' z hz')
      rw [hv,Node.setPar_isleaf]
      exact S.leaf z hz'
  · intro j hj z hz
    rcases Tower.mem_lift (by omega) hz with ⟨-,rfl⟩|⟨h0,hz'⟩|⟨hj',hz'⟩
    · exact hjoint
    · have := hkind z hz'
      rwa [if_neg (by omega)] at this
    · obtain ⟨v,hv⟩ := hsame z (S.lt (j+1) (by omega) z hz') (hne (j+1) hj' z hz')
      rw [hv]
      exact (S.joint j (by omega) z hz').setPar v
  · intro j hj z hz c hc
    rcases Tower.mem_lift (by omega) hz with ⟨-,rfl⟩|⟨-,hz'⟩|⟨hj',hz'⟩
    · rw [he'] at hc
      exact hparp c hc
    · exact hparw z hz' c hc
    · rw [hitems (j+1) hj' z hz'] at hc
      have hcz := S.par j (by omega) z hz' c hc
      have hcm := T.child_mem (by omega) hz' hc
      rw [hpar c (S.lt j (by omega) c hcm) (hne j (by omega) c hcm) (fun h => ?_),hcz]
      rw [hcz] at h
      exact hne (j+1) hj' z hz' (Option.some.inj h)
  · rw [hroot]
    exact hparr

/-- A node below the root stands in the node that its parent names. -/
theorem parent_mem (S : Shape s h lev rank) {i : ℕ} (hi : i < h) {x : ℕ} (hx : x∈ids (lev i)) :
    ∃ p,(s.node x).par=some p ∧ p∈ids (lev (i+1)) ∧ x∈ids (s.items p) := by
  obtain ⟨p,hp,hxp⟩ := S.tower.exists_parent hi hx
  exact ⟨p,S.par i hi p hp x hxp,hp,hxp⟩

/-- The root is the only node without a parent. -/
theorem eq_root (S : Shape s h lev rank) {i : ℕ} (hi : i ≤ h) {x : ℕ} (hx : x∈ids (lev i))
    (hpar : (s.node x).par=none) : i=h ∧ x=s.root := by
  have hih : i=h := by
    by_contra hne
    obtain ⟨p,hp,-,-⟩ := S.parent_mem (show i < h by omega) hx
    rw [hpar] at hp
    cases hp
  subst hih
  rw [S.tower.top] at hx
  exact ⟨rfl,by simpa using hx⟩

/-- The parent that a node names holds it. -/
theorem parent (S : Shape s h lev rank) {i : ℕ} (hi : i ≤ h) {x : ℕ} (hx : x∈ids (lev i)) {p : ℕ}
    (hpar : (s.node x).par=some p) :
    i < h ∧ p∈ids (lev (i+1)) ∧ ∃ q,s.node p=.inter q ∧ q.clist.length=q.ilist.length+1 ∧
      x∈q.clist := by
  have hih : i < h := by
    by_contra hn
    have hi' : i=h := by omega
    subst hi'
    have hroot := S.par_root
    rw [S.tower.top] at hx
    have hxr : x=s.root := by simpa using hx
    rw [←hxr,hpar] at hroot
    cases hroot
  obtain ⟨p',hp1,hp2,hp3⟩ := S.parent_mem hih hx
  have hpp : p'=p := Option.some.inj (hp1.symm.trans hpar)
  subst hpp
  obtain ⟨q,hq1,hq2⟩ := S.joint i hih p' hp2
  rw [Tree.items,hq1,Node.ids_items_inter hq2] at hp3
  exact ⟨hih,hp2,q,hq1,hq2,hp3⟩

/-- Every frontier has a node. -/
theorem exists_mem (S : Shape s h lev rank) {i : ℕ} (hi : i ≤ h) : ∃ x,x∈ids (lev (h-i)) := by
  induction i with
  | zero => exact ⟨s.root,S.tower.root_mem⟩
  | succ i ih =>
    obtain ⟨x,hx⟩ := ih (by omega)
    rw [show h-i=h-(i+1)+1 by omega] at hx
    obtain ⟨r,hr1,hr2⟩ := S.joint (h-(i+1)) (by omega) x hx
    have hids : ids (s.items x)=r.clist := by
      rw [Tree.items,hr1,Node.ids_items_inter hr2]
    have hc : r.clist[0]∈ids (s.items x) := by
      rw [hids]
      exact List.getElem_mem (by omega)
    exact ⟨_,S.tower.child_mem (by omega) hx hc⟩

/-- A tree has more objects than frontiers below the root. -/
theorem height_lt (S : Shape s h lev rank) : h < s.next := by
  have hnode : ∀ i : Fin (h+1),∃ x : Fin s.next,(x:ℕ)∈ids (lev i) := by
    intro i
    have hi := i.isLt
    obtain ⟨x,hx⟩ := S.exists_mem (show h-i ≤ h by omega)
    rw [show h-(h-i)=i by omega] at hx
    exact ⟨⟨x,S.lt i (by omega) x hx⟩,hx⟩
  choose g hg using hnode
  have hinj : Function.Injective g := by
    intro i j hij
    have hi := i.isLt
    have hj := j.isLt
    have hgi := hg i
    rw [hij] at hgi
    exact Fin.ext (S.tower.level_unique (by omega) (by omega) hgi (hg j))
  have := Fintype.card_le_of_injective g hinj
  simp only [Fintype.card_fin] at this
  omega

/-- A tree has at least as many objects as leaves. -/
theorem leaves_le (S : Shape s h lev rank) : (ids (lev 0)).length ≤ s.next := by
  have hsub : ids (lev 0) ⊆ List.range s.next := fun z hz =>
    List.mem_range.mpr (S.lt 0 (Nat.zero_le h) z hz)
  have := (List.subperm_of_subset (S.tower.nodup 0 (Nat.zero_le h)) hsub).length_le
  rwa [List.length_range] at this

/-- Children of an internal node. -/
theorem child (S : Shape s h lev rank) {i : ℕ} (hi : i < h) {x : ℕ} (hx : x∈ids (lev (i+1)))
    {c : ℕ} (hc : c∈ids (s.items x)) :
    c∈ids (lev i) ∧ c < s.next ∧ (s.node c).par=some x := by
  have hm := S.tower.child_mem hi hx hc
  exact ⟨hm,S.lt i (by omega) c hm,S.par i hi x hx c hc⟩

/-- Nodes of different frontiers are different. -/
theorem ne_of_level (S : Shape s h lev rank) {i j : ℕ} (hi : i ≤ h) (hj : j ≤ h) (hij : i≠j)
    {x y : ℕ} (hx : x∈ids (lev i)) (hy : y∈ids (lev j)) : x≠y := fun hxy =>
  hij (S.tower.level_unique hi hj hx (hxy ▸ hy))

end Shape

/-! ## Splits -/

/-- Lists of an internal node around one of its children. -/
theorem InterNode.around {q : InterNode κ} (hq : q.clist.length=q.ilist.length+1) {x : ℕ}
    (hx : x∈q.clist) :
    ∃ c1 c2 k1 k2,q.clist=c1++x::c2 ∧ q.ilist=k1++k2 ∧ c1.length=k1.length ∧
      k2.length=c2.length ∧ q.clist.idxOf x=c1.length := by
  have hlt := List.idxOf_lt_length_of_mem hx
  refine ⟨q.clist.take (q.clist.idxOf x),q.clist.drop (q.clist.idxOf x+1),
    q.ilist.take (q.clist.idxOf x),q.ilist.drop (q.clist.idxOf x),?_,?_,?_,?_,?_⟩
  · have hget : q.clist[q.clist.idxOf x]=x := List.getElem_idxOf hlt
    nth_rewrite 1 [←List.take_append_drop (q.clist.idxOf x) q.clist]
    rw [List.drop_eq_getElem_cons hlt,hget]
  · exact (List.take_append_drop _ _).symm
  · simp
    omega
  · simp
    omega
  · simp
    omega

/-- Inserting where the first part ends. -/
theorem insertAt_append {α : Type} (a b : List α) (x : α) : insertAt (a++b) a.length x=a++x::b := by
  simp [insertAt]

/-- The outcome of splitting a node that has a parent: the node is replaced
by two and its parent holds the second one behind the first. -/
structure SplitBelow (s s' : Tree κ ν β) (x p : ℕ) (q : InterNode κ) (nl nr : Node κ ν β) (k : κ) :
    Prop where
  /-- The root stays. -/
  root : s'.root=s.root
  /-- One object is made. -/
  next : s'.next=s.next+1
  /-- The parent before. -/
  parent : s.node p=.inter q
  /-- The left half takes the place of the node. -/
  left : s'.node x=nl
  /-- The right half is the new object. -/
  right : s'.node s.next=nr
  /-- The parent after. -/
  parent' : s'.node p=.inter {q with
    ilist := insertAt q.ilist (q.clist.idxOf x) k,
    clist := insertAt q.clist (q.clist.idxOf x+1) s.next}
  /-- Children of the right half change their parent, nothing else changes. -/
  other : ∀ z,z≠x → z≠p → z≠s.next →
    s'.node z=if z∈ids nr.items then (s.node z).setPar (some s.next) else s.node z

/-- The outcome of splitting the root. -/
structure SplitRoot (s s' : Tree κ ν β) (x : ℕ) (nl nr : Node κ ν β) (k : κ) : Prop where
  /-- The second new object is the root. -/
  root : s'.root=s.next+1
  /-- Two objects are made. -/
  next : s'.next=s.next+2
  /-- The left half takes the place of the node. -/
  left : s'.node x=nl
  /-- The right half is the first new object. -/
  right : s'.node s.next=nr
  /-- The new root. -/
  top : s'.node (s.next+1)=.inter ⟨[k],[x,s.next],none⟩
  /-- Children of the right half change their parent, nothing else changes. -/
  other : ∀ z,z≠x → z≠s.next → z≠s.next+1 →
    s'.node z=if z∈ids nr.items then (s.node z).setPar (some s.next) else s.node z

/-- The halves of a node on some frontier. -/
structure Halves (s : Tree κ ν β) (i x : ℕ) (nl nr : Node κ ν β) (k : κ) (p : ℕ) : Prop where
  /-- Parent of the left half. -/
  par_left : nl.par=some p
  /-- Parent of the right half. -/
  par_right : nr.par=some p
  /-- Halves of a leaf are leaves. -/
  leaf : i=0 → nl.isleaf=true ∧ nr.isleaf=true
  /-- Halves of an internal node are internal nodes that share its items. -/
  inter : 0 < i → nl.Joint ∧ nr.Joint ∧ s.items x=nl.items++Item.tok (Tok.sep k)::nr.items

namespace Halves

variable {s s' : Tree κ ν β} {h i x p : ℕ} {lev : ℕ → List (Item ℕ (Tok κ ν))} {rank : ℕ → ℕ}
  {nl nr : Node κ ν β} {k : κ}

/-- Both halves are of the kind that their frontier asks for. -/
theorem kind (H : Halves s i x nl nr k p) :
    (if i=0 then nl.isleaf=true else nl.Joint) ∧ if i=0 then nr.isleaf=true else nr.Joint := by
  by_cases h0 : i=0
  · rw [if_pos h0,if_pos h0]
    exact H.leaf h0
  · rw [if_neg h0,if_neg h0]
    have := H.inter (by omega)
    exact ⟨this.1,this.2.1⟩

/-- Children of the halves are children of the node. -/
theorem child (H : Halves s i x nl nr k p) (S : Shape s h lev rank) (hi : i ≤ h)
    (hx : x∈ids (lev i)) {c : ℕ} (hc : c∈ids nl.items ∨ c∈ids nr.items) :
    (s.node c).par=some x ∧ c < s.next ∧ c≠x ∧ ∃ j,i=j+1 ∧ c∈ids (lev j) := by
  rcases Nat.eq_zero_or_pos i with h0|h0
  · rw [Node.ids_items_leaf (H.leaf h0).1,Node.ids_items_leaf (H.leaf h0).2] at hc
    rcases hc with hc|hc <;> cases hc
  · obtain ⟨j,rfl⟩ : ∃ j,i=j+1 := ⟨i-1,by omega⟩
    have hmem : c∈ids (s.items x) := by
      rw [(H.inter h0).2.2]
      simpa using hc
    obtain ⟨h1,h2,h3⟩ := S.child hi hx hmem
    exact ⟨h3,h2,S.ne_of_level (by omega) hi (by omega) h1 hx,j,rfl,h1⟩

/-- A child belongs to one half only. -/
theorem disjoint (H : Halves s i x nl nr k p) (S : Shape s h lev rank) (hi : i ≤ h)
    (hx : x∈ids (lev i)) {c : ℕ} (hl : c∈ids nl.items) : c∉ids nr.items := by
  intro hr
  obtain ⟨-,-,-,j,rfl,-⟩ := H.child S hi hx (Or.inl hl)
  have hnd := S.tower.nodup_node hi hx
  rw [(H.inter (by omega)).2.2,ids_append,ids_tok,List.nodup_append] at hnd
  exact hnd.2.2 c hl c hr rfl

end Halves

section Split

variable {s s' : Tree κ ν β} {h i x p : ℕ} {lev : ℕ → List (Item ℕ (Tok κ ν))} {rank : ℕ → ℕ}
  {nl nr : Node κ ν β} {k : κ}

section SplitBelow

variable {q : InterNode κ}

/-- The items of the parent, around the node before the split and around its halves
behind it. -/
theorem SplitBelow.around (P : SplitBelow s s' x p q nl nr k) (S : Shape s h lev rank) (hi : i < h)
    (hx : x∈ids (lev i)) (hpar : (s.node x).par=some p) :
    p∈ids (lev (i+1)) ∧ (s'.node p).par=(s.node p).par ∧ (s'.node p).Joint ∧
      (∀ c ∈ ids (s'.items p),c=x ∨ c=s.next ∨ c∈ids (s.items p)) ∧
      ∃ C D,s.items p=C++[Item.node x]++D ∧
        s'.items p=C++[Item.node x,Item.tok (Tok.sep k),Item.node s.next]++D := by
  obtain ⟨p',hp1,hp2,hp3⟩ := S.parent_mem hi hx
  obtain rfl : p'=p := Option.some.inj (hp1.symm.trans hpar)
  obtain ⟨q',hq1,hq2⟩ := S.joint i hi p' hp2
  obtain rfl : q'=q := by
    rw [P.parent] at hq1
    cases hq1
    rfl
  have hids : ids (s.items p')=q'.clist := by
    rw [Tree.items,hq1,Node.ids_items_inter hq2]
  rw [hids] at hp3
  obtain ⟨c1,c2,k1,k2,hc,hk,hck,hkc,hidx⟩ := InterNode.around hq2 hp3
  have hclist : insertAt q'.clist (q'.clist.idxOf x+1) s.next=c1++x::s.next::c2 := by
    have := insertAt_append (c1++[x]) c2 s.next
    rw [hidx,hc]
    simpa using this
  have hilist : insertAt q'.ilist (q'.clist.idxOf x) k=k1++k::k2 := by
    rw [hidx,hk,hck]
    exact insertAt_append k1 k2 k
  have hq' := P.parent'
  rw [hclist,hilist] at hq'
  have hlen : (c1++x::s.next::c2).length=(k1++k::k2).length+1 := by
    simp
    omega
  refine ⟨hp2,by rw [hq',hq1]; rfl,⟨_,hq',hlen⟩,?_,leftPairs c1 (k1.map Tok.sep),
    rightPairs (k2.map Tok.sep) c2,?_,?_⟩
  · intro c hcm
    rw [Tree.items,hq',Node.ids_items_inter hlen] at hcm
    rw [hids,hc]
    simp only [List.mem_append,List.mem_cons] at hcm ⊢
    tauto
  · rw [Tree.items,hq1]
    simp only [Node.items,hc,hk,List.map_append]
    rw [weave_split (by simpa using hck)]
    simp
  · rw [Tree.items,hq']
    simp only [Node.items,List.map_append,List.map_cons]
    rw [weave_split (by simpa using hck)]
    simp

/-- Children of the halves are neither of the nodes that the split writes. -/
theorem SplitBelow.child (H : Halves s i x nl nr k p) (S : Shape s h lev rank) (hi : i < h)
    (hx : x∈ids (lev i)) (hp : p∈ids (lev (i+1))) {c : ℕ} (hc : c∈ids nl.items ∨ c∈ids nr.items) :
    c≠p ∧ c≠s.next ∧ c≠x ∧ (s.node c).par=some x := by
  obtain ⟨g1,g2,g3,j,g4,g5⟩ := H.child S (by omega) hx hc
  exact ⟨S.ne_of_level (by omega) hi (by omega) g5 hp,by omega,g3,g1⟩

/-- Behind the split the children of the parent, both halves among them, have it as
their parent. -/
theorem SplitBelow.par_parent (P : SplitBelow s s' x p q nl nr k) (H : Halves s i x nl nr k p)
    (S : Shape s h lev rank) (hi : i < h) (hx : x∈ids (lev i)) (hp : p∈ids (lev (i+1))) {c : ℕ}
    (hc : c=x ∨ c=s.next ∨ c∈ids (s.items p)) : (s'.node c).par=some p := by
  have hxp := S.ne_of_level (by omega) hi (by omega) hx hp
  rcases hc with rfl|rfl|hcq
  · rw [P.left,H.par_left]
  · rw [P.right,H.par_right]
  · obtain ⟨g1,g2,g3⟩ := S.child hi hp hcq
    by_cases hcx : c=x
    · rw [hcx,P.left,H.par_left]
    · rw [P.other c hcx (S.ne_of_level (by omega) hi (by omega) g1 hp) (by omega),if_neg,g3]
      intro hcr
      have hcpar := (SplitBelow.child H S hi hx hp (Or.inr hcr)).2.2.2
      rw [g3] at hcpar
      exact hxp (Option.some.inj hcpar).symm

/-- Behind the split the children of each half have it as their parent. -/
theorem SplitBelow.par_halves (P : SplitBelow s s' x p q nl nr k) (H : Halves s i x nl nr k p)
    (S : Shape s h lev rank) (hi : i < h) (hx : x∈ids (lev i)) (hp : p∈ids (lev (i+1))) {z c : ℕ}
    (hz : z=x ∨ z=s.next) (hc : c∈ids (s'.items z)) : (s'.node c).par=some z := by
  rcases hz with rfl|rfl
  · rw [Tree.items,P.left] at hc
    obtain ⟨g1,g2,g3,g4⟩ := SplitBelow.child H S hi hx hp (Or.inl hc)
    rw [P.other c g3 g1 g2,if_neg (H.disjoint S (by omega) hx hc),g4]
  · rw [Tree.items,P.right] at hc
    obtain ⟨g1,g2,g3,g4⟩ := SplitBelow.child H S hi hx hp (Or.inr hc)
    rw [P.other c g3 g1 g2,if_pos hc,Node.setPar_par]

/-- Splitting a node below the root keeps the shape. -/
theorem SplitBelow.shape (P : SplitBelow s s' x p q nl nr k)
    (H : Halves s i x nl nr k p) (S : Shape s h lev rank) (hi : i < h) (hx : x∈ids (lev i))
    (hpar : (s.node x).par=some p) :
    ∃ A B,lev i=A++[Item.node x]++B ∧
      Shape s' h (Function.update lev i (A++[Item.node x,Item.tok (Tok.sep k),Item.node s.next]++B))
        (Function.update rank s.next i) := by
  obtain ⟨hp,hpp,hjoint,hchildren,C,D,he,he'⟩ := P.around S hi hx hpar
  have hxlt := S.lt i (by omega) x hx
  have hplt := S.lt (i+1) hi p hp
  have hw' : ∀ {z},z∈ids ([.node x,.tok (.sep k),.node s.next] : List (Item ℕ (Tok κ ν))) →
      z=x ∨ z=s.next := fun hz => by simpa using hz
  apply S.replace P.root (by rw [P.next]; omega) hi hp he he' hjoint
  · intro h0
    simp only [grow_node,grow_tok,grow_nil,List.append_nil]
    rw [(H.inter h0).2.2,Tree.items,Tree.items,P.left,P.right]
  · intro z hz hzp hzx
    have hzx' : z≠x := by simpa using hzx
    rw [P.other z hzx' hzp (by omega)]
    split
    · exact ⟨_,rfl⟩
    · exact ⟨_,((s.node z).setPar_self).symm⟩
  · intro z hz
    exact Function.update_of_ne (by omega) _ _
  · intro z hz
    rcases hw' hz with rfl|rfl
    · rw [Function.update_of_ne (by omega)]
      exact S.tower.rank_eq i (by omega) z hx
    · exact Function.update_self _ _ _
  · intro z hz
    rcases hw' hz with rfl|rfl
    · exact Or.inl (by simp)
    · exact Or.inr ⟨le_rfl,by rw [P.next]; omega⟩
  · simp
    omega
  · intro z hz
    rcases hw' hz with rfl|rfl
    · rw [P.left]
      exact H.kind.1
    · rw [P.right]
      exact H.kind.2
  · intro c hclt hcp hcx
    have hcx' : c≠x := fun h => hcp (h ▸ hpar)
    by_cases hcp' : c=p
    · rw [hcp',hpp]
    · rw [P.other c hcx' hcp' (by omega),if_neg]
      intro hcr
      exact hcx x (by simp) (SplitBelow.child H S hi hx hp (Or.inr hcr)).2.2.2
  · intro c hcm
    exact P.par_parent H S hi hx hp (hchildren c hcm)
  · intro z hz c hcm
    exact P.par_halves H S hi hx hp (hw' hz) hcm

end SplitBelow

/-- Splitting the root keeps the shape under a new root. -/
theorem SplitRoot.shape (P : SplitRoot s s' x nl nr k) (H : Halves s h x nl nr k (s.next+1))
    (S : Shape s h lev rank) (hx : x=s.root) :
    Shape s' (h+1) (Function.update (Function.update lev h
      [.node x,.tok (.sep k),.node s.next]) (h+1) [.node (s.next+1)])
      (Function.update (Function.update rank s.next h) (s.next+1) (h+1)) := by
  subst hx
  have hx := S.tower.root_mem
  have hxlt := S.lt h le_rfl _ hx
  have hw' : ids ([.node s.root,.tok (.sep k),.node s.next] : List (Item ℕ (Tok κ ν)))=
      [s.root,s.next] := rfl
  have hchild : ∀ c,c∈ids nl.items ∨ c∈ids nr.items → c < s.next ∧ c≠s.root ∧
      (s.node c).par=some s.root := by
    intro c hcm
    obtain ⟨g1,g2,g3,-⟩ := H.child S le_rfl hx hcm
    exact ⟨g2,g3,g1⟩
  apply S.lift (by rw [P.next]; omega) P.root ⟨by omega,by rw [P.next]; omega⟩
    (by rw [Tree.items,P.top]; rfl) ⟨_,P.top,rfl⟩ (by rw [P.top]; rfl)
  · intro h0
    simp only [grow_node,grow_tok,grow_nil,List.append_nil]
    rw [(H.inter h0).2.2,Tree.items,Tree.items,P.left,P.right]
  · intro z hz hzx
    rw [P.other z hzx (by omega) (by omega)]
    split
    · exact ⟨_,rfl⟩
    · exact ⟨_,((s.node z).setPar_self).symm⟩
  · intro z hz
    rw [Function.update_of_ne (by omega),Function.update_of_ne (by omega)]
  · intro z hz
    rw [hw'] at hz
    simp only [List.mem_cons,List.not_mem_nil,or_false] at hz
    rcases hz with rfl|rfl
    · rw [Function.update_of_ne (by omega),Function.update_of_ne (by omega)]
      exact S.tower.rank_eq h le_rfl _ hx
    · rw [Function.update_of_ne (by omega),Function.update_self]
  · exact Function.update_self _ _ _
  · intro z hz
    rw [hw'] at hz
    simp only [List.mem_cons,List.not_mem_nil,or_false] at hz
    rcases hz with rfl|rfl
    · exact Or.inl rfl
    · exact Or.inr ⟨le_rfl,by rw [P.next]; omega⟩
  · rw [hw']
    simp
    omega
  · intro z hz
    rw [hw'] at hz
    simp only [List.mem_cons,List.not_mem_nil,or_false] at hz
    rcases hz with rfl|rfl
    · rw [P.left]
      exact H.kind.1
    · rw [P.right]
      exact H.kind.2
  · intro c hclt hcx hcp
    rw [P.other c hcx (by omega) (by omega),if_neg]
    intro hcr
    exact hcp (hchild c (Or.inr hcr)).2.2
  · intro c hcm
    rw [hw'] at hcm
    simp only [List.mem_cons,List.not_mem_nil,or_false] at hcm
    rcases hcm with rfl|rfl
    · rw [P.left,H.par_left]
    · rw [P.right,H.par_right]
  · intro z hz c hcm
    rw [hw'] at hz
    simp only [List.mem_cons,List.not_mem_nil,or_false] at hz
    rcases hz with rfl|rfl
    · rw [Tree.items,P.left] at hcm
      obtain ⟨g1,g2,g3⟩ := hchild c (Or.inl hcm)
      rw [P.other c g2 (by omega) (by omega),if_neg (H.disjoint S le_rfl hx hcm),g3]
    · rw [Tree.items,P.right] at hcm
      obtain ⟨g1,g2,g3⟩ := hchild c (Or.inr hcm)
      rw [P.other c g2 (by omega) (by omega),if_pos hcm,Node.setPar_par]

end Split

end StudyCode.Bplus
