import StudyCode.BplusTreeV2Split

/-!
# Insertion into the tree with brother lists

The leaves that were split off from a leaf, newest first, stand behind it
from left to right, so the forest of brother lists under the first leaf
meets all leaves in order. An insertion descends to the leaf where its key
belongs, never meets a full internal node, and puts its pair behind all
pairs with keys that are not greater.
-/

namespace StudyCode.Bplus.V2

open Frontier

variable {κ ν : Type}

/-! ## The forest of brothers -/

/-- Nodes reached through brother lists, newest first, to some depth. -/
def forest (bro : ℕ → List ℕ) : ℕ → ℕ → List ℕ
  | 0,_ => []
  | d+1,x => x::(bro x).reverse.flatMap (forest bro d)

/-- The forest of a node ends before a depth. -/
def Deep (bro : ℕ → List ℕ) : ℕ → ℕ → Prop
  | 0,_ => False
  | d+1,x => ∀ y ∈ bro x,Deep bro d y

section Forest

variable {bro bro' : ℕ → List ℕ} {d x x0 y : ℕ}

/-- What a child reaches its parent reaches too. -/
theorem mem_forest_of_child {c z : ℕ} (hc : c∈bro x) (hz : z∈forest bro d c) :
    z∈forest bro (d+1) x := by
  refine List.mem_cons_of_mem _ (List.mem_flatMap.mpr ⟨c,by simpa using hc,hz⟩)

/-- A forest that ends is the same at greater depth. -/
theorem Deep.succ (h : Deep bro d x) :
    Deep bro (d+1) x ∧ forest bro (d+1) x=forest bro d x := by
  induction d generalizing x with
  | zero => exact h.elim
  | succ d ih =>
    refine ⟨fun y hy => (ih (h y hy)).1,?_⟩
    rw [forest,forest]
    congr 1
    refine List.flatMap_congr fun y hy => ?_
    exact (ih (h y (by simpa using hy))).2

/-- Deeper fuel finds the same trees. -/
theorem Deep.mono (h : Deep bro d x) {e : ℕ} (he : d ≤ e) :
    Deep bro e x ∧ forest bro e x=forest bro d x := by
  induction e with
  | zero =>
    have : d=0 := by omega
    subst this
    exact ⟨h,rfl⟩
  | succ e ih =>
    rcases Nat.eq_or_lt_of_le he with rfl|hlt
    · exact ⟨h,rfl⟩
    · obtain ⟨h1,h2⟩ := ih (by omega)
      exact ⟨h1.succ.1,h1.succ.2.trans h2⟩

/-- A new brother of a node stands directly behind it in the forest. -/
theorem Deep.split (h : Deep bro d x) (hy : ∀ z ∈ forest bro d x,z≠y)
    (hx0 : bro' x0=bro x0++[y]) (hy' : bro' y=[])
    (hsame : ∀ z ∈ forest bro d x,z≠x0 → bro' z=bro z) :
    Deep bro' (d+1) x ∧
      forest bro' (d+1) x=(forest bro d x).flatMap fun z => if z=x0 then [x0,y] else [z] := by
  induction d generalizing x with
  | zero => exact h.elim
  | succ d ih =>
    have hself : x∈forest bro (d+1) x := List.mem_cons_self
    have hchild : ∀ c ∈ bro x,Deep bro' (d+1) c ∧ forest bro' (d+1) c=
        (forest bro d c).flatMap fun z => if z=x0 then [x0,y] else [z] := by
      intro c hc
      exact ih (h c hc) (fun z hz => hy z (mem_forest_of_child hc hz))
        fun z hz => hsame z (mem_forest_of_child hc hz)
    have hrest : (bro x).reverse.flatMap (forest bro' (d+1))=
        ((bro x).reverse.flatMap (forest bro d)).flatMap fun z => if z=x0 then [x0,y] else [z] := by
      rw [List.flatMap_assoc]
      exact List.flatMap_congr fun c hc => (hchild c (by simpa using hc)).2
    have hleaf : forest bro' (d+1) y=[y] := by
      rw [forest,hy']
      rfl
    by_cases hxx : x=x0
    · subst hxx
      constructor
      · intro c hc
        rw [hx0] at hc
        rcases List.mem_append.mp hc with hc|hc
        · exact (hchild c hc).1
        · rw [List.mem_singleton.mp hc]
          intro z hz
          rw [hy'] at hz
          cases hz
      · rw [forest,hx0,List.reverse_append,List.reverse_singleton,List.singleton_append,
          List.flatMap_cons,hleaf,hrest,forest,List.flatMap_cons,if_pos rfl]
        rfl
    · have hbx := hsame x hself hxx
      constructor
      · intro c hc
        rw [hbx] at hc
        exact (hchild c hc).1
      · rw [forest,hbx,hrest,forest,List.flatMap_cons,if_neg hxx]
        rfl

end Forest

/-- Brothers of a node; internal nodes have none. -/
def broOf (s : BTree κ ν) (x : ℕ) : List ℕ :=
  match s.node x with
  | .leaf n => n.bro
  | .inter _ => []

/-- A new parent leaves the brothers of a node. -/
theorem broOf_setPar {s s' : BTree κ ν} {z : ℕ} (h : ∃ v,s'.node z=(s.node z).setPar v) :
    broOf s' z=broOf s z := by
  obtain ⟨v,hv⟩ := h
  unfold broOf
  rw [hv]
  cases s.node z <;> rfl

/-- The forest of the first leaf is the row of leaves. -/
structure Chained (s : BTree κ ν) (lev : ℕ → List (Item ℕ (Tok κ ν))) : Prop where
  /-- The forest ends. -/
  deep : Deep (broOf s) s.next s.leaf
  /-- It meets the leaves from left to right. -/
  forest : forest (broOf s) s.next s.leaf=ids (lev 0)

/-- A split leaf keeps the forest in the order of the leaves. -/
theorem LeafSplit.chained {M L h x : ℕ} {lev lev' : ℕ → List (Item ℕ (Tok κ ν))} {rank : ℕ → ℕ}
    {n : Leaf κ ν (List ℕ)} {k : κ} {s s' : BTree κ ν} (R : LeafSplit M L h lev x n k s s')
    (S : Shape s h lev rank) (hn : s.node x=.leaf n) (C : Chained s lev)
    {A B : List (Item ℕ (Tok κ ν))} (hlev : lev 0=A++[Item.node x]++B)
    (hlev' : lev' 0=A++[Item.node x,Item.tok (Tok.sep k),Item.node s.next]++B) : Chained s' lev' := by
  have hlt : ∀ z ∈ ids (lev 0),z < s.next := S.lt 0 (Nat.zero_le h)
  obtain ⟨hxA,hxB⟩ := S.not_mem_segments (Nat.zero_le h) hlev
  obtain ⟨v,hv⟩ := R.left
  obtain ⟨u,hu⟩ := R.right
  have hbx : broOf s' x=broOf s x++[s.next] := by
    simp [broOf,hv,hn]
  have hby : broOf s' s.next=[] := by
    simp [broOf,hu]
  obtain ⟨g1,g2⟩ := C.deep.split (y:=s.next) (fun z hz => by
    rw [C.forest] at hz
    have := hlt z hz
    omega) hbx hby fun z hz hzx => by
      rw [C.forest] at hz
      exact broOf_setPar (R.other z hz hzx)
  have hsub : ∀ C : List (Item ℕ (Tok κ ν)),x∉ids C →
      (ids C).flatMap (fun z => if z=x then [x,s.next] else [z])=ids C := by
    intro C hC
    have : (ids C).flatMap (fun z => if z=x then [x,s.next] else [z])=(ids C).flatMap fun z => [z] :=
      List.flatMap_congr fun z hz => if_neg fun hzx : z=x => hC (hzx ▸ hz)
    rw [this]
    simp
  have hids : (ids (lev 0)).flatMap (fun z => if z=x then [x,s.next] else [z])=ids (lev' 0) := by
    rw [hlev,hlev']
    simp only [ids_append,List.flatMap_append,hsub A hxA,hsub B hxB]
    simp
  obtain ⟨k1,k2⟩ := g1.mono (show s.next+1 ≤ s'.next from R.next_lt)
  rw [←R.leaf] at k1 k2 g2
  refine ⟨k1,?_⟩
  rw [k2,R.leaf,←R.leaf,g2,R.leaf,C.forest,hids]

/-! ## Insertions -/

/-- The invariant of the tree. -/
structure Inv [LinearOrder κ] (L : ℕ) (s : BTree κ ν) (h : ℕ) (lev : ℕ → List (Item ℕ (Tok κ ν)))
    (rank : ℕ → ℕ) : Prop where
  /-- Nodes, classes and parents. -/
  shape : Shape s h lev rank
  /-- Numbers of separators and pairs. -/
  sizes : Every s h lev fun _ n => n.Fit (InterSize (L+1)) (· ≤ L)
  /-- Order of separators and pairs. -/
  sorted : Sorted (tokens s lev)
  /-- Order of the brothers. -/
  chained : Chained s lev

section Insert

variable [LinearOrder κ] {L h i x : ℕ} {lev : ℕ → List (Item ℕ (Tok κ ν))} {rank : ℕ → ℕ}
  {s : BTree κ ν} {kv : KeyValue κ ν}

/-- The tree after an insertion. -/
def Inserted (L : ℕ) (kv : KeyValue κ ν) (s : BTree κ ν) (lev : ℕ → List (Item ℕ (Tok κ ν)))
    (s' : BTree κ ν) : Prop :=
  ∃ h' lev' rank',Inv L s' h' lev' rank' ∧
    PutBehind kv (pairsOf (tokens s lev)) (pairsOf (tokens s' lev'))

/-- Inserting into the leaf where the key belongs. -/
theorem Inv.insert_leaf (I : Inv L s h lev rank) (hL : 3 ≤ L) (hx : Seated lev kv.key 0 x)
    {n : Leaf κ ν (List ℕ)} (hn : s.node x=.leaf n) {fuel : ℕ} (hfuel : h ≤ fuel) :
    ∃ s',(if isfullLeaf L (n.inserted kv) then
        splitLeaf (L+1) L fuel (s.set x (.leaf (n.inserted kv))) x
          else .ok (s.set x (.leaf (n.inserted kv))))=.ok s' ∧ Inserted L kv s lev s' := by
  obtain ⟨S1,l,r,htok,htok1,hl,hr⟩ := I.shape.insert_leaf I.sorted hx hn
  have hput : PutBehind kv (pairsOf (tokens s lev))
      (pairsOf (tokens (s.set x (.leaf (n.inserted kv))) lev)) := by
    rw [htok,htok1]
    simpa using putBehind_of_tokens hl hr
  have hs1 : Sorted (tokens (s.set x (.leaf (n.inserted kv))) lev) := by
    rw [htok1]
    have hs := I.sorted
    rw [htok] at hs
    exact hs.insert hl fun u hu => (hr u hu).le
  have hlen : (n.inserted kv).vlist.length=n.vlist.length+1 := by
    simp only [Leaf.inserted,insertAt,List.length_append,List.length_cons,List.length_take,
      List.length_drop]
    omega
  have hfit := I.sizes 0 (Nat.zero_le h) x hx.mem
  rw [hn] at hfit
  have hle : n.vlist.length ≤ L := hfit
  have hn1 : (s.set x (.leaf (n.inserted kv))).node x=.leaf (n.inserted kv) :=
    Tree.set_node_self _ _ _
  have hE : Every (s.set x (.leaf (n.inserted kv))) h lev
      fun z m => z≠x → m.Fit (InterSize (L+1)) (· ≤ L) := by
    intro j hj z hz hzx
    rw [Tree.set_node_of_ne s hzx]
    exact I.sizes j hj z hz
  have hC : Chained (s.set x (.leaf (n.inserted kv))) lev := by
    have hbro : broOf (s.set x (.leaf (n.inserted kv)))=broOf s := by
      funext z
      by_cases hz : z=x
      · subst hz
        simp [broOf,hn,Leaf.inserted]
      · simp [broOf,Tree.set_node_of_ne s hz]
    exact ⟨by rw [hbro]; exact I.chained.deep,by rw [hbro]; exact I.chained.forest⟩
  unfold isfullLeaf
  by_cases hfull : L < (n.inserted kv).vlist.length
  · rw [if_pos (by simpa using hfull)]
    have hmid : (L+2)/2 < (n.inserted kv).vlist.length := by omega
    obtain ⟨s',hs',R⟩ := splitLeaf_ok hL S1 hx.mem hn1 (by omega) hE hfuel (item_ok hmid)
    refine ⟨s',hs',?_⟩
    obtain ⟨h',lev',rank',A,B,S',hle',E',hlev,hlev'⟩ := R.shape
    obtain ⟨v,hv⟩ := R.left
    obtain ⟨u,hu⟩ := R.right
    obtain ⟨l1,r1,ht1,ht2⟩ := divide_leaf S1 hn1 (List.getElem?_eq_getElem hmid) hlev hlev'
      (fun z hz hzx => items_setPar (R.other z hz hzx)) (by rw [Tree.items,hv]; rfl)
      (by rw [Tree.items,hu]; rfl)
    refine ⟨h',lev',rank',⟨S',E',?_,R.chained S1 hn1 hC hlev hlev'⟩,?_⟩
    · rw [ht1] at hs1
      rw [ht2]
      exact hs1.divide
    · rw [ht1] at hput
      rw [ht2]
      simpa using hput
  · rw [if_neg (by simpa using hfull)]
    refine ⟨_,rfl,h,lev,rank,⟨S1,fun j hj z hz => ?_,hs1,hC⟩,hput⟩
    by_cases hzx : z=x
    · subst hzx
      rw [hn1]
      show (n.inserted kv).vlist.length ≤ L
      omega
    · exact hE j hj z hz hzx

/-- An insertion that has come to the place of its key on some frontier. -/
theorem Inv.insertNode_ok (I : Inv L s h lev rank) (hL : 3 ≤ L) {fuel : ℕ} (hi : i ≤ h)
    (hfuel : i < fuel) (hx : Seated lev kv.key i x) :
    ∃ s',insertNode (L+1) L kv fuel s x=.ok s' ∧ Inserted L kv s lev s' := by
  induction fuel generalizing i x with
  | zero => omega
  | succ fuel ih =>
    rw [insertNode]
    cases i with
    | zero =>
      have hleaf := I.shape.leaf x hx.mem
      cases hn : s.node x with
      | inter n =>
        rw [hn] at hleaf
        cases hleaf
      | leaf n =>
        have hh := I.shape.height_lt
        exact I.insert_leaf hL hx hn (by omega)
    | succ i =>
      obtain ⟨n,hn,-⟩ := I.shape.joint i hi x hx.mem
      have hfit := I.sizes (i+1) hi x hx.mem
      rw [hn] at hfit
      obtain ⟨c,hc1,hc2⟩ := I.shape.descend I.sorted hi hx hn
      obtain ⟨s',hs',R⟩ := ih (by omega) (by omega) hc2
      have hnot : isfullInter (L+1) n=false := by
        unfold isfullInter
        simpa using hfit.2
      rw [hn]
      simp only [hnot,Bool.false_eq_true,if_false,hc1,ok_bind]
      exact ⟨s',hs',R⟩

/-- Insertion keeps the invariant and puts the pair in its place. -/
theorem Inv.insert_ok (I : Inv L s h lev rank) (hL : 3 ≤ L) (key : κ) (value : ν) :
    ∃ s',insert L s key value=.ok s' ∧ Inserted L ⟨key,value⟩ s lev s' := by
  have hh := I.shape.height_lt
  exact I.insertNode_ok hL le_rfl (by omega) I.shape.tower.seat_root

/-- The empty tree. -/
theorem inv_empty (L : ℕ) :
    Inv L (empty : BTree κ ν) 0 (fun _ => [.node 0]) (fun _ => 0) where
  shape := Shape.single rfl rfl Nat.one_pos
  sizes := fun _ _ _ _ => Nat.zero_le L
  sorted := List.Pairwise.nil
  chained := ⟨fun _ hy => (List.not_mem_nil hy).elim,rfl⟩

end Insert

end StudyCode.Bplus.V2
