import StudyCode.BplusTreeRepair

/-!
# Deletion from the tree with brother pointers

Two pairs never compare equal by the three-way comparison, so a deletion
removes nothing; what it does is to repair nodes on its way. Borrowing and
merging leaves keep the form of the tree. Merging the last child with a
child behind it fails, and merging internal nodes leaves children with an
old parent. A deletion of a key that is not stored keeps the form when its
descent meets neither.
-/

namespace StudyCode.Bplus.V1

open Frontier

variable {ν : Type}

/-! ## Comparison -/

/-- Two pairs are always unequal: with equal keys the integer counts as less
than the pair. -/
theorem ne_eq_true (p q : KeyValue ℤ ν) : ne p q=true := by
  unfold ne cmp
  by_cases h : intGt p.key (.pair q)=true
  · simp [h]
  · have h' : intLt p.key (.pair q)=true := by
      unfold intGt at h
      unfold intLt gt
      simpa using h
    simp [h,h']

/-! ## Clear descents -/

/-- Separators of a node; leaves have none. -/
def ilistOf (s : Bptree ν) (x : ℕ) : List ℤ :=
  match s.node x with
  | .inter n => n.ilist
  | .leaf _ => []

/-- A descent through a node with given separators and children meets no
empty last child with an empty left brother and no other empty internal
child with an empty right brother. An empty child is entered with the entry
that it borrows. -/
def clearIn (M L : ℕ) (s : Bptree ν) (k : ℤ) : ℕ → List ℤ → List ℕ → Bool
  | 0,_,_ => false
  | fuel+1,il,cl =>
    let p := bisectRight id il k
    match cl[p]? with
    | none => false
    | some c =>
      if !isempty M L (s.node c) then
        (s.node c).isleaf || clearIn M L s k fuel (ilistOf s c) (children s c)
      else if p=il.length then
        match cl[p-1]? with
        | none => false
        | some a => !isempty M L (s.node a) && ((s.node c).isleaf ||
            clearIn M L s k fuel ((il.drop (p-1)).take 1++ilistOf s c)
              ((children s a).getLast?.toList++children s c))
      else
        match cl[p+1]? with
        | none => false
        | some b => (s.node c).isleaf || (!isempty M L (s.node b) &&
            clearIn M L s k fuel (ilistOf s c++(il.drop p).take 1)
              (children s c++(children s b).head?.toList))

section Clear

variable {M L h j fuel : ℕ} {s s1 : Bptree ν} {lev : ℕ → List (Item ℕ (Tok ℤ ν))} {rank : ℕ → ℕ}
  {k : ℤ} {il : List ℤ} {cl : List ℕ}

/-- What a descent reads of a node does not depend on its parent. -/
theorem reads_setPar {z : ℕ} (h : ∃ v,s1.node z=(s.node z).setPar v) :
    isempty M L (s1.node z)=isempty M L (s.node z) ∧ (s1.node z).isleaf=(s.node z).isleaf ∧
      ilistOf s1 z=ilistOf s z ∧ children s1 z=children s z := by
  obtain ⟨v,hv⟩ := h
  unfold ilistOf children
  rw [hv]
  cases s.node z <;> exact ⟨rfl,rfl,rfl,rfl⟩

/-- A descent reads only the frontiers below. -/
theorem clearIn_congr (S : Shape s h lev rank) (hj : j ≤ h)
    (hsame : ∀ i,i ≤ j → ∀ z ∈ ids (lev i),∃ v,s1.node z=(s.node z).setPar v)
    (hcl : ∀ c ∈ cl,c∈ids (lev j)) :
    clearIn M L s1 k fuel il cl=clearIn M L s k fuel il cl := by
  induction fuel generalizing j il cl with
  | zero => rfl
  | succ fuel ih =>
    have hread := fun z hz => reads_setPar (M:=M) (L:=L) (hsame j le_rfl z (hcl z hz))
    have hrec : ∀ il' cl',(∀ z ∈ cl',∃ y ∈ cl,z∈children s y) → ∀ c ∈ cl,
        ((s.node c).isleaf || clearIn M L s1 k fuel il' cl')=
          ((s.node c).isleaf || clearIn M L s k fuel il' cl') := by
      intro il' cl' hcl' c hc
      cases j with
      | zero => rw [S.leaf c (hcl c hc),Bool.true_or,Bool.true_or]
      | succ j =>
        have hlow : ∀ z ∈ cl',z∈ids (lev j) := by
          intro z hz
          obtain ⟨y,hy,hzy⟩ := hcl' z hz
          obtain ⟨m,-,-,h1,h2⟩ := S.node_inter hj (hcl y hy)
          rw [h1,←h2] at hzy
          exact S.tower.child_mem hj (hcl y hy) hzy
        rw [ih (by omega) (fun i hi => hsame i (by omega)) hlow]
    unfold clearIn
    dsimp only
    cases hc : cl[bisectRight id il k]? with
    | none => rfl
    | some c =>
      have hcm := List.mem_of_getElem? hc
      obtain ⟨e1,e2,e3,e4⟩ := hread c hcm
      simp only [e1,e2,e3,e4]
      split
      · exact hrec _ _ (fun z hz => ⟨c,hcm,hz⟩) c hcm
      · split
        · cases ha : cl[bisectRight id il k-1]? with
          | none => rfl
          | some a =>
            have ham := List.mem_of_getElem? ha
            obtain ⟨f1,f2,f3,f4⟩ := hread a ham
            simp only [f1,f4]
            rw [hrec _ _ (fun z hz => ?_) c hcm]
            rcases List.mem_append.mp hz with hz|hz
            · exact ⟨a,ham,List.mem_of_getLast? (Option.mem_toList.mp hz)⟩
            · exact ⟨c,hcm,hz⟩
        · cases hb : cl[bisectRight id il k+1]? with
          | none => rfl
          | some b =>
            have hbm := List.mem_of_getElem? hb
            obtain ⟨f1,f2,f3,f4⟩ := hread b hbm
            simp only [f1,f4]
            have := hrec (ilistOf s c++(il.drop (bisectRight id il k)).take 1)
              (children s c++(children s b).head?.toList) (fun z hz => ?_) c hcm
            · cases hl : (s.node c).isleaf with
              | true => rfl
              | false =>
                rw [hl,Bool.false_or,Bool.false_or] at this
                rw [this]
            · rcases List.mem_append.mp hz with hz|hz
              · exact ⟨c,hcm,hz⟩
              · exact ⟨b,hbm,List.mem_of_head? (Option.mem_toList.mp hz)⟩

end Clear

/-! ## Repairs of a tree -/

/-- Numbers of pairs that deletions keep. -/
def atLeast (L h m : ℕ) : Prop := 0 < h → (L+1)/2 ≤ m

/-- The sizes that deletions keep are sizes for the leaves. -/
theorem leafSizes_atLeast (L : ℕ) : LeafSizes L (atLeast L) where
  grow := fun h m hm _ h0 => by have := hm h0; omega
  left := fun h h' m _ _ _ _ => le_rfl
  right := fun h h' m _ hle _ _ => by omega
  lift := fun h m h0 hm _ => hm h0

section Moves

variable {M L h i j x a b c : ℕ} {Z : ℕ → ℕ → Prop} {s s1 : Bptree ν}
  {lev lev1 : ℕ → List (Item ℕ (Tok ℤ ν))} {rank : ℕ → ℕ} {n : InterNode ℤ} {k0 k' k : ℤ}
  {na nb : Node ℤ ν (Option ℕ)}

/-- Moving the separator between two leaves along the pairs keeps the order. -/
theorem Strict.shift {l r : List (Tok ℤ ν)} {u v : List (KeyValue ℤ ν)} {p : KeyValue ℤ ν}
    (hs : Strict (l++u.map Tok.kv++Tok.sep k0::(v.map Tok.kv++r))) {u' v' : List (KeyValue ℤ ν)}
    (huv : u++v=u'++p::v') : Strict (l++u'.map Tok.kv++Tok.sep p.key::((p::v').map Tok.kv++r)) := by
  have hsub : (l++(u++v).map Tok.kv++r).Sublist
      (l++u.map Tok.kv++Tok.sep k0::(v.map Tok.kv++r)) := by
    rw [List.map_append,List.append_assoc,List.append_assoc,List.append_assoc]
    exact ((List.sublist_cons_self _ _).append_left _).append_left l
  have hs' := List.Pairwise.sublist hsub hs
  rw [huv,List.map_append,List.map_cons] at hs'
  have h1 : Strict ((l++u'.map Tok.kv)++Tok.kv p::(v'.map Tok.kv++r)) := by
    simpa [Strict] using hs'
  have := h1.divide
  simpa using this

/-- A move keeps the invariant, the order and the pairs. -/
theorem moved_inv (P : Moved s s1 x a b n j k0 k' na nb) (I : Inv M Z s h lev rank)
    (hs : Strict (tokens s lev)) (hi : i < h) (hx : x∈ids (lev (i+1))) (hpa : na.par=some x)
    (hpb : nb.par=some x) (hfa : na.Fit (InterSize M) (Z h)) (hfb : nb.Fit (InterSize M) (Z h))
    (hleaf : i=0 → ∃ u v u' v' p,s.items a=pairItems u ∧ s.items b=pairItems v ∧ na.isleaf=true ∧
      nb.isleaf=true ∧ na.items=pairItems u' ∧ nb.items=pairItems (p::v') ∧ k'=p.key ∧
      u++v=u'++p::v')
    (hinter : 0 < i → na.Joint ∧ nb.Joint ∧
      na.items++Item.tok (Tok.sep k')::nb.items=s.items a++Item.tok (Tok.sep k0)::s.items b) :
    ∃ lev1,Inv M Z s1 h lev1 rank ∧ Strict (tokens s1 lev1) ∧
      pairsOf (tokens s1 lev1)=pairsOf (tokens s lev) ∧ ∀ j,j≠i → lev1 j=lev j := by
  have S := I.shape
  have hleaf' : i=0 → na.isleaf=true ∧ nb.isleaf=true := fun h0 => by
    obtain ⟨u,v,u',v',p,-,-,h1,h2,-⟩ := hleaf h0
    exact ⟨h1,h2⟩
  obtain ⟨A,B,hlev,S1⟩ := P.shape S hi hx hpa hpb hleaf' hinter
  have hxfit : (s1.node x).Fit (InterSize M) (Z h) := by
    have := I.sizes (i+1) hi x hx
    rw [P.parent] at this
    rw [P.parent']
    show InterSize M (n.ilist.set j k').length
    rw [List.length_set]
    exact this
  have E1 := P.every S hi hlev I.sizes (fun m v hm => hm.setPar v) hfa hfb hxfit
  have hboth : Strict (tokens s1
        (Function.update lev i (A++[Item.node a,Item.tok (Tok.sep k'),Item.node b]++B))) ∧
      pairsOf (tokens s1
        (Function.update lev i (A++[Item.node a,Item.tok (Tok.sep k'),Item.node b]++B)))=
        pairsOf (tokens s lev) := by
    rcases Nat.eq_zero_or_pos i with h0|h0
    · subst h0
      obtain ⟨u,v,u',v',p,hu,hv,-,-,hu',hv',rfl,huv⟩ := hleaf rfl
      obtain ⟨l,r,ht,ht'⟩ := P.tokens S hi hx hlev hu hv hu' hv'
      rw [ht'] at *
      rw [ht] at hs ⊢
      refine ⟨hs.shift huv,?_⟩
      simp only [pairsOf_append,pairsOf_sep,pairsOf_map_kv]
      rw [List.append_assoc,List.append_assoc,←List.append_assoc u',←huv,List.append_assoc]
    · obtain ⟨ha,hb,-⟩ := S.two_children hi hx P.parent P.left P.right
      have htok : tokens s1
          (Function.update lev i (A++[Item.node a,Item.tok (Tok.sep k'),Item.node b]++B))=
          tokens s lev := by
        unfold tokens
        rw [Function.update_of_ne (by omega)]
        congr 1
        exact grow_congr fun z hz => items_setPar (P.frame
          (S.ne_of_level (by omega) hi (by omega) hz hx)
          (S.ne_of_level (by omega) (by omega) (by omega) hz ha)
          (S.ne_of_level (by omega) (by omega) (by omega) hz hb))
      rw [htok]
      exact ⟨hs,rfl⟩
  exact ⟨_,⟨S1,E1,hboth.1.sorted⟩,hboth.1,hboth.2,fun j hj => Function.update_of_ne hj _ _⟩

/-- The state after a child has borrowed: the child is the place of the key,
and above the leaves it has given separators and children. -/
structure Borrowed (M L : ℕ) (k : ℤ) (s : Bptree ν) (h : ℕ) (lev : ℕ → List (Item ℕ (Tok ℤ ν)))
    (rank : ℕ → ℕ) (i x c : ℕ) (n : InterNode ℤ) (il : List ℤ) (cl : List ℕ) (s1 : Bptree ν)
    (lev1 : ℕ → List (Item ℕ (Tok ℤ ν))) : Prop where
  /-- The invariant. -/
  inv : Inv M (atLeast L) s1 h lev1 rank
  /-- The order. -/
  strict : Strict (tokens s1 lev1)
  /-- The pairs. -/
  pairs : pairsOf (tokens s1 lev1)=pairsOf (tokens s lev)
  /-- Children of the node stay. -/
  node : ∃ n1,s1.node x=.inter n1 ∧ n1.clist=n.clist
  /-- The place of the key. -/
  seat : Seated lev1 k i c
  /-- What the child has. -/
  child : 0 < i → ilistOf s1 c=il ∧ children s1 c=cl ∧ 2 ≤ il.length
  /-- Frontiers below stay. -/
  low : ∀ j,j < i → lev1 j=lev j ∧ ∀ z ∈ ids (lev j),∃ v,s1.node z=(s.node z).setPar v

/-- The place of the key after a move. -/
theorem moved_seat (P : Moved s s1 x a b n j k0 k' na nb) (I1 : Inv M Z s1 h lev1 rank)
    (hs1 : Strict (tokens s1 lev1)) (hi : i < h) (hx : Seated lev k (i+1) x)
    (hlev1 : lev1 (i+1)=lev (i+1)) {p : ℕ} (hp : bisectRight id (n.ilist.set j k') k=p)
    (hc : n.clist[p]?=some c) : Seated lev1 k i c := by
  have hx1 : Seated lev1 k (i+1) x := by
    obtain ⟨A,B,hAB,hA,hB⟩ := hx
    exact ⟨A,B,by rw [hlev1,hAB],hA,hB⟩
  obtain ⟨c',hc1,hc2⟩ := I1.shape.descend hs1.sorted hi hx1 P.parent'
  rw [hp] at hc1
  have := item_some hc
  rw [hc1] at this
  cases this
  exact hc2

/-- Below the level of a move only parents change. -/
theorem moved_low (P : Moved s s1 x a b n j k0 k' na nb) (S : Shape s h lev rank) (hi : i < h)
    (hx : x∈ids (lev (i+1))) (hlev1 : ∀ j,j≠i → lev1 j=lev j) :
    ∀ j,j < i → lev1 j=lev j ∧ ∀ z ∈ ids (lev j),∃ v,s1.node z=(s.node z).setPar v := by
  intro j' hj'
  obtain ⟨ha,hb,-⟩ := S.two_children hi hx P.parent P.left P.right
  exact ⟨hlev1 j' (by omega),fun z hz => P.frame (S.ne_of_level (by omega) hi (by omega) hz hx)
    (S.ne_of_level (by omega) (by omega) (by omega) hz ha)
    (S.ne_of_level (by omega) (by omega) (by omega) hz hb)⟩

/-- A move that gives the place of the key an entry of a brother is a borrowing. -/
theorem moved_borrowed {il : List ℤ} {cl : List ℕ} (P : Moved s s1 x a b n j k0 k' na nb)
    (I : Inv M (atLeast L) s h lev rank) (hs : Strict (tokens s lev)) (hi : i < h)
    (hx : Seated lev k (i+1) x) (hpa : na.par=some x) (hpb : nb.par=some x)
    (hfa : na.Fit (InterSize M) (atLeast L h)) (hfb : nb.Fit (InterSize M) (atLeast L h))
    (hleaf : i=0 → ∃ u v u' v' p,s.items a=pairItems u ∧ s.items b=pairItems v ∧ na.isleaf=true ∧
      nb.isleaf=true ∧ na.items=pairItems u' ∧ nb.items=pairItems (p::v') ∧ k'=p.key ∧
      u++v=u'++p::v')
    (hinter : 0 < i → na.Joint ∧ nb.Joint ∧
      na.items++Item.tok (Tok.sep k')::nb.items=s.items a++Item.tok (Tok.sep k0)::s.items b)
    {p : ℕ} (hp : bisectRight id (n.ilist.set j k') k=p) (hc : n.clist[p]?=some c)
    (hchild : 0 < i → ilistOf s1 c=il ∧ children s1 c=cl ∧ 2 ≤ il.length) :
    ∃ lev1,Borrowed M L k s h lev rank i x c n il cl s1 lev1 := by
  obtain ⟨lev1,I1,hst1,hpr1,hlev1⟩ := moved_inv P I hs hi hx.mem hpa hpb hfa hfb hleaf hinter
  exact ⟨lev1,
    { inv := I1
      strict := hst1
      pairs := hpr1
      node := ⟨_,P.parent',rfl⟩
      seat := moved_seat P I1 hst1 hi hx (hlev1 (i+1) (by omega)) hp hc
      child := hchild
      low := moved_low P I.shape hi hx.mem hlev1 }⟩

/-- The tokens of a leaf node. -/
theorem toks_leaf {y : ℕ} {l : Leaf ℤ ν (Option ℕ)} (hl : s.node y=.leaf l) :
    toks (s.items y)=l.vlist.map Tok.kv := by
  rw [Tree.items,hl]
  exact toks_map_tok _ _

/-- The tokens of an internal node. -/
theorem toks_inter {y : ℕ} {l : InterNode ℤ} (hl : s.node y=.inter l)
    (hlen : l.clist.length=l.ilist.length+1) : toks (s.items y)=l.ilist.map Tok.sep := by
  rw [Tree.items,hl]
  exact toks_weave (by simpa using hlen)

/-- A child that moves over a separator leaves the items of two neighbours in order. -/
theorem items_rotate {A B : List ℤ} {C D : List ℕ} (hlen : C.length=A.length+1) (hne : D≠[])
    (e : ℕ) (u v : ℤ) (p q p' q' : Option ℕ) :
    (Node.inter ⟨A++[u],C++[e],p⟩ : Node ℤ ν (Option ℕ)).items++Item.tok (Tok.sep v)::
        (Node.inter ⟨B,D,q⟩ : Node ℤ ν (Option ℕ)).items=
      (Node.inter ⟨A,C,p'⟩ : Node ℤ ν (Option ℕ)).items++Item.tok (Tok.sep u)::
        (Node.inter ⟨v::B,e::D,q'⟩ : Node ℤ ν (Option ℕ)).items := by
  simp only [Node.items,List.map_append,List.map_cons,List.map_nil]
  rw [weave_concat (by simpa using hlen),weave_cons _ _ hne]
  simp

/-- The key comes before what the next child has, and a later separator in front
of that child does not move its place. -/
theorem Inv.before_next (I : Inv M Z s h lev rank) (hs : Strict (tokens s lev)) (hi : i < h)
    (hx : Seated lev k (i+1) x) (hn : s.node x=.inter n) {p : ℕ} (hp : bisectRight id n.ilist k=p)
    (hlt : p < n.ilist.length) (hc : n.clist[p]?=some c) (hb : n.clist[p+1]?=some b) :
    (∀ t ∈ toks (s.items b),k < t.key) ∧
      ∀ t,k < t → bisectRight id (n.ilist.set p t) k=p := by
  obtain ⟨hkk,hpos⟩ := bisectRight_set_right (I.shape.ilist_sorted hs.sorted hi hx.mem hn) hp hlt
  obtain ⟨-,hright⟩ := I.shape.between_children hs.sorted hi hx.mem hn hc hb
    (List.getElem?_eq_getElem hlt)
  exact ⟨fun t ht => lt_of_lt_of_le hkk (hright t ht),hpos⟩

/-- What the child before has does not come behind the key, and a separator up to
the key behind that child does not move its place. -/
theorem Inv.behind_last (I : Inv M Z s h lev rank) (hs : Strict (tokens s lev)) (hi : i < h)
    (hx : Seated lev k (i+1) x) (hn : s.node x=.inter n) {p : ℕ}
    (hp : bisectRight id n.ilist k=p+1) (hlt : p < n.ilist.length) (ha : n.clist[p]?=some a)
    (hc : n.clist[p+1]?=some c) :
    (∀ t ∈ toks (s.items a),t.key ≤ k) ∧
      ∀ t,t ≤ k → bisectRight id (n.ilist.set p t) k=p+1 := by
  obtain ⟨hkk,hpos⟩ := bisectRight_set_left (I.shape.ilist_sorted hs.sorted hi hx.mem hn) hp hlt
  obtain ⟨hleft,-⟩ := I.shape.between_children hs.sorted hi hx.mem hn ha hc
    (List.getElem?_eq_getElem hlt)
  exact ⟨fun t ht => le_trans (hleft t ht) hkk,hpos⟩

/-- A leaf with few pairs borrows the first pair of the next leaf. -/
theorem Inv.borrow_right_leaf (I : Inv M (atLeast L) s h lev rank) (hs : Strict (tokens s lev))
    (hL : 2 ≤ L) (hi : 0 < h) (hx : Seated lev k (0+1) x) (hn : s.node x=.inter n)
    {p : ℕ} (hp : bisectRight id n.ilist k=p) (hlt : p < n.ilist.length)
    (hc : n.clist[p]?=some c) (hb : n.clist[p+1]?=some b)
    (hbe : isempty M L (s.node b)=false) {il : List ℤ} {cl : List ℕ} :
    ∃ s1 lev1,tranR2L s x p=.ok s1 ∧ Borrowed M L k s h lev rank 0 x c n il cl s1 lev1 := by
  have S := I.shape
  obtain ⟨hcm,hbm,hcb,hcx,hbx,hpc,hpb⟩ := S.two_children hi hx.mem hn hc hb
  have hk : n.ilist[p]?=some n.ilist[p] := List.getElem?_eq_getElem hlt
  obtain ⟨hright,hpos⟩ := I.before_next hs hi hx hn hp hlt hc hb
  have hcfit := I.sizes 0 (Nat.zero_le h) c hcm
  have hbfit := I.sizes 0 (Nat.zero_le h) b hbm
  obtain ⟨l,hl,-⟩ := S.node_leaf hcm
  obtain ⟨⟨vl,bro,v⟩,hr,-⟩ := S.node_leaf hbm
  rw [hl] at hcfit hpc
  rw [hr] at hbe hpb hbfit
  simp only [isempty,isemptyLeaf,decide_eq_false_iff_not,not_le] at hbe
  obtain ⟨p1,q,vs,rfl⟩ : ∃ p1 q vs,vl=p1::q::vs := by
    match vl,hbe with
    | [],hbe => simp at hbe
    | [p1],hbe =>
      simp at hbe
      omega
    | p1::q::vs,_ => exact ⟨p1,q,vs,rfl⟩
  obtain ⟨s1,hs1,-,P⟩ := tranR2L_leaf hn hc hb hk hl hr hcb hcx hbx
  have hkq : k < q.key := hright (.kv q) (by
    rw [toks_leaf hr]
    simp)
  obtain ⟨lev1,R⟩ := moved_borrowed P I hs hi hx hpc hpb
    (fun h0 => by
      have := hcfit h0
      simp only [List.length_append,List.length_singleton]
      omega)
    (fun h0 => by
      simp only [List.length_cons] at hbe ⊢
      omega)
    (fun _ => ⟨l.vlist,p1::q::vs,l.vlist++[p1],vs,q,by rw [Tree.items,hl]; rfl,
      by rw [Tree.items,hr]; rfl,rfl,rfl,rfl,rfl,rfl,by simp⟩)
    (fun h0 => by omega) (hpos _ hkq) hc (fun h0 => by omega)
  exact ⟨s1,lev1,hs1,R⟩

/-- An internal node with few children borrows the first child of the next one. -/
theorem Inv.borrow_right_inter (I : Inv M (atLeast L) s h lev rank) (hs : Strict (tokens s lev))
    (hM : 3 < M) (hi : i+1 < h) (hx : Seated lev k (i+1+1) x) (hn : s.node x=.inter n)
    {p : ℕ} (hp : bisectRight id n.ilist k=p) (hlt : p < n.ilist.length)
    (hc : n.clist[p]?=some c) (hb : n.clist[p+1]?=some b) (hce : isempty M L (s.node c)=true)
    (hbe : isempty M L (s.node b)=false) :
    ∃ s1 lev1,tranR2L s x p=.ok s1 ∧ Borrowed M L k s h lev rank (i+1) x c n
      (ilistOf s c++(n.ilist.drop p).take 1) (children s c++(children s b).head?.toList) s1 lev1 := by
  have S := I.shape
  obtain ⟨hcm,hbm,hcb,hcx,hbx,hpc,hpb⟩ := S.two_children hi hx.mem hn hc hb
  have hk : n.ilist[p]?=some n.ilist[p] := List.getElem?_eq_getElem hlt
  obtain ⟨hright,hpos⟩ := I.before_next hs hi hx hn hp hlt hc hb
  have htake : (n.ilist.drop p).take 1=[n.ilist[p]] := List.take_one_drop_eq_of_lt_length hlt
  have hcfit := I.sizes (i+1) (by omega) c hcm
  have hbfit := I.sizes (i+1) (by omega) b hbm
  obtain ⟨l,hl,hllen,hlch,hlids⟩ := S.node_inter (show i < h by omega) hcm
  obtain ⟨⟨rl,rcl,v⟩,hr,hrlen,hrch,hrids⟩ := S.node_inter (show i < h by omega) hbm
  rw [hl] at hcfit hpc hce
  rw [hr] at hbe hpb hbfit
  simp only [isempty,isemptyInter,decide_eq_false_iff_not,not_le] at hbe
  simp only [isempty,isemptyInter,decide_eq_true_eq] at hce
  obtain ⟨k',ri,rfl⟩ : ∃ k' ri,rl=k'::ri := by
    cases rl with
    | nil => simp at hbe
    | cons k' ri => exact ⟨k',ri,rfl⟩
  obtain ⟨e,rc,rfl⟩ : ∃ e rc,rcl=e::rc := by
    cases rcl with
    | nil => simp at hrlen
    | cons e rc => exact ⟨e,rc,rfl⟩
  have hrc : rc.length=ri.length+1 := by simpa using hrlen
  have hech : e∈ids (s.items b) := by
    rw [hrids]
    simp
  obtain ⟨hem,-,-⟩ := S.child (show i < h by omega) hbm hech
  obtain ⟨s1,hs1,-,P⟩ := tranR2L_inter hn hc hb hk hl hr hcb hcx hbx
    (S.ne_of_level (by omega) (by omega) (by omega) hem hcm)
    (S.ne_of_level (by omega) (by omega) (by omega) hem hbm)
    (S.ne_of_level (by omega) (by omega) (by omega) hem hx.mem) hllen hrc
    (fun z hz => S.par i (by omega) c hcm z (by rw [hlids]; exact hz))
    (fun z hz => S.par i (by omega) b hbm z (by rw [hrids]; simp [hz]))
  have hkk' : k < k' := hright (.sep k') (by
    rw [toks_inter hr hrlen]
    simp)
  have hne : rc≠[] := by
    intro h0
    rw [h0] at hrc
    simp at hrc
  have hitems : (Node.inter {l with ilist := l.ilist++[n.ilist[p]],clist := l.clist++[e]} :
      Node ℤ ν (Option ℕ)).items++Item.tok (Tok.sep k')::(Node.inter ⟨ri,rc,v⟩ :
        Node ℤ ν (Option ℕ)).items=s.items c++Item.tok (Tok.sep n.ilist[p])::s.items b := by
    rw [Tree.items,Tree.items,hl,hr]
    exact items_rotate hllen hne e _ _ _ _ _ _
  have hlil : ilistOf s c=l.ilist := by simp [ilistOf,hl]
  have hchild : ilistOf s1 c=ilistOf s c++(n.ilist.drop p).take 1 ∧
      children s1 c=children s c++(children s b).head?.toList ∧
      2 ≤ (ilistOf s c++(n.ilist.drop p).take 1).length := by
    rw [htake,hlil,hlch,hrch]
    refine ⟨by simp [ilistOf,P.left'],by simp [children,P.left'],?_⟩
    have := hcfit.1
    simp only [List.length_append,List.length_singleton]
    omega
  obtain ⟨lev1,R⟩ := moved_borrowed P I hs hi hx hpc hpb
    (by
      show InterSize M (l.ilist++[n.ilist[p]]).length
      have := hcfit.1
      simp only [List.length_append,List.length_singleton]
      exact ⟨by omega,by omega⟩)
    (by
      show InterSize M ri.length
      have := hbfit.2
      simp only [List.length_cons] at hbe this
      exact ⟨by omega,by omega⟩)
    (fun h0 => by omega)
    (fun _ => ⟨⟨_,rfl,by simp; omega⟩,⟨_,rfl,hrc⟩,hitems⟩) (hpos _ hkk') hc (fun _ => hchild)
  exact ⟨s1,lev1,hs1,R⟩

/-- A child with few entries borrows the first entry of the next child. -/
theorem Inv.borrow_right (I : Inv M (atLeast L) s h lev rank) (hs : Strict (tokens s lev))
    (hM : 3 < M) (hL : 2 ≤ L) (hi : i < h) (hx : Seated lev k (i+1) x) (hn : s.node x=.inter n)
    {p : ℕ} (hp : bisectRight id n.ilist k=p) (hlt : p < n.ilist.length)
    (hc : n.clist[p]?=some c) (hb : n.clist[p+1]?=some b) (hce : isempty M L (s.node c)=true)
    (hbe : isempty M L (s.node b)=false) :
    ∃ s1 lev1,tranR2L s x p=.ok s1 ∧ Borrowed M L k s h lev rank i x c n
      (ilistOf s c++(n.ilist.drop p).take 1) (children s c++(children s b).head?.toList) s1 lev1 := by
  cases i with
  | zero => exact I.borrow_right_leaf hs hL hi hx hn hp hlt hc hb hbe
  | succ i => exact I.borrow_right_inter hs hM hi hx hn hp hlt hc hb hce hbe

/-- A leaf with few pairs borrows the last pair of the leaf before. -/
theorem Inv.borrow_left_leaf (I : Inv M (atLeast L) s h lev rank) (hs : Strict (tokens s lev))
    (hi : 0 < h) (hx : Seated lev k (0+1) x) (hn : s.node x=.inter n)
    {p : ℕ} (hp : bisectRight id n.ilist k=p+1) (hlt : p < n.ilist.length)
    (ha : n.clist[p]?=some a) (hc : n.clist[p+1]?=some c)
    (hae : isempty M L (s.node a)=false) {il : List ℤ} {cl : List ℕ} :
    ∃ s1 lev1,tranL2R s x p=.ok s1 ∧ Borrowed M L k s h lev rank 0 x c n il cl s1 lev1 := by
  have S := I.shape
  obtain ⟨ham,hcm,hac,hax,hcx,hpa,hpc⟩ := S.two_children hi hx.mem hn ha hc
  have hk : n.ilist[p]?=some n.ilist[p] := List.getElem?_eq_getElem hlt
  obtain ⟨hleft,hpos⟩ := I.behind_last hs hi hx hn hp hlt ha hc
  have hcfit := I.sizes 0 (Nat.zero_le h) c hcm
  have hafit := I.sizes 0 (Nat.zero_le h) a ham
  obtain ⟨r,hr,-⟩ := S.node_leaf hcm
  obtain ⟨⟨vl,bro,v⟩,hl,-⟩ := S.node_leaf ham
  rw [hr] at hcfit hpc
  rw [hl] at hae hpa hafit
  simp only [isempty,isemptyLeaf,decide_eq_false_iff_not,not_le] at hae
  obtain ⟨vs,p1,rfl⟩ : ∃ vs p1,vl=vs++[p1] := by
    rcases List.eq_nil_or_concat vl with rfl|⟨vs,p1,rfl⟩
    · simp at hae
    · exact ⟨vs,p1,List.concat_eq_append⟩
  obtain ⟨s1,hs1,-,P⟩ := tranL2R_leaf hn ha hc hk hl hr hac hax hcx
  have hkp : p1.key ≤ k := hleft (.kv p1) (by
    rw [toks_leaf hl]
    simp)
  obtain ⟨lev1,R⟩ := moved_borrowed P I hs hi hx hpa hpc
    (fun h0 => by
      simp only [List.length_append,List.length_singleton] at hae ⊢
      omega)
    (fun h0 => by
      have := hcfit h0
      simp only [List.length_cons]
      omega)
    (fun _ => ⟨vs++[p1],r.vlist,vs,r.vlist,p1,by rw [Tree.items,hl]; rfl,
      by rw [Tree.items,hr]; rfl,rfl,rfl,rfl,rfl,rfl,by simp⟩)
    (fun h0 => by omega) (hpos _ hkp) hc (fun h0 => by omega)
  exact ⟨s1,lev1,hs1,R⟩

/-- An internal node with few children borrows the last child of the one before. -/
theorem Inv.borrow_left_inter (I : Inv M (atLeast L) s h lev rank) (hs : Strict (tokens s lev))
    (hM : 3 < M) (hi : i+1 < h) (hx : Seated lev k (i+1+1) x) (hn : s.node x=.inter n)
    {p : ℕ} (hp : bisectRight id n.ilist k=p+1) (hlt : p < n.ilist.length)
    (ha : n.clist[p]?=some a) (hc : n.clist[p+1]?=some c) (hce : isempty M L (s.node c)=true)
    (hae : isempty M L (s.node a)=false) :
    ∃ s1 lev1,tranL2R s x p=.ok s1 ∧ Borrowed M L k s h lev rank (i+1) x c n
      ((n.ilist.drop p).take 1++ilistOf s c) ((children s a).getLast?.toList++children s c)
      s1 lev1 := by
  have S := I.shape
  obtain ⟨ham,hcm,hac,hax,hcx,hpa,hpc⟩ := S.two_children hi hx.mem hn ha hc
  have hk : n.ilist[p]?=some n.ilist[p] := List.getElem?_eq_getElem hlt
  obtain ⟨hleft,hpos⟩ := I.behind_last hs hi hx hn hp hlt ha hc
  have htake : (n.ilist.drop p).take 1=[n.ilist[p]] := List.take_one_drop_eq_of_lt_length hlt
  have hcfit := I.sizes (i+1) (by omega) c hcm
  have hafit := I.sizes (i+1) (by omega) a ham
  obtain ⟨r,hr,hrlen,hrch,hrids⟩ := S.node_inter (show i < h by omega) hcm
  obtain ⟨⟨ll,lcl,v⟩,hl,hllen,hlch,hlids⟩ := S.node_inter (show i < h by omega) ham
  rw [hr] at hcfit hpc hce
  rw [hl] at hae hpa hafit
  simp only [isempty,isemptyInter,decide_eq_false_iff_not,not_le] at hae
  simp only [isempty,isemptyInter,decide_eq_true_eq] at hce
  obtain ⟨li,k',rfl⟩ : ∃ li k',ll=li++[k'] := by
    rcases List.eq_nil_or_concat ll with rfl|⟨li,k',rfl⟩
    · simp at hae
    · exact ⟨li,k',List.concat_eq_append⟩
  obtain ⟨lc,e,rfl⟩ : ∃ lc e,lcl=lc++[e] := by
    rcases List.eq_nil_or_concat lcl with rfl|⟨lc,e,rfl⟩
    · simp at hllen
    · exact ⟨lc,e,List.concat_eq_append⟩
  have hlc : lc.length=li.length+1 := by simpa using hllen
  have hech : e∈ids (s.items a) := by
    rw [hlids]
    simp
  have helc : e∉lc := by
    have hnd := S.tower.nodup_node (show i < h by omega) ham
    rw [hlids,List.nodup_append] at hnd
    exact fun hmem => hnd.2.2 e hmem e (by simp) rfl
  obtain ⟨hem,-,-⟩ := S.child (show i < h by omega) ham hech
  obtain ⟨s1,hs1,-,P⟩ := tranL2R_inter hn ha hc hk hl hr hac hax hcx
    (S.ne_of_level (by omega) (by omega) (by omega) hem ham)
    (S.ne_of_level (by omega) (by omega) (by omega) hem hcm)
    (S.ne_of_level (by omega) (by omega) (by omega) hem hx.mem) hlc hrlen
    (fun z hz => S.par i (by omega) a ham z (by rw [hlids]; simp [hz]))
    (fun z hz => S.par i (by omega) c hcm z (by rw [hrids]; exact hz)) helc
  have hkk' : k' ≤ k := hleft (.sep k') (by
    rw [toks_inter hl hllen]
    simp)
  have hne : r.clist≠[] := by
    intro h0
    rw [h0] at hrlen
    simp at hrlen
  have hitems : (Node.inter ⟨li,lc,v⟩ : Node ℤ ν (Option ℕ)).items++Item.tok (Tok.sep k')::
      (Node.inter {r with ilist := n.ilist[p]::r.ilist,clist := e::r.clist} :
        Node ℤ ν (Option ℕ)).items=s.items a++Item.tok (Tok.sep n.ilist[p])::s.items c := by
    rw [Tree.items,Tree.items,hl,hr]
    exact (items_rotate hlc hne e _ _ _ _ _ _).symm
  have hril : ilistOf s c=r.ilist := by simp [ilistOf,hr]
  have hchild : ilistOf s1 c=(n.ilist.drop p).take 1++ilistOf s c ∧
      children s1 c=(children s a).getLast?.toList++children s c ∧
      2 ≤ ((n.ilist.drop p).take 1++ilistOf s c).length := by
    rw [htake,hril,hlch,hrch]
    refine ⟨by simp [ilistOf,P.right'],by simp [children,P.right'],?_⟩
    have := hcfit.1
    simp only [List.length_append,List.length_singleton]
    omega
  obtain ⟨lev1,R⟩ := moved_borrowed P I hs hi hx hpa hpc
    (by
      show InterSize M li.length
      have := hafit.2
      simp only [List.length_append,List.length_singleton] at hae this
      exact ⟨by omega,by omega⟩)
    (by
      show InterSize M (n.ilist[p]::r.ilist).length
      have := hcfit.1
      simp only [List.length_cons]
      exact ⟨by omega,by omega⟩)
    (fun h0 => by omega)
    (fun _ => ⟨⟨_,rfl,hlc⟩,⟨_,rfl,by simp; omega⟩,hitems⟩) (hpos _ hkk') hc (fun _ => hchild)
  exact ⟨s1,lev1,hs1,R⟩

/-- The last child, with few entries, borrows the last entry of the child
before it. -/
theorem Inv.borrow_left (I : Inv M (atLeast L) s h lev rank) (hs : Strict (tokens s lev))
    (hM : 3 < M) (hi : i < h) (hx : Seated lev k (i+1) x) (hn : s.node x=.inter n)
    {p : ℕ} (hp : bisectRight id n.ilist k=p+1) (hlast : p+1=n.ilist.length)
    (ha : n.clist[p]?=some a) (hc : n.clist[p+1]?=some c) (hce : isempty M L (s.node c)=true)
    (hae : isempty M L (s.node a)=false) :
    ∃ s1 lev1,tranL2R s x p=.ok s1 ∧ Borrowed M L k s h lev rank i x c n
      ((n.ilist.drop p).take 1++ilistOf s c) ((children s a).getLast?.toList++children s c)
      s1 lev1 := by
  have hlt : p < n.ilist.length := by omega
  cases i with
  | zero => exact I.borrow_left_leaf hs hi hx hn hp hlt ha hc hae
  | succ i => exact I.borrow_left_inter hs hM hi hx hn hp hlt ha hc hce hae

/-- A leaf that is the only child of the root becomes the root. -/
theorem collapse_leaf (S : Shape s 1 lev rank) {v : Option ℕ}
    (hroot : s.node s.root=.inter ⟨[],[c],v⟩) (hst : Sorted (tokens s lev))
    {l : Leaf ℤ ν (Option ℕ)} (hl : s.node c=.leaf l) :
    Inv M (atLeast L) ({s.setPar c none with root := c} : Bptree ν) 0 lev rank ∧
      tokens ({s.setPar c none with root := c} : Bptree ν) lev=tokens s lev ∧
        ∃ m,({s.setPar c none with root := c} : Bptree ν).node c=.leaf m := by
  have hset : ∀ z,∃ v,({s.setPar c none with root := c} : Bptree ν).node z=(s.node z).setPar v := by
    intro z
    show ∃ v,(s.setPar c none).node z=_
    rw [Tree.setPar_node]
    split
    · exact ⟨_,rfl⟩
    · exact ⟨_,((s.node z).setPar_self).symm⟩
  have htok : tokens ({s.setPar c none with root := c} : Bptree ν) lev=tokens s lev := by
    unfold tokens
    rw [grow_congr fun z _ => items_setPar (hset z)]
  have S0 := S.collapse hroot
  refine ⟨⟨S0,fun j hj z hz => ?_,?_⟩,htok,?_⟩
  · rw [Nat.le_zero.mp hj] at hz
    obtain ⟨m,hm,-⟩ := S0.node_leaf hz
    rw [hm]
    exact fun h0 => by omega
  · rw [htok]
    exact hst
  · obtain ⟨v,hv⟩ := hset c
    rw [hl] at hv
    exact ⟨_,hv⟩

/-- Two neighbouring leaves with few pairs are merged. -/
theorem Inv.merge_leaves (I : Inv M (atLeast L) s h lev rank) (hs : Strict (tokens s lev))
    (hL : 2 ≤ L) (hh : 0 < h) (hx : Seated lev k 1 x) (hn : s.node x=.inter n) {p : ℕ}
    (hp : bisectRight id n.ilist k=p) (hlt : p < n.ilist.length) (hc : n.clist[p]?=some c)
    (hb : n.clist[p+1]?=some b) (hbig : 1=h ∨ 2 ≤ n.ilist.length) :
    ∃ s1 y h1 lev1,merge s x p=.ok (s1,y) ∧ Inv M (atLeast L) s1 h1 lev1 rank ∧
      Strict (tokens s1 lev1) ∧ pairsOf (tokens s1 lev1)=pairsOf (tokens s lev) ∧
      ∃ l,s1.node c=.leaf l ∧ (y=c ∨ y=x ∧ isemptyLeaf L l=false ∧
        ∃ n1,s1.node x=.inter n1 ∧ n1.clist[bisectRight id n1.ilist k]?=some c) := by
  have S := I.shape
  obtain ⟨n',hn',hlen,-,hids⟩ := S.node_inter hh hx.mem
  rw [hn] at hn'
  cases hn'
  obtain ⟨hcm,hbm,hcb,hcx,hbx,hpc,hpb⟩ := S.two_children hh hx.mem hn hc hb
  have hk : n.ilist[p]?=some n.ilist[p] := List.getElem?_eq_getElem hlt
  have hsort := S.ilist_sorted hs.sorted hh hx.mem hn
  have hnd : n.clist.Nodup := by
    have := S.tower.nodup_node hh hx.mem
    rwa [hids] at this
  obtain ⟨l,hl,-⟩ := S.node_leaf hcm
  obtain ⟨r,hr,-⟩ := S.node_leaf hbm
  have hcfit : atLeast L h l.vlist.length := by
    have := I.sizes 0 (Nat.zero_le h) c hcm
    rwa [hl] at this
  have hbfit : atLeast L h r.vlist.length := by
    have := I.sizes 0 (Nat.zero_le h) b hbm
    rwa [hr] at this
  have hlong : (L+1)/2 < (l.vlist++r.vlist).length := by
    have h1 := hcfit hh
    have h2 := hbfit hh
    rw [List.length_append]
    omega
  obtain ⟨s1,P,hone,hmerge⟩ := merge_leaf hn hlen hsort hnd hc hb hk hl hr hcx
  rw [hl] at hpc
  obtain ⟨A,B,hlev,S1⟩ := P.shape S hh hx.mem hpc rfl
  obtain ⟨lt,rt,ht,ht'⟩ := P.tokens S hh hx.mem hlev (show s.items c=pairItems l.vlist by
    rw [Tree.items,hl]; rfl) (show s.items b=pairItems r.vlist by rw [Tree.items,hr]; rfl) rfl
  have hst1 : Strict (tokens s1 (Function.update lev 0 (A++[Item.node c]++B))) := by
    rw [ht']
    rw [ht] at hs
    exact List.Pairwise.sublist ((List.sublist_cons_self _ _).append_left lt) hs
  have hpr1 : pairsOf (tokens s1 (Function.update lev 0 (A++[Item.node c]++B)))=
      pairsOf (tokens s lev) := by
    rw [ht,ht']
    simp
  by_cases hnil : n.ilist.eraseIdx p=[]
  · rw [if_pos hnil] at hmerge
    have hlen1 : n.ilist.length=1 := by
      have := congrArg List.length hnil
      rw [List.length_eraseIdx,if_pos hlt,List.length_nil] at this
      omega
    have hh1 : h=1 := by omega
    subst hh1
    have hxroot : x=s.root := by
      have := hx.mem
      rw [S.tower.top] at this
      simpa using this
    have hroot : s1.node s1.root=.inter ⟨[],[c],n.par⟩ := by
      rw [P.root,←hxroot,P.parent',hnil,hone hnil]
    obtain ⟨I1,htok,m,hm⟩ := collapse_leaf (M:=M) (L:=L) S1 hroot hst1.sorted P.left'
    refine ⟨_,c,0,_,hmerge,I1,?_,?_,m,hm,Or.inl rfl⟩
    · rw [htok]
      exact hst1
    · rw [htok]
      exact hpr1
  · rw [if_neg hnil] at hmerge
    have hxfit := I.sizes 1 hh x hx.mem
    rw [hn] at hxfit
    have E1 := P.every S hlev I.sizes (show atLeast L h (l.vlist++r.vlist).length from
      fun _ => hlong.le) (by
        rw [P.parent']
        show InterSize M (n.ilist.eraseIdx p).length
        have h1 := hxfit.2
        have h2 := List.length_pos_iff.mpr hnil
        have h3 := List.length_eraseIdx_le n.ilist p
        exact ⟨h2,by omega⟩)
    refine ⟨s1,x,h,_,hmerge,⟨S1,E1,hst1.sorted⟩,hst1,hpr1,_,P.left',Or.inr ⟨rfl,?_,_,P.parent',?_⟩⟩
    · simp only [isemptyLeaf,decide_eq_false_iff_not,not_le]
      exact hlong
    · have hpos := bisectRight_eraseIdx hsort hp hlt
      show (n.clist.eraseIdx (p+1))[bisectRight id (n.ilist.eraseIdx p) k]?=some c
      rw [hpos,List.getElem?_eraseIdx_of_lt (by omega)]
      exact hc

end Moves

/-! ## Deletion -/

section Delete

variable {M L h i x fuel f : ℕ} {s : Bptree ν} {lev : ℕ → List (Item ℕ (Tok ℤ ν))} {rank : ℕ → ℕ}
  {kv : KeyValue ℤ ν}

/-- In a leaf nothing is removed. -/
theorem delNode_leaf {n : Leaf ℤ ν (Option ℕ)} (hn : s.node x=.leaf n) :
    delNode M L kv (fuel+1) s x=.ok (s,-1) := by
  rw [delNode]
  simp only [hn]
  cases n.vlist[bisectLeft KeyValue.key n.vlist kv.key]? with
  | none => rfl
  | some q => simp only [ne_eq_true,if_true]

/-- A child with enough entries is entered as it is. -/
theorem delNode_enter {n : InterNode ℤ} {p c : ℕ} (hn : s.node x=.inter n)
    (hp : bisectRight id n.ilist kv.key=p) (hc : n.clist[p]?=some c)
    (hce : isempty M L (s.node c)=false) :
    delNode M L kv (fuel+1) s x=delNode M L kv fuel s c := by
  rw [delNode]
  simp only [hn,hp,item_some hc,ok_bind,hce,Bool.not_false,if_true]

/-- The last child is entered after it has borrowed from the one before. -/
theorem delNode_left {n n1 : InterNode ℤ} {q a c : ℕ} {s1 : Bptree ν} (hn : s.node x=.inter n)
    (hp : bisectRight id n.ilist kv.key=q+1) (hlast : q+1=n.ilist.length)
    (ha : n.clist[q]?=some a) (hc : n.clist[q+1]?=some c) (hce : isempty M L (s.node c)=true)
    (hae : isempty M L (s.node a)=false) (hs1 : tranL2R s x q=.ok s1)
    (hn1 : s1.node x=.inter n1) (hn1c : n1.clist=n.clist) :
    delNode M L kv (fuel+1) s x=delNode M L kv fuel s1 c := by
  have hcast : ((q+1:ℕ):ℤ)-1=(q:ℤ) := by omega
  rw [delNode]
  simp only [hn,hp,item_some hc,ok_bind,hce,Bool.not_true,Bool.false_eq_true,if_false,if_pos hlast,
    hcast,itemInt_some ha,hae,Bool.not_false,if_true,hs1,inter_eq hn1,hn1c]

/-- Another child is entered after it has borrowed from the next one. -/
theorem delNode_right {n n1 : InterNode ℤ} {p c b : ℕ} {s1 : Bptree ν} (hn : s.node x=.inter n)
    (hp : bisectRight id n.ilist kv.key=p) (hlast : p≠n.ilist.length)
    (hc : n.clist[p]?=some c) (hb : n.clist[p+1]?=some b) (hce : isempty M L (s.node c)=true)
    (hbe : isempty M L (s.node b)=false) (hs1 : tranR2L s x p=.ok s1)
    (hn1 : s1.node x=.inter n1) (hn1c : n1.clist=n.clist) :
    delNode M L kv (fuel+1) s x=delNode M L kv fuel s1 c := by
  rw [delNode]
  simp only [hn,hp,item_some hc,ok_bind,hce,Bool.not_true,Bool.false_eq_true,if_false,hlast,
    item_some hb,hbe,Bool.not_false,if_true,hs1,inter_eq hn1,hn1c]

/-- Two children with few entries are merged. -/
theorem delNode_merge {n : InterNode ℤ} {p c b y : ℕ} {s1 : Bptree ν} (hn : s.node x=.inter n)
    (hp : bisectRight id n.ilist kv.key=p) (hlast : p≠n.ilist.length)
    (hc : n.clist[p]?=some c) (hb : n.clist[p+1]?=some b) (hce : isempty M L (s.node c)=true)
    (hbe : isempty M L (s.node b)=true) (hs1 : merge s x p=.ok (s1,y)) :
    delNode M L kv (fuel+1) s x=delNode M L kv fuel s1 y := by
  rw [delNode]
  simp only [hn,hp,item_some hc,ok_bind,hce,Bool.not_true,Bool.false_eq_true,if_false,hlast,
    item_some hb,hbe,hs1]

/-- The outcome of a deletion: the invariant holds and the pairs are kept. -/
def Kept (M L : ℕ) (s : Bptree ν) (lev : ℕ → List (Item ℕ (Tok ℤ ν))) (s' : Bptree ν) : Prop :=
  ∃ h' lev' rank',Inv M (atLeast L) s' h' lev' rank' ∧ Strict (tokens s' lev') ∧
    pairsOf (tokens s' lev')=pairsOf (tokens s lev)

/-- A descent that is clear before a child borrows is clear after it. -/
theorem Borrowed.clear {k : ℤ} {c : ℕ} {n : InterNode ℤ} {il : List ℤ} {cl : List ℕ} {s1 : Bptree ν}
    {lev1 : ℕ → List (Item ℕ (Tok ℤ ν))} (R : Borrowed M L k s h lev rank i x c n il cl s1 lev1)
    (S : Shape s h lev rank) (hi : i < h) (h0 : 0 < i) (hcl : clearIn M L s k f il cl=true) :
    clearIn M L s1 k f (ilistOf s1 c) (children s1 c)=true := by
  obtain ⟨h1,h2,-⟩ := R.child h0
  obtain ⟨i,rfl⟩ : ∃ i',i=i'+1 := ⟨i-1,by omega⟩
  obtain ⟨m,-,-,h3,h4⟩ := R.inv.shape.node_inter (show i < h by omega) R.seat.mem
  rw [h1,h2,←hcl]
  refine clearIn_congr S (show i ≤ h by omega) (fun j hj z hz => (R.low j (by omega)).2 z hz) ?_
  intro z hz
  rw [←h2,h3,←h4] at hz
  have := R.inv.shape.tower.child_mem (show i < h by omega) R.seat.mem hz
  rwa [(R.low i (by omega)).1] at this

/-- A repair that keeps the pairs does not disturb what a deletion has kept. -/
theorem Kept.trans {s1 s' : Bptree ν} {lev1 : ℕ → List (Item ℕ (Tok ℤ ν))} (K : Kept M L s1 lev1 s')
    (hp : pairsOf (tokens s1 lev1)=pairsOf (tokens s lev)) : Kept M L s lev s' := by
  obtain ⟨h',lev',rank',I',hs',hp'⟩ := K
  exact ⟨h',lev',rank',I',hs',hp'.trans hp⟩

/-- A node that may give something away has two separators. -/
theorem length_of_not_isempty (hM : 3 < M) {c : ℕ} {m : InterNode ℤ} (hm : s.node c=.inter m)
    (he : isempty M L (s.node c)=false) : 2 ≤ (ilistOf s c).length := by
  rw [hm] at he
  simp only [isempty,isemptyInter,decide_eq_false_iff_not,not_le] at he
  simp only [ilistOf,hm]
  omega

/-- Above the leaves there are internal nodes. -/
theorem inner_node (S : Shape s h lev rank) (hi : i ≤ h) (h0 : 0 < i) {c : ℕ}
    (hc : c∈ids (lev i)) : ∃ m,s.node c=.inter m := by
  obtain ⟨i',rfl⟩ : ∃ i',i=i'+1 := ⟨i-1,by omega⟩
  obtain ⟨m,hm,-⟩ := S.node_inter hi hc
  exact ⟨m,hm⟩

/-- A descent enters the child where its key belongs. -/
theorem Inv.place (I : Inv M (atLeast L) s h lev rank) (hi : i < h) {k : ℤ}
    (hx : Seated lev k (i+1) x) {n : InterNode ℤ} (hn : s.node x=.inter n)
    (hlen : n.clist.length=n.ilist.length+1) {p : ℕ} (hp : bisectRight id n.ilist k=p) :
    p ≤ n.ilist.length ∧ ∃ c,n.clist[p]?=some c ∧ Seated lev k i c := by
  have hsort : n.ilist.Pairwise fun u v => id u ≤ id v := I.shape.ilist_sorted I.sorted hi hx.mem hn
  obtain ⟨hple,-,-⟩ := bisectRight_spec hsort k
  obtain ⟨c,hc,hseat⟩ := I.shape.descend I.sorted hi hx hn
  rw [hp] at hple hc
  refine ⟨hple,c,?_,hseat⟩
  have hitem := item_ok (show p < n.clist.length by omega)
  rw [hc] at hitem
  cases hitem
  exact List.getElem?_eq_getElem (by omega)

/-- Two leaves with few pairs are merged, and the descent ends in the leaf made of both. -/
theorem Inv.delNode_merged (I : Inv M (atLeast L) s h lev rank) (hs : Strict (tokens s lev))
    (hL : 2 ≤ L) (hh : 0 < h) (hx : Seated lev kv.key 1 x) {n : InterNode ℤ}
    (hn : s.node x=.inter n) {p c b : ℕ} (hp : bisectRight id n.ilist kv.key=p)
    (hlt : p < n.ilist.length) (hc : n.clist[p]?=some c) (hb : n.clist[p+1]?=some b)
    (hce : isempty M L (s.node c)=true) (hbe : isempty M L (s.node b)=true)
    (hbig : 1=h ∨ 2 ≤ n.ilist.length) (hfuel : 2 ≤ fuel) :
    ∃ s' r,delNode M L kv (fuel+1) s x=.ok (s',r) ∧ Kept M L s lev s' := by
  obtain ⟨s1,y,h1,lev1,hs1,I1,hst1,hpr1,l,hl,hy⟩ := I.merge_leaves hs hL hh hx hn hp hlt hc hb hbig
  have K : Kept M L s lev s1 := ⟨h1,lev1,rank,I1,hst1,hpr1⟩
  obtain ⟨fuel,rfl⟩ : ∃ f,fuel=f+1+1 := ⟨fuel-2,by omega⟩
  rw [delNode_merge hn hp (by omega) hc hb hce hbe hs1]
  rcases hy with rfl|⟨rfl,hle,n1,hn1,hn1c⟩
  · exact ⟨s1,-1,delNode_leaf hl,K⟩
  · have hne : isempty M L (s1.node c)=false := by
      rw [hl]
      exact hle
    exact ⟨s1,-1,(delNode_enter hn1 rfl hn1c hne).trans (delNode_leaf hl),K⟩

/-- A deletion that has come to the place of its key on some frontier and has
a clear descent before it. -/
theorem Inv.delNode_ok (I : Inv M (atLeast L) s h lev rank) (hs : Strict (tokens s lev))
    (hM : 3 < M) (hL : 2 ≤ L) (hi : i ≤ h) (hx : Seated lev kv.key i x)
    (hbig : 0 < i → i=h ∨ 2 ≤ (ilistOf s x).length)
    (hclear : 0 < i → clearIn M L s kv.key f (ilistOf s x) (children s x)=true)
    (hfuel : 2*i < fuel) :
    ∃ s' r,delNode M L kv fuel s x=.ok (s',r) ∧ Kept M L s lev s' := by
  induction fuel generalizing s h lev rank i x f with
  | zero => omega
  | succ fuel ih =>
    have S := I.shape
    cases i with
    | zero =>
      obtain ⟨n,hn,-⟩ := S.node_leaf hx.mem
      exact ⟨s,-1,delNode_leaf hn,h,lev,rank,I,hs,rfl⟩
    | succ i =>
      obtain ⟨n,hn,hlen,hch,-⟩ := S.node_inter hi hx.mem
      have hil : ilistOf s x=n.ilist := by simp [ilistOf,hn]
      have hcl := hclear (by omega)
      have hbig' := hbig (by omega)
      have hnfit := I.sizes (i+1) hi x hx.mem
      rw [hn] at hnfit
      rw [hil] at hcl hbig'
      rw [hch] at hcl
      cases f with
      | zero => cases hcl
      | succ f =>
        obtain ⟨p,hp⟩ : ∃ p,bisectRight id n.ilist kv.key=p := ⟨_,rfl⟩
        obtain ⟨hple,c,hc,hseat⟩ := I.place hi hx hn hlen hp
        rw [clearIn] at hcl
        simp only [hp,hc] at hcl
        have hleafc : 0 < i → (s.node c).isleaf=false := by
          intro h0
          obtain ⟨m,hm⟩ := inner_node S (show i ≤ h by omega) h0 hseat.mem
          rw [hm]
          rfl
        cases hce : isempty M L (s.node c) with
        | false =>
          simp only [hce,Bool.not_false,if_true] at hcl
          rw [delNode_enter hn hp hc hce]
          refine ih (f:=f) I hs (by omega) hseat (fun h0 => Or.inr ?_) (fun h0 => ?_) (by omega)
          · obtain ⟨m,hm⟩ := inner_node S (show i ≤ h by omega) h0 hseat.mem
            exact length_of_not_isempty hM hm hce
          · rwa [hleafc h0,Bool.false_or] at hcl
        | true =>
          simp only [hce,Bool.not_true,Bool.false_eq_true,if_false] at hcl
          by_cases hlast : p=n.ilist.length
          · rw [if_pos hlast] at hcl
            obtain ⟨q,rfl⟩ : ∃ q,p=q+1 := ⟨p-1,by have := hnfit.1; omega⟩
            have ha : n.clist[q]?=some n.clist[q] := List.getElem?_eq_getElem (by omega)
            simp only [Nat.add_sub_cancel,ha,Bool.and_eq_true,Bool.not_eq_true'] at hcl
            obtain ⟨s1,lev1,hs1,R⟩ := I.borrow_left hs hM hi hx hn hp hlast ha hc hce hcl.1
            obtain ⟨n1,hn1,hn1c⟩ := R.node
            obtain ⟨s',r,hs',K⟩ := ih R.inv R.strict (by omega) R.seat
              (fun h0 => Or.inr (by rw [(R.child h0).1]; exact (R.child h0).2.2))
              (fun h0 => R.clear S hi h0 (by
                have := hcl.2
                rwa [hleafc h0,Bool.false_or] at this)) (by omega)
            refine ⟨s',r,?_,K.trans R.pairs⟩
            rw [delNode_left hn hp hlast ha hc hce hcl.1 hs1 hn1 hn1c]
            exact hs'
          · rw [if_neg hlast] at hcl
            have hb : n.clist[p+1]?=some n.clist[p+1] := List.getElem?_eq_getElem (by omega)
            simp only [hb] at hcl
            cases hbe : isempty M L (s.node n.clist[p+1]) with
            | false =>
              obtain ⟨s1,lev1,hs1,R⟩ := I.borrow_right hs hM hL hi hx hn hp (by omega) hc hb hce hbe
              obtain ⟨n1,hn1,hn1c⟩ := R.node
              obtain ⟨s',r,hs',K⟩ := ih R.inv R.strict (by omega) R.seat
                (fun h0 => Or.inr (by rw [(R.child h0).1]; exact (R.child h0).2.2))
                (fun h0 => R.clear S hi h0 (by
                  rwa [hleafc h0,Bool.false_or,hbe,Bool.not_false,Bool.true_and] at hcl)) (by omega)
              refine ⟨s',r,?_,K.trans R.pairs⟩
              rw [delNode_right hn hp hlast hc hb hce hbe hs1 hn1 hn1c]
              exact hs'
            | true =>
              have h0 : i=0 := by
                by_contra hne
                rw [hleafc (by omega),hbe] at hcl
                cases hcl
              subst h0
              exact I.delNode_merged hs hL hi hx hn hp (by omega) hc hb hce hbe (by omega) (by omega)

end Delete

/-! ## Runs of calls -/

/-- No leaf below the root holds a pair with a key. -/
def NotStored (s : Bptree ν) (k : ℤ) : Prop :=
  ∀ d x p,x∈nodesAt s d → p∈vlistOf s x → p.key≠k

/-- The key of a deletion is not stored, and its descent is clear. -/
def ClearDelete (M L : ℕ) (s : Bptree ν) (kv : KeyValue ℤ ν) : Prop :=
  NotStored s kv.key ∧ ((s.node s.root).isleaf ||
    clearIn M L s kv.key s.next (ilistOf s s.root) (children s s.root))=true

/-- Every deletion of a run is clear in the state before it. -/
def ClearCalls (M L : ℕ) : Bptree ν → List (Call ν) → Prop
  | _,[] => True
  | s,c::rest => (∀ kv,c=.delete kv → ClearDelete M L s kv) ∧
      ∀ s1,c.run M L s=.ok s1 → ClearCalls M L s1 rest

/-- Pairs that are stored after a call, as the call is meant. -/
def Call.effect (q : List (KeyValue ℤ ν)) : Call ν → List (KeyValue ℤ ν)
  | .insert kv => q++[kv]
  | .delete kv => q.filter fun p => decide (p.key≠kv.key)

/-- Pairs that are stored after calls. -/
def effects (q : List (KeyValue ℤ ν)) (calls : List (Call ν)) : List (KeyValue ℤ ν) :=
  calls.foldl Call.effect q

/-- Insertions have keys that are not stored. -/
def Fresh : List (KeyValue ℤ ν) → List (Call ν) → Prop
  | _,[] => True
  | q,c::rest => (∀ kv,c=.insert kv → ∀ p ∈ q,p.key≠kv.key) ∧ Fresh (c.effect q) rest

section Run

variable {M L h : ℕ} {s : Bptree ν} {lev : ℕ → List (Item ℕ (Tok ℤ ν))} {rank : ℕ → ℕ}
  {q : List (KeyValue ℤ ν)}

/-- A call that is fresh or clear does what it is meant to. -/
theorem Inv.call_ok (I : Inv M (atLeast L) s h lev rank) (hs : Strict (tokens s lev)) (hM : 3 < M)
    (hL : 2 ≤ L) (hp : (pairsOf (tokens s lev)).Perm q) (c : Call ν)
    (hfresh : ∀ kv,c=.insert kv → ∀ p ∈ q,p.key≠kv.key)
    (hclear : ∀ kv,c=.delete kv → ClearDelete M L s kv) :
    ∃ s1 h1 lev1 rank1,c.run M L s=.ok s1 ∧ Inv M (atLeast L) s1 h1 lev1 rank1 ∧
      Strict (tokens s1 lev1) ∧ (pairsOf (tokens s1 lev1)).Perm (c.effect q) := by
  have S := I.shape
  cases c with
  | insert kv =>
    obtain ⟨s1,h1,lev1,rank1,hs1,I1,R⟩ := I.insert_ok hM (by omega) (leafSizes_atLeast L) kv
    exact ⟨s1,h1,lev1,rank1,hs1,I1,
      R.entered.strict hs fun p hmem => hfresh kv rfl p (hp.subset hmem),
      R.entered.putBehind.perm hp⟩
  | delete kv =>
    obtain ⟨hnot,hcl⟩ := hclear kv rfl
    have hroot : 0 < h → (s.node s.root).isleaf=false := by
      intro h0
      obtain ⟨h',rfl⟩ : ∃ h',h=h'+1 := ⟨h-1,by omega⟩
      obtain ⟨m,hm,-⟩ := S.node_inter (Nat.lt_succ_self h') S.tower.root_mem
      rw [hm]
      rfl
    have hh := S.height_lt
    have hseat : Seated lev kv.key h s.root := S.tower.seat_root
    obtain ⟨s1,r,hs1,h1,lev1,rank1,I1,hst1,hpr1⟩ := I.delNode_ok hs hM hL le_rfl hseat
      (fun _ => Or.inl rfl)
      (fun h0 => by rwa [hroot h0,Bool.false_or] at hcl) (show 2*h < 2*s.next+1 by omega)
    refine ⟨s1,h1,lev1,rank1,?_,I1,hst1,?_⟩
    · show delete M L s kv=.ok s1
      rw [delete,hs1]
      rfl
    · have hkeep : q.filter (fun p => decide (p.key≠kv.key))=q := by
        refine List.filter_eq_self.mpr fun p hmem => ?_
        have hmem' := hp.symm.subset hmem
        rw [S.pairsOf_tokens] at hmem'
        obtain ⟨x,hx,hpx⟩ := List.mem_flatMap.mp hmem'
        have hx' : x∈nodesAt s h := by
          rw [S.nodesAt_eq le_rfl,Nat.sub_self]
          exact hx
        simpa using hnot h x p hx' hpx
      rw [hpr1]
      show (pairsOf (tokens s lev)).Perm (q.filter fun p => decide (p.key≠kv.key))
      rw [hkeep]
      exact hp

/-- A run of fresh and clear calls. -/
theorem Inv.run_ok (I : Inv M (atLeast L) s h lev rank) (hs : Strict (tokens s lev)) (hM : 3 < M)
    (hL : 2 ≤ L) (hp : (pairsOf (tokens s lev)).Perm q) {calls : List (Call ν)}
    (hfresh : Fresh q calls) (hclear : ClearCalls M L s calls) {pre : List (Call ν)}
    (hpre : pre <+: calls) :
    ∃ s1,runCalls M L s pre=.ok s1 ∧ Formed s1 (effects q pre) := by
  induction calls generalizing s h lev rank q pre with
  | nil =>
    rw [List.prefix_nil.mp hpre]
    exact ⟨s,rfl,Shape.formed I.shape hs hp⟩
  | cons c calls ih =>
    cases pre with
    | nil => exact ⟨s,rfl,Shape.formed I.shape hs hp⟩
    | cons c' pre =>
      obtain ⟨rfl,hpre'⟩ := List.cons_prefix_cons.mp hpre
      obtain ⟨s1,h1,lev1,rank1,hs1,I1,hst1,hp1⟩ := I.call_ok hs hM hL hp c' hfresh.1 hclear.1
      obtain ⟨s2,hs2,F⟩ := ih I1 hst1 hp1 hfresh.2 (hclear.2 s1 hs1) hpre'
      refine ⟨s2,?_,F⟩
      rw [runCalls,hs1]
      exact hs2

/-- In every run of insertions with fresh keys and clear deletions on a new
tree, no call fails, and after each the tree has the right form and holds
the pairs that the calls mean it to hold. -/
theorem calls_formed_of_clear (hM : 4 ≤ M) (hL : 2 ≤ L) (hLM : L ≤ M) (calls : List (Call ν))
    (hfresh : Fresh [] calls) (hclear : ClearCalls M L empty calls) :
    ∀ pre,pre <+: calls → ∃ s0 s,init M L=.ok s0 ∧ runCalls M L s0 pre=.ok s ∧
      Formed s (effects [] pre) := by
  intro pre hpre
  have hinit : init M L=.ok (empty : Bptree ν) := init_eq hLM
  have I0 : Inv M (atLeast L) (empty : Bptree ν) 0 (fun _ => [.node 0]) fun _ => 0 :=
    inv_empty M fun h0 => by omega
  obtain ⟨s,hs,F⟩ := I0.run_ok List.Pairwise.nil (by omega) hL List.Perm.nil hfresh hclear hpre
  exact ⟨empty,s,hinit,hs,F⟩

/-- Calls are clear when the first and the rest are. -/
theorem clearCalls_cons {s1 : Bptree ν} {c : Call ν} {rest : List (Call ν)}
    (hs1 : c.run M L s=.ok s1) : ClearCalls M L s (c::rest) ↔
      (∀ kv,c=.delete kv → ClearDelete M L s kv) ∧ ClearCalls M L s1 rest := by
  rw [ClearCalls,hs1]
  exact and_congr_right fun _ => ⟨fun hall => hall s1 rfl,fun hc s2 hs2 => by cases hs2; exact hc⟩

end Run

/-- Three insertions, and a deletion that lets the first of two leaves borrow
from the second. -/
theorem calls_formed_of_clear_borrow :
    ∃ s0 s,init 4 2=.ok s0 ∧
      runCalls 4 2 s0 [.insert ⟨1,0⟩,.insert ⟨2,1⟩,.insert ⟨3,2⟩,.delete ⟨0,3⟩]=.ok s ∧
      Formed s (effects [] [.insert ⟨1,0⟩,.insert ⟨2,1⟩,.insert ⟨3,2⟩,.delete ⟨0,3⟩]) := by
  refine calls_formed_of_clear (by decide) (by decide) (by decide)
    [.insert ⟨1,(0 : ℕ)⟩,.insert ⟨2,1⟩,.insert ⟨3,2⟩,.delete ⟨0,3⟩] ?_ ?_ _ List.prefix_rfl
  · refine ⟨?_,?_,?_,?_,trivial⟩ <;> intro kv hkv <;> cases hkv <;> decide
  · refine (clearCalls_cons rfl).mpr ⟨fun kv hkv => (by cases hkv),?_⟩
    refine (clearCalls_cons rfl).mpr ⟨fun kv hkv => (by cases hkv),?_⟩
    refine (clearCalls_cons rfl).mpr ⟨fun kv hkv => (by cases hkv),?_⟩
    refine ⟨fun kv hkv => ?_,fun _ _ => trivial⟩
    cases hkv
    refine ⟨fun d x p hx hp => ?_,rfl⟩
    match d with
    | 0 =>
      have hx0 : x∈[2] := hx
      simp only [List.mem_singleton] at hx0
      subst hx0
      cases hp
    | 1 =>
      have hx1 : x∈[0,1] := hx
      simp only [List.mem_cons,List.not_mem_nil,or_false] at hx1
      rcases hx1 with rfl|rfl
      · have hp1 : p∈[⟨1,0⟩] := hp
        simp only [List.mem_singleton] at hp1
        subst hp1
        decide
      · have hp1 : p∈[⟨2,1⟩,⟨3,2⟩] := hp
        simp only [List.mem_cons,List.not_mem_nil,or_false] at hp1
        rcases hp1 with rfl|rfl <;> decide
    | d+2 =>
      rw [show d+2=1+1+d by omega,LeavesAt.beyond ⟨fun d hd y hy => ?_,fun y hy => ?_⟩] at hx
      · cases hx
      · obtain rfl : d=0 := by omega
        have hy0 : y∈[2] := hy
        rw [List.mem_singleton.mp hy0]
        rfl
      · have hy1 : y∈[0,1] := hy
        simp only [List.mem_cons,List.not_mem_nil,or_false] at hy1
        rcases hy1 with rfl|rfl <;> rfl

/-- A pair that is inserted and deleted is still stored. -/
theorem calls_formed_false :
    ¬∀ (M L : ℕ) (calls : List (Call ℕ)),4 ≤ M → 2 ≤ L → L ≤ M → Fresh [] calls →
      ∃ s0 s,init M L=.ok s0 ∧ runCalls M L s0 calls=.ok s ∧ Formed s (effects [] calls) := by
  intro hall
  obtain ⟨s0,s,h0,hs,F⟩ := hall 4 2 [.insert ⟨1,0⟩,.delete ⟨1,0⟩] (by decide) (by decide) (by decide)
    ⟨fun kv hkv p hp => (by cases hp),fun kv hkv => (by cases hkv),trivial⟩
  cases h0
  cases hs
  obtain ⟨h,hl,hp⟩ := F.leaves
  have hh : h=0 := by
    by_contra hne
    have := hl.1 0 (by omega) 0 (by decide)
    cases this
  subst hh
  exact absurd hp.length_eq (by decide)

end StudyCode.Bplus.V1
