import StudyCode.BplusOrder
import StudyCode.BplusTree

/-!
# Insertion into the tree with brother pointers

A full node that an insertion meets is split, and the insertion goes on from
its parent, which may be full now. The nodes above the current one are never
full, so a split always has room, and it makes a node above the leaves,
whose number the separators between the leaves bound. An insertion ends in
the leaf where its key belongs before the splits, since these leave the
bottom of the tree alone.
-/

namespace StudyCode.Bplus.V1

open Frontier

variable {ν : Type}

/-- Brother of a node; internal nodes have none. -/
def broOf (s : Bptree ν) (x : ℕ) : Option ℕ :=
  match s.node x with
  | .leaf n => n.bro
  | .inter _ => none

/-- A new parent leaves the brother of a node. -/
theorem broOf_setPar {s s' : Bptree ν} {z : ℕ} (h : ∃ v,s'.node z=(s.node z).setPar v) :
    broOf s' z=broOf s z := by
  obtain ⟨v,hv⟩ := h
  unfold broOf
  rw [hv]
  cases s.node z <;> rfl

/-- The invariant of the tree; the numbers of pairs that leaves may have
depend on the height. -/
structure Inv (M : ℕ) (Z : ℕ → ℕ → Prop) (s : Bptree ν) (h : ℕ)
    (lev : ℕ → List (Item ℕ (Tok ℤ ν))) (rank : ℕ → ℕ) : Prop where
  /-- Nodes, classes and parents. -/
  shape : Shape s h lev rank
  /-- Numbers of separators and pairs. -/
  sizes : Every s h lev fun _ n => n.Fit (InterSize M) (Z h)
  /-- Order of separators and pairs. -/
  sorted : Sorted (tokens s lev)

/-- Numbers of pairs that insertions lead to. -/
structure LeafSizes (L : ℕ) (Z : ℕ → ℕ → Prop) : Prop where
  /-- One pair more, within the bound. -/
  grow : ∀ h m,Z h m → m < L → Z h (m+1)
  /-- The left half of a leaf above the bound. -/
  left : ∀ h h' m,Z h m → L ≤ m → 0 < h' → Z h' ((L+1)/2)
  /-- The right half of a leaf above the bound. -/
  right : ∀ h h' m,Z h m → L ≤ m → 0 < h' → Z h' (m+1-(L+1)/2)
  /-- A tree that gets higher. -/
  lift : ∀ h m,0 < h → Z h m → Z (h+1) m

/-- A change above the leaves. -/
structure Upper (s : Bptree ν) (lev : ℕ → List (Item ℕ (Tok ℤ ν))) (s1 : Bptree ν)
    (lev1 : ℕ → List (Item ℕ (Tok ℤ ν))) : Prop where
  /-- The bottom frontier stays. -/
  bottom : lev1 0=lev 0
  /-- The first leaf stays. -/
  leaf : s1.leaf=s.leaf
  /-- Leaves only change their parent. -/
  frame : ∀ z ∈ ids (lev 0),∃ v,s1.node z=(s.node z).setPar v

section Upper

variable {s s1 : Bptree ν} {lev lev1 : ℕ → List (Item ℕ (Tok ℤ ν))}

/-- A change above the leaves leaves the tokens. -/
theorem Upper.tokens_eq (U : Upper s lev s1 lev1) : tokens s1 lev1=tokens s lev := by
  unfold tokens
  rw [U.bottom]
  congr 1
  exact grow_congr fun z hz => items_setPar (U.frame z hz)

end Upper

/-! ## Splitting an internal node -/

section SplitNode

variable {M L h i x : ℕ} {Z : ℕ → ℕ → Prop} {s : Bptree ν} {lev : ℕ → List (Item ℕ (Tok ℤ ν))}
  {rank : ℕ → ℕ} {n : InterNode ℤ} {k : ℤ}

/-- The left half of a full internal node has a size that is allowed. -/
theorem fit_leftI (hM : 3 < M) (hn : n.ilist.length=M-1) (p : ℕ) {Y : ℕ → Prop} :
    (leftI n (M/2) p : Node ℤ ν (Option ℕ)).Fit (InterSize M) Y := by
  unfold leftI Node.Fit InterSize
  simp only [List.length_take]
  omega

/-- The right half of a full internal node has a size that is allowed. -/
theorem fit_rightI (hM : 3 < M) (hn : n.ilist.length=M-1) (p : ℕ) {Y : ℕ → Prop} :
    (rightI n (M/2) p : Node ℤ ν (Option ℕ)).Fit (InterSize M) Y := by
  unfold rightI Node.Fit InterSize
  simp only [List.length_drop]
  omega

/-- A node whose cut is an internal node is one. -/
theorem inter_of_cutI {mid : ℕ} {m : Node ℤ ν (Option ℕ)} {r : InterNode ℤ}
    (h : cutI mid m=.inter r) : ∃ r',m=.inter r' := by
  cases m with
  | inter r' => exact ⟨r',rfl⟩
  | leaf r' => cases h

/-- Children that move to the right half. -/
theorem Inv.moved (I : Inv M Z s h lev rank) (hi : i < h) (hx : x∈ids (lev (i+1)))
    (hn : s.node x=.inter n) {c mid : ℕ} (hc : c∈n.clist.drop mid) :
    c∈ids (lev i) ∧ c < s.next ∧ c≠x := by
  obtain ⟨n',hn',hlen⟩ := I.shape.joint i hi x hx
  rw [hn] at hn'
  cases hn'
  have hmem : c∈ids (s.items x) := by
    rw [Tree.items,hn,Node.ids_items_inter hlen]
    exact List.mem_of_mem_drop hc
  obtain ⟨g1,g2,-⟩ := I.shape.child hi hx hmem
  exact ⟨g1,g2,I.shape.ne_of_level (by omega) (by omega) (by omega) g1 hx⟩

/-- An internal node has one child more than separators. -/
theorem Inv.joint (I : Inv M Z s h lev rank) (hi : i < h) (hx : x∈ids (lev (i+1)))
    (hn : s.node x=.inter n) : n.clist.length=n.ilist.length+1 := by
  obtain ⟨n',hn',hlen⟩ := I.shape.joint i hi x hx
  rw [hn] at hn'
  cases hn'
  exact hlen

/-- Splitting a full root. -/
theorem Inv.splitNode_root (I : Inv M Z s h lev rank) (hM : 3 < M) (hZ : LeafSizes L Z) (hh : 0 < h)
    (hn : s.node s.root=.inter n) (hfull : n.ilist.length=M-1) :
    ∃ s1 lev1 rank1,splitNode M s s.root=.ok (s1,some s1.root) ∧ Inv M Z s1 (h+1) lev1 rank1 ∧
      Upper s lev s1 lev1 ∧ innerCount lev1 (h+1)=innerCount lev h+2 := by
  have S := I.shape
  obtain ⟨i,rfl⟩ : ∃ i,h=i+1 := ⟨h-1,by omega⟩
  have hx := S.tower.root_mem
  have hlen := I.joint (by omega) hx hn
  have hlt := S.lt (i+1) le_rfl _ hx
  have hpar : n.par=none := by
    have := S.par_root
    rwa [hn] at this
  have hk : item n.ilist (M/2-1)=.ok n.ilist[M/2-1] := item_ok (by omega)
  have P : SplitRoot s ((withRoot (withRightI s n (M/2)) s.root s.next n.ilist[M/2-1]).view
      (Function.update nothing s.root (cutI (M/2)))) s.root (leftI n (M/2) (s.next+1))
      (rightI n (M/2) (s.next+1)) n.ilist[M/2-1] :=
    splitRoot_inter pending_nothing hn hlt rfl rfl hlen (by omega) fun c hc =>
      ⟨(I.moved (by omega) hx hn hc).2.2,(I.moved (by omega) hx hn hc).2.1⟩
  generalize hs2 : withRoot (withRightI s n (M/2)) s.root s.next n.ilist[M/2-1]=s2 at P
  have hleft : cutI (M/2) (s2.node s.root)=leftI n (M/2) (s.next+1) := by
    have := P.left
    rwa [Tree.view_node,Function.update_self] at this
  obtain ⟨r',hr'⟩ := inter_of_cutI hleft
  have hcut : s2.set s.root (cutI (M/2) (s2.node s.root))=
      s2.view (Function.update nothing s.root (cutI (M/2))) := view_cut (f:=nothing) rfl
  have H : Halves s (i+1) s.root (leftI n (M/2) (s.next+1)) (rightI n (M/2) (s.next+1))
      n.ilist[M/2-1] (s.next+1) :=
    halves_inter hn hlen (by omega) (by omega) (by omega) (List.getElem?_eq_getElem (by omega))
  have S' := P.shape H S rfl
  have E' := P.every S I.sizes (fun z _ m v hm => (hm.mono (hZ.lift (i+1) · (by omega))).setPar v)
    (fit_leftI hM hfull _) (fit_rightI hM hfull _) (by
      rw [P.top]
      exact ⟨le_rfl,by simp; omega⟩)
  rw [←hcut] at P S' E'
  have U : Upper s lev (s2.set s.root (cutI (M/2) (s2.node s.root))) (Function.update
      (Function.update lev (i+1) [.node s.root,.tok (.sep n.ilist[M/2-1]),.node s.next]) (i+1+1)
      [.node (s.next+1)]) := by
    refine ⟨?_,?_,fun z hz => ?_⟩
    · rw [Function.update_of_ne (by omega),Function.update_of_ne (by omega)]
    · rw [←hs2]
      simp [withRoot,Tree.setPar,withRightI,Tree.new]
    · have hzlt := S.lt 0 (by omega) z hz
      rw [P.other z (S.ne_of_level (by omega) le_rfl (by omega) hz hx) (by omega) (by omega)]
      split
      · exact ⟨_,rfl⟩
      · exact ⟨_,((s.node z).setPar_self).symm⟩
  refine ⟨_,_,_,?_,⟨S',E',?_⟩,U,?_⟩
  · rw [splitNode]
    simp only [Tree.inter,hn,ok_bind,rightHalf_ok hM,hk,hpar,newRoot_ok hM,hs2,cutInter_ok hr',
      P.left,P.root]
    rfl
  · rw [U.tokens_eq]
    exact I.sorted
  · have h1 := innerCount_update lev (show 0 < i+1 by omega) le_rfl
      [.node s.root,.tok (.sep n.ilist[M/2-1]),.node s.next]
    rw [innerCount,innerCount_update_of_lt (by omega),Function.update_self]
    rw [S.tower.top] at h1
    simp only [ids_node,ids_tok,ids_nil,List.length_cons,List.length_nil] at h1 ⊢
    omega

/-- Splitting a full node below a parent that has room. -/
theorem Inv.splitNode_below (I : Inv M Z s h lev rank) (hM : 3 < M) (hi : i+1 < h)
    (hx : x∈ids (lev (i+1))) (hn : s.node x=.inter n) (hfull : n.ilist.length=M-1) {p : ℕ}
    {q : InterNode ℤ} (hpar : n.par=some p) (hq : s.node p=.inter q)
    (hroom : q.ilist.length < M-1) :
    ∃ s1 lev1 rank1,splitNode M s x=.ok (s1,some p) ∧ Inv M Z s1 h lev1 rank1 ∧
      Upper s lev s1 lev1 ∧ (∀ j,j≠i+1 → lev1 j=lev j) ∧ innerCount lev1 h=innerCount lev h+1 ∧
      ∀ z,z < s.next → z≠x → z≠p → ∃ v,s1.node z=(s.node z).setPar v := by
  have S := I.shape
  have hlen := I.joint (by omega) hx hn
  have hlt := S.lt (i+1) (by omega) x hx
  have hxpar : (s.node x).par=some p := by
    rw [hn]
    exact hpar
  obtain ⟨-,hp,q',hq',-,hxq⟩ := S.parent (by omega) hx hxpar
  rw [hq] at hq'
  cases hq'
  have hplt := S.lt (i+1+1) hi p hp
  have hxp := S.ne_of_level (by omega) hi (by omega) hx hp
  have hk : item n.ilist (M/2-1)=.ok n.ilist[M/2-1] := item_ok (by omega)
  have hmoved : ∀ c ∈ n.clist.drop (M/2),c≠x ∧ c≠p ∧ c≠s.next := by
    intro c hc
    obtain ⟨g1,g2,g3⟩ := I.moved (by omega) hx hn hc
    exact ⟨g3,S.ne_of_level (by omega) hi (by omega) g1 hp,by omega⟩
  have P : SplitBelow s (((withRightI s n (M/2)).set p (withChild q x s.next n.ilist[M/2-1])).view
      (Function.update nothing x (cutI (M/2)))) x p q (leftI n (M/2) p) (rightI n (M/2) p)
      n.ilist[M/2-1] :=
    splitBelow_inter pending_nothing hn hq hpar hxp hlt hplt rfl rfl hlen (by omega) hmoved
  have hqW : (withRightI s n (M/2)).node p=.inter q := by
    rw [withRightI_node,if_neg fun hc => (hmoved p hc).2.1 rfl,if_neg (by omega),hq]
  have hleaf : ((withRightI s n (M/2)).set p (withChild q x s.next n.ilist[M/2-1])).leaf=s.leaf := by
    simp [withRightI,Tree.new]
  have hins : insertChild (withRightI s n (M/2)) p x s.next n.ilist[M/2-1]=
      .ok ((withRightI s n (M/2)).set p (withChild q x s.next n.ilist[M/2-1])) :=
    insertChild_ok hqW hxq
  generalize (withRightI s n (M/2)).set p (withChild q x s.next n.ilist[M/2-1])=s2 at P hleaf hins
  have hleft : cutI (M/2) (s2.node x)=leftI n (M/2) p := by
    have := P.left
    rwa [Tree.view_node,Function.update_self] at this
  obtain ⟨r',hr'⟩ := inter_of_cutI hleft
  have hcut : s2.set x (cutI (M/2) (s2.node x))=
      s2.view (Function.update nothing x (cutI (M/2))) := view_cut (f:=nothing) rfl
  have H : Halves s (i+1) x (leftI n (M/2) p) (rightI n (M/2) p) n.ilist[M/2-1] p :=
    halves_inter hn hlen (by omega) (by omega) (by omega) (List.getElem?_eq_getElem (by omega))
  obtain ⟨A,B,hlev,S'⟩ := P.shape H S hi hx hxpar
  have hqsize := I.sizes (i+1+1) hi p hp
  rw [hq] at hqsize
  have E' := P.every S hi hlev I.sizes (fun z _ _ m v hm => hm.setPar v) (fit_leftI hM hfull _)
    (fit_rightI hM hfull _) (by
      rw [P.parent']
      show InterSize M _
      rw [withChild_ilist_length]
      exact ⟨by omega,by omega⟩)
  rw [←hcut] at P S' E'
  have hframe : ∀ z,z < s.next → z≠x → z≠p →
      ∃ v,(s2.set x (cutI (M/2) (s2.node x))).node z=(s.node z).setPar v := by
    intro z hz hzx hzp
    rw [P.other z hzx hzp (by omega)]
    split
    · exact ⟨_,rfl⟩
    · exact ⟨_,((s.node z).setPar_self).symm⟩
  have U : Upper s lev (s2.set x (cutI (M/2) (s2.node x))) (Function.update lev (i+1)
      (A++[Item.node x,Item.tok (Tok.sep n.ilist[M/2-1]),Item.node s.next]++B)) := by
    refine ⟨Function.update_of_ne (by omega) _ _,hleaf,fun z hz => ?_⟩
    exact hframe z (S.lt 0 (by omega) z hz) (S.ne_of_level (by omega) (by omega) (by omega) hz hx)
      (S.ne_of_level (by omega) hi (by omega) hz hp)
  refine ⟨_,_,_,?_,⟨S',E',?_⟩,U,fun j hj => Function.update_of_ne hj _ _,?_,hframe⟩
  · rw [splitNode]
    simp only [Tree.inter,hn,ok_bind,rightHalf_ok hM,hk,hpar,hins,cutInter_ok hr',P.left]
    rfl
  · rw [U.tokens_eq]
    exact I.sorted
  · have h1 := innerCount_update lev (show 0 < i+1 by omega) (show i+1 ≤ h by omega)
      (A++[Item.node x,Item.tok (Tok.sep n.ilist[M/2-1]),Item.node s.next]++B)
    rw [hlev] at h1
    simp only [ids_append,ids_node,ids_tok,ids_nil,List.length_append,List.length_cons,
      List.length_nil] at h1
    omega

end SplitNode

/-! ## Splitting a leaf -/

/-- What splitting a leaf leads to. -/
structure LeafSplit (M L : ℕ) (Z : ℕ → ℕ → Prop) (lev : ℕ → List (Item ℕ (Tok ℤ ν))) (x : ℕ)
    (n : Leaf ℤ ν (Option ℕ)) (k : ℤ) (s s' : Bptree ν) (h' : ℕ)
    (lev' : ℕ → List (Item ℕ (Tok ℤ ν))) (rank' : ℕ → ℕ) : Prop where
  /-- The tree has a shape. -/
  shape : Shape s' h' lev' rank'
  /-- Its nodes have allowed sizes. -/
  every : Every s' h' lev' fun _ m => m.Fit (InterSize M) (Z h')
  /-- The new leaf stands behind the old one. -/
  bottom : ∃ A B,lev 0=A++[Item.node x]++B ∧
    lev' 0=A++[Item.node x,Item.tok (Tok.sep k),Item.node s.next]++B
  /-- The first leaf stays. -/
  leaf : s'.leaf=s.leaf
  /-- The old leaf refers to the new one. -/
  left : ∃ v,s'.node x=.leaf ⟨n.vlist.take ((L+1)/2),some s.next,v⟩
  /-- The new leaf refers to none. -/
  right : ∃ v,s'.node s.next=.leaf ⟨n.vlist.drop ((L+1)/2),none,v⟩
  /-- Other leaves stay. -/
  other : ∀ z ∈ ids (lev 0),z≠x → ∃ v,s'.node z=(s.node z).setPar v

section SplitLeaf

variable {M L h x : ℕ} {Z : ℕ → ℕ → Prop} {s : Bptree ν} {lev : ℕ → List (Item ℕ (Tok ℤ ν))}
  {rank : ℕ → ℕ} {n : Leaf ℤ ν (Option ℕ)}

/-- A node whose cut is a leaf is one. -/
theorem leaf_of_cutL {mid : ℕ} {g : Option ℕ → Option ℕ} {m : Node ℤ ν (Option ℕ)}
    {r : Leaf ℤ ν (Option ℕ)} (h : cutL mid g m=.leaf r) : ∃ r',m=.leaf r' := by
  cases m with
  | inter r' => cases h
  | leaf r' => exact ⟨r',rfl⟩

/-- A leaf that is the root is split under a new root. -/
theorem splitLeaf_root (hM : 3 < M) (S : Shape s h lev rank) (hx : x∈ids (lev 0))
    (hn : s.node x=.leaf n) (hpar : n.par=none) (hlen : (L+1)/2 < n.vlist.length)
    (hleft : ∀ h',0 < h' → Z h' ((L+1)/2))
    (hright : ∀ h',0 < h' → Z h' (n.vlist.length-(L+1)/2)) :
    ∃ s' h' lev' rank',splitLeaf M L s x=.ok s' ∧
      LeafSplit M L Z lev x n n.vlist[(L+1)/2].key s s' h' lev' rank' := by
  have hlt := S.lt 0 (Nat.zero_le h) x hx
  obtain ⟨h0,hroot⟩ := S.eq_root (Nat.zero_le h) hx (by rw [hn]; exact hpar)
  subst h0 hroot
  have P : SplitRoot s ((withRoot (withRightL s n ((L+1)/2) none) s.root s.next
      n.vlist[(L+1)/2].key).view (Function.update nothing s.root
        (cutL ((L+1)/2) fun _ => some s.next))) s.root
      (leftL n ((L+1)/2) (fun _ => some s.next) (s.next+1)) (rightL n ((L+1)/2) none (s.next+1))
      n.vlist[(L+1)/2].key := splitRoot_leaf hn hlt
  have hleaf : (withRoot (withRightL s n ((L+1)/2) none) s.root s.next
      n.vlist[(L+1)/2].key).leaf=s.leaf := rfl
  have hnew : s.new (.leaf ⟨n.vlist.drop ((L+1)/2),none,none⟩)=
      (withRightL s n ((L+1)/2) none,s.next) := rfl
  have hmade := newRoot_ok hM (s:=withRightL s n ((L+1)/2) none) (x:=s.root) (y:=s.next)
    (k:=n.vlist[(L+1)/2].key)
  generalize withRoot (withRightL s n ((L+1)/2) none) s.root s.next n.vlist[(L+1)/2].key=s2
    at P hleaf hmade
  have hcutx : cutL ((L+1)/2) (fun _ => some s.next) (s2.node s.root)=
      leftL n ((L+1)/2) (fun _ => some s.next) (s.next+1) := by
    have := P.left
    rwa [Tree.view_node,Function.update_self] at this
  obtain ⟨r',hr'⟩ := leaf_of_cutL hcutx
  have hcut : s2.set s.root (cutL ((L+1)/2) (fun _ => some s.next) (s2.node s.root))=
      s2.view (Function.update nothing s.root (cutL ((L+1)/2) fun _ => some s.next)) :=
    view_cut (f:=nothing) rfl
  have S' := P.shape (halves_leaf s s.root n _ _ _ _ _) S rfl
  have honly : Every s 0 lev fun z _ => z≠s.root → False := by
    intro j hj z hz hzx
    rw [Nat.le_zero.mp hj,S.tower.top] at hz
    exact hzx (by simpa using hz)
  have E' : Every _ _ _ fun _ m => m.Fit (InterSize M) (Z (0+1)) :=
    P.every S honly (fun z hz _ _ hf => (hf hz).elim)
      (by
        show Z 1 (n.vlist.take ((L+1)/2)).length
        rw [List.length_take,Nat.min_eq_left hlen.le]
        exact hleft 1 Nat.one_pos)
      (by
        show Z 1 (n.vlist.drop ((L+1)/2)).length
        rw [List.length_drop]
        exact hright 1 Nat.one_pos)
      (by
        rw [P.top]
        exact ⟨le_rfl,by simp; omega⟩)
  rw [←hcut] at P S' E'
  refine ⟨_,_,_,_,?_,S',E',⟨[],[],S.tower.top,?_⟩,hleaf,⟨_,P.left⟩,⟨_,P.right⟩,?_⟩
  · rw [splitLeaf]
    simp only [Tree.leafNode,hn,ok_bind,item_ok hlen,hnew,hpar,hmade,cutLeaf_ok hr']
  · rw [Function.update_of_ne (by omega),Function.update_self]
    rfl
  · intro z hz hzx
    exact (honly 0 le_rfl z hz hzx).elim

/-- A leaf below a parent with room is split. -/
theorem splitLeaf_below (hM : 3 < M) (S : Shape s h lev rank) (hx : x∈ids (lev 0))
    (hn : s.node x=.leaf n) {p : ℕ} (hpar : n.par=some p) (hlen : (L+1)/2 < n.vlist.length)
    (E : Every s h lev fun z m => z≠x → m.Fit (InterSize M) (Z h))
    (hroom : ∀ q,s.node p=.inter q → q.ilist.length < M-1)
    (hleft : ∀ h',0 < h' → Z h' ((L+1)/2))
    (hright : ∀ h',0 < h' → Z h' (n.vlist.length-(L+1)/2)) :
    ∃ s' h' lev' rank',splitLeaf M L s x=.ok s' ∧
      LeafSplit M L Z lev x n n.vlist[(L+1)/2].key s s' h' lev' rank' := by
  have hlt := S.lt 0 (Nat.zero_le h) x hx
  have hxpar : (s.node x).par=some p := by
    rw [hn]
    exact hpar
  obtain ⟨hh,hp,q,hq,-,hxq⟩ := S.parent (Nat.zero_le h) hx hxpar
  have hplt := S.lt 1 hh p hp
  have hxp := S.ne_of_level (Nat.zero_le h) hh (by omega) hx hp
  have P : SplitBelow s ((((withRightL s n ((L+1)/2) none).set p
      (withChild q x s.next n.vlist[(L+1)/2].key)).setPar s.next (some p)).view
        (Function.update nothing x (cutL ((L+1)/2) fun _ => some s.next))) x p q
      (leftL n ((L+1)/2) (fun _ => some s.next) p) (rightL n ((L+1)/2) none p)
      n.vlist[(L+1)/2].key := splitBelow_leaf hn hq hpar hxp hlt hplt
  have hleaf : (((withRightL s n ((L+1)/2) none).set p
      (withChild q x s.next n.vlist[(L+1)/2].key)).setPar s.next (some p)).leaf=s.leaf := rfl
  have hnew : s.new (.leaf ⟨n.vlist.drop ((L+1)/2),none,none⟩)=
      (withRightL s n ((L+1)/2) none,s.next) := rfl
  have hqW : (withRightL s n ((L+1)/2) none).node p=.inter q := by
    rw [withRightL_node,if_neg (by omega),hq]
  have hins : insertChild (withRightL s n ((L+1)/2) none) p x s.next n.vlist[(L+1)/2].key=
      .ok ((withRightL s n ((L+1)/2) none).set p (withChild q x s.next n.vlist[(L+1)/2].key)) :=
    insertChild_ok hqW hxq
  generalize hs1 : (withRightL s n ((L+1)/2) none).set p
    (withChild q x s.next n.vlist[(L+1)/2].key)=s1 at P hleaf hins
  have hcutx : cutL ((L+1)/2) (fun _ => some s.next) ((s1.setPar s.next (some p)).node x)=
      leftL n ((L+1)/2) (fun _ => some s.next) p := by
    have := P.left
    rwa [Tree.view_node,Function.update_self] at this
  obtain ⟨r',hr'⟩ := leaf_of_cutL hcutx
  have hcut : (s1.setPar s.next (some p)).set x
      (cutL ((L+1)/2) (fun _ => some s.next) ((s1.setPar s.next (some p)).node x))=
      (s1.setPar s.next (some p)).view
        (Function.update nothing x (cutL ((L+1)/2) fun _ => some s.next)) := view_cut (f:=nothing) rfl
  obtain ⟨A,B,hlev,S'⟩ := P.shape (halves_leaf s x n _ _ _ _ _) S hh hx hxpar
  have hqsize := E 1 hh p hp hxp.symm
  rw [hq] at hqsize
  have hqroom := hroom q hq
  have E' : Every _ _ _ fun _ m => m.Fit (InterSize M) (Z h) :=
    P.every S hh hlev E (fun z hzx _ m v hm => (hm hzx).setPar v)
      (by
        show Z h (n.vlist.take ((L+1)/2)).length
        rw [List.length_take,Nat.min_eq_left hlen.le]
        exact hleft h hh)
      (by
        show Z h (n.vlist.drop ((L+1)/2)).length
        rw [List.length_drop]
        exact hright h hh)
      (by
        rw [P.parent']
        show InterSize M _
        rw [withChild_ilist_length]
        exact ⟨by omega,by omega⟩)
  rw [←hcut] at P S' E'
  refine ⟨_,_,_,_,?_,S',E',⟨A,B,hlev,Function.update_self _ _ _⟩,hleaf,⟨_,P.left⟩,⟨_,P.right⟩,?_⟩
  · rw [splitLeaf]
    simp only [Tree.leafNode,hn,ok_bind,item_ok hlen,hnew,hpar,hins,pure_bind,cutLeaf_ok hr']
  · intro z hz hzx
    have hzlt := S.lt 0 (Nat.zero_le h) z hz
    rw [P.other z hzx (S.ne_of_level (Nat.zero_le h) hh (by omega) hz hp) (by omega)]
    split
    · exact ⟨_,rfl⟩
    · exact ⟨_,((s.node z).setPar_self).symm⟩

end SplitLeaf

/-! ## Insertions -/

/-- Tokens after an insertion: the pair stands behind all tokens that are not
greater, and the key of some pair may stand before it as a separator. -/
def Entered (kv : KeyValue ℤ ν) (t t' : List (Tok ℤ ν)) : Prop :=
  ∃ l r,t=l++r ∧ (∀ u ∈ l,u.key ≤ kv.key) ∧ (∀ u ∈ r,kv.key < u.key) ∧
    (t'=l++Tok.kv kv::r ∨
      ∃ l' r' p,l++Tok.kv kv::r=l'++Tok.kv p::r' ∧ t'=l'++Tok.sep p.key::.kv p::r')

/-- What an insertion leads to. -/
structure Inserted (L : ℕ) (kv : KeyValue ℤ ν) (s : Bptree ν)
    (lev : ℕ → List (Item ℕ (Tok ℤ ν))) (s' : Bptree ν) (lev' : ℕ → List (Item ℕ (Tok ℤ ν))) :
    Prop where
  /-- The first leaf stays. -/
  leaf : s'.leaf=s.leaf
  /-- The pair is entered. -/
  entered : Entered kv (tokens s lev) (tokens s' lev')
  /-- A leaf with room keeps its place in the row; any other one gets a new
  leaf behind it, which has no brother. -/
  row : ∃ x n,Seated lev kv.key 0 x ∧ s.node x=.leaf n ∧
    (∀ z ∈ ids (lev 0),z≠x → broOf s' z=broOf s z) ∧
    if n.vlist.length < L then ids (lev' 0)=ids (lev 0) ∧ broOf s' x=broOf s x
    else ∃ A B y,ids (lev 0)=A++x::B ∧ ids (lev' 0)=A++x::y::B ∧ broOf s' x=some y ∧
      broOf s' y=none

section Insert

variable {M L h i x : ℕ} {Z : ℕ → ℕ → Prop} {s s1 s' : Bptree ν}
  {lev lev1 lev' : ℕ → List (Item ℕ (Tok ℤ ν))} {rank : ℕ → ℕ} {kv : KeyValue ℤ ν}

/-- Entering a pair keeps the tokens sorted. -/
theorem Entered.sorted {t t' : List (Tok ℤ ν)} (E : Entered kv t t') (hs : Sorted t) : Sorted t' := by
  obtain ⟨l,r,rfl,hl,hr,hcase⟩ := E
  have hs1 : Sorted (l++Tok.kv kv::r) := hs.insert hl fun u hu => (hr u hu).le
  rcases hcase with rfl|⟨l',r',p,hp,rfl⟩
  · exact hs1
  · rw [hp] at hs1
    exact hs1.divide

/-- Entering a pair puts it behind its equals. -/
theorem Entered.putBehind {t t' : List (Tok ℤ ν)} (E : Entered kv t t') :
    PutBehind kv (pairsOf t) (pairsOf t') := by
  obtain ⟨l,r,rfl,hl,hr,hcase⟩ := E
  have hput := putBehind_of_tokens hl hr
  have hpairs : pairsOf t'=pairsOf (l++Tok.kv kv::r) := by
    rcases hcase with rfl|⟨l',r',p,hp,rfl⟩
    · rfl
    · rw [hp]
      simp
  rw [hpairs]
  simpa using hput

/-- Changes above the leaves before an insertion. -/
theorem Upper.inserted (U : Upper s lev s1 lev1) (R : Inserted L kv s1 lev1 s' lev') :
    Inserted L kv s lev s' lev' := by
  obtain ⟨x,n,hx,hn,hother,hrow⟩ := R.row
  have hx' : Seated lev kv.key 0 x := by
    obtain ⟨A,B,hAB,hA,hB⟩ := hx
    exact ⟨A,B,by rw [←U.bottom,hAB],hA,hB⟩
  obtain ⟨v,hv⟩ := U.frame x hx'.mem
  have hbro : ∀ z ∈ ids (lev 0),broOf s1 z=broOf s z := fun z hz => broOf_setPar (U.frame z hz)
  have hnode : ∃ m : Leaf ℤ ν (Option ℕ),s.node x=.leaf m ∧ m.vlist=n.vlist := by
    rw [hn] at hv
    cases hm : s.node x with
    | inter m =>
      rw [hm] at hv
      cases hv
    | leaf m =>
      rw [hm] at hv
      cases hv
      exact ⟨m,rfl,rfl⟩
  obtain ⟨m,hm,hvl⟩ := hnode
  refine ⟨R.leaf.trans U.leaf,by rw [←U.tokens_eq]; exact R.entered,x,m,hx',hm,?_,?_⟩
  · intro z hz hzx
    rw [hother z (by rw [U.bottom]; exact hz) hzx,hbro z hz]
  · rw [hvl,←hbro x hx'.mem,←U.bottom]
    exact hrow

/-- Inserting into the leaf where the key belongs, below a parent with room. -/
theorem Inv.insert_leaf (I : Inv M Z s h lev rank) (hM : 3 < M) (hL : 1 ≤ L) (hZ : LeafSizes L Z)
    (hx : Seated lev kv.key 0 x) {n : Leaf ℤ ν (Option ℕ)} (hn : s.node x=.leaf n)
    (hroom : ∀ p q,n.par=some p → s.node p=.inter q → q.ilist.length < M-1) :
    ∃ s' h' lev' rank',(if isfullLeaf L (n.inserted kv) then
        splitLeaf M L (s.set x (.leaf (n.inserted kv))) x
          else .ok (s.set x (.leaf (n.inserted kv))))=.ok s' ∧
      Inv M Z s' h' lev' rank' ∧ Inserted L kv s lev s' lev' := by
  obtain ⟨S1,l,r,htok,htok1,hl,hr⟩ := I.shape.insert_leaf I.sorted hx hn
  have hlen : (n.inserted kv).vlist.length=n.vlist.length+1 := by
    simp only [Leaf.inserted,insertAt,List.length_append,List.length_cons,List.length_take,
      List.length_drop]
    omega
  have hfit : Z h n.vlist.length := by
    have := I.sizes 0 (Nat.zero_le h) x hx.mem
    rwa [hn] at this
  have hn1 : (s.set x (.leaf (n.inserted kv))).node x=.leaf (n.inserted kv) :=
    Tree.set_node_self _ _ _
  have hE : Every (s.set x (.leaf (n.inserted kv))) h lev
      fun z m => z≠x → m.Fit (InterSize M) (Z h) := by
    intro j hj z hz hzx
    rw [Tree.set_node_of_ne s hzx]
    exact I.sizes j hj z hz
  have hbro : ∀ z,broOf (s.set x (.leaf (n.inserted kv))) z=broOf s z := by
    intro z
    by_cases hz : z=x
    · subst hz
      simp [broOf,hn,Leaf.inserted]
    · simp [broOf,Tree.set_node_of_ne s hz]
  unfold isfullLeaf
  by_cases hfull : L < (n.inserted kv).vlist.length
  · rw [if_pos (by simpa using hfull)]
    have hmid : (L+1)/2 < (n.inserted kv).vlist.length := by omega
    have hleft := fun h' => hZ.left h h' n.vlist.length hfit (by omega)
    have hright : ∀ h',0 < h' → Z h' ((n.inserted kv).vlist.length-(L+1)/2) := by
      rw [hlen]
      exact fun h' => hZ.right h h' n.vlist.length hfit (by omega)
    have hsplit : ∃ s' h' lev' rank',splitLeaf M L (s.set x (.leaf (n.inserted kv))) x=.ok s' ∧
        LeafSplit M L Z lev x (n.inserted kv) (n.inserted kv).vlist[(L+1)/2].key
          (s.set x (.leaf (n.inserted kv))) s' h' lev' rank' := by
      cases hpar : n.par with
      | none => exact splitLeaf_root hM S1 hx.mem hn1 hpar hmid hleft hright
      | some p =>
        refine splitLeaf_below hM S1 hx.mem hn1 hpar hmid hE (fun q hq => ?_) hleft hright
        have hpx : p≠x := fun hpx => by
          rw [hpx,hn1] at hq
          cases hq
        rw [Tree.set_node_of_ne s hpx] at hq
        exact hroom p q hpar hq
    obtain ⟨s',h',lev',rank',hs',R⟩ := hsplit
    obtain ⟨A,B,hlev,hlev'⟩ := R.bottom
    obtain ⟨v,hv⟩ := R.left
    obtain ⟨u,hu⟩ := R.right
    obtain ⟨l1,r1,ht1,ht2⟩ := divide_leaf S1 hn1 (List.getElem?_eq_getElem hmid) hlev hlev'
      (fun z hz hzx => items_setPar (R.other z hz hzx)) (by rw [Tree.items,hv]; rfl)
      (by rw [Tree.items,hu]; rfl)
    have hent : Entered kv (tokens s lev) (tokens s' lev') :=
      ⟨l,r,htok,hl,hr,Or.inr ⟨l1,r1,_,htok1.symm.trans ht1,ht2⟩⟩
    refine ⟨s',h',lev',rank',hs',⟨R.shape,R.every,hent.sorted I.sorted⟩,R.leaf,hent,x,n,hx,hn,
      fun z hz hzx => ?_,?_⟩
    · rw [broOf_setPar (R.other z hz hzx),hbro]
    · rw [if_neg (by omega)]
      refine ⟨ids A,ids B,s.next,by rw [hlev]; simp,by rw [hlev']; simp,?_,?_⟩
      · simp [broOf,hv]
      · have hu' : s'.node s.next=_ := hu
        simp [broOf,hu']
  · rw [if_neg (by simpa using hfull)]
    have hent : Entered kv (tokens s lev) (tokens (s.set x (.leaf (n.inserted kv))) lev) :=
      ⟨l,r,htok,hl,hr,Or.inl htok1⟩
    refine ⟨_,h,lev,rank,rfl,⟨S1,fun j hj z hz => ?_,hent.sorted I.sorted⟩,rfl,hent,x,n,hx,hn,
      fun z _ _ => hbro z,?_⟩
    · by_cases hzx : z=x
      · subst hzx
        rw [hn1]
        show Z h (n.inserted kv).vlist.length
        rw [hlen]
        exact hZ.grow h _ hfit (by omega)
      · exact hE j hj z hz hzx
    · rw [if_pos (by omega)]
      exact ⟨rfl,hbro x⟩

/-- The internal nodes where a key belongs have room from some frontier on. -/
def Roomy (M : ℕ) (k : ℤ) (s : Bptree ν) (h : ℕ) (lev : ℕ → List (Item ℕ (Tok ℤ ν))) (i : ℕ) : Prop :=
  ∀ j,i < j → j ≤ h → ∀ z q,Seated lev k j z → s.node z=.inter q → q.ilist.length < M-1

/-- Nodes above the leaves that may still be made without new separators
between the leaves. -/
def spare (lev : ℕ → List (Item ℕ (Tok ℤ ν))) (h : ℕ) : ℕ := (toks (lev 0)).length-innerCount lev h

/-- A tree has no more internal nodes than tokens in its leaves. -/
theorem Inv.innerCount_le (I : Inv M Z s h lev rank) : innerCount lev h ≤ (toks (lev 0)).length := by
  have htok : ∀ j,j < h → ∀ z ∈ ids (lev (j+1)),1 ≤ (toks (s.items z)).length := by
    intro j hj z hz
    obtain ⟨n,hn,hlen⟩ := I.shape.joint j hj z hz
    have hfit := I.sizes (j+1) hj z hz
    rw [hn] at hfit
    rw [Tree.items,hn]
    simp only [Node.items]
    rw [toks_weave (by simpa using hlen),List.length_map]
    exact hfit.1
  have := I.shape.tower.innerCount_le htok h le_rfl
  omega

/-- A frontier that a change leaves keeps the places of a key. -/
theorem seated_of_eq {k : ℤ} {j z : ℕ} (hz : Seated lev1 k j z) (hlev : lev1 j=lev j) :
    Seated lev k j z := by
  obtain ⟨A,B,hAB,hA,hB⟩ := hz
  exact ⟨A,B,by rw [←hlev,hAB],hA,hB⟩

/-- Where a node with room is on the way, there is room from its frontier on. -/
theorem Roomy.enter {k : ℤ} {n : InterNode ℤ} (hroom : Roomy M k s h lev (i+1))
    (I : Inv M Z s h lev rank) (hx : Seated lev k (i+1) x) (hn : s.node x=.inter n)
    (hfull : n.ilist.length < M-1) : Roomy M k s h lev i := by
  intro j hj hjh z m hz hm
  by_cases hji : j=i+1
  · subst hji
    have hzx := I.shape.seated_unique I.sorted hjh hz hx
    subst hzx
    rw [hn] at hm
    cases hm
    exact hfull
  · exact hroom j (by omega) hjh z m hz hm

/-- A split below leaves the room above its parent. -/
theorem Roomy.split {k : ℤ} {p : ℕ} (hroom : Roomy M k s h lev (i+1)) (S : Shape s h lev rank)
    (hi : i+1 ≤ h) (hh : i+1+1 ≤ h) (hx : x∈ids (lev (i+1))) (hp : p∈ids (lev (i+1+1)))
    (hlev1 : ∀ j,j≠i+1 → lev1 j=lev j)
    (hframe : ∀ z,z < s.next → z≠x → z≠p → ∃ v,s1.node z=(s.node z).setPar v) :
    Roomy M k s1 h lev1 (i+1+1) := by
  intro j hj hjh z m hz hm
  have hz' := seated_of_eq hz (hlev1 j (by omega))
  obtain ⟨v,hv⟩ := hframe z (S.lt j hjh z hz'.mem)
    (S.ne_of_level hjh hi (by omega) hz'.mem hx) (S.ne_of_level hjh hh (by omega) hz'.mem hp)
  cases hm' : s.node z with
  | inter m' =>
    rw [hm,hm'] at hv
    cases hv
    exact hroom j (by omega) hjh z m' hz' hm'
  | leaf m' =>
    rw [hm,hm'] at hv
    cases hv

/-- An insertion that has come to the place of its key on some frontier. -/
theorem Inv.insertNode_ok {fuel : ℕ} (I : Inv M Z s h lev rank) (hM : 3 < M) (hL : 1 ≤ L)
    (hZ : LeafSizes L Z) (hi : i ≤ h) (hx : Seated lev kv.key i x) (hroom : Roomy M kv.key s h lev i)
    (hfuel : 2*spare lev h+i < fuel) :
    ∃ s' h' lev' rank',insertNode M L kv fuel s x=.ok s' ∧ Inv M Z s' h' lev' rank' ∧
      Inserted L kv s lev s' lev' := by
  induction fuel generalizing s h lev rank i x with
  | zero => omega
  | succ fuel ih =>
    have S := I.shape
    rw [insertNode]
    cases i with
    | zero =>
      obtain ⟨n,hn⟩ : ∃ n,s.node x=.leaf n := by
        have hleaf := S.leaf x hx.mem
        cases hn : s.node x with
        | inter n =>
          rw [hn] at hleaf
          cases hleaf
        | leaf n => exact ⟨n,rfl⟩
      simp only [hn]
      refine I.insert_leaf hM hL hZ hx hn fun p q hp hq => ?_
      have hxpar : (s.node x).par=some p := by
        rw [hn]
        exact hp
      obtain ⟨hh,-⟩ := S.parent (Nat.zero_le h) hx.mem hxpar
      exact hroom 1 Nat.one_pos hh p q (S.seated_parent I.sorted hh hx hxpar) hq
    | succ i =>
      obtain ⟨n,hn,-⟩ := S.joint i hi x hx.mem
      have hfit := I.sizes (i+1) hi x hx.mem
      rw [hn] at hfit
      simp only [hn]
      unfold isfullInter
      by_cases hfull : M-1 ≤ n.ilist.length
      · rw [if_pos (by simpa using hfull)]
        have hfull' : n.ilist.length=M-1 := by
          have := hfit.2
          omega
        cases hpar : n.par with
        | none =>
          obtain ⟨rfl,rfl⟩ := S.eq_root hi hx.mem (by rw [hn]; exact hpar)
          obtain ⟨s1,lev1,rank1,hs1,I1,U,hcount⟩ := I.splitNode_root hM hZ (by omega) hn hfull'
          have hle := I1.innerCount_le
          have hspare : 2*spare lev1 (i+1+1)+(i+1+1) < fuel := by
            unfold spare at hfuel ⊢
            rw [U.bottom] at hle ⊢
            omega
          obtain ⟨s',h',lev',rank',hs',I',R⟩ := ih I1 le_rfl I1.shape.tower.seat_root
            (fun j hj hjh => by omega) hspare
          refine ⟨s',h',lev',rank',?_,I',U.inserted R⟩
          simp only [hs1,ok_bind]
          exact hs'
        | some p =>
          have hxpar : (s.node x).par=some p := by
            rw [hn]
            exact hpar
          obtain ⟨hh,hp,q,hq,-,-⟩ := S.parent hi hx.mem hxpar
          have hseat := S.seated_parent I.sorted hh hx hxpar
          obtain ⟨s1,lev1,rank1,hs1,I1,U,hlev1,hcount,hframe⟩ := I.splitNode_below hM hh hx.mem hn
            hfull' hpar hq (hroom (i+1+1) (by omega) hh p q hseat hq)
          have hle := I1.innerCount_le
          have hspare : 2*spare lev1 h+(i+1+1) < fuel := by
            unfold spare at hfuel ⊢
            rw [U.bottom] at hle ⊢
            omega
          have hseat1 : Seated lev1 kv.key (i+1+1) p :=
            seated_of_eq hseat (hlev1 _ (by omega)).symm
          have hroom1 := hroom.split S hi hh hx.mem hp hlev1 hframe
          obtain ⟨s',h',lev',rank',hs',I',R⟩ := ih I1 hh hseat1 hroom1 hspare
          refine ⟨s',h',lev',rank',?_,I',U.inserted R⟩
          simp only [hs1,ok_bind]
          exact hs'
      · rw [if_neg (by simpa using hfull)]
        obtain ⟨c,hc1,hc2⟩ := S.descend I.sorted hi hx hn
        have hroom1 := hroom.enter I hx hn (by omega)
        obtain ⟨s',h',lev',rank',hs',I',R⟩ := ih I (by omega) hc2 hroom1 (by omega)
        refine ⟨s',h',lev',rank',?_,I',R⟩
        simp only [hc1,ok_bind]
        exact hs'

/-- The fuel of an insertion is enough. -/
theorem Inv.spare_lt (I : Inv M Z s h lev rank) : 2*spare lev h+h < 2*s.next+1 := by
  have S := I.shape
  have hone : ∀ j,j < h → ∀ z ∈ ids (lev (j+1)),
      (ids (s.items z)).length=(toks (s.items z)).length+1 := by
    intro j hj z hz
    obtain ⟨n,hn,hlen⟩ := S.joint j hj z hz
    rw [Tree.items,hn,Node.ids_items_inter hlen]
    simp only [Node.items]
    rw [toks_weave (by simpa using hlen),List.length_map,hlen]
  have hleaves := S.tower.ids_length hone le_rfl
  rw [Nat.sub_self] at hleaves
  have hnext := S.leaves_le
  have hcount : h ≤ innerCount lev h := by
    refine le_innerCount fun j hj hnil => ?_
    obtain ⟨z,hz⟩ := S.exists_mem (show h-(j+1) ≤ h by omega)
    rw [show h-(h-(j+1))=j+1 by omega,hnil] at hz
    cases hz
  have hle := I.innerCount_le
  unfold spare
  omega

/-- Insertion ends, keeps the invariant and enters the pair. -/
theorem Inv.insert_ok (I : Inv M Z s h lev rank) (hM : 3 < M) (hL : 1 ≤ L) (hZ : LeafSizes L Z)
    (kv : KeyValue ℤ ν) :
    ∃ s' h' lev' rank',insert M L s kv=.ok s' ∧ Inv M Z s' h' lev' rank' ∧
      Inserted L kv s lev s' lev' :=
  I.insertNode_ok hM hL hZ le_rfl I.shape.tower.seat_root (fun j hj hjh => by omega) I.spare_lt

/-- The empty tree. -/
theorem inv_empty (M : ℕ) (hZ : Z 0 0) :
    Inv M Z (empty : Bptree ν) 0 (fun _ => [.node 0]) (fun _ => 0) where
  shape := Shape.single rfl rfl Nat.one_pos
  sizes := fun _ _ _ _ => hZ
  sorted := List.Pairwise.nil

/-- The constructor makes the empty tree. -/
theorem init_eq {M L : ℕ} (hLM : L ≤ M) : init M L=.ok (empty : Bptree ν) := if_neg (by omega)

/-- A run goes on behind its first insertion. -/
theorem insertAll_cons {M L : ℕ} {s s1 : Bptree ν} {kv : KeyValue ℤ ν}
    (hs1 : insert M L s kv=.ok s1) (rest : List (KeyValue ℤ ν)) :
    insertAll M L s (kv::rest)=insertAll M L s1 rest := by
  rw [insertAll,hs1]
  rfl

end Insert

end StudyCode.Bplus.V1
