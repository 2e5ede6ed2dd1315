import StudyCode.BplusOrder
import StudyCode.BplusTreeV2

/-!
# Splits in the tree with brother lists

A split node is cut after its parent has been split, so the recursion is
followed through views in which the cuts that are still to come have been
made. Seen so, every call starts from a shaped tree with one node too long
and ends with a shaped tree in which every node has an allowed size.
-/

namespace StudyCode.Bplus.V2

open Frontier

variable {κ ν : Type}

/-- What splitting a node on a frontier leads to, seen through the pending
cuts. Frontiers below stay and nodes below only change their parent. -/
structure Settled (M : ℕ) (Z : ℕ → Prop) (f : ℕ → Node κ ν (List ℕ) → Node κ ν (List ℕ)) (i h : ℕ)
    (lev : ℕ → List (Item ℕ (Tok κ ν))) (s s' : BTree κ ν) : Prop where
  /-- The tree has a shape with allowed sizes again. -/
  shape : ∃ h' lev' rank',Shape (s'.view f) h' lev' rank' ∧ (∀ j,j < i → lev' j=lev j) ∧ h ≤ h' ∧
    Every (s'.view f) h' lev' fun _ n => n.Fit (InterSize M) Z
  /-- Objects are only made. -/
  next_le : s.next ≤ s'.next
  /-- The first leaf stays. -/
  leaf : s'.leaf=s.leaf
  /-- Nodes below only change their parent. -/
  frame : ∀ z,z < s.next → (∀ j,i ≤ j → j ≤ h → z∉ids (lev j)) →
    ∃ v,s'.node z=(s.node z).setPar v

section Sizes

variable {M : ℕ} {Z : ℕ → Prop} {r q : InterNode κ} {p x y : ℕ} {k : κ}

/-- The left half of an overfull internal node has a size that is allowed. -/
theorem fit_leftI (hM : 3 < M) (hr : r.ilist.length=M) :
    (leftI r ((M+2)/2) p : Node κ ν (List ℕ)).Fit (InterSize M) Z := by
  unfold leftI Node.Fit InterSize
  simp only [List.length_take]
  omega

/-- The right half of an overfull internal node has a size that is allowed. -/
theorem fit_rightI (hM : 3 < M) (hr : r.ilist.length=M) :
    (rightI r ((M+2)/2) p : Node κ ν (List ℕ)).Fit (InterSize M) Z := by
  unfold rightI Node.Fit InterSize
  simp only [List.length_drop]
  omega

end Sizes

/-- A state in which one internal node is too long, seen through the cuts
that are pending below it. -/
structure Overfull (M : ℕ) (Z : ℕ → Prop) (f : ℕ → Node κ ν (List ℕ) → Node κ ν (List ℕ)) (i h : ℕ)
    (lev : ℕ → List (Item ℕ (Tok κ ν))) (rank : ℕ → ℕ) (s : BTree κ ν) (x : ℕ) (r : InterNode κ) :
    Prop where
  /-- Pending cuts leave parents alone. -/
  pending : Pending f
  /-- The tree has a shape through the view. -/
  shape : Shape (s.view f) h lev rank
  /-- The node is on a frontier. -/
  mem : x∈ids (lev i)
  /-- It is not a leaf. -/
  pos : 0 < i
  /-- The frontier is one of the tree. -/
  le : i ≤ h
  /-- Nothing is pending on this frontier and above. -/
  seen : ∀ j,i ≤ j → j ≤ h → ∀ z ∈ ids (lev j),f z=id
  /-- Nothing is pending on objects to come. -/
  fresh : ∀ z,s.next ≤ z → f z=id
  /-- Attributes of the node. -/
  node : s.node x=.inter r
  /-- It has one separator too many. -/
  length : r.ilist.length=M
  /-- All other nodes have allowed sizes. -/
  every : Every (s.view f) h lev fun z n => z≠x → n.Fit (InterSize M) Z

namespace Overfull

variable {M : ℕ} {Z : ℕ → Prop} {f : ℕ → Node κ ν (List ℕ) → Node κ ν (List ℕ)} {i h : ℕ}
  {lev : ℕ → List (Item ℕ (Tok κ ν))} {rank : ℕ → ℕ} {s : BTree κ ν} {x p : ℕ} {r : InterNode κ}
  {k : κ}

/-- The overfull node is seen with its children in place. -/
theorem view_node (O : Overfull M Z f i h lev rank s x r) : (s.view f).node x=.inter r := by
  rw [Tree.view_node,O.seen i le_rfl O.le x O.mem,O.node]
  rfl

/-- The overfull node is not a new object. -/
theorem lt (O : Overfull M Z f i h lev rank s x r) : x < s.next := O.shape.lt i O.le x O.mem

/-- The overfull node has one child more than separators. -/
theorem joint (O : Overfull M Z f i h lev rank s x r) : r.clist.length=r.ilist.length+1 := by
  have hpos := O.pos
  have hle := O.le
  obtain ⟨r',h1,h2⟩ := O.shape.joint (i-1) (by omega) x (by
    rw [show i-1+1=i by omega]
    exact O.mem)
  rw [O.view_node] at h1
  cases h1
  exact h2

/-- The children that move to the right half. -/
theorem moved (O : Overfull M Z f i h lev rank s x r) {c : ℕ} (hc : c∈r.clist.drop ((M+2)/2)) :
    c≠x ∧ c < s.next ∧ c∈ids (lev (i-1)) := by
  have hpos := O.pos
  have hle := O.le
  have hx : x∈ids (lev (i-1+1)) := by
    rw [show i-1+1=i by omega]
    exact O.mem
  have hcm : c∈ids ((s.view f).items x) := by
    rw [Tree.items,O.view_node,Node.ids_items_inter O.joint]
    exact List.mem_of_mem_drop hc
  obtain ⟨g1,g2,-⟩ := O.shape.child (by omega) hx hcm
  exact ⟨O.shape.ne_of_level (by omega) hle (by omega) g1 O.mem,g2,g1⟩

/-- The overfull node falls into two halves. -/
theorem halves (O : Overfull M Z f i h lev rank s x r) (hM : 3 < M)
    (hk : r.ilist[(M+2)/2-1]?=some k) (p : ℕ) :
    Halves (s.view f) i x (leftI r ((M+2)/2) p) (rightI r ((M+2)/2) p) k p :=
  halves_inter O.view_node O.joint O.pos (by omega) (by rw [O.length]; omega) hk

/-- Nodes outside of the frontier below stay. -/
theorem withRightI_node_of_ne (O : Overfull M Z f i h lev rank s x r) {z : ℕ} (hz : z < s.next)
    (hzi : z∉ids (lev (i-1))) : (withRightI s r ((M+2)/2)).node z=s.node z := by
  rw [withRightI_node,if_neg fun hc => hzi (O.moved hc).2.2,if_neg (by omega)]

/-- The node is not among its children. -/
theorem not_mem_below (O : Overfull M Z f i h lev rank s x r) : x∉ids (lev (i-1)) := fun hm => by
  have hpos := O.pos
  have hle := O.le
  exact O.shape.ne_of_level (by omega) hle (by omega) hm O.mem rfl

/-- Splitting the root, with the cut of the root made. -/
theorem settled_root (O : Overfull M Z f i h lev rank s x r) (hM : 3 < M) (hpar : r.par=none)
    (hk : r.ilist[(M+2)/2-1]?=some k) :
    Settled M Z f i h lev s ((withRoot (withRightI s r ((M+2)/2)) x s.next k).set x
      (cutI ((M+2)/2) ((withRoot (withRightI s r ((M+2)/2)) x s.next k).node x))) := by
  have hlt := O.lt
  obtain ⟨rfl,hroot⟩ := O.shape.eq_root O.le O.mem (by rw [O.view_node]; exact hpar)
  have hfx := O.seen i le_rfl le_rfl x O.mem
  have P : SplitRoot (s.view f) ((withRoot (withRightI s r ((M+2)/2)) x s.next k).view
      (Function.update f x (cutI ((M+2)/2)))) x (leftI r ((M+2)/2) (s.next+1))
        (rightI r ((M+2)/2) (s.next+1)) k :=
    splitRoot_inter O.pending O.node hlt (O.fresh _ le_rfl) (O.fresh _ (by omega)) O.joint
      (by rw [O.length]; omega) fun c hc => ⟨(O.moved hc).1,(O.moved hc).2.1⟩
  have S' := P.shape (O.halves hM hk _) O.shape hroot
  refine ⟨?_,?_,?_,?_⟩
  · rw [view_cut hfx]
    refine ⟨i+1,_,_,S',fun j hj => ?_,by omega,?_⟩
    · rw [Function.update_of_ne (by omega),Function.update_of_ne (by omega)]
    · subst hroot
      refine P.every O.shape O.every (fun z hz n v hn => (hn hz).setPar v) (fit_leftI hM O.length)
        (fit_rightI hM O.length) ?_
      rw [P.top]
      exact ⟨le_rfl,by simp; omega⟩
  · simp [withRoot,Tree.setPar,Tree.new]
    omega
  · simp [withRoot,Tree.setPar,Tree.new,withRightI]
  · intro z hz hnot
    have hzx : z≠x := fun hzx => hnot i le_rfl le_rfl (hzx ▸ O.mem)
    rw [Tree.set_node_of_ne _ hzx,withRoot_node,if_neg (by omega),if_neg hzx,withRightI_next,
      if_neg (by omega),withRightI_node,if_neg (show z≠s.next by omega)]
    split
    · exact ⟨_,rfl⟩
    · exact ⟨_,((s.node z).setPar_self).symm⟩

/-- The parent of a node that is not the root. -/
theorem parent (O : Overfull M Z f i h lev rank s x r) (hpar : r.par=some p) :
    i < h ∧ p∈ids (lev (i+1)) ∧ ∃ q,s.node p=.inter q ∧
      (withRightI s r ((M+2)/2)).node p=.inter q ∧ x∈q.clist ∧ q.ilist.length < M := by
  obtain ⟨hih,hp2,q,hq1,-,hp3⟩ := O.shape.parent O.le O.mem (by
    rw [O.view_node]
    exact hpar)
  have hE := O.every (i+1) hih p hp2 (O.shape.ne_of_level hih O.le (by omega) hp2 O.mem)
  rw [hq1] at hE
  rw [Tree.view_node,O.seen (i+1) (by omega) hih p hp2] at hq1
  refine ⟨hih,hp2,q,hq1,?_,hp3,hE.2⟩
  rw [O.withRightI_node_of_ne (O.shape.lt (i+1) hih p hp2) fun hm =>
    O.shape.ne_of_level (show i-1 ≤ h by omega) hih (by omega) hm hp2 rfl]
  exact hq1

/-- The tree with the right half entered into the parent and the cut pending. -/
theorem step (O : Overfull M Z f i h lev rank s x r) (hM : 3 < M) (hpar : r.par=some p)
    (hk : r.ilist[(M+2)/2-1]?=some k) {q : InterNode κ} (hq : s.node p=.inter q) :
    ∃ A B,lev i=A++[Item.node x]++B ∧
      Shape (((withRightI s r ((M+2)/2)).set p (withChild q x s.next k)).view
          (Function.update f x (cutI ((M+2)/2)))) h
        (Function.update lev i (A++[Item.node x,Item.tok (Tok.sep k),Item.node s.next]++B))
        (Function.update rank s.next i) ∧
      Every (((withRightI s r ((M+2)/2)).set p (withChild q x s.next k)).view
          (Function.update f x (cutI ((M+2)/2)))) h
        (Function.update lev i (A++[Item.node x,Item.tok (Tok.sep k),Item.node s.next]++B))
        fun z n => z≠p → n.Fit (InterSize M) Z := by
  obtain ⟨hih,hp,-⟩ := O.parent hpar
  have hxp := O.shape.ne_of_level O.le hih (by omega) O.mem hp
  have P : SplitBelow (s.view f) (((withRightI s r ((M+2)/2)).set p (withChild q x s.next k)).view
      (Function.update f x (cutI ((M+2)/2)))) x p q (leftI r ((M+2)/2) p) (rightI r ((M+2)/2) p) k :=
    splitBelow_inter O.pending O.node hq hpar hxp O.lt (O.shape.lt (i+1) hih p hp)
      (O.seen (i+1) (by omega) hih p hp) (O.fresh _ le_rfl) O.joint (by rw [O.length]; omega)
      fun c hc => by
        obtain ⟨h1,h2,h3⟩ := O.moved hc
        exact ⟨h1,O.shape.ne_of_level (show i-1 ≤ h by omega) hih (by omega) h3 hp,by omega⟩
  obtain ⟨A,B,hlev,S'⟩ := P.shape (O.halves hM hk p) O.shape hih O.mem (by
    rw [O.view_node]
    exact hpar)
  exact ⟨A,B,hlev,S',P.every O.shape hih hlev O.every (fun z hz _ n v hn _ => (hn hz).setPar v)
    (fun _ => fit_leftI hM O.length) (fun _ => fit_rightI hM O.length) fun hpp => (hpp rfl).elim⟩

/-- Nodes below keep everything but their parent when the right half is
entered. -/
theorem frame_step (O : Overfull M Z f i h lev rank s x r) (hpar : r.par=some p) {q : Node κ ν (List ℕ)}
    {z : ℕ} (hz : z < s.next) (hnot : ∀ j,i ≤ j → j ≤ h → z∉ids (lev j)) :
    ∃ v,((withRightI s r ((M+2)/2)).set p q).node z=(s.node z).setPar v := by
  obtain ⟨hih,hp,-⟩ := O.parent hpar
  have hzp : z≠p := fun hzp => hnot (i+1) (by omega) hih (hzp ▸ hp)
  rw [Tree.set_node_of_ne _ hzp,withRightI_node,if_neg (show z≠s.next by omega)]
  split
  · exact ⟨_,rfl⟩
  · exact ⟨_,((s.node z).setPar_self).symm⟩

/-- The node itself keeps its lists when the right half is entered. -/
theorem node_step (O : Overfull M Z f i h lev rank s x r) (hpar : r.par=some p) (q : Node κ ν (List ℕ)) :
    ((withRightI s r ((M+2)/2)).set p q).node x=.inter r := by
  obtain ⟨hih,hp,-⟩ := O.parent hpar
  rw [Tree.set_node_of_ne _ (O.shape.ne_of_level O.le hih (by omega) O.mem hp),
    O.withRightI_node_of_ne O.lt O.not_mem_below,O.node]

/-- Splitting a node whose parent stays short enough, with the cut made. -/
theorem settled_below (O : Overfull M Z f i h lev rank s x r) (hM : 3 < M) (hpar : r.par=some p)
    (hk : r.ilist[(M+2)/2-1]?=some k) {q : InterNode κ} (hq : s.node p=.inter q)
    (hshort : q.ilist.length+1 < M) :
    Settled M Z f i h lev s (((withRightI s r ((M+2)/2)).set p (withChild q x s.next k)).set x
      (cutI ((M+2)/2) (((withRightI s r ((M+2)/2)).set p (withChild q x s.next k)).node x))) := by
  obtain ⟨hih,hp,-⟩ := O.parent hpar
  obtain ⟨A,B,hlev,S',E'⟩ := O.step hM hpar hk hq
  have hxp := O.shape.ne_of_level O.le hih (by omega) O.mem hp
  refine ⟨?_,by simp,by simp [withRightI,Tree.new],?_⟩
  · rw [view_cut (O.seen i le_rfl O.le x O.mem)]
    refine ⟨h,_,_,S',fun j hj => Function.update_of_ne (by omega) _ _,le_rfl,?_⟩
    intro j hj z hz
    by_cases hzp : z=p
    · subst hzp
      rw [Tree.view_node,Function.update_of_ne hxp.symm,O.seen (i+1) (by omega) hih z hp,
        Tree.set_node_self]
      exact ⟨by rw [withChild_ilist_length]; omega,by rw [withChild_ilist_length]; exact hshort⟩
    · exact E' j hj z hz hzp
  · intro z hz hnot
    have hzx : z≠x := fun hzx => hnot i le_rfl O.le (hzx ▸ O.mem)
    rw [Tree.set_node_of_ne _ hzx]
    exact O.frame_step hpar hz hnot

/-- The parent that has become too long, with the cut of the node pending. -/
theorem up (O : Overfull M Z f i h lev rank s x r) (hM : 3 < M) (hpar : r.par=some p)
    (hk : r.ilist[(M+2)/2-1]?=some k) {q : InterNode κ} (hq : s.node p=.inter q)
    (hlong : q.ilist.length+1=M) :
    ∃ A B,lev i=A++[Item.node x]++B ∧
      Overfull M Z (Function.update f x (cutI ((M+2)/2))) (i+1) h
        (Function.update lev i (A++[Item.node x,Item.tok (Tok.sep k),Item.node s.next]++B))
        (Function.update rank s.next i)
        ((withRightI s r ((M+2)/2)).set p (withChild q x s.next k)) p
        {q with
          ilist := insertAt q.ilist (q.clist.idxOf x) k,
          clist := insertAt q.clist (q.clist.idxOf x+1) s.next} := by
  obtain ⟨hih,hp,-⟩ := O.parent hpar
  obtain ⟨A,B,hlev,S',E'⟩ := O.step hM hpar hk hq
  have hlt := O.lt
  refine ⟨A,B,hlev,O.pending.update x (cutI_setPar _),S',?_,by omega,hih,?_,?_,
    Tree.set_node_self _ _ _,?_,E'⟩
  · rw [Function.update_of_ne (by omega)]
    exact hp
  · intro j hj hjh z hz
    rw [Function.update_of_ne (by omega)] at hz
    rw [Function.update_of_ne (O.shape.ne_of_level hjh O.le (by omega) hz O.mem)]
    exact O.seen j (by omega) hjh z hz
  · intro z hz
    simp only [Tree.set_next,withRightI_next] at hz
    rw [Function.update_of_ne (by omega)]
    exact O.fresh z (by omega)
  · dsimp only
    rw [withChild_ilist_length,hlong]

/-- The split of the parent is followed by the cut of the node. -/
theorem settled_up (O : Overfull M Z f i h lev rank s x r) (hpar : r.par=some p)
    {q : Node κ ν (List ℕ)} {A B : List (Item ℕ (Tok κ ν))} {s' : BTree κ ν}
    (R : Settled M Z (Function.update f x (cutI ((M+2)/2))) (i+1) h
      (Function.update lev i (A++[Item.node x,Item.tok (Tok.sep k),Item.node s.next]++B))
      ((withRightI s r ((M+2)/2)).set p q) s') :
    (∃ n,s'.node x=.inter n) ∧
      Settled M Z f i h lev s (s'.set x (cutI ((M+2)/2) (s'.node x))) := by
  obtain ⟨hih,hp,-⟩ := O.parent hpar
  have hlt := O.lt
  have hframe : ∀ z,z < s.next → (∀ j,i+1 ≤ j → j ≤ h → z∉ids (lev j)) →
      ∃ v,s'.node z=(((withRightI s r ((M+2)/2)).set p q).node z).setPar v := by
    intro z hz hnot
    refine R.frame z (by simp; omega) fun j hj hjh => ?_
    rw [Function.update_of_ne (by omega)]
    exact hnot j hj hjh
  refine ⟨?_,?_,?_,?_,?_⟩
  · obtain ⟨v,hv⟩ := hframe x hlt fun j hj hjh hm =>
      O.shape.ne_of_level hjh O.le (by omega) hm O.mem rfl
    rw [O.node_step hpar] at hv
    exact ⟨_,hv⟩
  · rw [view_cut (O.seen i le_rfl O.le x O.mem)]
    obtain ⟨h',lev',rank',S',hlow,hle,E'⟩ := R.shape
    refine ⟨h',lev',rank',S',fun j hj => ?_,hle,E'⟩
    rw [hlow j (by omega),Function.update_of_ne (by omega)]
  · have := R.next_le
    simp only [Tree.set_next,withRightI_next] at this ⊢
    omega
  · have := R.leaf
    simpa [withRightI,Tree.new] using this
  · intro z hz hnot
    have hzx : z≠x := fun hzx => hnot i le_rfl O.le (hzx ▸ O.mem)
    obtain ⟨v,hv⟩ := hframe z hz fun j hj => hnot j (by omega)
    obtain ⟨v',hv'⟩ := O.frame_step hpar (q:=q) hz hnot
    rw [Tree.set_node_of_ne _ hzx,hv,hv',Node.setPar_setPar]
    exact ⟨v,rfl⟩

end Overfull

/-- Splitting an internal node that is too long settles the tree. -/
theorem splitNode_settled {M : ℕ} (hM : 3 < M) {Z : ℕ → Prop} {fuel : ℕ}
    {f : ℕ → Node κ ν (List ℕ) → Node κ ν (List ℕ)} {i h : ℕ} {lev : ℕ → List (Item ℕ (Tok κ ν))}
    {rank : ℕ → ℕ} {s : BTree κ ν} {x : ℕ} {r : InterNode κ}
    (O : Overfull M Z f i h lev rank s x r) (hfuel : h < fuel+i) :
    ∃ s' o,splitNode M fuel s x=.ok (s',o) ∧ Settled M Z f i h lev s s' := by
  induction fuel generalizing f i lev rank s x r with
  | zero =>
    have := O.le
    omega
  | succ fuel ih =>
    have hkey : (M+2)/2-1 < r.ilist.length := by
      rw [O.length]
      omega
    have hk : r.ilist[(M+2)/2-1]?=some r.ilist[(M+2)/2-1] := List.getElem?_eq_getElem hkey
    rw [splitNode]
    simp only [Tree.inter,O.node,rightHalf_ok hM,item_ok hkey,ok_bind]
    cases hpar : r.par with
    | none =>
      have hx : (withRightI s r ((M+2)/2)).node x=.inter r := by
        rw [O.withRightI_node_of_ne O.lt O.not_mem_below,O.node]
      have hx' : ∃ n,(withRoot (withRightI s r ((M+2)/2)) x s.next
          r.ilist[(M+2)/2-1]).node x=.inter n := by
        have hlt := O.lt
        rw [withRoot_node,if_neg (by omega),if_pos rfl,withRightI_next,if_neg (by omega),hx]
        exact ⟨_,rfl⟩
      obtain ⟨n,hn⟩ := hx'
      simp only [newRoot_ok hM,cutInter_ok hn,ok_bind]
      exact ⟨_,_,rfl,O.settled_root hM hpar hk⟩
    | some p =>
      obtain ⟨hih,hp,q,hq,hq',hxq,hqM⟩ := O.parent hpar
      simp only [insertChild_ok hq' hxq,ok_bind,Tree.set_node_self,withChild,isfullInter,
        withChild_ilist_length,decide_eq_true_eq]
      by_cases hlong : M ≤ q.ilist.length+1
      · obtain ⟨A,B,hlev,O'⟩ := O.up hM hpar hk hq (by omega)
        obtain ⟨s',o,hs',R⟩ := ih O' (by omega)
        obtain ⟨⟨n,hn⟩,R'⟩ := O.settled_up hpar R
        rw [withChild] at hs'
        simp only [if_pos hlong,hs',ok_bind,pure_bind,cutInter_ok hn]
        exact ⟨_,_,rfl,R'⟩
      · have R := O.settled_below hM hpar hk hq (by omega)
        have hn := O.node_step hpar (withChild q x s.next r.ilist[(M+2)/2-1])
        rw [withChild] at hn R
        simp only [if_neg hlong,pure_bind,cutInter_ok hn,ok_bind]
        exact ⟨_,_,rfl,R⟩

/-! ## Leaves -/

/-- A tree in which nothing is left to split. -/
theorem Settled.refl {M : ℕ} {Z : ℕ → Prop} {f : ℕ → Node κ ν (List ℕ) → Node κ ν (List ℕ)}
    {i h : ℕ} {lev : ℕ → List (Item ℕ (Tok κ ν))} {rank : ℕ → ℕ} {s : BTree κ ν}
    (S : Shape (s.view f) h lev rank) (E : Every (s.view f) h lev fun _ n => n.Fit (InterSize M) Z) :
    Settled M Z f i h lev s s :=
  ⟨⟨h,lev,rank,S,fun _ _ => rfl,le_rfl,E⟩,le_rfl,rfl,fun z _ _ => ⟨_,((s.node z).setPar_self).symm⟩⟩

/-- What splitting a leaf leads to. -/
structure LeafSplit (M L : ℕ) (h : ℕ) (lev : ℕ → List (Item ℕ (Tok κ ν))) (x : ℕ)
    (n : Leaf κ ν (List ℕ)) (k : κ) (s s' : BTree κ ν) : Prop where
  /-- The leaf is replaced by two, and the tree has a shape with allowed sizes. -/
  shape : ∃ h' lev' rank' A B,Shape s' h' lev' rank' ∧ h ≤ h' ∧
    Every s' h' lev' (fun _ n => n.Fit (InterSize M) (· ≤ L)) ∧ lev 0=A++[Item.node x]++B ∧
    lev' 0=A++[Item.node x,Item.tok (Tok.sep k),Item.node s.next]++B
  /-- Objects are made. -/
  next_lt : s.next < s'.next
  /-- The first leaf stays. -/
  leaf : s'.leaf=s.leaf
  /-- The left half remembers the right one. -/
  left : ∃ v,s'.node x=.leaf ⟨n.vlist.take ((L+2)/2),n.bro++[s.next],v⟩
  /-- The right half. -/
  right : ∃ v,s'.node s.next=.leaf ⟨n.vlist.drop ((L+2)/2),[],v⟩
  /-- Other leaves only change their parent. -/
  other : ∀ z ∈ ids (lev 0),z≠x → ∃ v,s'.node z=(s.node z).setPar v

section Leaf

variable {M L h h1 x : ℕ} {lev : ℕ → List (Item ℕ (Tok κ ν))} {rank : ℕ → ℕ}
  {n : Leaf κ ν (List ℕ)} {k : κ} {s s1 s' : BTree κ ν}

/-- The cut of a leaf after the internal nodes have settled. -/
theorem leafSplit_of_settled (S : Shape s h lev rank) (hx : x∈ids (lev 0))
    {A B : List (Item ℕ (Tok κ ν))} {lev1 : ℕ → List (Item ℕ (Tok κ ν))}
    (hlev : lev 0=A++[Item.node x]++B)
    (hlev1 : lev1 0=A++[Item.node x,Item.tok (Tok.sep k),Item.node s.next]++B)
    {f : ℕ → Node κ ν (List ℕ) → Node κ ν (List ℕ)}
    (hf : f=Function.update nothing x (cutL ((L+2)/2) fun bro => bro++[s.next]))
    (R : Settled M (· ≤ L) f 1 h1 lev1 s1 s') (hh : h ≤ h1) (hnext : s.next < s1.next)
    (hleaf : s1.leaf=s.leaf) (hrank : ∀ j,1 ≤ j → j ≤ h1 → ∀ z ∈ ids (lev1 j),z∉ids (lev1 0))
    (hnx : ∃ v,s1.node x=.leaf {n with par := v})
    (hny : ∃ v,s1.node s.next=.leaf ⟨n.vlist.drop ((L+2)/2),[],v⟩)
    (hother : ∀ z ∈ ids (lev 0),z≠x → s1.node z=s.node z) :
    (∃ n',s'.node x=.leaf n') ∧ LeafSplit M L h lev x n k s
      (s'.set x (cutL ((L+2)/2) (fun bro => bro++[s.next]) (s'.node x))) := by
  have hxlt := S.lt 0 (Nat.zero_le h) x hx
  have hframe : ∀ z,z∈ids (lev1 0) → z < s1.next → ∃ v,s'.node z=(s1.node z).setPar v := by
    intro z hz hzlt
    exact R.frame z hzlt fun j hj hjh hm => hrank j hj hjh z hm hz
  have hmem : ∀ z ∈ ids (lev 0),z∈ids (lev1 0) := by
    intro z hz
    rw [hlev] at hz
    rw [hlev1]
    simp only [ids_append,ids_node,ids_tok,ids_nil,List.mem_append,List.mem_cons] at hz ⊢
    tauto
  obtain ⟨v,hv⟩ := hnx
  obtain ⟨v',hv'⟩ := hframe x (hmem x hx) (by omega)
  rw [hv] at hv'
  refine ⟨⟨_,hv'⟩,?_,?_,?_,?_,?_,?_⟩
  · obtain ⟨h',lev',rank',S',hlow,hle,E'⟩ := R.shape
    have hcut := view_cut (s:=s') (x:=x) (c:=cutL ((L+2)/2) fun bro => bro++[s.next])
      (show (nothing : ℕ → Node κ ν (List ℕ) → Node κ ν (List ℕ)) x=id from rfl)
    rw [Tree.view_nothing,←hf] at hcut
    rw [hcut]
    exact ⟨h',lev',rank',A,B,S',by omega,E',hlev,by rw [hlow 0 (by omega),hlev1]⟩
  · exact hnext.trans_le R.next_le
  · exact R.leaf.trans hleaf
  · rw [Tree.set_node_self,hv']
    exact ⟨_,rfl⟩
  · obtain ⟨u,hu⟩ := hny
    obtain ⟨u',hu'⟩ := hframe s.next (by rw [hlev1]; simp) hnext
    rw [Tree.set_node_of_ne _ (by omega),hu',hu]
    exact ⟨_,rfl⟩
  · intro z hz hzx
    obtain ⟨u,hu⟩ := hframe z (hmem z hz) ((S.lt 0 (Nat.zero_le h) z hz).trans hnext)
    rw [Tree.set_node_of_ne _ hzx,hu,hother z hz hzx]
    exact ⟨u,rfl⟩

/-- The left half of an overfull leaf has a size that is allowed. -/
theorem fit_leftL (hlen : n.vlist.length=L+1) (hL : 3 ≤ L) (g : List ℕ → List ℕ) (p : ℕ) :
    (leftL n ((L+2)/2) g p).Fit (InterSize (L+1)) (· ≤ L) := by
  unfold leftL Node.Fit
  simp only [List.length_take]
  omega

/-- The right half of an overfull leaf has a size that is allowed. -/
theorem fit_rightL (hlen : n.vlist.length=L+1) (b : List ℕ) (p : ℕ) :
    (rightL n ((L+2)/2) b p).Fit (InterSize (L+1)) (· ≤ L) := by
  unfold rightL Node.Fit
  simp only [List.length_drop]
  omega

/-- The state of a split leaf before its cut, under a new root. -/
theorem splitLeaf_root (hL : 3 ≤ L) (S : Shape s h lev rank) (hx : x∈ids (lev 0))
    (hn : s.node x=.leaf n) (hlen : n.vlist.length=L+1) (hpar : n.par=none)
    (E : Every s h lev fun z m => z≠x → m.Fit (InterSize (L+1)) (· ≤ L)) (k : κ) :
    (∃ n',(withRoot (withRightL s n ((L+2)/2) []) x s.next k).node x=.leaf n') ∧
    LeafSplit (L+1) L h lev x n k s ((withRoot (withRightL s n ((L+2)/2) []) x s.next k).set x
      (cutL ((L+2)/2) (fun bro => bro++[s.next])
        ((withRoot (withRightL s n ((L+2)/2) []) x s.next k).node x))) := by
  have hlt := S.lt 0 (Nat.zero_le h) x hx
  obtain ⟨h0,hroot⟩ := S.eq_root (Nat.zero_le h) hx (by rw [hn]; exact hpar)
  subst h0 hroot
  have P : SplitRoot s ((withRoot (withRightL s n ((L+2)/2) []) s.root s.next k).view
      (Function.update nothing s.root (cutL ((L+2)/2) fun bro => bro++[s.next]))) s.root
      (leftL n ((L+2)/2) (fun bro => bro++[s.next]) (s.next+1)) (rightL n ((L+2)/2) [] (s.next+1)) k :=
    splitRoot_leaf hn hlt
  have S' := P.shape (halves_leaf s s.root n _ _ _ _ _) S rfl
  have E' := P.every S E (fun z hz m v hm => (hm hz).setPar v) (fit_leftL hlen hL _ _)
    (fit_rightL hlen _ _) (by
      rw [P.top]
      exact ⟨le_rfl,by simp; omega⟩)
  have hlev : lev 0=[]++[Item.node s.root]++[] := S.tower.top
  have hlev1 : Function.update (Function.update lev 0 [.node s.root,.tok (.sep k),.node s.next])
      (0+1) [.node (s.next+1)] 0=[]++[Item.node s.root,Item.tok (Tok.sep k),Item.node s.next]++[] := by
    rw [Function.update_of_ne (by omega),Function.update_self]
    rfl
  refine leafSplit_of_settled S hx hlev hlev1 rfl (Settled.refl S' E') (by omega)
    (by simp [withRoot,withRightL,Tree.setPar,Tree.new]) rfl ?_ ?_ ?_ ?_
  · intro j hj hjh z hz hz'
    have := S'.tower.level_unique hjh (by omega) hz hz'
    omega
  · rw [withRoot_node,if_neg (by omega),if_pos rfl,withRightL_next,if_neg (by omega),
      withRightL_node,if_neg (by omega),hn]
    exact ⟨_,rfl⟩
  · rw [withRoot_node,if_pos rfl,if_neg (by omega),withRightL_next,if_neg (by omega),
      withRightL_node,if_pos rfl]
    exact ⟨_,rfl⟩
  · intro z hz hzx
    rw [S.tower.top] at hz
    exact (hzx (by simpa using hz)).elim

/-- A split leaf entered into its parent, and what follows when the internal
nodes have settled. -/
theorem splitLeaf_below (hL : 3 ≤ L) (S : Shape s h lev rank) (hx : x∈ids (lev 0))
    (hn : s.node x=.leaf n) (hlen : n.vlist.length=L+1) {p : ℕ} (hpar : n.par=some p)
    (E : Every s h lev fun z m => z≠x → m.Fit (InterSize (L+1)) (· ≤ L)) {q : InterNode κ}
    (hq : s.node p=.inter q) (k : κ) :
    ∃ lev1 rank1,
      Shape ((((withRightL s n ((L+2)/2) []).set p (withChild q x s.next k)).setPar s.next
        (some p)).view (Function.update nothing x (cutL ((L+2)/2) fun bro => bro++[s.next])))
        h lev1 rank1 ∧
      Every ((((withRightL s n ((L+2)/2) []).set p (withChild q x s.next k)).setPar s.next
        (some p)).view (Function.update nothing x (cutL ((L+2)/2) fun bro => bro++[s.next])))
        h lev1 (fun z m => z≠p → m.Fit (InterSize (L+1)) (· ≤ L)) ∧
      (∀ j,0 < j → lev1 j=lev j) ∧
      ∀ s',Settled (L+1) (· ≤ L) (Function.update nothing x (cutL ((L+2)/2) fun bro => bro++[s.next]))
          1 h lev1 (((withRightL s n ((L+2)/2) []).set p (withChild q x s.next k)).setPar s.next
            (some p)) s' →
        (∃ n',s'.node x=.leaf n') ∧ LeafSplit (L+1) L h lev x n k s
          (s'.set x (cutL ((L+2)/2) (fun bro => bro++[s.next]) (s'.node x))) := by
  have hlt := S.lt 0 (Nat.zero_le h) x hx
  have hxpar : (s.node x).par=some p := by
    rw [hn]
    exact hpar
  obtain ⟨hh,hp,-⟩ := S.parent (Nat.zero_le h) hx hxpar
  have hplt := S.lt 1 hh p hp
  have hxp := S.ne_of_level (Nat.zero_le h) hh (by omega) hx hp
  have P : SplitBelow s ((((withRightL s n ((L+2)/2) []).set p (withChild q x s.next k)).setPar
      s.next (some p)).view (Function.update nothing x (cutL ((L+2)/2) fun bro => bro++[s.next])))
      x p q (leftL n ((L+2)/2) (fun bro => bro++[s.next]) p) (rightL n ((L+2)/2) [] p) k :=
    splitBelow_leaf hn hq hpar hxp hlt hplt
  obtain ⟨A,B,hlev,S'⟩ := P.shape (halves_leaf s x n _ _ _ _ _) S hh hx hxpar
  refine ⟨_,_,S',?_,fun j hj => Function.update_of_ne (by omega) _ _,?_⟩
  · exact P.every S hh hlev E (fun z hz _ m v hm _ => (hm hz).setPar v)
      (fun _ => fit_leftL hlen hL _ _) (fun _ => fit_rightL hlen _ _) fun hpp => (hpp rfl).elim
  · intro s' R
    refine leafSplit_of_settled S hx hlev (Function.update_self _ _ _) rfl R le_rfl
      (by simp [withRightL,Tree.setPar,Tree.new]) rfl ?_ ?_ ?_ ?_
    · intro j hj hjh z hz hz'
      have := S'.tower.level_unique hjh (Nat.zero_le h) hz hz'
      omega
    · rw [Tree.setPar_node,if_neg (by omega),Tree.set_node_of_ne _ hxp,withRightL_node,
        if_neg (by omega),hn]
      exact ⟨n.par,rfl⟩
    · rw [Tree.setPar_node,if_pos rfl,Tree.set_node_of_ne _ (by omega),withRightL_node,if_pos rfl]
      exact ⟨_,rfl⟩
    · intro z hz hzx
      have hzlt := S.lt 0 (Nat.zero_le h) z hz
      rw [Tree.setPar_node,if_neg (by omega),Tree.set_node_of_ne _
        (S.ne_of_level (Nat.zero_le h) hh (by omega) hz hp),withRightL_node,if_neg (by omega)]

/-- Splitting a leaf that is too long. -/
theorem splitLeaf_ok (hL : 3 ≤ L) (S : Shape s h lev rank) (hx : x∈ids (lev 0))
    (hn : s.node x=.leaf n) (hlen : n.vlist.length=L+1)
    (E : Every s h lev fun z m => z≠x → m.Fit (InterSize (L+1)) (· ≤ L)) {fuel : ℕ} (hfuel : h ≤ fuel)
    {kv : KeyValue κ ν} (hkv : item n.vlist ((L+2)/2)=.ok kv) :
    ∃ s',splitLeaf (L+1) L fuel s x=.ok s' ∧ LeafSplit (L+1) L h lev x n kv.key s s' := by
  have hnew : s.new (.leaf ⟨n.vlist.drop ((L+2)/2),[],none⟩)=(withRightL s n ((L+2)/2) [],s.next) := rfl
  rw [splitLeaf]
  simp only [Tree.leafNode,hn,ok_bind,hkv,hnew]
  cases hpar : n.par with
  | none =>
    obtain ⟨⟨n',hn'⟩,R⟩ := splitLeaf_root hL S hx hn hlen hpar E kv.key
    simp only [newRoot_ok (show 3 < L+1 by omega),ok_bind,cutLeaf_ok hn']
    exact ⟨_,rfl,R⟩
  | some p =>
    have hxpar : (s.node x).par=some p := by
      rw [hn]
      exact hpar
    obtain ⟨hh,hp,q,hq,-,hxq⟩ := S.parent (Nat.zero_le h) hx hxpar
    obtain ⟨lev1,rank1,S',E',hlev1,hsettle⟩ := splitLeaf_below hL S hx hn hlen hpar E hq kv.key
    have hplt := S.lt 1 hh p hp
    have hxp := S.ne_of_level (Nat.zero_le h) hh (by omega) hx hp
    have hqW : (withRightL s n ((L+2)/2) []).node p=.inter q := by
      rw [withRightL_node,if_neg (by omega),hq]
    have hqM := E 1 hh p hp hxp.symm
    rw [hq] at hqM
    have hnode : (((withRightL s n ((L+2)/2) []).set p (withChild q x s.next kv.key)).setPar s.next
        (some p)).node p=withChild q x s.next kv.key := by
      rw [Tree.setPar_node,if_neg (by omega),Tree.set_node_self]
    simp only [insertChild_ok hqW hxq,ok_bind,Tree.inter,hnode]
    rw [withChild] at hnode
    simp only [withChild,ok_bind,isfullInter,withChild_ilist_length,decide_eq_true_eq]
    by_cases hlong : L+1 ≤ q.ilist.length+1
    · have O : Overfull (L+1) (· ≤ L)
          (Function.update nothing x (cutL ((L+2)/2) fun bro => bro++[s.next])) 1 h lev1 rank1
          (((withRightL s n ((L+2)/2) []).set p (withChild q x s.next kv.key)).setPar s.next
            (some p)) p {q with
              ilist := insertAt q.ilist (q.clist.idxOf x) kv.key,
              clist := insertAt q.clist (q.clist.idxOf x+1) s.next} := by
        refine ⟨pending_nothing.update x (cutL_setPar _ _),S',?_,by omega,hh,?_,?_,hnode,?_,E'⟩
        · rw [hlev1 1 (by omega)]
          exact hp
        · intro j hj hjh z hz
          rw [hlev1 j (by omega)] at hz
          exact Function.update_of_ne (S.ne_of_level hjh (Nat.zero_le h) (by omega) hz hx) _ _
        · intro z hz
          have hlt := S.lt 0 (Nat.zero_le h) x hx
          have hz' : s.next+1 ≤ z := hz
          exact Function.update_of_ne (by omega) _ _
        · dsimp only
          rw [withChild_ilist_length]
          have := hqM.2
          omega
      obtain ⟨s',o,hs',R⟩ := splitNode_settled (by omega) O (show h < fuel+1 by omega)
      obtain ⟨⟨n',hn'⟩,R'⟩ := hsettle s' R
      rw [withChild] at hs'
      simp only [if_pos hlong,hs',ok_bind,pure_bind,cutLeaf_ok hn']
      exact ⟨_,rfl,R'⟩
    · have R : Settled (L+1) (· ≤ L)
          (Function.update nothing x (cutL ((L+2)/2) fun bro => bro++[s.next])) 1 h lev1
          (((withRightL s n ((L+2)/2) []).set p (withChild q x s.next kv.key)).setPar s.next
            (some p)) (((withRightL s n ((L+2)/2) []).set p
              (withChild q x s.next kv.key)).setPar s.next (some p)) := by
        refine Settled.refl S' fun j hj z hz => ?_
        by_cases hzp : z=p
        · subst hzp
          rw [Tree.view_node,Function.update_of_ne hxp.symm,withChild,hnode]
          exact ⟨by rw [withChild_ilist_length]; omega,by rw [withChild_ilist_length]; omega⟩
        · exact E' j hj z hz hzp
      obtain ⟨⟨n',hn'⟩,R'⟩ := hsettle _ R
      rw [withChild] at hn' R'
      simp only [if_neg hlong,pure_bind,cutLeaf_ok hn']
      exact ⟨_,rfl,R'⟩

end Leaf

end StudyCode.Bplus.V2
