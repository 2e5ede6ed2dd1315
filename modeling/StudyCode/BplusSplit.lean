import StudyCode.BplusShape

/-!
# Splitting as the programs do it

A split makes the right half, enters it into the parent and cuts the node.
The second tree cuts last, when the parent may have been split in between;
in the meantime the lists of the node are those of the whole. Such a state
is seen through a view that cuts the nodes whose cut is pending: every
other step of a split is the same through the view, and seen through it a
split is the replacement of a node by its halves.
-/

namespace StudyCode.Bplus

open Frontier

variable {κ ν β : Type}

/-! ## Views -/

/-- A tree with every node seen through a function. -/
def Tree.view (f : ℕ → Node κ ν β → Node κ ν β) (s : Tree κ ν β) : Tree κ ν β :=
  {s with node := fun z => f z (s.node z)}

/-- Views that leave parents alone. -/
def Pending (f : ℕ → Node κ ν β → Node κ ν β) : Prop :=
  ∀ z n v,f z (Node.setPar v n)=(f z n).setPar v

/-- The view that changes nothing. -/
def nothing : ℕ → Node κ ν β → Node κ ν β := fun _ n => n

/-- Nothing to do commutes with a change of the parent. -/
theorem pending_nothing : Pending (nothing : ℕ → Node κ ν β → Node κ ν β) := fun _ _ _ => rfl

/-- A tree seen with nothing to do is the tree itself. -/
@[simp] theorem Tree.view_nothing (s : Tree κ ν β) : s.view nothing=s := rfl

/-- The nodes of a tree with its pending cuts done. -/
@[simp] theorem Tree.view_node (f : ℕ → Node κ ν β → Node κ ν β) (s : Tree κ ν β) (z : ℕ) :
    (s.view f).node z=f z (s.node z) := rfl

@[simp] theorem Tree.view_next (f : ℕ → Node κ ν β → Node κ ν β) (s : Tree κ ν β) :
    (s.view f).next=s.next := rfl

@[simp] theorem Tree.view_root (f : ℕ → Node κ ν β → Node κ ν β) (s : Tree κ ν β) :
    (s.view f).root=s.root := rfl

/-- Cut an internal node. -/
def cutI (mid : ℕ) : Node κ ν β → Node κ ν β
  | .inter n => .inter {n with ilist := n.ilist.take (mid-1),clist := n.clist.take mid}
  | .leaf n => .leaf n

/-- Cut a leaf and change its brothers. -/
def cutL (mid : ℕ) (g : β → β) : Node κ ν β → Node κ ν β
  | .inter n => .inter n
  | .leaf n => .leaf {n with vlist := n.vlist.take mid,bro := g n.bro}

/-- A cut that does not look at the parent can be left pending. -/
theorem Pending.update {f : ℕ → Node κ ν β → Node κ ν β} (hf : Pending f) (x : ℕ)
    {c : Node κ ν β → Node κ ν β} (hc : ∀ n v,c (Node.setPar v n)=(c n).setPar v) :
    Pending (Function.update f x c) := by
  intro z n v
  by_cases hz : z=x
  · subst hz
    rw [Function.update_self]
    exact hc n v
  · rw [Function.update_of_ne hz]
    exact hf z n v

/-- The cut of an internal node does not look at its parent. -/
theorem cutI_setPar (mid : ℕ) (n : Node κ ν β) (v : Option ℕ) :
    cutI mid (n.setPar v)=(cutI mid n).setPar v := by
  cases n <;> rfl

/-- The cut of a leaf does not look at its parent. -/
theorem cutL_setPar (mid : ℕ) (g : β → β) (n : Node κ ν β) (v : Option ℕ) :
    cutL mid g (n.setPar v)=(cutL mid g n).setPar v := by
  cases n <;> rfl

/-- Carrying out a pending cut. -/
theorem cutInter_ok {s : Tree κ ν β} {x mid : ℕ} {n : InterNode κ} (h : s.node x=.inter n) :
    cutInter s x mid=.ok (s.set x (cutI mid (s.node x))) := by
  simp [cutInter,Tree.inter,h,cutI,bind,Except.bind,pure,Except.pure]

/-- The cut of a leaf succeeds. -/
theorem cutLeaf_ok {s : Tree κ ν β} {x mid : ℕ} {g : β → β} {n : Leaf κ ν β}
    (h : s.node x=.leaf n) : cutLeaf s x mid g=.ok (s.set x (cutL mid g (s.node x))) := by
  simp [cutLeaf,Tree.leafNode,h,cutL,bind,Except.bind,pure,Except.pure]

/-- The view of a state after a cut is the view that cuts of the state before. -/
theorem view_cut {f : ℕ → Node κ ν β → Node κ ν β} {s : Tree κ ν β} {x : ℕ}
    {c : Node κ ν β → Node κ ν β} (hx : f x=id) :
    (s.set x (c (s.node x))).view f=s.view (Function.update f x c) := by
  unfold Tree.view Tree.set
  congr 1
  funext z
  by_cases hz : z=x
  · subst hz
    simp [hx]
  · simp [Function.update_of_ne hz]

/-! ## Steps of a split -/

/-- The state with the right half of an internal node. -/
def withRightI (s : Tree κ ν β) (r : InterNode κ) (mid : ℕ) : Tree κ ν β :=
  (s.new (.inter ⟨r.ilist.drop mid,r.clist.drop mid,r.par⟩)).1.adopt s.next (r.clist.drop mid)

/-- The state with the right half of a leaf. -/
def withRightL (s : Tree κ ν β) (r : Leaf κ ν β) (mid : ℕ) (b : β) : Tree κ ν β :=
  (s.new (.leaf ⟨r.vlist.drop mid,b,none⟩)).1

/-- The parent with a new child. -/
def withChild (q : InterNode κ) (x y : ℕ) (k : κ) : Node κ ν β :=
  .inter {q with
    ilist := insertAt q.ilist (q.clist.idxOf x) k,
    clist := insertAt q.clist (q.clist.idxOf x+1) y}

/-- A new child brings one separator along. -/
theorem withChild_ilist_length (q : InterNode κ) (x : ℕ) (k : κ) :
    (insertAt q.ilist (q.clist.idxOf x) k).length=q.ilist.length+1 := by
  simp only [insertAt,List.length_append,List.length_cons,List.length_take,List.length_drop]
  omega

/-- The state with a new root. -/
def withRoot (s : Tree κ ν β) (x y : ℕ) (k : κ) : Tree κ ν β :=
  {(((s.new (.inter ⟨[k],[x,y],none⟩)).1.setPar x (some s.next)).setPar y (some s.next)) with
    root := s.next}

section Steps

variable {s : Tree κ ν β} {M mid x p y : ℕ} {k : κ}

/-- The right half of an internal node is made. -/
theorem rightHalf_ok (hM : 3 < M) (r : InterNode κ) :
    rightHalf M mid s r=.ok (withRightI s r mid,s.next) := by
  simp [withRightI,rightHalf,Tree.newInter,Tree.new,bind,Except.bind,pure,Except.pure,show ¬M ≤ 3 by omega]

/-- The parent takes the right half behind the node. -/
theorem insertChild_ok {q : InterNode κ} (hq : s.node p=.inter q) (hx : x∈q.clist) :
    insertChild s p x y k=.ok (s.set p (withChild q x y k)) := by
  simp [withChild,insertChild,Tree.inter,index,hq,hx,bind,Except.bind,pure,Except.pure]

/-- A new root is made over both halves. -/
theorem newRoot_ok (hM : 3 < M) :
    newRoot M s x y k=.ok (withRoot s x y k) := by
  simp [withRoot,newRoot,Tree.newInter,Tree.new,bind,Except.bind,pure,Except.pure,show ¬M ≤ 3 by omega]

/-- An element inside of the list is read. -/
theorem item_ok {α : Type} {l : List α} {i : ℕ} (h : i < l.length) : item l i=.ok l[i] := by
  simp [item,h]

/-- An element that was read is in the list. -/
theorem mem_of_item {α : Type} {l : List α} {i : ℕ} {a : α} (h : item l i=.ok a) : a∈l := by
  unfold item at h
  split at h
  · rename_i b hb
    cases h
    exact List.mem_of_getElem? hb
  · cases h

end Steps

/-! ## Halves -/

/-- The left half of an internal node. -/
def leftI (r : InterNode κ) (mid p : ℕ) : Node κ ν β :=
  .inter ⟨r.ilist.take (mid-1),r.clist.take mid,some p⟩

/-- The right half of an internal node. -/
def rightI (r : InterNode κ) (mid p : ℕ) : Node κ ν β :=
  .inter ⟨r.ilist.drop mid,r.clist.drop mid,some p⟩

/-- The left half of a leaf. -/
def leftL (r : Leaf κ ν β) (mid : ℕ) (g : β → β) (p : ℕ) : Node κ ν β :=
  .leaf ⟨r.vlist.take mid,g r.bro,some p⟩

/-- The right half of a leaf. -/
def rightL (r : Leaf κ ν β) (mid : ℕ) (b : β) (p : ℕ) : Node κ ν β :=
  .leaf ⟨r.vlist.drop mid,b,some p⟩

/-- The children of the right half. -/
theorem ids_rightI {r : InterNode κ} (hr : r.clist.length=r.ilist.length+1) {mid : ℕ}
    (hmid : mid ≤ r.ilist.length) (p : ℕ) :
    ids (rightI r mid p : Node κ ν β).items=r.clist.drop mid := by
  refine Node.ids_items_inter ?_
  simp
  omega

/-- An internal node falls into two halves. -/
theorem halves_inter {s : Tree κ ν β} {i x mid p : ℕ} {r : InterNode κ} (hx : s.node x=.inter r)
    (hr : r.clist.length=r.ilist.length+1) (hi : 0 < i) (h1 : 1 ≤ mid)
    (h2 : mid ≤ r.ilist.length) {k : κ} (hk : r.ilist[mid-1]?=some k) :
    Halves s i x (leftI r mid p) (rightI r mid p) k p := by
  refine ⟨rfl,rfl,fun h0 => by omega,fun _ => ⟨⟨_,rfl,?_⟩,⟨_,rfl,?_⟩,?_⟩⟩
  · simp
    omega
  · simp
    omega
  · have hil : r.ilist=r.ilist.take (mid-1)++k::r.ilist.drop mid := by
      obtain ⟨hlt,rfl⟩ := List.getElem?_eq_some_iff.mp hk
      nth_rewrite 1 [←List.take_append_drop (mid-1) r.ilist]
      rw [List.drop_eq_getElem_cons hlt,show mid-1+1=mid by omega]
    rw [Tree.items,hx]
    simp only [Node.items,leftI,rightI]
    nth_rewrite 1 [hil]
    rw [List.map_append,List.map_cons,←List.take_append_drop mid r.clist,weave_append]
    · rw [List.take_append_drop]
    · simp
      omega
    · intro hn
      have := congrArg List.length hn
      simp at this
      omega

/-- A leaf falls into two halves. -/
theorem halves_leaf (s : Tree κ ν β) (x : ℕ) (r : Leaf κ ν β) (mid : ℕ) (g : β → β) (b : β) (k : κ)
    (p : ℕ) : Halves s 0 x (leftL r mid g p) (rightL r mid b p) k p :=
  ⟨rfl,rfl,fun _ => ⟨rfl,rfl⟩,fun h => by omega⟩

/-! ## The four splits -/

section States

variable {s : Tree κ ν β} {f : ℕ → Node κ ν β → Node κ ν β} {x p mid : ℕ} {k : κ}

/-- The nodes with the right half of an internal node made. -/
theorem withRightI_node {r : InterNode κ} (z : ℕ) :
    (withRightI s r mid).node z=
      if z∈r.clist.drop mid then (if z=s.next then
          Node.inter ⟨r.ilist.drop mid,r.clist.drop mid,r.par⟩ else s.node z).setPar (some s.next)
        else if z=s.next then .inter ⟨r.ilist.drop mid,r.clist.drop mid,r.par⟩ else s.node z := by
  rw [withRightI,Tree.adopt_node,Tree.new_node]

/-- The nodes with the right half of a leaf made. -/
theorem withRightL_node {r : Leaf κ ν β} {b : β} (z : ℕ) :
    (withRightL s r mid b).node z=
      if z=s.next then .leaf ⟨r.vlist.drop mid,b,none⟩ else s.node z := by
  rw [withRightL,Tree.new_node]

/-- The right half of an internal node is one new object. -/
@[simp] theorem withRightI_next {r : InterNode κ} : (withRightI s r mid).next=s.next+1 :=
  Tree.adopt_next _ _ _

/-- The right half of a leaf is one new object. -/
@[simp] theorem withRightL_next {r : Leaf κ ν β} {b : β} : (withRightL s r mid b).next=s.next+1 := rfl

@[simp] theorem withRightI_root {r : InterNode κ} : (withRightI s r mid).root=s.root :=
  Tree.adopt_root _ _ _

/-- The nodes under a new root. -/
theorem withRoot_node {y : ℕ} (z : ℕ) :
    (withRoot s x y k).node z=
      if z=y then (if z=x then (if z=s.next then Node.inter ⟨[k],[x,y],none⟩ else
          s.node z).setPar (some s.next) else if z=s.next then .inter ⟨[k],[x,y],none⟩
            else s.node z).setPar (some s.next)
        else if z=x then (if z=s.next then Node.inter ⟨[k],[x,y],none⟩ else
          s.node z).setPar (some s.next) else if z=s.next then .inter ⟨[k],[x,y],none⟩
            else s.node z := by
  have : (withRoot s x y k).node z=((((s.new (.inter ⟨[k],[x,y],none⟩)).1.setPar x
    (some s.next)).setPar y (some s.next))).node z := rfl
  rw [this,Tree.setPar_node,Tree.setPar_node,Tree.new_node]

/-- A split of an internal node below the root, with its cut pending. -/
theorem splitBelow_inter (hf : Pending f) {r q : InterNode κ} (hr : s.node x=.inter r)
    (hq : s.node p=.inter q) (hpar : r.par=some p) (hxp : x≠p) (hxn : x < s.next)
    (hpn : p < s.next) (hfp : f p=id) (hfn : f s.next=id)
    (hJ : r.clist.length=r.ilist.length+1) (hmid : mid ≤ r.ilist.length)
    (hmoved : ∀ c ∈ r.clist.drop mid,c≠x ∧ c≠p ∧ c≠s.next) :
    SplitBelow (s.view f) (((withRightI s r mid).set p (withChild q x s.next k)).view
      (Function.update f x (cutI mid))) x p q (leftI r mid p) (rightI r mid p) k := by
  have hmx : x∉r.clist.drop mid := fun h => (hmoved x h).1 rfl
  have hmn : s.next∉r.clist.drop mid := fun h => (hmoved _ h).2.2 rfl
  refine ⟨?_,?_,?_,?_,?_,?_,?_⟩
  · simp
  · simp
  · rw [Tree.view_node,hfp,hq]
    rfl
  · rw [Tree.view_node,Function.update_self,Tree.set_node_of_ne _ hxp,withRightI_node,if_neg hmx,
      if_neg (by omega),hr]
    simp [cutI,leftI,hpar]
  · rw [Tree.view_next,Tree.view_node,Function.update_of_ne (by omega),hfn,
      Tree.set_node_of_ne _ (by omega),withRightI_node,if_neg hmn,if_pos rfl]
    simp [rightI,hpar]
  · rw [Tree.view_node,Function.update_of_ne hxp.symm,hfp,Tree.set_node_self]
    rfl
  · intro z hzx hzp hzn
    rw [Tree.view_next] at hzn
    rw [Tree.view_node,Function.update_of_ne hzx,Tree.set_node_of_ne _ hzp,withRightI_node,
      ids_rightI hJ hmid,if_neg hzn]
    split
    · exact hf z _ _
    · rfl

/-- A split of an internal root, with its cut pending. -/
theorem splitRoot_inter (hf : Pending f) {r : InterNode κ} (hr : s.node x=.inter r)
    (hxn : x < s.next) (hfn : f s.next=id) (hfn' : f (s.next+1)=id)
    (hJ : r.clist.length=r.ilist.length+1) (hmid : mid ≤ r.ilist.length)
    (hmoved : ∀ c ∈ r.clist.drop mid,c≠x ∧ c < s.next) :
    SplitRoot (s.view f) ((withRoot (withRightI s r mid) x s.next k).view
      (Function.update f x (cutI mid))) x (leftI r mid (s.next+1)) (rightI r mid (s.next+1)) k := by
  have hmx : x∉r.clist.drop mid := fun h => (hmoved x h).1 rfl
  have hmn : ∀ j,s.next ≤ j → j∉r.clist.drop mid := fun j hj h => by
    have := (hmoved _ h).2
    omega
  refine ⟨?_,?_,?_,?_,?_,?_⟩
  · simp [withRoot]
  · simp [withRoot,Tree.setPar,Tree.new]
  · rw [Tree.view_node,Function.update_self,withRoot_node,if_neg (by omega),if_pos rfl,
      withRightI_next,if_neg (by omega),withRightI_node,if_neg hmx,if_neg (by omega),hr]
    simp [cutI,leftI,Node.setPar]
  · rw [Tree.view_next,Tree.view_node,Function.update_of_ne (by omega),hfn,withRoot_node,if_pos rfl,
      if_neg (by omega),withRightI_next,if_neg (by omega),withRightI_node,
      if_neg (hmn _ le_rfl),if_pos rfl]
    simp [rightI,Node.setPar]
  · rw [Tree.view_next,Tree.view_node,Function.update_of_ne (by omega),hfn',withRoot_node,
      if_neg (by omega),if_neg (by omega),withRightI_next,if_pos rfl]
    rfl
  · intro z hzx hzn hzn'
    rw [Tree.view_next] at hzn hzn'
    rw [Tree.view_node,Function.update_of_ne hzx,withRoot_node,if_neg hzn,if_neg hzx,
      withRightI_next,if_neg hzn',withRightI_node,ids_rightI hJ hmid,if_neg hzn]
    split
    · exact hf z _ _
    · rfl

/-- A split of a leaf below the root, with its cut pending. -/
theorem splitBelow_leaf {r : Leaf κ ν β} {q : InterNode κ} {g : β → β} {b : β}
    (hr : s.node x=.leaf r) (hq : s.node p=.inter q) (hpar : r.par=some p) (hxp : x≠p)
    (hxn : x < s.next) (hpn : p < s.next) :
    SplitBelow s ((((withRightL s r mid b).set p (withChild q x s.next k)).setPar s.next
      (some p)).view (Function.update nothing x (cutL mid g))) x p q (leftL r mid g p)
        (rightL r mid b p) k := by
  refine ⟨rfl,rfl,hq,?_,?_,?_,?_⟩
  · rw [Tree.view_node,Function.update_self,Tree.setPar_node,if_neg (by omega),
      Tree.set_node_of_ne _ hxp,withRightL_node,if_neg (by omega),hr]
    simp [cutL,leftL,hpar]
  · rw [Tree.view_node,Function.update_of_ne (by omega),Tree.setPar_node,if_pos rfl,
      Tree.set_node_of_ne _ (by omega),withRightL_node,if_pos rfl]
    rfl
  · rw [Tree.view_node,Function.update_of_ne hxp.symm,Tree.setPar_node,if_neg (by omega),
      Tree.set_node_self]
    rfl
  · intro z hzx hzp hzn
    rw [Tree.view_node,Function.update_of_ne hzx,Tree.setPar_node,if_neg hzn,
      Tree.set_node_of_ne _ hzp,withRightL_node,if_neg hzn,rightL,Node.ids_items_leaf rfl]
    simp [nothing]

/-- A split of a leaf that is the root, with its cut pending. -/
theorem splitRoot_leaf {r : Leaf κ ν β} {g : β → β} {b : β} (hr : s.node x=.leaf r)
    (hxn : x < s.next) :
    SplitRoot s ((withRoot (withRightL s r mid b) x s.next k).view
      (Function.update nothing x (cutL mid g))) x (leftL r mid g (s.next+1))
        (rightL r mid b (s.next+1)) k := by
  refine ⟨rfl,rfl,?_,?_,?_,?_⟩
  · rw [Tree.view_node,Function.update_self,withRoot_node,if_neg (by omega),if_pos rfl,withRightL_next,
      if_neg (by omega),withRightL_node,if_neg (by omega),hr]
    simp [cutL,leftL,Node.setPar]
  · rw [Tree.view_node,Function.update_of_ne (by omega),withRoot_node,if_pos rfl,if_neg (by omega),
      withRightL_next,if_neg (by omega),withRightL_node,if_pos rfl]
    rfl
  · rw [Tree.view_node,Function.update_of_ne (by omega),withRoot_node,if_neg (by omega),
      if_neg (by omega),withRightL_next,if_pos rfl]
    rfl
  · intro z hzx hzn hzn'
    rw [Tree.view_node,Function.update_of_ne hzx,withRoot_node,if_neg hzn,if_neg hzx,withRightL_next,
      if_neg hzn',withRightL_node,if_neg hzn,rightL,Node.ids_items_leaf rfl]
    simp [nothing]

end States

end StudyCode.Bplus
