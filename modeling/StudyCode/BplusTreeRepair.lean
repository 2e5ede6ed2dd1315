import StudyCode.BplusRepair
import StudyCode.BplusTreeSearch

/-!
# Steps of a repair

Each of the moves of a deletion, carried out statement by statement, has the
outcome of moving an entry between neighbouring children or of merging two
leaves.
-/

namespace StudyCode.Bplus.V1

open Frontier

variable {ν : Type}

section Steps

variable {s : Bptree ν}

/-- Reading an element that is there. -/
theorem item_some {α : Type} {l : List α} {i : ℕ} {a : α} (h : l[i]?=some a) : item l i=.ok a := by
  simp [item,h]

/-- An index inside of a list is a position. -/
theorem position_ok {α : Type} {l : List α} {i : ℕ} (h : i < l.length) :
    position l (i:ℤ)=.ok i := by
  unfold position
  rw [if_pos (by omega),if_pos (by omega),Int.toNat_natCast]

/-- Reading an element by its index. -/
theorem itemInt_some {α : Type} {l : List α} {i : ℕ} {a : α} (h : l[i]?=some a) :
    itemInt l (i:ℤ)=.ok a := by
  obtain ⟨hi,-⟩ := List.getElem?_eq_some_iff.mp h
  unfold itemInt
  rw [position_ok hi,ok_bind,item_some h]

/-- The index -1 reads the last element. -/
theorem itemInt_last {α : Type} (l : List α) (a : α) : itemInt (l++[a]) (-1)=.ok a := by
  unfold itemInt position
  rw [if_neg (by omega),if_pos (by simp)]
  simp [ok_bind,item]

/-- Writing an element inside of a list. -/
theorem setInt_ok {α : Type} {l : List α} {i : ℕ} {a : α} (h : i < l.length) :
    setInt l (i:ℤ) a=.ok (l.set i a) := by
  unfold setInt
  rw [position_ok h]
  rfl

/-- The method pop removes the last element. -/
theorem pop_concat {α : Type} (l : List α) (a : α) : pop (l++[a])=.ok l := by
  unfold pop
  rw [if_neg (by simp)]
  simp

/-- The method remove takes the first element when it is the one. -/
theorem remove_head {α : Type} {test : α → Bool} {a : α} (h : test a=true) (l : List α) :
    remove test (a::l)=.ok l := by
  unfold remove
  rw [if_pos (by simp [h]),List.eraseP_cons_of_pos h]

/-- A node that is internal is read as such. -/
theorem inter_eq {x : ℕ} {n : InterNode ℤ} (hn : s.node x=.inter n) : s.inter x=.ok n := by
  simp [Tree.inter,hn]

/-- A node that is a leaf is read as such. -/
theorem leafNode_eq {x : ℕ} {n : Leaf ℤ ν (Option ℕ)} (hn : s.node x=.leaf n) :
    s.leafNode x=.ok n := by
  simp [Tree.leafNode,hn]

/-- Changing an internal node. -/
theorem modInter_eq {x : ℕ} {n : InterNode ℤ} {f : InterNode ℤ → Except PyError (InterNode ℤ)}
    (hn : s.node x=.inter n) : modInter s x f=f n >>= fun n' => .ok (s.set x (.inter n')) := by
  unfold modInter
  rw [inter_eq hn]
  rfl

/-- Changing a leaf. -/
theorem modLeaf_eq {x : ℕ} {n : Leaf ℤ ν (Option ℕ)}
    {f : Leaf ℤ ν (Option ℕ) → Except PyError (Leaf ℤ ν (Option ℕ))} (hn : s.node x=.leaf n) :
    modLeaf s x f=f n >>= fun n' => .ok (s.set x (.leaf n')) := by
  unfold modLeaf
  rw [leafNode_eq hn]
  rfl

/-- The nodes of a tree where one was written. -/
theorem set_node (s : Bptree ν) (x y : ℕ) (n : Node ℤ ν (Option ℕ)) :
    (s.set x n).node y=if y=x then n else s.node y := by
  by_cases h : y=x
  · rw [if_pos h,h,Tree.set_node_self]
  · rw [if_neg h,Tree.set_node_of_ne s h]

variable {x a b j : ℕ} {n l : InterNode ℤ} {k k' : ℤ}

/-- Moving the first child of an internal node to the node before it. -/
theorem tranR2L_inter {c : ℕ} {ri : List ℤ} {rc : List ℕ} {v : Option ℕ} (hn : s.node x=.inter n)
    (ha : n.clist[j]?=some a) (hb : n.clist[j+1]?=some b) (hk : n.ilist[j]?=some k)
    (hl : s.node a=.inter l) (hr : s.node b=.inter ⟨k'::ri,c::rc,v⟩) (hab : a≠b) (hax : a≠x)
    (hbx : b≠x) (hca : c≠a) (hcb : c≠b) (hcx : c≠x)
    (hl' : l.clist.length=l.ilist.length+1) (hrc : rc.length=ri.length+1)
    (hpl : ∀ z ∈ l.clist,(s.node z).par=some a) (hpr : ∀ z ∈ rc,(s.node z).par=some b) :
    ∃ s',tranR2L s x j=.ok s' ∧ s'.leaf=s.leaf ∧ Moved s s' x a b n j k k'
      (.inter {l with ilist := l.ilist++[k],clist := l.clist++[c]}) (.inter ⟨ri,rc,v⟩) := by
  obtain ⟨hj,-⟩ := List.getElem?_eq_some_iff.mp hk
  obtain ⟨s2,hs2⟩ : ∃ s2,s2=(s.set a (.inter {l with clist := l.clist++[c]})).setPar c (some a) :=
    ⟨_,rfl⟩
  obtain ⟨s3,hs3⟩ : ∃ s3,s3=s2.set a (.inter {l with ilist := l.ilist++[k],clist := l.clist++[c]}) :=
    ⟨_,rfl⟩
  obtain ⟨s4,hs4⟩ : ∃ s4,s4=s3.set x (.inter {n with ilist := n.ilist.set j k'}) := ⟨_,rfl⟩
  have h2x : s2.node x=.inter n := by
    simp [hs2,Tree.setPar_node,set_node,hcx.symm,hax.symm,hn]
  have h2a : s2.node a=.inter {l with clist := l.clist++[c]} := by
    simp [hs2,Tree.setPar_node,hca.symm]
  have h2b : s2.node b=.inter ⟨k'::ri,c::rc,v⟩ := by
    simp [hs2,Tree.setPar_node,set_node,hcb.symm,hab.symm,hr]
  have h3x : s3.node x=.inter n := by
    simp [hs3,set_node,hax.symm,h2x]
  have h3b : s3.node b=.inter ⟨k'::ri,c::rc,v⟩ := by
    simp [hs3,set_node,hab.symm,h2b]
  have h4b : s4.node b=.inter ⟨k'::ri,c::rc,v⟩ := by
    simp [hs4,set_node,hbx,h3b]
  have hrun : tranR2L s x j=.ok (s4.set b (.inter ⟨ri,rc,v⟩)) := by
    have hc : item (c::rc) 0=.ok c := rfl
    have hk' : item (k'::ri) 0=.ok k' := rfl
    have hrem : remove (fun d => decide (d=c)) (c::rc)=.ok rc := remove_head (by simp) rc
    have hrem' : remove (fun i => decide (i=k')) (k'::ri)=.ok ri := remove_head (by simp) ri
    rw [tranR2L]
    simp only [inter_eq hn,ok_bind,item_some ha,item_some hb,hl,inter_eq hr,hc,modInter_eq hl,
      pure_bind,←hs2]
    simp only [inter_eq h2x,ok_bind,item_some hk,modInter_eq h2a,pure_bind,←hs3]
    simp only [inter_eq h3b,ok_bind,hk',modInter_eq h3x,setInt_ok hj,pure_bind,←hs4]
    simp only [modInter_eq h4b,hrem,hrem',ok_bind,pure_bind]
  refine ⟨_,hrun,by rw [Tree.set_leaf,hs4,Tree.set_leaf,hs3,Tree.set_leaf,hs2]; rfl,
    by rw [Tree.set_root,hs4,Tree.set_root,hs3,Tree.set_root,hs2]; rfl,
    by rw [Tree.set_next,hs4,Tree.set_next,hs3,Tree.set_next,hs2]; rfl,hn,ha,hb,hk,?_,?_,?_,?_⟩
  · simp [hs4,set_node,hbx.symm]
  · simp [hs4,hs3,set_node,hab,hax]
  · simp
  · intro z hzx hza hzb
    rw [Node.ids_items_inter (by simp; omega),Node.ids_items_inter hrc]
    have hz : (s4.set b (.inter ⟨ri,rc,v⟩)).node z=
        if z=c then (s.node z).setPar (some a) else s.node z := by
      simp [hs4,hs3,hs2,set_node,Tree.setPar_node,hzx,hza,hzb]
    rw [hz]
    by_cases hzc : z=c
    · rw [if_pos hzc,if_pos (by simp [hzc])]
    · rw [if_neg hzc]
      by_cases hzl : z∈l.clist
      · rw [if_pos (by simp [hzl]),←hpl z hzl,Node.setPar_self]
      · rw [if_neg (by simp [hzl,hzc])]
        by_cases hzr : z∈rc
        · rw [if_pos hzr,←hpr z hzr,Node.setPar_self]
        · rw [if_neg hzr]

/-- Moving the first pair of a leaf to the leaf before it. -/
theorem tranR2L_leaf {l : Leaf ℤ ν (Option ℕ)} {p q : KeyValue ℤ ν} {vs : List (KeyValue ℤ ν)}
    {bro v : Option ℕ} (hn : s.node x=.inter n) (ha : n.clist[j]?=some a)
    (hb : n.clist[j+1]?=some b) (hk : n.ilist[j]?=some k) (hl : s.node a=.leaf l)
    (hr : s.node b=.leaf ⟨p::q::vs,bro,v⟩) (hab : a≠b) (hax : a≠x) (hbx : b≠x) :
    ∃ s',tranR2L s x j=.ok s' ∧ s'.leaf=s.leaf ∧ Moved s s' x a b n j k q.key
      (.leaf {l with vlist := l.vlist++[p]}) (.leaf ⟨q::vs,bro,v⟩) := by
  obtain ⟨hj,-⟩ := List.getElem?_eq_some_iff.mp hk
  obtain ⟨s1,hs1⟩ : ∃ s1,s1=s.set a (.leaf {l with vlist := l.vlist++[p]}) := ⟨_,rfl⟩
  obtain ⟨s2,hs2⟩ : ∃ s2,s2=s1.set b (.leaf ⟨q::vs,bro,v⟩) := ⟨_,rfl⟩
  have h1b : s1.node b=.leaf ⟨p::q::vs,bro,v⟩ := by
    simp [hs1,set_node,hab.symm,hr]
  have h2b : s2.node b=.leaf ⟨q::vs,bro,v⟩ := by
    simp [hs2]
  have h2x : s2.node x=.inter n := by
    simp [hs2,hs1,set_node,hax.symm,hbx.symm,hn]
  have hrun : tranR2L s x j=.ok (s2.set x (.inter {n with ilist := n.ilist.set j q.key})) := by
    have hp : item (p::q::vs) 0=.ok p := rfl
    have hq : item (q::vs) 0=.ok q := rfl
    have hrem : remove (fun q => eq q (.pair p)) (p::q::vs)=.ok (q::vs) :=
      remove_head (by simp [eq]) _
    rw [tranR2L]
    simp only [inter_eq hn,ok_bind,item_some ha,item_some hb,hl,leafNode_eq hr,hp,modLeaf_eq hl,
      pure_bind,←hs1]
    simp only [modLeaf_eq h1b,hrem,ok_bind,pure_bind,←hs2]
    simp only [leafNode_eq h2b,ok_bind,hq,modInter_eq h2x,setInt_ok hj,pure_bind]
  refine ⟨_,hrun,by rw [Tree.set_leaf,hs2,Tree.set_leaf,hs1]; rfl,
    by rw [Tree.set_root,hs2,Tree.set_root,hs1]; rfl,
    by rw [Tree.set_next,hs2,Tree.set_next,hs1]; rfl,hn,ha,hb,hk,?_,?_,?_,?_⟩
  · simp
  · simp [hs2,hs1,set_node,hab,hax]
  · simp [hs2,set_node,hbx]
  · intro z hzx hza hzb
    rw [Node.ids_items_leaf rfl,Node.ids_items_leaf rfl]
    simp [hs2,hs1,set_node,hzx,hza,hzb]

/-- Moving the last child of an internal node to the node behind it. -/
theorem tranL2R_inter {c : ℕ} {li : List ℤ} {lc : List ℕ} {v : Option ℕ} {r : InterNode ℤ}
    (hn : s.node x=.inter n) (ha : n.clist[j]?=some a) (hb : n.clist[j+1]?=some b)
    (hk : n.ilist[j]?=some k) (hl : s.node a=.inter ⟨li++[k'],lc++[c],v⟩) (hr : s.node b=.inter r)
    (hab : a≠b) (hax : a≠x) (hbx : b≠x) (hca : c≠a) (hcb : c≠b) (hcx : c≠x)
    (hlc : lc.length=li.length+1) (hr' : r.clist.length=r.ilist.length+1)
    (hpl : ∀ z ∈ lc,(s.node z).par=some a) (hpr : ∀ z ∈ r.clist,(s.node z).par=some b)
    (hclc : c∉lc) :
    ∃ s',tranL2R s x j=.ok s' ∧ s'.leaf=s.leaf ∧ Moved s s' x a b n j k k'
      (.inter ⟨li,lc,v⟩) (.inter {r with ilist := k::r.ilist,clist := c::r.clist}) := by
  obtain ⟨hj,-⟩ := List.getElem?_eq_some_iff.mp hk
  obtain ⟨s2,hs2⟩ : ∃ s2,s2=(s.set b (.inter {r with clist := c::r.clist})).setPar c (some b) :=
    ⟨_,rfl⟩
  obtain ⟨s3,hs3⟩ : ∃ s3,s3=s2.set b (.inter {r with ilist := k::r.ilist,clist := c::r.clist}) :=
    ⟨_,rfl⟩
  obtain ⟨s4,hs4⟩ : ∃ s4,s4=s3.set x (.inter {n with ilist := n.ilist.set j k'}) := ⟨_,rfl⟩
  have h2x : s2.node x=.inter n := by
    simp [hs2,Tree.setPar_node,set_node,hcx.symm,hbx.symm,hn]
  have h2b : s2.node b=.inter {r with clist := c::r.clist} := by
    simp [hs2,Tree.setPar_node,hcb.symm]
  have h3a : s3.node a=.inter ⟨li++[k'],lc++[c],v⟩ := by
    simp [hs3,hs2,Tree.setPar_node,set_node,hca.symm,hab,hl]
  have h3x : s3.node x=.inter n := by
    simp [hs3,set_node,hbx.symm,h2x]
  have h4a : s4.node a=.inter ⟨li++[k'],lc++[c],v⟩ := by
    simp [hs4,set_node,hax,h3a]
  have hrun : tranL2R s x j=.ok (s4.set a (.inter ⟨li,lc,v⟩)) := by
    have hb' : itemInt n.clist ((j:ℤ)+1)=.ok b := by
      have := itemInt_some hb
      rwa [Nat.cast_add,Nat.cast_one] at this
    rw [tranL2R]
    simp only [inter_eq hn,ok_bind,itemInt_some ha,hb',hl,itemInt_last,modInter_eq hr,
      pure_bind,←hs2]
    simp only [inter_eq h2x,ok_bind,itemInt_some hk,modInter_eq h2b,pure_bind,←hs3]
    simp only [inter_eq h3a,ok_bind,itemInt_last,modInter_eq h3x,setInt_ok hj,pure_bind,←hs4]
    simp only [modInter_eq h4a,pop_concat,ok_bind,pure_bind]
  refine ⟨_,hrun,by rw [Tree.set_leaf,hs4,Tree.set_leaf,hs3,Tree.set_leaf,hs2]; rfl,
    by rw [Tree.set_root,hs4,Tree.set_root,hs3,Tree.set_root,hs2]; rfl,
    by rw [Tree.set_next,hs4,Tree.set_next,hs3,Tree.set_next,hs2]; rfl,hn,ha,hb,hk,?_,?_,?_,?_⟩
  · simp [hs4,set_node,hax.symm]
  · simp
  · simp [hs4,hs3,set_node,hab.symm,hbx]
  · intro z hzx hza hzb
    rw [Node.ids_items_inter hlc,Node.ids_items_inter (by simp; omega)]
    have hz : (s4.set a (.inter ⟨li,lc,v⟩)).node z=
        if z=c then (s.node z).setPar (some b) else s.node z := by
      simp [hs4,hs3,hs2,set_node,Tree.setPar_node,hzx,hza,hzb]
    rw [hz]
    by_cases hzc : z=c
    · rw [if_pos hzc,if_neg (by rw [hzc]; exact hclc),if_pos (by simp [hzc])]
    · rw [if_neg hzc]
      by_cases hzl : z∈lc
      · rw [if_pos hzl,←hpl z hzl,Node.setPar_self]
      · rw [if_neg hzl]
        by_cases hzr : z∈r.clist
        · rw [if_pos (by simp [hzr]),←hpr z hzr,Node.setPar_self]
        · rw [if_neg (by simp [hzr,hzc])]

/-- Moving the last pair of a leaf to the leaf behind it. -/
theorem tranL2R_leaf {r : Leaf ℤ ν (Option ℕ)} {p : KeyValue ℤ ν} {vs : List (KeyValue ℤ ν)}
    {bro v : Option ℕ} (hn : s.node x=.inter n) (ha : n.clist[j]?=some a)
    (hb : n.clist[j+1]?=some b) (hk : n.ilist[j]?=some k) (hl : s.node a=.leaf ⟨vs++[p],bro,v⟩)
    (hr : s.node b=.leaf r) (hab : a≠b) (hax : a≠x) (hbx : b≠x) :
    ∃ s',tranL2R s x j=.ok s' ∧ s'.leaf=s.leaf ∧ Moved s s' x a b n j k p.key
      (.leaf ⟨vs,bro,v⟩) (.leaf {r with vlist := p::r.vlist}) := by
  obtain ⟨hj,-⟩ := List.getElem?_eq_some_iff.mp hk
  obtain ⟨s1,hs1⟩ : ∃ s1,s1=s.set b (.leaf {r with vlist := p::r.vlist}) := ⟨_,rfl⟩
  obtain ⟨s2,hs2⟩ : ∃ s2,s2=s1.set a (.leaf ⟨vs,bro,v⟩) := ⟨_,rfl⟩
  have h1a : s1.node a=.leaf ⟨vs++[p],bro,v⟩ := by
    simp [hs1,set_node,hab,hl]
  have h2b : s2.node b=.leaf {r with vlist := p::r.vlist} := by
    simp [hs2,hs1,set_node,hab.symm]
  have h2x : s2.node x=.inter n := by
    simp [hs2,hs1,set_node,hax.symm,hbx.symm,hn]
  have hrun : tranL2R s x j=.ok (s2.set x (.inter {n with ilist := n.ilist.set j p.key})) := by
    have hb' : itemInt n.clist ((j:ℤ)+1)=.ok b := by
      have := itemInt_some hb
      rwa [Nat.cast_add,Nat.cast_one] at this
    have hp : item (p::r.vlist) 0=.ok p := rfl
    rw [tranL2R]
    simp only [inter_eq hn,ok_bind,itemInt_some ha,hb',hl,itemInt_last,modLeaf_eq hr,pure_bind,←hs1]
    simp only [modLeaf_eq h1a,pop_concat,ok_bind,pure_bind,←hs2]
    simp only [leafNode_eq h2b,ok_bind,hp,modInter_eq h2x,setInt_ok hj,pure_bind]
  refine ⟨_,hrun,by rw [Tree.set_leaf,hs2,Tree.set_leaf,hs1]; rfl,
    by rw [Tree.set_root,hs2,Tree.set_root,hs1]; rfl,
    by rw [Tree.set_next,hs2,Tree.set_next,hs1]; rfl,hn,ha,hb,hk,?_,?_,?_,?_⟩
  · simp
  · simp [hs2,set_node,hax]
  · simp [hs2,hs1,set_node,hab.symm,hbx]
  · intro z hzx hza hzb
    rw [Node.ids_items_leaf rfl,Node.ids_items_leaf rfl]
    simp [hs2,hs1,set_node,hzx,hza,hzb]

/-- Removing a value from an ordered list removes it at any of its positions. -/
theorem eraseP_sorted {u w : List ℤ} (hs : (u++k::w).Pairwise fun a b => a ≤ b) :
    (u++k::w).eraseP (fun i => decide (i=k))=u++w := by
  induction u with
  | nil => exact List.eraseP_cons_of_pos (by simp)
  | cons i u ih =>
    rw [List.cons_append,List.pairwise_cons] at hs
    by_cases hik : i=k
    · subst hik
      have hall : ∀ t ∈ u,t=i := fun t ht => by
        have h1 := hs.1 t (by simp [ht])
        have h2 := (List.pairwise_append.mp hs.2).2.2 t ht i (by simp)
        omega
      rw [List.cons_append,List.eraseP_cons_of_pos (by simp),List.eq_replicate_of_mem hall,
        ←List.singleton_append (x:=i) (l:=w),←List.append_assoc,←List.replicate_succ']
      rfl
    · rw [List.cons_append,List.eraseP_cons_of_neg (by simpa using hik),ih hs.2]
      rfl

/-- Merging a leaf with the next one. -/
theorem merge_leaf {l r : Leaf ℤ ν (Option ℕ)} (hn : s.node x=.inter n)
    (hlen : n.clist.length=n.ilist.length+1) (hsort : n.ilist.Pairwise fun a b => a ≤ b)
    (hnd : n.clist.Nodup) (ha : n.clist[j]?=some a) (hb : n.clist[j+1]?=some b)
    (hk : n.ilist[j]?=some k) (hl : s.node a=.leaf l) (hr : s.node b=.leaf r) (hax : a≠x) :
    ∃ s',Merged s s' x a b n j k (.leaf {l with vlist := l.vlist++r.vlist,bro := r.bro}) ∧
      (n.ilist.eraseIdx j=[] → n.clist.eraseIdx (j+1)=[a]) ∧
      merge s x j=if n.ilist.eraseIdx j=[] then .ok ({s'.setPar a none with root := a},a)
        else .ok (s',x) := by
  obtain ⟨c1,c2,k1,k2,hc,hk',hc1,hk1,hk2⟩ := InterNode.around_two hlen ha hb hk
  obtain ⟨s1,hs1⟩ : ∃ s1,s1=s.set a (.leaf {l with vlist := l.vlist++r.vlist,bro := r.bro}) := ⟨_,rfl⟩
  have h1x : s1.node x=.inter n := by
    simp [hs1,set_node,hax.symm,hn]
  have hik : n.ilist.eraseIdx j=k1++k2 := by
    rw [hk',List.eraseIdx_append_of_length_le (by omega),hk1,Nat.sub_self]
    rfl
  have hic : n.clist.eraseIdx (j+1)=c1++a::c2 := by
    rw [hc,List.eraseIdx_append_of_length_le (by omega),hc1,show j+1-j=1 by omega]
    rfl
  have hremk : remove (fun i => decide (i=k)) n.ilist=.ok (n.ilist.eraseIdx j) := by
    unfold remove
    rw [if_pos (by rw [hk']; simp),hik]
    rw [hk'] at hsort ⊢
    rw [eraseP_sorted hsort]
  have hremc : remove (fun d => decide (d=b)) n.clist=.ok (n.clist.eraseIdx (j+1)) := by
    unfold remove
    rw [if_pos (by rw [hc]; simp),hic]
    rw [hc,List.nodup_append] at hnd
    have hba : a≠b := by
      intro hab
      have := hnd.2.1
      simp [hab] at this
    have hb1 : ∀ t ∈ c1,¬decide (t=b)=true := fun t ht => by
      simpa using hnd.2.2 t ht b (by simp)
    rw [hc,List.eraseP_append_right _ hb1,List.eraseP_cons_of_neg (by simpa using hba),
      List.eraseP_cons_of_pos (by simp)]
  have hone : n.ilist.eraseIdx j=[] → n.clist.eraseIdx (j+1)=[a] := by
    intro hnil
    obtain ⟨hk1',hk2'⟩ := List.append_eq_nil_iff.mp (hik.symm.trans hnil)
    have hc1' : c1=[] := List.length_eq_zero_iff.mp (by rw [hc1,←hk1,hk1']; rfl)
    have hc2' : c2=[] := List.length_eq_zero_iff.mp (by rw [←hk2,hk2']; rfl)
    rw [hic,hc1',hc2']
    rfl
  refine ⟨s1.set x (.inter {n with ilist := n.ilist.eraseIdx j,clist := n.clist.eraseIdx (j+1)}),
    ⟨by rw [Tree.set_root,hs1]; rfl,by rw [Tree.set_next,hs1]; rfl,hn,ha,hb,hk,?_,?_,?_⟩,hone,?_⟩
  · simp
  · simp [hs1,set_node,hax]
  · intro z hzx hza
    simp [hs1,set_node,hzx,hza]
  · rw [merge]
    simp only [inter_eq hn,ok_bind,item_some ha,hl,item_some hb,leafNode_eq hr,modLeaf_eq hl,
      pure_bind,←hs1]
    simp only [inter_eq h1x,ok_bind,item_some hb,hremc,item_some hk,hremk]
    split
    · rename_i hnil
      rw [hone hnil]
      rfl
    · rfl

end Steps

end StudyCode.Bplus.V1
