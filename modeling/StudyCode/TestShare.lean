import StudyCode.ChunxiaoListDeque

/-!
# The registry of test functions

`ewx_test_register` appends to a ring around `g_test_list`, and list.h links
with the writes of chunxiao_list. `ewx_test_destroy` frees a node and then
reads the link to the next one in it.
-/

namespace StudyCode.TestShare

open Linked ChunxiaoList

variable {α : Type} {malloc : Heap α → ℕ} {h k : Heap α} {head n : ℕ} {as : List ℕ}
  {fs gs : List α} {f : α} {i : Option ℕ}

/-! ## The program -/

/-- LIST_POISON1. -/
def listPoison1 : ℕ := 0x00811208

/-- LIST_POISON2. -/
def listPoison2 : ℕ := 0x00821222

/-- list_add_tail. -/
def listAddTail (h : Heap α) (new head : Option ℕ) : Option (Heap α) := do
  let prev ← h.getPrev head
  listAddBetween h new prev head

/-- list_del. -/
def listDel (h : Heap α) (entry : Option ℕ) : Option (Heap α) := do
  let h ← listDelete h entry
  let h ← h.setNext entry (some listPoison1)
  h.setPrev entry (some listPoison2)

/-- LIST_HEAD(g_test_list); the head has no function. -/
def gTestList (h : Heap α) (head : ℕ) (junk : α) : Heap α :=
  h.alloc head ⟨junk,some head,some head⟩

/-- `ewx_test_register`. -/
def ewxTestRegister (malloc : Heap α → ℕ) (head : ℕ) (h : Heap α) (f : α) : Option (Heap α) :=
  let p := malloc h
  listAddTail (h.alloc p ⟨f,none,none⟩) (some p) (some head)

/-- A sequence of calls of `ewx_test_register`. -/
def registerAll (malloc : Heap α → ℕ) (head : ℕ) (h : Heap α) (fs : List α) : Option (Heap α) :=
  fs.foldlM (ewxTestRegister malloc head) h

/-- `ewx_test_init`: the functions that are called. -/
def ewxTestInit (h : Heap α) (head fuel : ℕ) : Option (List α) :=
  (h.getNext (some head)).bind (elements h head fuel)

/-- The loop of `ewx_test_destroy`. -/
def destroyLoop (head : ℕ) : ℕ → Option ℕ → Heap α → Option (Heap α)
  | 0,_,_ => none
  | n+1,i,h =>
    if i=some head then some h
    else do
      let h ← listDel h i
      let h ← h.free i
      -- i = i->next of list_for_each, behind free(p)
      let i ← h.getNext i
      destroyLoop head n i h

/-- `ewx_test_destroy`. -/
def ewxTestDestroy (h : Heap α) (head fuel : ℕ) : Option (Heap α) :=
  (h.getNext (some head)).bind fun i => destroyLoop head fuel i h

/-! ## The life of the registry -/

/-- `ewx_test_init` ends and calls these functions. -/
def Inits (h : Heap α) (head : ℕ) (fs : List α) : Prop :=
  ∃ n,∀ fuel ≥ n,ewxTestInit h head fuel=some fs

/-- `ewx_test_destroy` ends, has freed these nodes and leaves an empty ring. -/
def Destroys (h : Heap α) (head : ℕ) (as : List ℕ) : Prop :=
  ∃ n k,(∀ fuel ≥ n,ewxTestDestroy h head fuel=some k) ∧ (∀ a ∈ as,k.node a=none) ∧
    k.used+as.length=h.used ∧ Inv k head [] []

/-- The functions are registered in a ring of nodes, each is called once in
their order, and the nodes are all freed. -/
def LifeCycle (malloc : Heap α → ℕ) (head : ℕ) (h : Heap α) (fs : List α) : Prop :=
  ∃ k as,registerAll malloc head h fs=some k ∧ Inv k head as fs ∧ Inits k head fs ∧
    Destroys k head as

/-! ## Registration and the calls -/

/-- A registration is an insertion into a list without a locker. -/
theorem ewxTestRegister_eq (malloc : Heap α → ℕ) (head : ℕ) (h : Heap α) (f : α) :
    ewxTestRegister malloc head h f=
      (ChunxiaoList.listAddTail malloc (some ⟨head,false,false⟩) ⟨h,[]⟩ f).map fun r => r.1.heap := by
  rw [ewxTestRegister,TestShare.listAddTail,ChunxiaoList.listAddTail]
  dsimp only
  rw [addLocked,dlistLock_heap,Option.bind_eq_bind,Option.bind_map,Option.map_bind]
  congr 1
  funext prev
  rw [Function.comp_apply,Function.comp_apply,Option.map_map]
  exact Option.map_id_apply.symm

/-- Registering appends one node. -/
theorem ewxTestRegister_inv (hm : Succeeds malloc) (hi : Inv h head as fs) (f : α) :
    ∃ k bs,ewxTestRegister malloc head h f=some k ∧ Inv k head bs (fs++[f]) := by
  have hi2 : Inv (State.mk h []).heap (ListT.mk head false false).head as fs := hi
  obtain ⟨τ,bs,hτ,hinv⟩ := listAddTail_inv hm hi2 f
  exact ⟨τ.heap,bs,by rw [ewxTestRegister_eq,hτ,Option.map_some],hinv⟩

/-- Registering several appends them in order. -/
theorem registerAll_inv (hm : Succeeds malloc) (hi : Inv h head as gs) (fs : List α) :
    ∃ k bs,registerAll malloc head h fs=some k ∧ Inv k head bs (gs++fs) := by
  induction fs generalizing h as gs with
  | nil => exact ⟨h,as,rfl,by rwa [List.append_nil]⟩
  | cons f fs ih =>
    obtain ⟨k,bs,hk,hinv⟩ := ewxTestRegister_inv hm hi f
    obtain ⟨k2,cs,hk2,hinv2⟩ := ih hinv
    refine ⟨k2,cs,?_,by rwa [List.append_assoc] at hinv2⟩
    rw [registerAll,List.foldlM_cons,hk]
    exact hk2

/-- The list is empty at the start. -/
theorem gTestList_inv (hb : h.Bounded) (head : ℕ) (junk : α) :
    Inv (gTestList h head junk) head [] [] :=
  listCreate_inv (σ:=⟨h,[]⟩) hb junk false false

/-- The registered functions are called in their order. -/
theorem inits_of_inv (hi : Inv h head as fs) : Inits h head fs := by
  refine ⟨as.length+1,?_⟩
  intro fuel hfuel
  rw [ewxTestInit,Heap.getNext_some,next_of_path hi.ring.path,Option.bind_some]
  exact elements_eq (List.IsChain.of_cons hi.ring.path) (List.nodup_cons.mp hi.ring.nodup).1
    hi.data hfuel

/-! ## The end -/

/-- The loop never comes past a node: its link is read when it has been freed. -/
theorem destroyLoop_node (hne : i≠some head) (n : ℕ) (h : Heap α) :
    destroyLoop head n i h=none := by
  cases n with
  | zero => rfl
  | succ n =>
    rw [destroyLoop,if_neg hne,Option.bind_eq_bind,Option.bind_eq_none_iff]
    intro k1 _
    rw [Option.bind_eq_bind,Option.bind_eq_none_iff]
    intro k2 hfree
    obtain ⟨a,rfl,hfree⟩ := Option.bind_eq_some_iff.mp hfree
    obtain ⟨node,-,rfl⟩ := Option.map_eq_some_iff.mp hfree
    rw [Heap.getNext_some,Heap.next_eq_none Heap.node_drop_self]
    rfl

/-- Only an empty registry is destroyed. -/
theorem destroys_iff_nil (hi : Inv h head as fs) : Destroys h head as ↔ fs=[] := by
  have hlen := hi.length_eq
  have hnext := next_of_path hi.ring.path
  constructor
  · rintro ⟨n,k,hk,-⟩
    have hrun := hk n le_rfl
    rw [ewxTestDestroy,Heap.getNext_some,hnext,Option.bind_some] at hrun
    cases as with
    | nil => exact List.length_eq_zero_iff.mp hlen.symm
    | cons a as =>
      have hne : (a::as++[head]).head?≠some head := by
        intro hhead
        rw [List.cons_append,List.head?_cons,Option.some.injEq] at hhead
        exact (List.nodup_cons.mp hi.ring.nodup).1 (hhead ▸ List.mem_cons_self)
      rw [destroyLoop_node hne] at hrun
      cases hrun
  · rintro rfl
    obtain rfl := List.length_eq_zero_iff.mp hlen
    refine ⟨1,h,?_,fun a ha => (List.not_mem_nil ha).elim,rfl,hi⟩
    intro fuel hfuel
    obtain ⟨fuel,rfl⟩ : ∃ j,fuel=j+1 := ⟨fuel-1,by omega⟩
    rw [ewxTestDestroy,Heap.getNext_some,hnext,Option.bind_some]
    exact if_pos rfl

/-- The life cycle is sound exactly when nothing is registered. -/
theorem lifeCycle_iff_nil (hm : Succeeds malloc) (hb : h.Bounded) (junk : α) (fs : List α) :
    LifeCycle malloc head (gTestList h head junk) fs ↔ fs=[] := by
  constructor
  · rintro ⟨k,as,-,hi,-,hd⟩
    exact (destroys_iff_nil hi).mp hd
  · intro hnil
    obtain ⟨k,as,hk,hi⟩ := registerAll_inv hm (gTestList_inv hb head junk) fs
    exact ⟨k,as,hk,hi,inits_of_inv hi,(destroys_iff_nil hi).mpr hnil⟩

/-- Every sequence of registrations succeeds and every function is called in
its turn, but the registry lives as it should if and only if nothing is
registered. -/
theorem lifeCycle_iff (malloc : Heap α → ℕ) (hm : Succeeds malloc) (h : Heap α)
    (hb : h.Bounded) (head : ℕ) (junk : α) (fs : List α) :
    (∃ k as,registerAll malloc head (gTestList h head junk) fs=some k ∧ Inv k head as fs ∧
        Inits k head fs) ∧
      (LifeCycle malloc head (gTestList h head junk) fs ↔ fs=[]) := by
  obtain ⟨k,as,hk,hi⟩ := registerAll_inv hm (gTestList_inv hb head junk) fs
  exact ⟨⟨k,as,hk,hi,inits_of_inv hi⟩,lifeCycle_iff_nil hm hb junk fs⟩

/-- The registry of no function lives as it should. Two functions are registered
and called, but their registry does not. -/
theorem lifeCycle_iff_two :
    LifeCycle behindAll 0 (gTestList (noNodes : Heap ℕ) 0 0) [] ∧
      (∃ k as,registerAll behindAll 0 (gTestList (noNodes : Heap ℕ) 0 0) [7,8]=some k ∧
        Inv k 0 as [7,8] ∧ Inits k 0 [7,8]) ∧
      ¬LifeCycle behindAll 0 (gTestList (noNodes : Heap ℕ) 0 0) [7,8] := by
  have hnone := lifeCycle_iff behindAll behindAll_succeeds noNodes noNodes_bounded 0 0 []
  have htwo := lifeCycle_iff behindAll behindAll_succeeds noNodes noNodes_bounded 0 0 [7,8]
  exact ⟨hnone.2.mpr rfl,htwo.1,fun h => List.cons_ne_nil 7 [8] (htwo.2.mp h)⟩

/-- The life of a single function ends with a link of a freed node. -/
theorem lifeCycle_one_false :
    ¬LifeCycle behindAll 0 (gTestList (noNodes : Heap ℕ) 0 0) [7] := by
  rw [lifeCycle_iff_nil behindAll_succeeds noNodes_bounded]
  exact List.cons_ne_nil 7 []

end StudyCode.TestShare
