import StudyCode.LinkedHeap

/-!
# The deque of chunxiao_list

The head of the list is a node of its ring; the list starts at the address of
its head. The calls of the locker and of data_destroy are recorded in the
order in which they happen. They touch neither the nodes nor the links.
-/

namespace StudyCode.ChunxiaoList

open Linked

variable {α : Type}

/-- The fields of a list besides its head. -/
structure ListT where
  /-- The address of the head and of the list. -/
  head : ℕ
  /-- Whether the locker is not NULL. -/
  locker : Bool
  /-- Whether data_destroy is not NULL. -/
  dataDestroy : Bool

/-- A call of the locker or of data_destroy. -/
inductive Event (α : Type) where
  /-- The function lock of the locker. -/
  | lock
  /-- The function unlock of the locker, or locker_loop_unlock. -/
  | unlock
  /-- The function data_destroy. -/
  | destroyData (d : α)
  /-- The function locker_loop_destroy. -/
  | destroyLocker

/-- The nodes and the calls so far. -/
structure State (α : Type) where
  /-- The nodes. -/
  heap : Heap α
  /-- The calls. -/
  log : List (Event α)

/-- comm_value_t. -/
inductive CommValue where
  /-- RET_OK. -/
  | ok
  /-- RET_NOMEM. -/
  | nomem
  /-- RET_STOP. -/
  | stop
  /-- RET_INVALID_PARAMS. -/
  | invalidParams
  /-- RET_FAIL. -/
  | fail
  deriving DecidableEq

/-- list_create at the address that malloc returns; the data of the head is
not set. -/
def listCreate (σ : State α) (head : ℕ) (junk : α) (dataDestroy locker : Bool) :
    State α × ListT :=
  (⟨σ.heap.alloc head ⟨junk,some head,some head⟩,σ.log⟩,⟨head,locker,dataDestroy⟩)

/-- The function __list_add. -/
def listAddBetween (h : Heap α) (new prev next : Option ℕ) : Option (Heap α) := do
  let h ← h.setPrev next new
  let h ← h.setNext new next
  let h ← h.setPrev new prev
  h.setNext prev new

/-- dlist_lock. -/
def dlistLock (thiz : ListT) (σ : State α) : State α :=
  if thiz.locker then ⟨σ.heap,σ.log++[.lock]⟩ else σ

/-- dlist_unlock. -/
def dlistUnlock (thiz : ListT) (σ : State α) : State α :=
  if thiz.locker then ⟨σ.heap,σ.log++[.unlock]⟩ else σ

/-- The end of list_add and list_add_tail: the node is linked in between two
others under the lock. -/
def addLocked (list : ListT) (σ : State α) (s : ℕ)
    (place : Heap α → Option (Option ℕ × Option ℕ)) : Option (State α × CommValue) :=
  let σ := dlistLock list σ
  (place σ.heap).bind fun (prev,next) =>
    (listAddBetween σ.heap (some s) prev next).map fun h => (dlistUnlock list ⟨h,σ.log⟩,.ok)

/-- list_add; node_create is the allocation. -/
def listAdd (malloc : Heap α → ℕ) (list : Option ListT) (σ : State α) (data : α) :
    Option (State α × CommValue) :=
  match list with
  | none => some (σ,.invalidParams)
  | some list =>
    let s := malloc σ.heap
    addLocked list ⟨σ.heap.alloc s ⟨data,none,none⟩,σ.log⟩ s fun h =>
      (h.getNext (some list.head)).map fun next => (some list.head,next)

/-- list_add_tail. -/
def listAddTail (malloc : Heap α → ℕ) (list : Option ListT) (σ : State α) (data : α) :
    Option (State α × CommValue) :=
  match list with
  | none => some (σ,.invalidParams)
  | some list =>
    let s := malloc σ.heap
    addLocked list ⟨σ.heap.alloc s ⟨data,none,none⟩,σ.log⟩ s fun h =>
      (h.getPrev (some list.head)).map fun prev => (prev,some list.head)

/-- list_destroy_data. -/
def listDestroyData (list : ListT) (log : List (Event α)) (data : α) : List (Event α) :=
  if list.dataDestroy then log++[.destroyData data] else log

/-- list_destroy_node. -/
def listDestroyNode (list : ListT) (σ : State α) (node : Option ℕ) : Option (State α) :=
  if node=none then some σ
  else do
    let h ← σ.heap.setNext node none
    let h ← h.setPrev node none
    let data ← h.getData node
    let k ← h.free node
    return ⟨k,listDestroyData list σ.log data⟩

/-- The function __list_del. -/
def listDelBetween (h : Heap α) (prev next : Option ℕ) : Option (Heap α) := do
  let h ← h.setPrev next prev
  h.setNext prev next

/-- list_delete. -/
def listDelete (h : Heap α) (entry : Option ℕ) : Option (Heap α) := do
  let prev ← h.getPrev entry
  let next ← h.getNext entry
  listDelBetween h prev next

/-- list_del_and_destroy_node. -/
def listDelAndDestroyNode (list : ListT) (σ : State α) (entry : Option ℕ) : Option (State α) :=
  (listDelete σ.heap entry).bind fun h => listDestroyNode list ⟨h,σ.log⟩ entry

/-- dlist_destroy_locker. -/
def dlistDestroyLocker (thiz : ListT) (σ : State α) : State α :=
  if thiz.locker then ⟨σ.heap,σ.log++[.unlock,.destroyLocker]⟩ else σ

/-- The loop of list_destroy; none when it does not end. -/
def destroyLoop (list : ListT) : ℕ → Option ℕ → State α → Option (State α)
  | 0,_,_ => none
  | n+1,iter,σ =>
    if iter=some list.head then some σ
    else (σ.heap.getNext iter).bind fun next =>
      (listDestroyNode list σ iter).bind fun σ => destroyLoop list n next σ

/-- list_destroy. A ring visits no more nodes than the heap has. -/
def listDestroy (list : Option ListT) (σ : State α) : Option (State α) :=
  match list with
  | none => some σ
  | some list => do
    let σ := dlistLock list σ
    let iter ← σ.heap.getNext (some list.head)
    let σ ← destroyLoop list (σ.heap.used+1) iter σ
    let h ← σ.heap.setNext (some list.head) (some list.head)
    let h ← h.setPrev (some list.head) (some list.head)
    let σ := dlistDestroyLocker list ⟨h,σ.log⟩
    let h ← σ.heap.free (some list.head)
    return ⟨h,σ.log⟩

/-- The loop of list_length. -/
def lengthLoop (h : Heap α) (head : ℕ) : ℕ → Option ℕ → ℕ → Option ℕ
  | 0,_,_ => none
  | n+1,iter,length => (h.getNext iter).bind fun next =>
    if next=some head then some length else lengthLoop h head n next (length+1)

/-- list_length. -/
def listLength (thiz : Option ListT) (σ : State α) : Option (State α × ℕ) :=
  match thiz with
  | none => some (σ,0)
  | some thiz =>
    let σ := dlistLock thiz σ
    (lengthLoop σ.heap thiz.head (σ.heap.used+1) (some thiz.head) 0).map fun length =>
      (dlistUnlock thiz σ,length)

/-! ## Calls and the abstract deque -/

/-- A call that stores a datum. -/
inductive Call (α : Type) where
  /-- list_add. -/
  | add (data : α)
  /-- list_add_tail. -/
  | addTail (data : α)

/-- A call on a list. -/
def call (malloc : Heap α → ℕ) (list : ListT) (σ : State α) : Call α → Option (State α × CommValue)
  | .add data => listAdd malloc (some list) σ data
  | .addTail data => listAddTail malloc (some list) σ data

/-- The calls of a run; none when one does not come back with RET_OK. -/
def calls (malloc : Heap α → ℕ) (list : ListT) : State α → List (Call α) → Option (State α)
  | σ,[] => some σ
  | σ,c::cs => (call malloc list σ c).bind fun r =>
    if r.2=.ok then calls malloc list r.1 cs else none

/-- A call on a deque. -/
def callSpec (ds : List α) : Call α → List α
  | .add data => data::ds
  | .addTail data => ds++[data]

/-- The data read along next until the head. -/
def elements (h : Heap α) (head : ℕ) : ℕ → Option ℕ → Option (List α)
  | 0,_ => none
  | n+1,iter =>
    if iter=some head then some []
    else (h.getData iter).bind fun d =>
      (h.getNext iter).bind fun q => (elements h head n q).map fun l => d::l

/-- The nodes at these addresses form one ring through the head: no address
occurs twice, and each is linked in both directions to the one behind it. -/
structure Ring (h : Heap α) (head : ℕ) (as : List ℕ) : Prop where
  /-- The links. -/
  path : Path h (head::as++[head])
  /-- The addresses. -/
  nodup : (head::as).Nodup

/-- The data of the nodes are a deque, and the functions see it. -/
structure Holds (list : ListT) (σ : State α) (as : List ℕ) (ds : List α) : Prop where
  /-- The ring. -/
  ring : Ring σ.heap list.head as
  /-- The data in the nodes. -/
  data : as.map σ.heap.data=ds.map some
  /-- The data along next. -/
  elements : ((σ.heap.next list.head).bind fun p => elements σ.heap list.head (σ.heap.used+1) p)=
    some ds

/-- The events of data_destroy for some data. -/
def destroyed (list : ListT) (ds : List α) : List (Event α) :=
  if list.dataDestroy then ds.map .destroyData else []

/-- The state of a list that holds a deque: list_length gives its size, every
single node can be unlinked and destroyed, and list_destroy ends after one
call of data_destroy for each datum, in order. -/
structure Deque (list : ListT) (σ : State α) (ds : List α) : Prop where
  /-- The ring and its data. -/
  holds : ∃ as,Holds list σ as ds
  /-- The length. -/
  length : listLength (some list) σ=
    some (dlistUnlock list (dlistLock list σ),ds.length)
  /-- One node less. -/
  unlink : ∀ p x m,Holds list σ (p++x::m) ds → ∃ k d,ds[p.length]?=some d ∧
    listDelAndDestroyNode list σ (some x)=some ⟨k,σ.log++destroyed list [d]⟩ ∧
    Holds list ⟨k,σ.log++destroyed list [d]⟩ (p++m) (ds.eraseIdx p.length)
  /-- The end. -/
  destroy : ∃ k,listDestroy (some list) σ=
    some ⟨k,(dlistDestroyLocker list
      ⟨σ.heap,(dlistLock list σ).log++destroyed list ds⟩).log⟩

end StudyCode.ChunxiaoList
