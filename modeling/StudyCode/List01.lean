import StudyCode.LinkedHeap

/-!
# The sequence of list_01

The list has a header node and ends with NULL. Every operation computes the
length again. An insertion is admitted up to one position behind the last
one, but the node for that position is not found; on a list with nodes the
search result NULL is then dereferenced. All other calls behave as on an
abstract sequence.
-/

namespace StudyCode.List01

open Linked

variable {α : Type}

/-! ## The functions of list.c -/

/-- init_list with the node that malloc returns; its element is not set. -/
def initList (h : Heap α) (s : ℕ) (junk : α) : Heap α := h.alloc s ⟨junk,none,none⟩

/-- The loop of list_length; none when it does not end. -/
def lengthLoop (h : Heap α) : ℕ → Option ℕ → ℤ → Option ℤ
  | 0,_,_ => none
  | _+1,none,i => some i
  | n+1,some p,i => (h.next p).bind fun q => lengthLoop h n q (i+1)

/-- list_length. A list that ends visits no more nodes than the heap has. -/
def listLength (h : Heap α) (list : Option ℕ) : Option ℤ :=
  if list=none then some (-1)
  else (h.getNext list).bind fun p => lengthLoop h (h.used+1) p 0

/-- list_empty. -/
def listEmpty (h : Heap α) (list : Option ℕ) : Option ℤ :=
  if list=none then some (-1)
  else (h.getNext list).bind fun n =>
    if n=none then (h.getPrev list).map fun p => if p=none then 1 else 0 else some 0

/-- The loop of get_elem_node. -/
def walk (h : Heap α) : ℕ → Option ℕ → Option (Option ℕ)
  | 0,p => some p
  | j+1,p => (h.getNext p).bind (walk h j)

/-- get_elem_node. -/
def getElemNode (h : Heap α) (list : Option ℕ) (i : ℤ) : Option (Option ℕ) :=
  if list=none then some none
  else (listLength h list).bind fun len =>
    if i < 1 ∨ len < i then some none else walk h i.toNat list

/-- list_insert into an empty list. -/
def insertEmpty (h : Heap α) (list : Option ℕ) (s : ℕ) : Option (Heap α) := do
  let h ← h.setPrev (some s) list
  let h ← h.setNext (some s) none
  h.setNext list (some s)

/-- list_insert before the first node. -/
def insertFront (h : Heap α) (list : Option ℕ) (s : ℕ) : Option (Heap α) := do
  let h ← h.setNext (some s) (← h.getNext list)
  let h ← h.setPrev (some s) list
  let h ← h.setPrev (← h.getNext list) (some s)
  h.setNext list (some s)

/-- list_insert behind the last node. -/
def insertLast (h : Heap α) (p : Option ℕ) (s : ℕ) : Option (Heap α) := do
  let h ← h.setNext (some s) none
  let h ← h.setPrev (some s) p
  h.setNext p (some s)

/-- list_insert behind another node. -/
def insertMiddle (h : Heap α) (p : Option ℕ) (s : ℕ) : Option (Heap α) := do
  let h ← h.setPrev (some s) p
  let h ← h.setNext (some s) (← h.getNext p)
  let h ← h.setPrev (← h.getNext p) (some s)
  h.setNext p (some s)

/-- The branches of list_insert for a new node. -/
def insertNode (h : Heap α) (list : Option ℕ) (i : ℤ) (s : ℕ) : Option (Heap α) := do
  let first ← h.getNext list
  if first=none then insertEmpty h list s
  else if i=0 then insertFront h list s
  else
    let len ← listLength h list
    let p ← getElemNode h list i
    if i=len then insertLast h p s else insertMiddle h p s

/-- list_insert; none for an access through NULL. -/
def listInsert (malloc : Heap α → ℕ) (h : Heap α) (list : Option ℕ) (i : ℤ) (e : α) :
    Option (Heap α × ℤ) :=
  if list=none then some (h,-1)
  else (listLength h list).bind fun len =>
    if i < 0 ∨ len+1 < i then some (h,-1)
    else (insertNode (h.alloc (malloc h) ⟨e,none,none⟩) list i (malloc h)).map fun k => (k,1)

/-- list_delete of the last node: the new heap and the element. -/
def deleteLast (h : Heap α) (p : Option ℕ) : Option (Heap α × α) := do
  let h ← h.setNext (← h.getPrev p) none
  let e ← h.getData p
  let h ← h.free p
  return (h,e)

/-- list_delete of another node. -/
def deleteMiddle (h : Heap α) (p : Option ℕ) : Option (Heap α × α) := do
  let h ← h.setNext (← h.getPrev p) (← h.getNext p)
  let h ← h.setPrev (← h.getNext p) (← h.getPrev p)
  let e ← h.getData p
  let h ← h.free p
  return (h,e)

/-- list_delete: the heap, the return value and the element if it is set. -/
def listDelete (h : Heap α) (list : Option ℕ) (i : ℤ) : Option (Heap α × ℤ × Option α) :=
  if list=none then some (h,-1,none)
  else (listLength h list).bind fun len =>
    if i < 1 ∨ len < i then some (h,-1,none)
    else (h.getNext list).bind fun first =>
      if first=none then some (h,0,none)
      else (getElemNode h list i).bind fun p =>
        if p=none then some (h,0,none)
        else (if i=len then deleteLast h p else deleteMiddle h p).map fun r => (r.1,1,some r.2)

/-! ## The abstract sequence -/

/-- A call. -/
inductive Call (α : Type) where
  /-- list_insert. -/
  | insert (i : ℤ) (e : α)
  /-- list_delete. -/
  | delete (i : ℤ)

/-- What a call gives back: its return value and the element if it is set. -/
abbrev Answer (α : Type) := ℤ × Option α

/-- A call on the list in a heap. -/
def call (malloc : Heap α → ℕ) (h : Heap α) (list : ℕ) : Call α → Option (Heap α × Answer α)
  | .insert i e => (listInsert malloc h (some list) i e).map fun r => (r.1,r.2,none)
  | .delete i => listDelete h (some list) i

/-- A call on a sequence. -/
def callSpec (es : List α) : Call α → List α × Answer α
  | .insert i e =>
    if i < 0 ∨ es.length+1 < i then (es,-1,none)
    else (es.take i.toNat++e::es.drop i.toNat,1,none)
  | .delete i =>
    if i < 1 ∨ es.length < i then (es,-1,none)
    else (es.eraseIdx (i.toNat-1),1,es[i.toNat-1]?)

/-- The elements read along next; none when they do not end. -/
def elements (h : Heap α) : ℕ → Option ℕ → Option (List α)
  | 0,_ => none
  | _+1,none => some []
  | n+1,some p => (h.data p).bind fun e =>
    (h.next p).bind fun q => (elements h n q).map fun l => e::l

/-- The addresses read along next from an address on. -/
inductive Reached (h : Heap α) (list : ℕ) : ℕ → Prop where
  /-- The header. -/
  | header : Reached h list list
  /-- The node behind an address. -/
  | next {p q : ℕ} (hp : Reached h list p) (hq : h.next p=some (some q)) : Reached h list q

/-- The list in a heap shows a sequence: its elements, its length, whether it
is empty, and the link back from every successor. -/
structure Shows (h : Heap α) (list : ℕ) (es : List α) : Prop where
  /-- The elements. -/
  elements : ((h.next list).bind fun p => elements h (h.used+1) p)=some es
  /-- The length. -/
  length : listLength h (some list)=some (es.length : ℤ)
  /-- Emptiness. -/
  empty : listEmpty h (some list)=some (if es.isEmpty then 1 else 0)
  /-- The links back. -/
  back : ∀ p q,Reached h list p → h.next p=some (some q) → h.prev q=some (some p)

/-- Every state of the calls shows the abstract sequence, every call gives
the abstract answer, and a rejected call leaves the heap as it was. -/
def Meets (malloc : Heap α → ℕ) (list : ℕ) : Heap α → List α → List (Call α) → Prop
  | h,es,[] => Shows h list es
  | h,es,c::cs => Shows h list es ∧ ∃ k,call malloc h list c=some (k,(callSpec es c).2) ∧
      ((callSpec es c).2.1=-1 → k=h) ∧ Meets malloc list k (callSpec es c).1 cs

/-- The call does not insert one position behind the last node of a list with
nodes. -/
def ClearCall (es : List α) : Call α → Prop
  | .insert i _ => ¬(es≠[] ∧ i=es.length+1)
  | .delete _ => True

/-- Every call of a run is clear. -/
def Clear : List α → List (Call α) → Prop
  | _,[] => True
  | es,c::cs => ClearCall es c ∧ Clear (callSpec es c).1 cs

end StudyCode.List01
