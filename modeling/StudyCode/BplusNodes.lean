import Mathlib.Logic.Function.Basic
import StudyCode.Bisect

/-!
# Nodes of the two B+ trees

Both Python trees keep their nodes as objects that refer to each other.
Here objects are numbered in the order of their creation, a tree holds the
object of every number, and references are numbers. The class of a node is
its constructor, so reading an attribute that the class does not have is an
error as it is in Python. Leaves of the two trees differ in the way they
refer to their brothers, which is a parameter. What the two trees write in
the same words is defined once.
-/

namespace StudyCode.Bplus

/-- Exceptions of the two programs. -/
inductive PyError where
  /-- A list index is out of range. -/
  | indexError
  /-- A list does not hold a value. -/
  | valueError
  /-- An object does not have an attribute. -/
  | attributeError
  /-- A constructor argument is refused. -/
  | initError
  /-- A search argument is refused. -/
  | paraError
  /-- The fuel of a recursion is used up. -/
  | recursionError
  deriving DecidableEq

/-- A key with its value. -/
structure KeyValue (κ ν : Type) where
  /-- Key. -/
  key : κ
  /-- Value. -/
  value : ν
  deriving DecidableEq

/-- Attributes of an internal node. -/
structure InterNode (κ : Type) where
  /-- Separators. -/
  ilist : List κ
  /-- Children. -/
  clist : List ℕ
  /-- Parent. -/
  par : Option ℕ

/-- Attributes of a leaf. -/
structure Leaf (κ ν β : Type) where
  /-- Pairs. -/
  vlist : List (KeyValue κ ν)
  /-- Brothers. -/
  bro : β
  /-- Parent. -/
  par : Option ℕ

/-- An object of one of the two classes. -/
inductive Node (κ ν β : Type) where
  /-- An internal node. -/
  | inter (n : InterNode κ)
  /-- A leaf. -/
  | leaf (n : Leaf κ ν β)

/-- The objects and the attributes of a tree. -/
structure Tree (κ ν β : Type) where
  /-- Object of every number. -/
  node : ℕ → Node κ ν β
  /-- Number of objects made so far. -/
  next : ℕ
  /-- The root. -/
  root : ℕ
  /-- The first leaf. -/
  leaf : ℕ

variable {κ ν β : Type}

namespace Node

/-- Parent of a node. -/
def par : Node κ ν β → Option ℕ
  | inter n => n.par
  | leaf n => n.par

/-- Assignment to the parent of a node. -/
def setPar (p : Option ℕ) : Node κ ν β → Node κ ν β
  | inter n => inter {n with par := p}
  | leaf n => leaf {n with par := p}

/-- The class test. -/
def isleaf : Node κ ν β → Bool
  | inter _ => false
  | leaf _ => true

end Node

/-! ## Lists of Python -/

/-- Insertion before a position. -/
def insertAt {α : Type} (l : List α) (i : ℕ) (a : α) : List α := l.take i++a::l.drop i

/-- Element at a position. -/
def item {α : Type} (l : List α) (i : ℕ) : Except PyError α :=
  match l[i]? with
  | some a => .ok a
  | none => .error .indexError

/-- Position of an object. -/
def index (l : List ℕ) (x : ℕ) : Except PyError ℕ :=
  if x∈l then .ok (l.idxOf x) else .error .valueError

/-- Position behind the elements that are not greater than a key. -/
def bisectRight {α : Type} [LinearOrder κ] (key : α → κ) (l : List α) (k : κ) : ℕ :=
  Bisect.bisect (fun a => decide (k < key a)) l

/-- Position of the first element that is not less than a key. -/
def bisectLeft {α : Type} [LinearOrder κ] (key : α → κ) (l : List α) (k : κ) : ℕ :=
  Bisect.bisect (fun a => decide (¬key a < k)) l

/-- A call that succeeds hands its value on. -/
theorem ok_bind {α β : Type} (a : α) (f : α → Except PyError β) :
    (Except.ok a >>= f)=f a := rfl

/-! ## Objects -/

namespace Tree

/-- Attributes of an object that has to be an internal node. -/
def inter (s : Tree κ ν β) (x : ℕ) : Except PyError (InterNode κ) :=
  match s.node x with
  | .inter n => .ok n
  | .leaf _ => .error .attributeError

/-- Attributes of an object that has to be a leaf. -/
def leafNode (s : Tree κ ν β) (x : ℕ) : Except PyError (Leaf κ ν β) :=
  match s.node x with
  | .inter _ => .error .attributeError
  | .leaf n => .ok n

/-- Assignment to an object. -/
def set (s : Tree κ ν β) (x : ℕ) (n : Node κ ν β) : Tree κ ν β :=
  {s with node := Function.update s.node x n}

/-- Assignment to the parent of an object. -/
def setPar (s : Tree κ ν β) (x : ℕ) (p : Option ℕ) : Tree κ ν β := s.set x ((s.node x).setPar p)

/-- Creation of an object. -/
def new (s : Tree κ ν β) (n : Node κ ν β) : Tree κ ν β×ℕ :=
  ({s with node := Function.update s.node s.next n,next := s.next+1},s.next)

/-- Creation of an internal node, which refuses a small order. -/
def newInter (M : ℕ) (s : Tree κ ν β) (n : InterNode κ) : Except PyError (Tree κ ν β×ℕ) :=
  if M ≤ 3 then .error .initError else .ok (s.new (.inter n))

/-- Assignment to the parent of every object of a list. -/
def adopt (s : Tree κ ν β) (p : ℕ) (c : List ℕ) : Tree κ ν β :=
  c.foldl (fun s x => s.setPar x (some p)) s

end Tree

/-! ## Splitting -/

/-- Create the right half of an internal node and give it its children. -/
def rightHalf (M mid : ℕ) (s : Tree κ ν β) (n1 : InterNode κ) : Except PyError (Tree κ ν β×ℕ) := do
  let r ← s.newInter M ⟨n1.ilist.drop mid,n1.clist.drop mid,n1.par⟩
  return (r.1.adopt r.2 (n1.clist.drop mid),r.2)

/-- Put a new root over two nodes. -/
def newRoot (M : ℕ) (s : Tree κ ν β) (left right : ℕ) (k : κ) : Except PyError (Tree κ ν β) := do
  let r ← s.newInter M ⟨[k],[left,right],none⟩
  return {(r.1.setPar left (some r.2)).setPar right (some r.2) with root := r.2}

/-- Insert a node behind another one into their parent. -/
def insertChild (s : Tree κ ν β) (p left right : ℕ) (k : κ) : Except PyError (Tree κ ν β) := do
  let q ← s.inter p
  let i ← index q.clist left
  return s.set p (.inter {q with ilist := insertAt q.ilist i k,clist := insertAt q.clist (i+1) right})

/-- Keep the left half of an internal node. -/
def cutInter (s : Tree κ ν β) (x mid : ℕ) : Except PyError (Tree κ ν β) := do
  let n ← s.inter x
  return s.set x (.inter {n with ilist := n.ilist.take (mid-1),clist := n.clist.take mid})

/-- Keep the left half of a leaf and change its brothers. -/
def cutLeaf (s : Tree κ ν β) (x mid : ℕ) (f : β → β) : Except PyError (Tree κ ν β) := do
  let n ← s.leafNode x
  return s.set x (.leaf {n with vlist := n.vlist.take mid,bro := f n.bro})

end StudyCode.Bplus
