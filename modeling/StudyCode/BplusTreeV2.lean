import StudyCode.BplusNodes

/-!
# The B+ tree with brother lists

A leaf is split after an insertion has made it too long, and an internal
node after a split below has. A split node is cut only after its parent has
been split in turn. Every leaf remembers the leaves that were split off
from it, and a range is answered from all leaves, reached through these
lists with the newest first. The order M is one more than the number of
keys L. Fuel stands for the recursion of the source, which has no bound.
-/

namespace StudyCode.Bplus.V2

variable {κ ν : Type}

/-- A tree whose leaves keep the leaves split off from them. -/
abbrev BTree (κ ν : Type) : Type := Tree κ ν (List ℕ)

/-- Internal nodes with as many separators as the order are full. -/
def isfullInter (M : ℕ) (n : InterNode κ) : Bool := decide (M ≤ n.ilist.length)

/-- Leaves with more pairs than keys are allowed are full. -/
def isfullLeaf (L : ℕ) (n : Leaf κ ν (List ℕ)) : Bool := decide (L < n.vlist.length)

/-- An empty tree: one leaf that is the root and the first leaf. -/
def empty : BTree κ ν where
  node := fun _ => .leaf ⟨[],[],none⟩
  next := 1
  root := 0
  leaf := 0

/-- Split an internal node, and its parent if that has become full; return
the parent of the node. -/
def splitNode (M : ℕ) : ℕ → BTree κ ν → ℕ → Except PyError (BTree κ ν×Option ℕ)
  | 0,_,_ => .error .recursionError
  | fuel+1,s,n1 => do
    let mid := (M+2)/2
    let n ← s.inter n1
    let r ← rightHalf M mid s n
    let k ← item n.ilist (mid-1)
    let s2 ← match n.par with
      | none => newRoot M r.1 n1 r.2 k
      | some p => do
        let s1 ← insertChild r.1 p n1 r.2 k
        let q ← s1.inter p
        if isfullInter M q then do
          let t ← splitNode M fuel s1 p
          pure t.1
        else pure s1
    let s3 ← cutInter s2 n1 mid
    return (s3,(s3.node n1).par)

/-- Split a leaf, and its parent if that has become full. -/
def splitLeaf (M L fuel : ℕ) (s : BTree κ ν) (n2 : ℕ) : Except PyError (BTree κ ν) := do
  let mid := (L+2)/2
  let n ← s.leafNode n2
  let r := s.new (.leaf ⟨n.vlist.drop mid,[],none⟩)
  let kv ← item n.vlist mid
  let s2 ← match n.par with
    | none => newRoot M r.1 n2 r.2 kv.key
    | some p => do
      let s1 ← insertChild r.1 p n2 r.2 kv.key
      let s1 := s1.setPar r.2 (some p)
      let q ← s1.inter p
      if isfullInter M q then do
        let t ← splitNode M fuel s1 p
        pure t.1
      else pure s1
  cutLeaf s2 n2 mid fun bro => bro++[r.2]

section Order

variable [LinearOrder κ]

/-- Insert a pair below a node. A full internal node would be split before
the insertion goes on from its parent. -/
def insertNode (M L : ℕ) (kv : KeyValue κ ν) : ℕ → BTree κ ν → ℕ → Except PyError (BTree κ ν)
  | 0,_,_ => .error .recursionError
  | fuel+1,s,x =>
    match s.node x with
    | .inter n =>
      if isfullInter M n then do
        let t ← splitNode M (s.next+1) s x
        match t.2 with
        | some p => insertNode M L kv fuel t.1 p
        | none => .error .attributeError
      else do
        let c ← item n.clist (bisectRight id n.ilist kv.key)
        insertNode M L kv fuel s c
    | .leaf n =>
      let n' := {n with vlist := insertAt n.vlist (bisectRight KeyValue.key n.vlist kv.key) kv}
      let s1 := s.set x (.leaf n')
      if isfullLeaf L n' then splitLeaf M L (s.next+1) s1 x else .ok s1

/-- Insert a key with a value. -/
def insert (L : ℕ) (s : BTree κ ν) (key : κ) (value : ν) : Except PyError (BTree κ ν) :=
  insertNode (L+1) L ⟨key,value⟩ (s.next+1) s s.root

/-- Pairs of a leaf and of all leaves split off from it. -/
def traversal (s : BTree κ ν) : ℕ → ℕ → Except PyError (List (KeyValue κ ν))
  | 0,_ => .error .recursionError
  | fuel+1,x => do
    let n ← s.leafNode x
    let qs ← n.bro.reverse.mapM (traversal s fuel)
    return n.vlist++qs.flatten

/-- Values of the pairs between two keys. -/
def lookupRange (s : BTree κ ν) (low up : κ) : Except PyError (List ν) := do
  let q ← traversal s s.next s.leaf
  let p1 := bisectLeft KeyValue.key q low
  let p2 := bisectRight KeyValue.key q up
  return ((q.take p2).drop p1).map KeyValue.value

/-- Value of the first pair with a key. -/
def lookup (s : BTree κ ν) (key : κ) : Except PyError (Option ν) := do
  let q ← lookupRange s key key
  return q.head?

/-- Insert pairs one after the other. -/
def insertAll (L : ℕ) : BTree κ ν → List (KeyValue κ ν) → Except PyError (BTree κ ν)
  | s,[] => .ok s
  | s,kv::rest => do
    let s1 ← insert L s kv.key kv.value
    insertAll L s1 rest

end Order

end StudyCode.Bplus.V2
