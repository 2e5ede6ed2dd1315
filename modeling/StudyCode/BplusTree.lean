import StudyCode.BplusNodes

/-!
# The B+ tree with brother pointers

A full internal node is split on the way down, and the insertion goes on
from its parent; a leaf is split after an insertion has made it too long.
Leaves refer to the next leaf, which a range search and a traversal follow.
A deletion repairs a child with few keys before it steps down to it: it
borrows from a brother or merges with it. Objects are compared as in
Python 2, where a class without an inequality falls back to its three-way
comparison. Fuel stands for loops and recursions of the source.
-/

namespace StudyCode.Bplus.V1

variable {ν : Type}

/-- A tree with integer keys whose leaves refer to the next leaf. -/
abbrev Bptree (ν : Type) : Type := Tree ℤ ν (Option ℕ)

/-! ## Comparisons of pairs -/

/-- The other side of a comparison. -/
inductive Operand (ν : Type) where
  /-- A pair. -/
  | pair (p : KeyValue ℤ ν)
  /-- An integer. -/
  | int (k : ℤ)

/-- A pair is less than a pair or an integer. -/
def lt (self : KeyValue ℤ ν) : Operand ν → Bool
  | .pair other => decide (self.key < other.key)
  | .int other => decide (self.key < other)

/-- A pair equals a pair or an integer. -/
def eq (self : KeyValue ℤ ν) : Operand ν → Bool
  | .pair other => decide (self.key=other.key)
  | .int other => decide (self.key=other)

/-- A pair is greater when it is not less. -/
def gt (self : KeyValue ℤ ν) (other : Operand ν) : Bool := !lt self other

/-- An integer is greater than the other side; against a pair Python asks
whether the pair is less. -/
def intGt (k : ℤ) : Operand ν → Bool
  | .pair other => lt other (.int k)
  | .int other => decide (other < k)

/-- An integer is less than the other side; against a pair Python asks
whether the pair is greater. -/
def intLt (k : ℤ) : Operand ν → Bool
  | .pair other => gt other (.int k)
  | .int other => decide (k < other)

/-- Three-way comparison of a pair by its key. -/
def cmp (self : KeyValue ℤ ν) (key : Operand ν) : ℤ :=
  if intGt self.key key then 1 else if intLt self.key key then -1 else 0

/-- Inequality of two pairs, which the class leaves to the three-way
comparison. -/
def ne (self other : KeyValue ℤ ν) : Bool := decide (cmp self (.pair other)≠0)

/-! ## Nodes -/

/-- Internal nodes with one separator less than the order are full. -/
def isfullInter (M : ℕ) (n : InterNode ℤ) : Bool := decide (M-1 ≤ n.ilist.length)

/-- Internal nodes with few separators are empty. -/
def isemptyInter (M : ℕ) (n : InterNode ℤ) : Bool := decide (n.ilist.length ≤ (M+1)/2-1)

/-- Leaves with more than L pairs are full. -/
def isfullLeaf (L : ℕ) (n : Leaf ℤ ν (Option ℕ)) : Bool := decide (L < n.vlist.length)

/-- Leaves with few pairs are empty. -/
def isemptyLeaf (L : ℕ) (n : Leaf ℤ ν (Option ℕ)) : Bool := decide (n.vlist.length ≤ (L+1)/2)

/-- The test of either class. -/
def isempty (M L : ℕ) : Node ℤ ν (Option ℕ) → Bool
  | .inter n => isemptyInter M n
  | .leaf n => isemptyLeaf L n

/-- A tree with one leaf that is the root and the first leaf. -/
def empty : Bptree ν where
  node := fun _ => .leaf ⟨[],none,none⟩
  next := 1
  root := 0
  leaf := 0

/-- Creation of a tree. -/
def init (M L : ℕ) : Except PyError (Bptree ν) := if M < L then .error .initError else .ok empty

/-! ## Insertion -/

/-- Split an internal node; return its parent. -/
def splitNode (M : ℕ) (s : Bptree ν) (n1 : ℕ) : Except PyError (Bptree ν×Option ℕ) := do
  let mid := M/2
  let n ← s.inter n1
  let r ← rightHalf M mid s n
  let k ← item n.ilist (mid-1)
  let s2 ← match n.par with
    | none => newRoot M r.1 n1 r.2 k
    | some p => insertChild r.1 p n1 r.2 k
  let s3 ← cutInter s2 n1 mid
  return (s3,(s3.node n1).par)

/-- Split a leaf; the new leaf refers to no next leaf. -/
def splitLeaf (M L : ℕ) (s : Bptree ν) (n2 : ℕ) : Except PyError (Bptree ν) := do
  let mid := (L+1)/2
  let n ← s.leafNode n2
  let r := s.new (.leaf ⟨n.vlist.drop mid,none,none⟩)
  let kv ← item n.vlist mid
  let s2 ← match n.par with
    | none => newRoot M r.1 n2 r.2 kv.key
    | some p => do
      let s1 ← insertChild r.1 p n2 r.2 kv.key
      pure (s1.setPar r.2 (some p))
  cutLeaf s2 n2 mid fun _ => some r.2

/-- Insert a pair below a node. A full internal node is split first, and the
insertion goes on from its parent. -/
def insertNode (M L : ℕ) (kv : KeyValue ℤ ν) : ℕ → Bptree ν → ℕ → Except PyError (Bptree ν)
  | 0,_,_ => .error .recursionError
  | fuel+1,s,x =>
    match s.node x with
    | .inter n =>
      if isfullInter M n then do
        let t ← splitNode M s x
        match t.2 with
        | some p => insertNode M L kv fuel t.1 p
        | none => .error .attributeError
      else do
        let c ← item n.clist (bisectRight id n.ilist kv.key)
        insertNode M L kv fuel s c
    | .leaf n =>
      let n' := {n with vlist := insertAt n.vlist (bisectRight KeyValue.key n.vlist kv.key) kv}
      let s1 := s.set x (.leaf n')
      if isfullLeaf L n' then splitLeaf M L s1 x else .ok s1

/-- Insert a pair. -/
def insert (M L : ℕ) (s : Bptree ν) (kv : KeyValue ℤ ν) : Except PyError (Bptree ν) :=
  insertNode M L kv (2*s.next+1) s s.root

/-- Insert pairs one after the other. -/
def insertAll (M L : ℕ) : Bptree ν → List (KeyValue ℤ ν) → Except PyError (Bptree ν)
  | s,[] => .ok s
  | s,kv::rest => do
    let s1 ← insert M L s kv
    insertAll M L s1 rest

/-! ## Search -/

/-- Position of a key below a node and the leaf where it belongs. -/
def searchKey (s : Bptree ν) (k : ℤ) : ℕ → ℕ → Except PyError (ℕ×ℕ)
  | 0,_ => .error .recursionError
  | fuel+1,x =>
    match s.node x with
    | .leaf n => .ok (bisectLeft KeyValue.key n.vlist k,x)
    | .inter n => do
      let c ← item n.clist (bisectRight id n.ilist k)
      searchKey s k fuel c

/-- Pairs of the leaves behind a leaf, up to a position in another leaf. -/
def searchWalk (s : Bptree ν) (l2 i2 : ℕ) : ℕ → ℕ → Except PyError (List (KeyValue ℤ ν))
  | 0,_ => .error .recursionError
  | fuel+1,l => do
    let n ← s.leafNode l
    match n.bro with
    | none => return []
    | some b => do
      let m ← s.leafNode b
      if b=l2 then return m.vlist.take i2
      else do
        let r ← searchWalk s l2 i2 fuel b
        return m.vlist++r

/-- Pairs between two keys. Both have to be given, so the branches of the
source for a missing one are never taken. -/
def search (s : Bptree ν) : Option ℤ → Option ℤ → Except PyError (List (KeyValue ℤ ν))
  | some mi,some ma =>
    if ma < mi then .error .paraError
    else if mi=ma then do
      let t ← searchKey s mi s.next s.root
      let l ← s.leafNode t.2
      match l.vlist[t.1]? with
      | some p => if eq p (.int mi) then return [p] else return []
      | none => return []
    else do
      let t1 ← searchKey s mi s.next s.root
      let t2 ← searchKey s ma s.next s.root
      let l1 ← s.leafNode t1.2
      if t1.2=t2.2 then
        if t1.1=t2.1 then return [] else return (l1.vlist.take t2.1).drop t1.1
      else do
        let r ← searchWalk s t2.2 t2.1 s.next t1.2
        return l1.vlist.drop t1.1++r
  | _,_ => .error .paraError

/-- Pairs of a leaf and of all leaves behind it. -/
def traversal (s : Bptree ν) : ℕ → ℕ → Except PyError (List (KeyValue ℤ ν))
  | 0,_ => .error .recursionError
  | fuel+1,l => do
    let n ← s.leafNode l
    match n.bro with
    | none => return n.vlist
    | some b => do
      let r ← traversal s fuel b
      return n.vlist++r

/-! ## Deletion -/

/-- Position that an index means; negative ones count from the end. -/
def position {α : Type} (l : List α) (i : ℤ) : Except PyError ℕ :=
  if 0 ≤ i then if i < l.length then .ok i.toNat else .error .indexError
  else if 0 ≤ l.length+i then .ok (l.length+i).toNat else .error .indexError

/-- Element at an index. -/
def itemInt {α : Type} (l : List α) (i : ℤ) : Except PyError α := do
  let j ← position l i
  item l j

/-- Assignment at an index. -/
def setInt {α : Type} (l : List α) (i : ℤ) (a : α) : Except PyError (List α) := do
  let j ← position l i
  return l.set j a

/-- Removal of the last element. -/
def pop {α : Type} (l : List α) : Except PyError (List α) :=
  if l=[] then .error .indexError else .ok l.dropLast

/-- Removal of the first element that passes a test. -/
def remove {α : Type} (test : α → Bool) (l : List α) : Except PyError (List α) :=
  if l.any test then .ok (l.eraseP test) else .error .valueError

/-- Change of an object that has to be an internal node. -/
def modInter (s : Bptree ν) (x : ℕ) (f : InterNode ℤ → Except PyError (InterNode ℤ)) :
    Except PyError (Bptree ν) := do
  let n ← s.inter x
  let n' ← f n
  return s.set x (.inter n')

/-- Change of an object that has to be a leaf. -/
def modLeaf (s : Bptree ν) (x : ℕ)
    (f : Leaf ℤ ν (Option ℕ) → Except PyError (Leaf ℤ ν (Option ℕ))) :
    Except PyError (Bptree ν) := do
  let n ← s.leafNode x
  let n' ← f n
  return s.set x (.leaf n')

/-- Merge a child with the next one; a node without separators gives way to
its child as the root. Children of a merged internal node keep their
parent. -/
def merge (s : Bptree ν) (x i : ℕ) : Except PyError (Bptree ν×ℕ) := do
  let n ← s.inter x
  let a ← item n.clist i
  let s1 ← match s.node a with
    | .leaf _ => do
      let b ← item n.clist (i+1)
      let r ← s.leafNode b
      modLeaf s a fun l => pure {l with vlist := l.vlist++r.vlist,bro := r.bro}
    | .inter _ => do
      let k ← item n.ilist i
      let b ← item n.clist (i+1)
      let r ← s.inter b
      modInter s a fun l => pure {l with ilist := l.ilist++[k]++r.ilist,clist := l.clist++r.clist}
  let n ← s1.inter x
  let b ← item n.clist (i+1)
  let clist ← remove (fun c => decide (c=b)) n.clist
  let k ← item n.ilist i
  let ilist ← remove (fun j => decide (j=k)) n.ilist
  let s2 := s1.set x (.inter {n with ilist := ilist,clist := clist})
  if ilist=[] then do
    let c ← item clist 0
    return ({s2.setPar c none with root := c},c)
  else return (s2,x)

/-- Move the last entry of a child to the next child. -/
def tranL2R (s : Bptree ν) (x : ℕ) (i : ℤ) : Except PyError (Bptree ν) := do
  let n ← s.inter x
  let a ← itemInt n.clist i
  let b ← itemInt n.clist (i+1)
  match s.node a with
  | .inter l => do
    let c ← itemInt l.clist (-1)
    let s1 ← modInter s b fun r => pure {r with clist := c::r.clist}
    let s2 := s1.setPar c (some b)
    let n ← s2.inter x
    let k ← itemInt n.ilist i
    let s3 ← modInter s2 b fun r => pure {r with ilist := k::r.ilist}
    let l ← s3.inter a
    let k' ← itemInt l.ilist (-1)
    let s4 ← modInter s3 x fun n => do
      let ilist ← setInt n.ilist i k'
      return {n with ilist := ilist}
    modInter s4 a fun l => do
      let clist ← pop l.clist
      let ilist ← pop l.ilist
      return {l with clist := clist,ilist := ilist}
  | .leaf l => do
    let p ← itemInt l.vlist (-1)
    let s1 ← modLeaf s b fun r => pure {r with vlist := p::r.vlist}
    let s2 ← modLeaf s1 a fun l => do
      let vlist ← pop l.vlist
      return {l with vlist := vlist}
    let r ← s2.leafNode b
    let q ← item r.vlist 0
    modInter s2 x fun n => do
      let ilist ← setInt n.ilist i q.key
      return {n with ilist := ilist}

/-- Move the first entry of the next child to a child. -/
def tranR2L (s : Bptree ν) (x i : ℕ) : Except PyError (Bptree ν) := do
  let n ← s.inter x
  let a ← item n.clist i
  let b ← item n.clist (i+1)
  match s.node a with
  | .inter _ => do
    let r ← s.inter b
    let c ← item r.clist 0
    let s1 ← modInter s a fun l => pure {l with clist := l.clist++[c]}
    let s2 := s1.setPar c (some a)
    let n ← s2.inter x
    let k ← item n.ilist i
    let s3 ← modInter s2 a fun l => pure {l with ilist := l.ilist++[k]}
    let r ← s3.inter b
    let k' ← item r.ilist 0
    let s4 ← modInter s3 x fun n => do
      let ilist ← setInt n.ilist i k'
      return {n with ilist := ilist}
    modInter s4 b fun r => do
      let clist ← remove (fun d => decide (d=c)) r.clist
      let ilist ← remove (fun j => decide (j=k')) r.ilist
      return {r with clist := clist,ilist := ilist}
  | .leaf _ => do
    let r ← s.leafNode b
    let p ← item r.vlist 0
    let s1 ← modLeaf s a fun l => pure {l with vlist := l.vlist++[p]}
    let s2 ← modLeaf s1 b fun r => do
      let vlist ← remove (fun q => eq q (.pair p)) r.vlist
      return {r with vlist := vlist}
    let r ← s2.leafNode b
    let q ← item r.vlist 0
    modInter s2 x fun n => do
      let ilist ← setInt n.ilist i q.key
      return {n with ilist := ilist}

/-- Delete a pair below a node: repair the child where its key belongs, then
step down. The result is 0 when a pair has been removed. -/
def delNode (M L : ℕ) (kv : KeyValue ℤ ν) : ℕ → Bptree ν → ℕ → Except PyError (Bptree ν×ℤ)
  | 0,_,_ => .error .recursionError
  | fuel+1,s,x =>
    match s.node x with
    | .inter n => do
      let p := bisectRight id n.ilist kv.key
      let c ← item n.clist p
      if !isempty M L (s.node c) then delNode M L kv fuel s c
      else if p=n.ilist.length then do
        let a ← itemInt n.clist ((p:ℤ)-1)
        if !isempty M L (s.node a) then do
          let s1 ← tranL2R s x ((p:ℤ)-1)
          let n1 ← s1.inter x
          let c1 ← item n1.clist p
          delNode M L kv fuel s1 c1
        else do
          let t ← merge s x p
          delNode M L kv fuel t.1 t.2
      else do
        let b ← item n.clist (p+1)
        if !isempty M L (s.node b) then do
          let s1 ← tranR2L s x p
          let n1 ← s1.inter x
          let c1 ← item n1.clist p
          delNode M L kv fuel s1 c1
        else do
          let t ← merge s x p
          delNode M L kv fuel t.1 t.2
    | .leaf n =>
      let p := bisectLeft KeyValue.key n.vlist kv.key
      match n.vlist[p]? with
      | none => .ok (s,-1)
      | some pp =>
        if ne pp kv then .ok (s,-1)
        else do
          let vlist ← remove (fun q => eq q (.pair kv)) n.vlist
          return (s.set x (.leaf {n with vlist := vlist}),0)

/-- Delete a pair. -/
def delete (M L : ℕ) (s : Bptree ν) (kv : KeyValue ℤ ν) : Except PyError (Bptree ν) := do
  let t ← delNode M L kv (2*s.next+1) s s.root
  return t.1

/-- A call that changes a tree. -/
inductive Call (ν : Type) where
  /-- Insert a pair. -/
  | insert (kv : KeyValue ℤ ν)
  /-- Delete a pair. -/
  | delete (kv : KeyValue ℤ ν)

/-- Carry out a call. -/
def Call.run (M L : ℕ) (s : Bptree ν) : Call ν → Except PyError (Bptree ν)
  | .insert kv => V1.insert M L s kv
  | .delete kv => V1.delete M L s kv

/-- Carry out calls one after the other. -/
def runCalls (M L : ℕ) : Bptree ν → List (Call ν) → Except PyError (Bptree ν)
  | s,[] => .ok s
  | s,c::rest => do
    let s1 ← c.run M L s
    runCalls M L s1 rest

end StudyCode.Bplus.V1
