import Mathlib.Data.List.Basic
import Mathlib.Data.Finset.Basic
import Mathlib.Tactic

/-!
# Buckets of five-slot blocks

The array list keeps one base block for each bucket and links overflow
blocks behind it. Memory is an explicit partial map from block addresses,
so a released block is absent and any access to it stops the run. Each
loop of the source is one structural recursion: the slot loops recurse on
the remaining slot indices, the chain loops on a budget that the later
theorems prove sufficient.
-/

namespace StudyCode.ArrayList

/-- Number of slots in one block. -/
def blockDepth : ℕ := 5

/-- One block of the chain, with the flags and payloads of its slots. -/
structure Block where
  /-- Link to the following block, absent for the null pointer. -/
  next : Option ℕ
  /-- Occupation flag of each slot. -/
  used : ℕ → ℤ
  /-- Payload of each slot; an unused slot keeps what it held before. -/
  data : ℕ → ℤ

/-- The block that memset leaves behind. -/
def zeroBlock : Block := ⟨none,fun _ => 0,fun _ => 0⟩

/-- Write one entry of an int array. -/
def store (f : ℕ → ℤ) (i : ℕ) (v : ℤ) : ℕ → ℤ := fun j => if j=i then v else f j

/-- A stored slot reads back. -/
@[simp] theorem store_same (f : ℕ → ℤ) (i : ℕ) (v : ℤ) : store f i v i=v := if_pos rfl

/-- The other slots of an array stay. -/
@[simp] theorem store_other {f : ℕ → ℤ} {i j : ℕ} {v : ℤ} (h : j≠i) : store f i v j=f j :=
  if_neg h

/-- Allocated blocks by address. Only finitely many addresses are in use. -/
structure Memory where
  /-- Contents of an allocated block, absent for free memory. -/
  cell : ℕ → Option Block
  /-- A bound on the addresses in use. -/
  brk : ℕ
  /-- Nothing is allocated from the bound on. -/
  above : ∀ a, brk≤a → cell a=none

/-- Overwrite the block at an address. -/
def Memory.write (m : Memory) (a : ℕ) (b : Block) : Memory where
  cell := fun j => if j=a then some b else m.cell j
  brk := max m.brk (a+1)
  above := by
    intro j hj
    have hne : j≠a := by omega
    rw [if_neg hne]
    exact m.above j (by omega)

/-- Give the block at an address back to the allocator. -/
def Memory.free (m : Memory) (a : ℕ) : Memory where
  cell := fun j => if j=a then none else m.cell j
  brk := m.brk
  above := by
    intro j hj
    split
    · rfl
    · exact m.above j hj

/-- A written block reads back. -/
@[simp] theorem Memory.write_same (m : Memory) (a : ℕ) (b : Block) :
    (m.write a b).cell a=some b := if_pos rfl

/-- The other blocks stay. -/
@[simp] theorem Memory.write_other {m : Memory} {a j : ℕ} {b : Block} (h : j≠a) :
    (m.write a b).cell j=m.cell j := if_neg h

/-- A freed block is gone. -/
@[simp] theorem Memory.free_same (m : Memory) (a : ℕ) : (m.free a).cell a=none := if_pos rfl

/-- The other blocks outlive a free. -/
@[simp] theorem Memory.free_other {m : Memory} {a j : ℕ} (h : j≠a) :
    (m.free a).cell j=m.cell j := if_neg h

/-- An allocator that always succeeds: whatever is in use, it returns an
address that is not. Released addresses may come back. -/
structure Allocator where
  /-- The address of the next block. -/
  malloc : Memory → ℕ
  /-- It is not in use. -/
  fresh : ∀ m : Memory, m.cell (malloc m)=none

/-- The allocator that never reuses an address. -/
def bumpAllocator : Allocator := ⟨Memory.brk,fun m => m.above m.brk le_rfl⟩

/-- A zeroed array of base blocks, one for each bucket. -/
def initArrayList (base size : ℕ) : Memory where
  cell := fun a => if base≤a ∧ a<base+size then some zeroBlock else none
  brk := base+size
  above := by
    intro a ha
    exact if_neg (by omega)

/-- Obtain a zeroed overflow block. -/
def getNewList (A : Allocator) (m : Memory) : Memory×ℕ :=
  (m.write (A.malloc m) zeroBlock,A.malloc m)

/-- Ways for the slot loop of an insertion to end. -/
inductive AddFor where
  /-- The value went into a free slot of the block. -/
  | stored (b : Block)
  /-- The value is already in a used slot. -/
  | present
  /-- Every slot is used by another value. -/
  | full

/-- The slot loop of an insertion over the remaining indices. -/
def addFor (data : ℤ) (b : Block) : List ℕ → AddFor
  | [] => .full
  | i::is =>
    if b.used i=0 then .stored {b with used := store b.used i 1,data := store b.data i data}
    else if data=b.data i ∧ b.used i=1 then .present
    else addFor data b is

/-- The chain loop of an insertion. A block without a successor gets a new
one, whose first slot takes the value. -/
def addLoop (A : Allocator) (data : ℤ) : ℕ → Memory → ℕ → Option (Memory×ℤ)
  | 0,_,_ => none
  | fuel+1,m,listP =>
    match m.cell listP with
    | none => none
    | some b =>
      match addFor data b (List.range blockDepth) with
      | .stored b' => some (m.write listP b',0)
      | .present => some (m,2)
      | .full =>
        match b.next with
        | some nx => addLoop A data fuel m nx
        | none =>
          let (m',nx) := getNewList A m
          let m'' := m'.write listP {b with next := some nx}
          some (m''.write nx {zeroBlock with
            used := store zeroBlock.used 0 1,data := store zeroBlock.data 0 data},0)

/-- Insert a value into a bucket: 0 after an insertion, 2 when the value is
already there. -/
def addElem (A : Allocator) (m : Memory) (base arrayN : ℕ) (data : ℤ) : Option (Memory×ℤ) :=
  addLoop A data (m.brk+1) m (base+arrayN)

/-- Local variables of a deletion that its loops assign. -/
structure DelScan where
  /-- Block of the last used slot, once found. -/
  lastP : Option ℕ
  /-- Block of the victim, once found. -/
  delP : Option ℕ
  /-- Index of the last used slot. -/
  lastN : ℕ
  /-- Index of the victim. -/
  delN : ℕ
  /-- Whether a slot with the value has been met. -/
  delFound : Bool
  /-- Whether the last slot has been met. -/
  lastFound : Bool

/-- Values of the locals before the loops. -/
def DelScan.start : DelScan := ⟨none,none,0,0,false,false⟩

/-- Record a slot as the victim when its payload matches. The flag of the
slot is not consulted. -/
def DelScan.matchSlot (data : ℤ) (listP : ℕ) (b : Block) (i : ℕ) (s : DelScan) : DelScan :=
  if data=b.data i then {s with delN := i,delP := some listP,delFound := true} else s

/-- Record the slot before an unused one as the last slot. Before the first
slot of a block stands the final slot of the preceding block. -/
def DelScan.lastSlot (listP tempP : ℕ) (b : Block) (i : ℕ) (s : DelScan) : DelScan :=
  if b.used i=0 then
    if 0 < i then {s with lastN := i-1,lastP := some listP,lastFound := true}
    else {s with lastN := blockDepth-1,lastP := some tempP,lastFound := true}
  else s

/-- The slot loop of a deletion; the flag tells whether it was left by break. -/
def delFor (data : ℤ) (listP tempP : ℕ) (b : Block) : List ℕ → DelScan → DelScan×Bool
  | [],s => (s,false)
  | i::is,s =>
    let s' := (s.matchSlot data listP b i).lastSlot listP tempP b i
    if s'.lastFound=true ∧ s'.delFound=true then (s',true) else delFor data listP tempP b is s'

/-- The chain loop of a deletion, with the trailing pointer it leaves. -/
def delLoop (data : ℤ) (m : Memory) : ℕ → ℕ → ℕ → DelScan → Option (DelScan×ℕ)
  | 0,_,_,_ => none
  | fuel+1,listP,tempP,s =>
    match m.cell listP with
    | none => none
    | some b =>
      match delFor data listP tempP b (List.range blockDepth) s with
      | (s',true) => some (s',tempP)
      | (s',false) =>
        match b.next with
        | some nx => delLoop data m fuel nx listP s'
        | none => some ({s' with lastN := blockDepth-1,lastP := some listP,lastFound := true},listP)

/-- Clear the flag of the last slot, and unlink and release its block when
that was the first slot of an overflow block. -/
def clearLast (m : Memory) (head tempP lastP lastN : ℕ) : Option Memory :=
  match m.cell lastP with
  | none => none
  | some bl =>
    let m' := m.write lastP {bl with used := store bl.used lastN 0}
    if lastN=0 ∧ lastP≠head then
      match m'.cell tempP with
      | none => none
      | some bt => some ((m'.write tempP {bt with next := none}).free lastP)
    else some m'

/-- Move the last payload into the victim's slot, then give the last slot up. -/
def delMove (m : Memory) (head tempP delP delN lastP lastN : ℕ) : Option Memory :=
  match m.cell lastP,m.cell delP with
  | some bl,some bd =>
    clearLast (m.write delP {bd with data := store bd.data delN (bl.data lastN)})
      head tempP lastP lastN
  | _,_ => none

/-- Remove a value from a bucket: 0 after a removal, 1 when nothing matched. -/
def delElem (m : Memory) (base arrayN : ℕ) (data : ℤ) : Option (Memory×ℤ) :=
  match delLoop data m (m.brk+1) (base+arrayN) (base+arrayN) DelScan.start with
  | none => none
  | some (s,tempP) =>
    if s.delFound=false ∨ s.lastFound=false then some (m,1)
    else match s.delP,s.lastP with
      | some delP,some lastP =>
        (delMove m (base+arrayN) tempP delP s.delN lastP s.lastN).map fun m' => (m',0)
      | _,_ => none

/-- The two operations on a bucket. -/
inductive Op where
  /-- Insert a value. -/
  | add (data : ℤ)
  /-- Remove a value. -/
  | del (data : ℤ)

/-- Execute one call on a bucket. -/
def call (A : Allocator) (base : ℕ) (m : Memory) (arrayN : ℕ) : Op → Option (Memory×ℤ)
  | .add data => addElem A m base arrayN data
  | .del data => delElem m base arrayN data

/-- Blocks of a bucket with their addresses, in chain order. -/
def walk (m : Memory) : ℕ → ℕ → List (ℕ×Block)
  | 0,_ => []
  | fuel+1,a =>
    match m.cell a with
    | none => []
    | some b => (a,b)::match b.next with
      | none => []
      | some nx => walk m fuel nx

/-- Blocks of a bucket. Chains repeat no address, so the bound on the
addresses is a sufficient budget. -/
def bucket (m : Memory) (a : ℕ) : List (ℕ×Block) := walk m (m.brk+1) a

/-- Flag and payload of every slot of a bucket, in chain order. -/
def slots (m : Memory) (a : ℕ) : List (ℤ×ℤ) :=
  (bucket m a).flatMap fun p => (List.range blockDepth).map fun i => (p.2.used i,p.2.data i)

/-- Payloads of the used slots, in chain order. -/
def usedVals (m : Memory) (a : ℕ) : List ℤ :=
  ((slots m a).filter fun p => p.1≠0).map Prod.snd

/-- Payloads that the unused slots still hold, in chain order. -/
def staleVals (m : Memory) (a : ℕ) : List ℤ :=
  ((slots m a).filter fun p => p.1=0).map Prod.snd

end StudyCode.ArrayList
