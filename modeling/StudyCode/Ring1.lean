import Mathlib.Logic.Relation
import Mathlib.Tactic

/-!
# The lock-free queue

The queue is a linked list with a sentinel that front points to. One thread
pushes and one thread pops. Every load of front, of rear or of a next field
and every compare-and-swap is one step, and the threads take their steps in
any order. Nodes are numbered in the order of their allocation and a number
is never used again, so a freed node keeps its contents.
-/

namespace StudyCode.Ring1

/-- Where the pushing thread stands in QuePush. -/
inductive PushPc where
  /-- Outside of a call. -/
  | idle
  /-- Before the load of rear; temp is the new node. -/
  | load (temp : ℕ)
  /-- Before the swap on the next field of p. -/
  | link (temp p : ℕ)
  /-- Before the swap on rear. -/
  | swing (temp p : ℕ)
  deriving DecidableEq

/-- Where the popping thread stands in QuePop. -/
inductive PopPc where
  /-- Outside of a call. -/
  | idle
  /-- In QueEmpty, before the first load of front. -/
  | arg1
  /-- In QueEmpty, before the second load of front. -/
  | arg2 (a : ℕ)
  /-- In QueEmpty, before the swap on rear. -/
  | test (a b : ℕ)
  /-- Before the load of front for its next field. -/
  | front
  /-- Before the load of the next field of the front node. -/
  | head (f : ℕ)
  /-- Before the load of the next field of temp. -/
  | tail (temp : ℕ)
  /-- Before the load of front for the swap on its next field. -/
  | site (temp p : Option ℕ)
  /-- Before the swap on the next field of the front node. -/
  | unlink (temp p : Option ℕ) (f : ℕ)
  /-- Before the load of front for the swap on rear. -/
  | back (temp : Option ℕ)
  /-- Before the swap on rear. -/
  | reset (temp : Option ℕ) (g : ℕ)
  /-- Before the return. -/
  | finish (temp : Option ℕ)
  deriving DecidableEq

/-- The shared memory and the two threads. -/
structure State where
  /-- The front pointer. -/
  front : ℕ
  /-- The rear pointer. -/
  rear : ℕ
  /-- The next fields; none is NULL. -/
  next : ℕ → Option ℕ
  /-- The data fields. -/
  data : ℕ → ℤ
  /-- The next node to be allocated. -/
  brk : ℕ
  /-- The pushing thread. -/
  push : PushPc
  /-- The popping thread. -/
  pop : PopPc
  /-- Arguments of the QuePush calls so far, in order. -/
  pushed : List ℤ
  /-- Results of the QuePop calls that have returned: none for 0, the value
  for 1. -/
  rets : List (Option ℤ)

/-- Values that successful QuePop calls have returned. -/
def State.popped (s : State) : List ℤ := s.rets.filterMap id

/-- QueInit: a sentinel that both pointers refer to. -/
def queInit : State := ⟨0,0,fun _ => none,fun _ => 0,1,.idle,.idle,[],[]⟩

/-- Assignment of a field of a node. -/
def upd {β : Type} (f : ℕ → β) (a : ℕ) (b : β) : ℕ → β := fun x => if x=a then b else f x

/-- The next step of QuePush. -/
def stepPush (s : State) : Option State :=
  match s.push with
  | .idle => none
  | .load t => some {s with push := .link t s.rear}
  | .link t p =>
    if s.next p=none then some {s with next := upd s.next p (some t),push := .swing t p}
    else some {s with push := .load t}
  | .swing t p => some {s with rear := if s.rear=p then t else s.rear,push := .idle}

/-- The next step of QuePop. A failed swap on the front node's next field
starts over; a temp that is NULL is followed by the same swaps. -/
def stepPop (s : State) : Option State :=
  match s.pop with
  | .idle => none
  | .arg1 => some {s with pop := .arg2 s.front}
  | .arg2 a => some {s with pop := .test a s.front}
  | .test a b =>
    if s.rear=a then some {s with rear := b,pop := .idle,rets := s.rets++[none]}
    else some {s with pop := .front}
  | .front => some {s with pop := .head s.front}
  | .head f =>
    match s.next f with
    | some t => some {s with pop := .tail t}
    | none => some {s with pop := .site none none}
  | .tail t => some {s with pop := .site (some t) (s.next t)}
  | .site t p => some {s with pop := .unlink t p s.front}
  | .unlink t p f =>
    if s.next f=t then some {s with next := upd s.next f p,pop := .back t}
    else some {s with pop := .arg1}
  | .back t => some {s with pop := .reset t s.front}
  | .reset t g => some {s with rear := if some s.rear=t then g else s.rear,pop := .finish t}
  | .finish t => some {s with pop := .idle,rets := s.rets++[t.map s.data]}

/-- Choices of the scheduler. -/
inductive Act where
  /-- QuePush is called: the node is allocated and filled. -/
  | callPush (d : ℤ)
  /-- The pushing thread takes a step. -/
  | push
  /-- QuePop is called. -/
  | callPop
  /-- The popping thread takes a step. -/
  | pop
  deriving DecidableEq

/-- One step of the system; none when the thread cannot take it. -/
def step (s : State) : Act → Option State
  | .callPush d =>
    if s.push=.idle then
      some {s with
        next := upd s.next s.brk none
        data := upd s.data s.brk d
        brk := s.brk+1
        push := .load s.brk
        pushed := s.pushed++[d]}
    else none
  | .push => stepPush s
  | .callPop => if s.pop=.idle then some {s with pop := .arg1} else none
  | .pop => stepPop s

/-- The state after a sequence of choices. -/
def run (s : State) : List Act → Option State
  | [] => some s
  | a::rest =>
    match step s a with
    | some s' => run s' rest
    | none => none

/-- A node can be reached from front along next fields. -/
def Linked (s : State) (p : ℕ) : Prop :=
  Relation.ReflTransGen (fun a b => s.next a=some b) s.front p

/-- The nodes behind a node, up to NULL. -/
def Path (next : ℕ → Option ℕ) : ℕ → List ℕ → Prop
  | a,[] => next a=none
  | a,b::l => next a=some b ∧ Path next b l

/-- A swap succeeds on what is still true. QuePush links behind a node that
is in the list, QuePop unlinks a node whose successor is the one it has
read, and it moves rear back to front only from a node without successor. -/
def Clear (s : State) : Act → Prop
  | .push => ∀ t p,s.push=.link t p → s.next p=none → Linked s p
  | .pop => (∀ t p f,s.pop=.unlink (some t) p f → s.next f=some t → s.next t=p) ∧
      ∀ t g,s.pop=.reset (some t) g → s.rear=t → s.next t=none
  | _ => True

/-- Every step of a run is clear. -/
def ClearRun (s : State) : List Act → Prop
  | [] => True
  | a::rest => Clear s a ∧ ∀ s',step s a=some s' → ClearRun s' rest

/-- What the queue promises in a state. -/
structure QueueOk (s : State) : Prop where
  /-- The popped values are the first of the pushed ones. -/
  popped_prefix : s.popped <+: s.pushed
  /-- Between calls, the list behind the sentinel holds the other pushed
  values, rear is a node of it or the sentinel, and a QuePop that now runs
  alone returns 1 exactly when a value is left. -/
  quiet : s.push=.idle → s.pop=.idle → ∃ c,Path s.next s.front c ∧
    c.map s.data=s.pushed.drop s.popped.length ∧ s.rear ∈ s.front::c ∧
    ∃ k s' r,run s (.callPop::List.replicate k .pop)=some s' ∧ s'.pop=.idle ∧
      s'.rets=s.rets++[r] ∧ (r≠none ↔ s.popped.length < s.pushed.length)

end StudyCode.Ring1
