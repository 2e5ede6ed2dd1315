import Mathlib.Data.List.Basic
import Mathlib.Tactic

/-!
# The Brainfuck machine and the language

The machine of the source keeps its program, a stack of return addresses and
a circular tape in fixed arrays; an access outside of one ends the run with
none. Return addresses are stored in cells of type char, whose range depends
on the host. The language is given by program trees and a machine that walks
them: at the head of a loop and at the end of its body the current cell
decides whether the body runs.
-/

namespace StudyCode.Brainfuck

/-- The two possible ranges of char. -/
inductive CharKind where
  /-- From -128 to 127. -/
  | signed
  /-- From 0 to 255. -/
  | unsigned
  deriving DecidableEq

/-- Conversion of a long to char. -/
def toChar : CharKind → ℤ → ℤ
  | .signed,v => (v+128)%256-128
  | .unsigned,v => v%256

/-- Size of the code segment. -/
def codeSegmentSize : ℕ := 30000

/-- Size of the stack segment. -/
def stackSegmentSize : ℕ := 1000

/-- Size of the data segment. -/
def dataSegmentSize : ℕ := 30000

/-- The machine, with what it has read and written. -/
structure Vm where
  /-- Code segment up to the last stored character; the rest is zero. -/
  cs : List UInt8
  /-- Instruction pointer. -/
  ip : ℤ
  /-- Stack segment, as the values its cells promote to. -/
  ss : ℕ → ℤ
  /-- Stack pointer. -/
  sp : ℕ
  /-- Data segment. -/
  ds : ℕ → UInt8
  /-- Base pointer. -/
  bp : ℕ
  /-- Number of calls of getchar by the program. -/
  reads : ℕ
  /-- Characters written by putchar. -/
  out : List UInt8

/-- What strchr finds in the token string, its terminator included. -/
def isToken (c : UInt8) : Bool := c ∈ [62,60,43,45,46,44,91,93,0]

/-- The setup of the machine from the characters before the end of the file;
none when a character is stored behind the code segment. -/
def setup (file : List UInt8) : Option Vm :=
  let code := file.filter isToken
  if code.length ≤ codeSegmentSize then
    some ⟨code,0,fun _ => 0,0,fun _ => 0,0,0,[]⟩
  else none

/-- The cell of the code segment at a position. -/
def code (cs : List UInt8) (i : ℕ) : Option UInt8 :=
  if i < codeSegmentSize then some (cs.getD i 0) else none

/-- The cell the instruction pointer refers to. -/
def fetch (vm : Vm) : Option UInt8 := if 0 ≤ vm.ip then code vm.cs vm.ip.toNat else none

/-- The character in the current cell. -/
def Vm.cell (vm : Vm) : UInt8 := vm.ds vm.bp

/-- Assignment to the current cell. -/
def Vm.setCell (vm : Vm) (v : UInt8) : Vm :=
  {vm with ds := fun i => if i=vm.bp then v else vm.ds i}

/-- vm_forward. -/
def vmForward (vm : Vm) : Vm := {vm with bp := (vm.bp+1)%dataSegmentSize}

/-- vm_backward. -/
def vmBackward (vm : Vm) : Vm := {vm with bp := (vm.bp+dataSegmentSize-1)%dataSegmentSize}

/-- vm_increment. -/
def vmIncrement (vm : Vm) : Vm := vm.setCell (vm.cell+1)

/-- vm_decrement. -/
def vmDecrement (vm : Vm) : Vm := vm.setCell (vm.cell-1)

/-- The character that a call of getchar stores; EOF is -1. -/
def stored : Option UInt8 → UInt8
  | some c => c
  | none => 255

/-- vm_input. -/
def vmInput (input : ℕ → Option UInt8) (vm : Vm) : Vm :=
  {vm.setCell (stored (input vm.reads)) with reads := vm.reads+1}

/-- vm_output. -/
def vmOutput (vm : Vm) : Vm := {vm with out := vm.out++[vm.cell]}

/-- The loop that looks for the end of a skipped loop. It stops behind the
closing bracket, or at the end of the code. The fuel is enough for the whole
segment. -/
def skipLoop (cs : List UInt8) : ℕ → ℕ → ℤ → Option ℕ
  | 0,_,_ => none
  | fuel+1,i,c =>
    match code cs i with
    | some t =>
      if t≠0 ∧ c≠0 then
        skipLoop cs fuel (i+1) (if t=91 then c+1 else if t=93 then c-1 else c)
      else some i
    | none => none

/-- vm_while_entry. -/
def vmWhileEntry (k : CharKind) (vm : Vm) : Option Vm :=
  if vm.cell≠0 then
    if vm.sp < stackSegmentSize then
      some {vm with
        ss := fun i => if i=vm.sp then toChar k (vm.ip-1) else vm.ss i
        sp := vm.sp+1}
    else none
  else
    match skipLoop vm.cs (codeSegmentSize+1) (vm.ip.toNat+1) 1 with
    | some i => some {vm with ip := i}
    | none => none

/-- vm_while_exit. -/
def vmWhileExit (vm : Vm) : Option Vm :=
  if vm.cell≠0 then
    if 0 < vm.sp then some {vm with sp := vm.sp-1,ip := vm.ss (vm.sp-1)} else none
  else some vm

/-- The call through the table of callbacks. -/
def dispatch (k : CharKind) (input : ℕ → Option UInt8) (t : UInt8) (vm : Vm) : Option Vm :=
  if t=62 then some (vmForward vm)
  else if t=60 then some (vmBackward vm)
  else if t=43 then some (vmIncrement vm)
  else if t=45 then some (vmDecrement vm)
  else if t=46 then some (vmOutput vm)
  else if t=44 then some (vmInput input vm)
  else if t=91 then vmWhileEntry k vm
  else if t=93 then vmWhileExit vm
  else none

/-- One turn of run; a machine that has stopped stays as it is. -/
def step (k : CharKind) (input : ℕ → Option UInt8) (vm : Vm) : Option Vm :=
  match fetch vm with
  | some t =>
    if t=0 then some vm
    else
      match dispatch k input t vm with
      | some vm => some {vm with ip := vm.ip+1}
      | none => none
  | none => none

/-- The loop of run has ended. -/
def Vm.halted (vm : Vm) : Prop := fetch vm=some 0

/-- The machine after setup and n turns of run. -/
def vmAfter (k : CharKind) (input : ℕ → Option UInt8) (file : List UInt8) : ℕ → Option Vm
  | 0 => setup file
  | n+1 =>
    match vmAfter k input file n with
    | some vm => step k input vm
    | none => none

/-! ## The language -/

/-- The commands other than loops. -/
inductive Op where
  /-- One cell to the right. -/
  | forward
  /-- One cell to the left. -/
  | backward
  /-- Add one. -/
  | increment
  /-- Subtract one. -/
  | decrement
  /-- Write the cell. -/
  | output
  /-- Read into the cell. -/
  | input
  deriving DecidableEq

/-- Programs. -/
inductive Prog where
  /-- The empty program. -/
  | nil
  /-- A command and the rest. -/
  | seq (op : Op) (rest : Prog)
  /-- A loop and the rest. -/
  | loop (body rest : Prog)
  deriving DecidableEq

/-- The character of a command. -/
def Op.token : Op → UInt8
  | .forward => 62
  | .backward => 60
  | .increment => 43
  | .decrement => 45
  | .output => 46
  | .input => 44

/-- The text of a program. -/
def Prog.render : Prog → List UInt8
  | .nil => []
  | .seq op rest => op.token::rest.render
  | .loop body rest => 91::body.render++93::rest.render

/-- How deep loops are nested. -/
def Prog.depth : Prog → ℕ
  | .nil => 0
  | .seq _ rest => rest.depth
  | .loop body rest => max (body.depth+1) rest.depth

/-- The state of the language: a circular tape of 30000 cells. -/
structure Tape where
  /-- The cells. -/
  cells : Fin 30000 → UInt8
  /-- The current cell. -/
  pos : Fin 30000
  /-- Number of characters read. -/
  reads : ℕ
  /-- Characters written. -/
  out : List UInt8

/-- The character in the current cell of the tape. -/
def Tape.cell (t : Tape) : UInt8 := t.cells t.pos

/-- Assignment to the current cell of the tape. -/
def Tape.setCell (t : Tape) (v : UInt8) : Tape := {t with cells := Function.update t.cells t.pos v}

/-- The meaning of a command. -/
def Op.run (input : ℕ → Option UInt8) : Op → Tape → Tape
  | .forward,t => {t with pos := t.pos+1}
  | .backward,t => {t with pos := t.pos-1}
  | .increment,t => t.setCell (t.cell+1)
  | .decrement,t => t.setCell (t.cell-1)
  | .output,t => {t with out := t.out++[t.cell]}
  | .input,t => {t.setCell (stored (input t.reads)) with reads := t.reads+1}

/-- What is left to do: a program, then the loops that are open, innermost
first, each with its body and the program behind it. -/
structure Ref where
  /-- The program in hand. -/
  cur : Prog
  /-- The open loops. -/
  frames : List (Prog × Prog)
  /-- The tape. -/
  tape : Tape

/-- One step of the language. A loop runs its body while the current cell is
not zero: at its head a zero cell passes over it, and at the end of its body
another cell than zero leads back to the head. -/
def Ref.step (input : ℕ → Option UInt8) (r : Ref) : Ref :=
  match r.cur with
  | .seq op rest => {r with cur := rest,tape := op.run input r.tape}
  | .loop body rest =>
    if r.tape.cell=0 then {r with cur := rest}
    else {r with cur := body,frames := (body,rest)::r.frames}
  | .nil =>
    match r.frames with
    | [] => r
    | (body,rest)::fs =>
      if r.tape.cell=0 then {r with cur := rest,frames := fs}
      else {r with cur := .loop body rest,frames := fs}

/-- The program has ended. -/
def Ref.halted (r : Ref) : Prop := r.cur=.nil ∧ r.frames=[]

/-- The language after n steps of a program on a blank tape. -/
def refAfter (input : ℕ → Option UInt8) (p : Prog) : ℕ → Ref
  | 0 => ⟨p,[],⟨fun _ => 0,0,0,[]⟩⟩
  | n+1 => (refAfter input p n).step input

/-- Opening minus closing brackets before a position: the loops that are open
there. -/
def openAt (toks : List UInt8) (i : ℕ) : ℤ :=
  ((toks.take i).count 91 : ℤ)-(toks.take i).count 93

/-- The machine does on an input what the program means: it never leaves its
arrays, it writes the same characters, it ends when the program ends, and
before every instruction its stack has one entry for each open loop. -/
structure Refines (k : CharKind) (input : ℕ → Option UInt8) (file : List UInt8) (p : Prog) :
    Prop where
  /-- No access leaves an array. -/
  safe : ∀ n,∃ vm,vmAfter k input file n=some vm
  /-- The machine ends with some output when the program does. -/
  ends : ∀ out,(∃ n vm,vmAfter k input file n=some vm ∧ vm.halted ∧ vm.out=out) ↔
    ∃ n,(refAfter input p n).halted ∧ (refAfter input p n).tape.out=out
  /-- The machine writes what the program writes. -/
  writes : ∀ out,(∃ n vm,vmAfter k input file n=some vm ∧ vm.out=out) ↔
    ∃ n,(refAfter input p n).tape.out=out
  /-- The stack follows the open loops. -/
  stack : ∀ n vm,vmAfter k input file n=some vm → ¬vm.halted → vm.sp=openAt p.render vm.ip.toNat

end StudyCode.Brainfuck
