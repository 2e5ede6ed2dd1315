import StudyCode.Brainfuck
import StudyCode.LoopCode

/-!
# The interpreter of brainfuck.c

This interpreter parses the text into a list of instructions in which a run of
additions, moves, outputs or inputs is one instruction with a difference, an
unsigned long that wraps. A list ends in an instruction of the type of a
closing bracket. The tape has a fixed size; a move that leaves it ends the
program with a message, and any other access behind it is kept as an error of
its own. A char is signed, so that EOF and the byte 255 are the same char.
-/

namespace StudyCode.BrainfuckList

open Brainfuck LoopCode

/-- The command of a character, for all characters but brackets. -/
def tokenOp (c : UInt8) : Option Op :=
  if c=43 then some .increment
  else if c=45 then some .decrement
  else if c=62 then some .forward
  else if c=60 then some .backward
  else if c=46 then some .output
  else if c=44 then some .input
  else none

/-- Whether a run that began with a command goes on with another one. -/
def joins : Op → Op → Bool
  | .increment,t => t=.increment ∨ t=.decrement
  | .decrement,t => t=.increment ∨ t=.decrement
  | .forward,t => t=.forward ∨ t=.backward
  | .backward,t => t=.forward ∨ t=.backward
  | .output,t => t=.output
  | .input,t => t=.input

/-- An instruction that is no loop. -/
structure Run where
  /-- The type of the instruction. -/
  type : Op
  /-- The difference. -/
  difference : BitVec 64
  deriving DecidableEq

/-- The difference after another character of a run. -/
def countOne (type : Op) (d : BitVec 64) (t : Op) : BitVec 64 := if t=type then d+1 else d-1

/-! ## Parsing -/

/-- The inner loops of brainfuck_parse_substring_incremental: the difference, and the
characters from the one that ends the run on. -/
def countRun (type : Op) : BitVec 64 → List UInt8 → BitVec 64 × List UInt8
  | d,[] => (d,[])
  | d,c::str =>
    match tokenOp c with
    | some t => if joins type t then countRun type (countOne type d t) str else (d,c::str)
    | none => (d,c::str)

/-- brainfuck_parse_substring_incremental on the characters from *ptr to the end: the
list, and the characters from *ptr on after the return. The fuel bounds the number of
characters. -/
def parseSubstring : ℕ → List UInt8 → Option (Code Run × List UInt8)
  | 0,_ => none
  | _+1,[] => some (.nil,[])
  | fuel+1,c::str =>
    match tokenOp c with
    | some type => do
      let run := countRun type 1 str
      let (next,rest) ← parseSubstring fuel run.2
      some (.seq ⟨type,run.1⟩ next,rest)
    | none =>
      if c=91 then do
        let (body,str) ← parseSubstring fuel str
        -- the closing bracket, if there is one, is passed by the loop
        let (next,rest) ← parseSubstring fuel str.tail
        some (.loop body next,rest)
      else if c=93 then some (.nil,c::str)
      else parseSubstring fuel str

/-- brainfuck_parse_string on an array that starts with some characters: the string
ends before the first zero. -/
def parseString (str : List UInt8) : Option (Code Run) :=
  let str := str.takeWhile (·≠0)
  (parseSubstring (str.length+1) str).map (·.1)

/-- EOF as a char. -/
def eof : UInt8 := 255

/-- The function fgetc, stored in a char, and what is left of the stream. -/
def fgetc (stream : List UInt8) : UInt8 × List UInt8 := (stored stream.head?,stream.tail)

/-- The function ungetc with a char; EOF is not pushed back. -/
def ungetc (c : UInt8) (stream : List UInt8) : List UInt8 := if c=eof then stream else c::stream

/-- The inner loops of brainfuck_parse_stream_until. -/
def countStream (until_ : UInt8) (type : Op) : BitVec 64 → List UInt8 → BitVec 64 × List UInt8
  | d,[] => (d,ungetc (fgetc []).1 [])
  | d,c::stream =>
    match tokenOp c with
    | some t =>
      if c≠until_ ∧ joins type t then countStream until_ type (countOne type d t) stream
      else (d,ungetc c stream)
    | none => (d,ungetc c stream)

/-- brainfuck_parse_stream_until. -/
def parseStreamUntil (until_ : UInt8) : ℕ → List UInt8 → Option (Code Run × List UInt8)
  | 0,_ => none
  | fuel+1,stream =>
    let (ch,stream) := fgetc stream
    if ch=until_ then some (.nil,stream)
    else
      match tokenOp ch with
      | some type => do
        let run := countStream until_ type 1 stream
        let (next,rest) ← parseStreamUntil until_ fuel run.2
        some (.seq ⟨type,run.1⟩ next,rest)
      | none =>
        if ch=91 then do
          let (body,stream) ← parseStreamUntil until_ fuel stream
          let (next,rest) ← parseStreamUntil until_ fuel stream
          some (.loop body next,rest)
        else if ch=93 then some (.nil,stream)
        else parseStreamUntil until_ fuel stream

/-- brainfuck_parse_stream. -/
def parseStream (stream : List UInt8) : Option (Code Run) :=
  (parseStreamUntil eof (stream.length+1) stream).map (·.1)

/-! ## Execution -/

/-- The execution context, with what it has read and written. The size of the tape
stays as it is and is an argument of the functions. -/
structure Context where
  /-- The cells, those behind the tape included. -/
  tape : ℤ → UInt8
  /-- The current cell. -/
  tapeIndex : ℤ
  /-- Number of calls of the input handler. -/
  reads : ℕ
  /-- Characters given to the output handler. -/
  out : List UInt8

/-- What ends a program early. -/
inductive Stop where
  /-- The message about an overrun. -/
  | overrun
  /-- The message about an underrun. -/
  | underrun
  /-- An access outside of the tape. -/
  | outside
  deriving DecidableEq

/-- The character in the current cell. -/
def Context.cell (x : Context) : UInt8 := x.tape x.tapeIndex

/-- Assignment to the current cell. -/
def Context.setCell (x : Context) (v : UInt8) : Context :=
  {x with tape := Function.update x.tape x.tapeIndex v}

/-- The current cell is a cell of the tape. -/
def Context.Inside (size : ℕ) (x : Context) : Prop := 0 ≤ x.tapeIndex ∧ x.tapeIndex < size

instance decidableInside (size : ℕ) (x : Context) : Decidable (x.Inside size) :=
  inferInstanceAs (Decidable (_ ∧ _))

/-- An access to the current cell. -/
def access (size : ℕ) (x y : Context) : Except Stop Context :=
  if x.Inside size then .ok y else .error .outside

/-- Conversion to int. -/
def toInt (v : ℤ) : ℤ := (v+2^31)%2^32-2^31

/-- INT_MAX - tape_size, an unsigned long. -/
def moveLimit (size : ℕ) : ℤ := (2^31-1-size)%2^64

/-- One call of the input handler. -/
def readOne (input : ℕ → Option UInt8) (x : Context) : Context :=
  {x.setCell (stored (input x.reads)) with reads := x.reads+1}

/-- The branches of brainfuck_execute for an instruction that is no loop. -/
def executeRun (size : ℕ) (input : ℕ → Option UInt8) (r : Run) (x : Context) :
    Except Stop Context :=
  let d := r.difference.toNat
  match r.type with
  | .increment => access size x (x.setCell (x.cell+UInt8.ofBitVec (r.difference.setWidth 8)))
  | .decrement => access size x (x.setCell (x.cell-UInt8.ofBitVec (r.difference.setWidth 8)))
  | .forward =>
    if moveLimit size ≤ d ∨ (size : ℤ) ≤ (x.tapeIndex+d)%2^64 then .error .overrun
    else .ok {x with tapeIndex := toInt (x.tapeIndex+d)}
  | .backward =>
    if moveLimit size ≤ d ∨ x.tapeIndex-r.difference.toInt < 0 then .error .underrun
    else .ok {x with tapeIndex := toInt (x.tapeIndex-d)}
  | .output => if d=0 then .ok x else access size x {x with out := x.out++List.replicate d x.cell}
  | .input => if d=0 then .ok x else access size x ((readOne input)^[d] x)

/-- brainfuck_execute with a tape of some size. -/
def executor (size : ℕ) (input : ℕ → Option UInt8) : Machine Run Stop Context where
  act := executeRun size input
  test x := if x.Inside size then .ok (x.cell≠0) else .error .outside

/-! ## The language -/

/-- The text of a program. -/
def render : Code Op → List UInt8
  | .nil => []
  | .seq op rest => op.token::render rest
  | .loop body rest => 91::render body++93::render rest

/-- The characters of a text that mean something. -/
def tokens (text : List UInt8) : List UInt8 := text.filter (· ∈ [43,45,62,60,46,44,91,93])

/-- The meaning of a command on a tape without ends. -/
def runOp (input : ℕ → Option UInt8) : Op → Context → Context
  | .increment,x => x.setCell (x.cell+1)
  | .decrement,x => x.setCell (x.cell-1)
  | .forward,x => {x with tapeIndex := x.tapeIndex+1}
  | .backward,x => {x with tapeIndex := x.tapeIndex-1}
  | .output,x => {x with out := x.out++[x.cell]}
  | .input,x => readOne input x

/-- The language on a tape without ends. -/
def language (input : ℕ → Option UInt8) : Machine Op Stop Context where
  act op x := .ok (runOp input op x)
  test x := .ok (x.cell≠0)

/-- The language on a tape that must not be left. -/
def bounded (size : ℕ) (input : ℕ → Option UInt8) : Machine Op Stop Context where
  act op x :=
    if x.Inside size ∧ (runOp input op x).Inside size then .ok (runOp input op x)
    else .error .outside
  test x := if x.Inside size then .ok (x.cell≠0) else .error .outside

end StudyCode.BrainfuckList
