import StudyCode.CheckedLoop

/-!
# The number lexer

`nexttoken` is an automaton that shares the cursor `forward` with the loop of
`main`. Reads of the buffer are checked: there is nothing behind its terminator.
The cursor is an int and the token buffer has 128 cells, which are checked too.
-/

namespace StudyCode.FloatToken

open Checked

/-- `isdigit`. -/
def isdigit (c : UInt8) : Bool := 48 ≤ c ∧ c ≤ 57

/-- The values of `state`. -/
inductive State
  /-- In front of a number. -/
  | st12
  /-- In its integer part. -/
  | st13
  /-- Behind the point. -/
  | st14
  /-- In its fraction. -/
  | st15
  /-- Behind the mark of the exponent. -/
  | st16
  /-- Behind the sign of the exponent. -/
  | st17
  /-- In its exponent. -/
  | st18
  /-- Behind the number. -/
  | st19
  deriving DecidableEq

/-- The global variables but `state`. -/
structure Lexer where
  /-- Position of the character read last. -/
  forward : ℤ
  /-- Position of the first character of the token. -/
  start : ℤ
  /-- `token_buf`. -/
  tokenBuf : List UInt8

/-- The text of `cbuf`: `12.3*********klj12.2e2jj778`. -/
def cbufText : List UInt8 :=
  [49,50,46,51]++(List.replicate 9 42++[107,108,106])++[49,50,46,50,101,50]++[106,106]++[55,55,56]

/-- The variables at first. -/
def initial : Lexer := ⟨-1,0,List.replicate 128 0⟩

/-- `nextchar`. -/
def nextchar (cbuf : List UInt8) (x : Lexer) : Option (UInt8×Lexer) := do
  let forward ← addInt x.forward 1
  let c ← cellAt cbuf forward
  some (c,⟨forward,x.start,x.tokenBuf⟩)

/-- `back`. -/
def back (x : Lexer) : Option Lexer := do
  let forward ← addInt x.forward (-1)
  some ⟨forward,x.start,x.tokenBuf⟩

/-- `next`. -/
def next (x : Lexer) : Option Lexer := do
  let forward ← addInt x.forward 1
  some ⟨forward,x.start,x.tokenBuf⟩

/-- One turn of the loop in `gettoken`. -/
def copyTurn (cbuf : List UInt8) (i : ℤ) (s : List UInt8×ℤ) : Option (List UInt8×ℤ) := do
  let c ← cellAt cbuf i
  let tokenBuf ← putAt s.1 s.2 c
  let j ← addInt s.2 1
  some (tokenBuf,j)

/-- `gettoken`. -/
def gettoken (cbuf : List UInt8) (x : Lexer) : Option Lexer := do
  let r ← forUp (copyTurn cbuf) x.start (x.forward+1) (x.tokenBuf,0)
  let tokenBuf ← putAt r.1 r.2 0
  some ⟨x.forward,x.start,tokenBuf⟩

/-- The state behind a character, for the states inside of a number. -/
def move : State → UInt8 → State
  | .st12,_ => .st12
  | .st13,c =>
    if isdigit c then .st13
    else if c=101 ∨ c=69 then .st16
    else if c=46 then .st14
    else .st19
  | .st14,c => if isdigit c then .st15 else .st14
  | .st15,c =>
    if isdigit c then .st15
    else if c=101 ∨ c=69 then .st16
    else .st19
  | .st16,c =>
    if isdigit c then .st18
    else if c=43 ∨ c=45 then .st17
    else .st16
  | .st17,c => if isdigit c then .st18 else .st17
  | .st18,c => if isdigit c then .st18 else .st19
  | .st19,_ => .st19

/-- The loop of `nexttoken`. -/
def tokenLoop (cbuf : List UInt8) : ℕ → State → Lexer → Option Lexer
  | 0,_,_ => none
  | fuel+1,.st12,x => do
    let r ← nextchar cbuf x
    let x : Lexer := ⟨r.2.forward,r.2.forward,r.2.tokenBuf⟩
    if isdigit r.1 then tokenLoop cbuf fuel .st13 x
    else
      let x ← next x
      tokenLoop cbuf fuel .st12 x
  | _+1,.st19,x => do
    let x ← back x
    gettoken cbuf x
  | fuel+1,state,x => do
    let r ← nextchar cbuf x
    tokenLoop cbuf fuel (move state r.1) r.2

/-- `nexttoken`. -/
def nexttoken (fuel : ℕ) (cbuf : List UInt8) (x : Lexer) : Option Lexer :=
  tokenLoop cbuf fuel .st12 x

/-- What is printed of the token buffer. -/
def printed (x : Lexer) : List UInt8 := x.tokenBuf.takeWhile (· ≠ 0)

/-- `strlen`. -/
def strlen (cbuf : List UInt8) : ℕ := (cbuf.takeWhile (· ≠ 0)).length

/-- One less than a `size_t`: zero wraps around. -/
def sizePred (n : ℕ) : ℕ := if n=0 then 2^64-1 else n-1

/-- The loop of `main`: the tokens printed. -/
def mainLoop (cbuf : List UInt8) : ℕ → Lexer → Option (List (List UInt8))
  | 0,_ => none
  | fuel+1,x => do
    let x ← nexttoken fuel cbuf x
    if (x.forward%2^64).toNat ≥ sizePred (strlen cbuf) then some [printed x]
    else
      let tokens ← mainLoop cbuf fuel x
      some (printed x::tokens)

end StudyCode.FloatToken
