import StudyCode.CheckedLoop

/-!
# The port list parser

`get_int_list` cuts its argument at commas in place, cuts every token again at
its first dash, and stores the numbers of all ranges. Pointers are offsets into
the buffer. Reads and writes are checked, and so is the count of tokens, which
is an int: what has no value here is undefined in the source. The file does not
declare `strtoll`, so that its result is taken for an int.
-/

namespace StudyCode.DisposeString

open Checked

/-! ## The library functions -/

/-- The text from a position to its terminator. -/
def cString (buf : List UInt8) (p : ℤ) : Option (List UInt8) :=
  if 0 ≤ p ∧ 0 ∈ buf.drop p.toNat then some ((buf.drop p.toNat).takeWhile (· ≠ 0)) else none

/-- `strchr`: the position of the first such character of the text, if any. -/
def strchr (buf : List UInt8) (p : ℤ) (c : UInt8) : Option (Option ℤ) := do
  let t ← cString buf p
  some (if c ∈ t then some (p+t.idxOf c) else none)

/-- White space in front of a number. -/
def isSpace (c : UInt8) : Bool := c.toNat=32 ∨ 9 ≤ c.toNat ∧ c.toNat ≤ 13

/-- The value of a digit or a letter. -/
def digitValue (c : UInt8) : ℕ :=
  if 48 ≤ c.toNat ∧ c.toNat ≤ 57 then c.toNat-48
  else if 65 ≤ c.toNat ∧ c.toNat ≤ 90 then c.toNat-55
  else if 97 ≤ c.toNat ∧ c.toNat ≤ 122 then c.toNat-87
  else 36

/-- A character that is a digit in a base. -/
def isDigitIn (base : ℕ) (c : UInt8) : Bool := digitValue c < base

/-- The length of a sign in front of a text. -/
def signLength : List UInt8 → ℕ
  | c::_ => if c=45 ∨ c=43 then 1 else 0
  | [] => 0

/-- The length of the mark of a hexadecimal number, which a digit follows. -/
def markLength (base : ℕ) : List UInt8 → ℕ
  | z::x::d::_ => if base=16 ∧ z=48 ∧ (x=120 ∨ x=88) ∧ isDigitIn 16 d then 2 else 0
  | _ => 0

/-- Values outside of long long are replaced by its bounds. -/
def clip (v : ℤ) : ℤ := max (-2^63) (min v (2^63-1))

/-- `strtoll` on a text: the value, and how many characters it has consumed. -/
def strtoll (base : ℕ) (t : List UInt8) : ℤ×ℕ :=
  let space := (t.takeWhile isSpace).length
  let r := t.drop space
  let sign := signLength r
  let mark := markLength base (r.drop sign)
  let digits := (r.drop (sign+mark)).takeWhile (isDigitIn base)
  if digits=[] then (0,0)
  else
    let v : ℕ := digits.foldl (fun v c => base*v+digitValue c) 0
    (clip (if r.head?=some 45 then -(v : ℤ) else v),space+(sign+mark)+digits.length)

/-- The result of a function that is not declared: the low half as an int. -/
def toInt (v : ℤ) : ℤ := Int.bmod v (2^32)

/-- An unsigned 64-bit value. -/
def toU64 (v : ℤ) : ℕ := (v%2^64).toNat

/-! ## The parser -/

/-- The base that `get_integer` chooses. -/
def baseOf (t : List UInt8) : ℕ := if t.take 2=[48,120] then 16 else 10

/-- `get_integer`: the value and the position behind it. -/
def getInteger (buf : List UInt8) (str : ℤ) : Option (ℕ×ℤ) := do
  let t ← cString buf str
  some (toU64 (toInt (strtoll (baseOf t) t).1),str+(strtoll (baseOf t) t).2)

/-- The loop of `get_token_count`: the value returned and `*count`. -/
def countLoop (buf : List UInt8) (delimit : UInt8) : ℕ → ℤ → ℤ → ℤ → Option (ℤ×ℤ)
  | 0,_,_,_ => none
  | fuel+1,ptr,ptr2,count => do
    let c ← cellAt buf ptr
    if c ≠ 0 then
      if c=delimit then
        if ptr=ptr2 then some (-1,count)
        else
          let count ← addInt count 1
          countLoop buf delimit fuel (ptr+1) (ptr+1) count
      else countLoop buf delimit fuel (ptr+1) ptr2 count
    else if ptr=ptr2 then some (-1,count)
    else
      let count ← addInt count 1
      some (0,count)

/-- `get_token_count`. -/
def getTokenCount (fuel : ℕ) (buf : List UInt8) (delimit : UInt8) : Option (ℤ×ℤ) :=
  countLoop buf delimit fuel 0 0 0

/-- The loop of `get_token_list`: the buffer cut at the delimiters and the list
of the positions of the tokens. -/
def listLoop (delimit : UInt8) :
    ℕ → List UInt8 → Block ℤ → ℤ → ℤ → ℤ → Option (List UInt8×Block ℤ)
  | 0,_,_,_,_,_ => none
  | fuel+1,buf,tokenList,ptr,ptr2,count => do
    let c ← cellAt buf ptr
    if c ≠ 0 then
      if c=delimit then
        let buf ← putAt buf ptr 0
        let tokenList ← tokenList.write count ptr2
        let count ← addInt count 1
        listLoop delimit fuel buf tokenList (ptr+1) (ptr+1) count
      else listLoop delimit fuel buf tokenList (ptr+1) ptr2 count
    else
      let tokenList ← tokenList.write count ptr2
      some (buf,tokenList)

/-- `get_token_list`. -/
def getTokenList (fuel : ℕ) (buf : List UInt8) (delimit : UInt8) (tokenList : Block ℤ) :
    Option (List UInt8×Block ℤ) :=
  listLoop delimit fuel buf tokenList 0 0 0

/-- The exchange of two values by exclusive or, when the second is smaller. -/
def ordered (l h : ℕ) : ℕ×ℕ :=
  if h < l then
    let l := l ^^^ h
    let h := l ^^^ h
    let l := l ^^^ h
    (l,h)
  else (l,h)

/-- `get_integer` with the test behind it: the value, unless something is left. -/
def wholeInteger (buf : List UInt8) (str : ℤ) : Option (Option ℕ) := do
  let l ← getInteger buf str
  let c ← cellAt buf l.2
  some (if c ≠ 0 then none else some l.1)

/-- `get_range`: the buffer cut at the dash, and `*low` and `*high` unless the
function returns -1. -/
def getRange (buf : List UInt8) (str : ℤ) : Option (List UInt8×Option (ℕ×ℕ)) := do
  match ← strchr buf str 45 with
  | some ptr =>
    let buf ← putAt buf ptr 0
    match ← wholeInteger buf str with
    | none => some (buf,none)
    | some l =>
      match ← wholeInteger buf (ptr+1) with
      | none => some (buf,none)
      | some h => some (buf,some (ordered l h))
  | none =>
    match ← wholeInteger buf str with
    | none => some (buf,none)
    | some l => some (buf,some (l,l))

/-- The innermost loop: store one number, or return when the list is full. -/
def storeTurn (j : ℤ) (s : Block ℕ×ℤ) : Option (Block ℕ ⊕ Block ℕ×ℤ) :=
  if s.2 > 255 then some (.inl s.1)
  else do
    let intList ← s.1.write s.2 ((j-1)%2^32).toNat
    let count ← addInt s.2 1
    some (.inr (intList,count))

/-- The loop over the tokens: parse one, check its bounds, store its numbers. -/
def tokenTurn (tokenList : Block ℤ) (i : ℤ) (s : List UInt8×Block ℕ×ℤ) :
    Option (List UInt8×Block ℕ ⊕ List UInt8×Block ℕ×ℤ) := do
  let p ← tokenList.read i
  let r ← getRange s.1 p
  match r.2 with
  | none => some (.inl (r.1,s.2.1))
  | some b =>
    if b.1 < 1 ∨ b.1 > 32 ∨ b.2 < 1 ∨ b.2 > 32 then some (.inl (r.1,s.2.1))
    else
      let o ← scanUp storeTurn b.1 (b.2+1) s.2
      some (o.elim (fun l => .inl (r.1,l)) fun t => .inr (r.1,t))

/-- What `get_int_list` returns and leaves behind. -/
structure Outcome where
  /-- Return value. -/
  ret : ℤ
  /-- The buffer, cut. -/
  str : List UInt8
  /-- `int_list`. -/
  intList : Block ℕ
  /-- `*int_count`. -/
  intCount : ℕ

/-- `get_int_list` on a buffer; `junk` is what the allocated list of tokens
holds at first. -/
def getIntList (fuel : ℕ) (junk : ℕ → ℤ) (str : List UInt8) (intList : Block ℕ) (intCount : ℕ) :
    Option Outcome := do
  let r ← getTokenCount fuel str 44
  if r.1 < 0 ∨ r.2 > 256 then some ⟨-1,str,intList,intCount⟩
  else
    let l ← getTokenList fuel str 44 ⟨r.2.toNat,junk⟩
    match ← scanUp (tokenTurn l.2) 0 r.2 (l.1,intList,0) with
    | .inl e => some ⟨-1,e.1,e.2,intCount⟩
    | .inr e => some ⟨0,e.1,e.2.1,e.2.2.toNat⟩

end StudyCode.DisposeString
