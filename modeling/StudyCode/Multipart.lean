import Mathlib.Data.List.AList
import Mathlib.Data.List.DropRight
import Mathlib.Data.List.TakeWhile
import Mathlib.Tactic

/-!
# Bodies of multipart data

The decoder reads a body line by line, where a carriage return and a line feed
both end a line, and collects headers and pieces of the value of a part until
the next boundary. The encoder writes parts with their headers. A body that the
encoder has written is decoded to the same parts, as long as their headers look
like headers and no line of a value looks like the boundary. A character stands
for a byte.
-/

namespace StudyCode.Multipart

/-- Strings. -/
abbrev Text := List Char

/-- A character that ends a line. -/
def isBreak (c : Char) : Bool := c= '\r' ∨ c= '\n'

/-- The class of white space. -/
def isSpace (c : Char) : Bool := c= ' ' ∨ (9 ≤ c.toNat ∧ c.toNat ≤ 13)

/-- is_header: a match of the pattern for a name, a colon and a value. The colon is not
the first character, none of the white space stands before it, and something else than
white space stands behind it. -/
def isHeader (value : Text) : Bool :=
  (List.range value.length).any fun j =>
    value.getD (j+1) ' '= ':' && !isSpace (value.getD j ' ') &&
      (value.drop (j+2)).any fun c => !isSpace c

/-- The first line of a part. -/
def isDisposition (line : Text) : Bool :=
  (line.take 19).map Char.toLower="content-disposition".toList

/-- The value behind a name field, without its first and its last character, if a piece of
a header has the field. -/
def nameField (v : Text) : Option Text :=
  let field := v.dropWhile isSpace
  if (field.take 5).map Char.toLower="name=".toList then
    let value := ((field.drop 5).dropWhile isSpace).takeWhile (·≠ '=')
    some (value.rdropWhile isSpace).tail.dropLast
  else none

/-- The name of a part after a header: the last name field of its pieces counts. -/
def names (line : Text) (name : Option Text) : Option Text :=
  ((line.splitOnP (·= ';')).filter (·≠[])).foldl
    (fun name v => if isHeader v then name else (nameField v).or name) name

/-- A part. -/
structure Part where
  /-- The name. -/
  name : Text
  /-- The header lines. -/
  headers : List Text
  /-- The value. -/
  value : Text
  deriving DecidableEq

/-- The local variables of decode and the result so far. -/
structure State where
  /-- part_name. -/
  partName : Option Text
  /-- part_headers. -/
  partHeaders : List Text
  /-- part_value. -/
  partValue : List Text
  /-- processing_part_value. -/
  processing : Bool
  /-- The parts. -/
  data : List Part
  /-- The index of a name, from one on. -/
  indexes : AList fun _ : Text => ℕ

/-- Nothing read yet. -/
def State.init : State := ⟨none,[],[],false,[],∅⟩

/-- Another piece of the value. -/
def State.push (d : State) (piece : Text) : State := {d with partValue := d.partValue++[piece]}

/-- Store the part with a value. -/
def State.store (d : State) (name value : Text) : State :=
  {d with
    data := d.data++[⟨name,d.partHeaders,value⟩]
    indexes := d.indexes.insert name (d.data.length+1)}

/-- The line end before a boundary is taken away. Where only the last piece but one is
taken, the table that concat is called with has a hole and its length is not defined; there
is no result here. -/
def strip (value : List Text) : Option (List Text) :=
  match value.reverse with
  | x::y::l =>
    if x=['\n'] then if y=['\r'] then some l.reverse else some (y::l).reverse
    else if y=['\r'] then none
    else some value
  | [x] => if x=['\n'] then some [] else some value
  | [] => some []

/-- The turn of decode at a boundary. -/
def State.boundary (d : State) : Option State :=
  match d.partName with
  | none => some {d with processing := false}
  | some name =>
    (strip d.partValue).map fun value =>
      {d.store name value.flatten with
        partName := none,partHeaders := [],partValue := [],processing := false}

/-- The end of the headers. -/
def blankLine : Text := ['\r','\n','\r','\n']

/-- A header line, with what stands behind the line. -/
def State.header (d : State) (line after : Text) : State × Text :=
  let d := {d with partHeaders := d.partHeaders++[line]}
  if blankLine <+: after then ({d with processing := true},after.drop 4) else (d,after.tail)

/-- Two dashes and the boundary. -/
def delimiter (boundary : Text) : Text := '-':: '-'::boundary

/-- One turn of the loop of decode: a line, and what stands behind it from its end on. The
result has the position of the next line. -/
def turn (boundary line after : Text) (d : State) : Option (State × Text) :=
  if line=[] then
    some (if after≠[] ∧ d.processing=true then d.push (after.take 1) else d,after.tail)
  else if delimiter boundary <+: line then d.boundary.map fun d => (d,after.tail)
  else if d.processing=false ∧ isDisposition line=true then
    some ({d with partName := names line d.partName}.header line after)
  else if d.processing=false ∧ isHeader line=true then some (d.header line after)
  else
    let d := {d.push line with processing := true}
    some (if after=[] then d else d.push (after.take 1),after.tail)

/-- The loop of decode. -/
def decodeLoop (boundary : Text) : ℕ → Text → State → Option State
  | 0,_,_ => none
  | fuel+1,rest,d =>
    let after := rest.dropWhile fun c => !isBreak c
    match turn boundary (rest.takeWhile fun c => !isBreak c) after d with
    | none => none
    | some (d,next) => if after=[] then some d else decodeLoop boundary fuel next d

/-- The part that is open at the end of the body. -/
def State.finish (d : State) : State :=
  match d.partName with
  | none => d
  | some name => d.store name d.partValue.flatten

/-- What decode returns. -/
structure Data where
  /-- The parts. -/
  data : List Part
  /-- The index of a name, from one on. -/
  indexes : AList fun _ : Text => ℕ

/-- decode with a boundary: the parts and their indexes. -/
def decode (body boundary : Text) : Option Data :=
  (decodeLoop boundary (body.length+1) body State.init).map fun d => ⟨d.finish.data,d.finish.indexes⟩

/-- The end of a line. -/
def crlf : Text := ['\r','\n']

/-- The lines of a part. -/
def encodePart (boundary : Text) (p : Part) : Text :=
  delimiter boundary++crlf++(p.headers.map (·++crlf)).flatten++crlf++p.value++crlf

/-- encode, for parts with a value. -/
def encode (parts : List Part) (boundary : Text) : Text :=
  if parts=[] then []
  else (parts.map (encodePart boundary)).flatten++delimiter boundary++['-','-']++crlf

/-! ## Instances -/

/-- Assignment to a position of a table, from one on; none when it would leave a hole. -/
def writeAt (data : List Part) (i : ℕ) (p : Part) : Option (List Part) :=
  if 1 ≤ i ∧ i ≤ data.length then some (data.set (i-1) p)
  else if i=data.length+1 then some (data++[p])
  else none

/-- MultipartData:get. -/
def Data.get (m : Data) (name : Text) : Option Part :=
  (m.indexes.lookup name).bind fun i => m.data[i-1]?

/-- The part that set_simple makes. -/
def simplePart (name value : Text) : Part :=
  ⟨name,["Content-Disposition: form-data; name=\"".toList++name++"\"".toList],value⟩

/-- MultipartData:set_simple. A new name gets the index behind the number of names. -/
def Data.setSimple (m : Data) (name value : Text) : Option Data :=
  match m.indexes.lookup name with
  | some i => (writeAt m.data i (simplePart name value)).map fun data => {m with data := data}
  | none =>
    let i := m.indexes.keys.length+1
    (writeAt m.data i (simplePart name value)).map fun data => ⟨data,m.indexes.insert name i⟩

/-- MultipartData:delete. The parts behind the one that is removed move up; their indexes
stay. -/
def Data.delete (m : Data) (name : Text) : Data :=
  match m.indexes.lookup name with
  | some i =>
    ⟨if 1 ≤ i ∧ i ≤ m.data.length then m.data.eraseIdx (i-1) else m.data,m.indexes.erase name⟩
  | none => m

end StudyCode.Multipart
