import StudyCode.BubbleSort

/-!
# The table of the subset construction

A graph is a table of named vertices with lists of labelled edges; the label
'*' is the empty word. The construction fills a matrix of state sets. Column
0 lists the sets found so far, and the cell of a row in a later column is the
set its character leads to. A set is kept as the C string of its state names
in an array of ten characters. An access outside an array ends the run with
none. Characters are the integers the C type promotes to, so that signed and
unsigned hosts are both covered.
-/

namespace StudyCode.Nfa

open BubbleSort

/-- Bound of the rows of a column and of the characters of a set. -/
def maxNodes : ℕ := 10

/-- The label of an edge on the empty word. -/
def epsilon : ℤ := 42

/-- An edge of the graph. -/
structure Edge where
  /-- Index of the vertex it leads to. -/
  dest : ℕ
  /-- Character it consumes. -/
  cost : ℤ
  deriving DecidableEq

/-- A vertex of the graph. -/
structure Vertex where
  /-- Name of the state. -/
  data : ℤ
  /-- Edges that leave it, in list order. -/
  adj : List Edge
  deriving DecidableEq

/-- The graph; NumVertex is the length of the table. -/
structure Graph where
  /-- Vertices by index. -/
  nodeTable : List Vertex
  deriving DecidableEq

/-- The characters of a set array before its terminator. The array starts
zeroed and is only written at the end of the string, so all other cells are
NUL. -/
abbrev Str := List ℤ

/-- The ten cells of a set array. -/
def cells (t : Str) : List ℤ := t++List.replicate (maxNodes-t.length) 0

/-- Whether a character is new to a set array: 0 when some cell holds it. -/
def checkChar (t : Str) (ti : ℤ) : ℕ := if ti ∈ cells t then 0 else 1

/-- The assignment behind the last character of a set array. -/
def put (t : Str) (c : ℤ) : Option Str := if t.length < maxNodes then some (t++[c]) else none

/-- Position of the terminator; a full array has none. -/
def strEnd (t : Str) : Option ℕ := if t.length < maxNodes then some t.length else none

/-- One edge of the inner loop of Smove and E_Closure: a destination over the
wanted character is added unless the set has it. -/
def scanEdge (g : Graph) (w : ℤ) (t : Str) (e : Edge) : Option Str :=
  if e.cost=w then
    match g.nodeTable[e.dest]? with
    | some v => if checkChar t v.data=1 then put t v.data else some t
    | none => none
  else some t

/-- The vertex loop of Smove and E_Closure for one name of a set. -/
def scanVertices (g : Graph) (w : ℤ) (t : Str) (x : ℤ) : Option Str :=
  g.nodeTable.foldlM (fun t v => if v.data=x then v.adj.foldlM (scanEdge g w) t else some t) t

/-- Smove: the states the names in t1 lead to over a character are added to
t2, which is then sorted. -/
def smove (g : Graph) (t1 t2 : Str) (transword : ℤ) : Option Str := do
  let _ ← strEnd t2
  let t ← (cells t1).foldlM (scanVertices g transword) t2
  some (bubbleSort t)

/-- The outer loop of E_Closure from position i on. The set grows while it is
scanned; the fuel bounds the positions and is never the reason to stop. -/
def closeLoop (g : Graph) : ℕ → ℕ → Str → Option Str
  | 0,_,_ => none
  | fuel+1,i,t =>
    match t[i]? with
    | some x => do
      let t ← scanVertices g epsilon t x
      closeLoop g fuel (i+1) t
    | none => if i < maxNodes then some t else none

/-- E_Closure: the set is closed under edges on the empty word and sorted. -/
def eClosure (g : Graph) (t : Str) : Option Str := do
  let _ ← strEnd t
  let t ← closeLoop g (maxNodes+1) 0 t
  some (bubbleSort t)

/-- A node of the matrix. -/
structure TableNode where
  /-- Name given to the set; NUL when there is none. -/
  newname : ℤ
  /-- The set. -/
  ch : Str
  deriving DecidableEq

/-- The matrix. Column 0 lists the sets, column i belongs to the i-th
character. -/
structure TranMatrix where
  /-- Characters of the columns from 1 on. -/
  transword : List ℤ
  /-- Node of a column and a row. -/
  tn : ℕ → ℕ → TableNode
  /-- Rows of column 0 in use. -/
  numTn : ℕ

/-- The number of characters. -/
def TranMatrix.transnum (tm : TranMatrix) : ℕ := tm.transword.length

/-- Assignment of a node. -/
def TranMatrix.set (tm : TranMatrix) (i j : ℕ) (n : TableNode) : TranMatrix :=
  {tm with tn := fun a b => if a=i ∧ b=j then n else tm.tn a b}

/-- Init_Matrix: every node is blank. -/
def initMatrix (words : List ℤ) : TranMatrix := ⟨words,fun _ _ => ⟨0,[]⟩,0⟩

/-- CheckTable: the row of column 0 that holds the set, and 1 when no row
holds it. -/
def checkTable (tm : TranMatrix) (str : Str) : ℕ :=
  ((List.range tm.numTn).find? fun i => (tm.tn 0 i).ch=str).getD 1

/-- The scanf of a name: at the end of the input the variable keeps its
value. -/
def scanName (old : ℤ) : List ℤ → ℤ × List ℤ
  | [] => (old,[])
  | c::rest => (c,rest)

/-- What NFA_to_DFA does with the set of a cell. A set that CheckTable
reports as 1 is named and appended to column 0, any other takes over the name
of the row that CheckTable reports. -/
def enter (tm : TranMatrix) (names : List ℤ) (i j : ℕ) : Option (TranMatrix × List ℤ) :=
  let t := (tm.tn i j).ch
  if t=[] then some (tm,names)
  else if checkTable tm t=1 then
    let name := scanName (tm.tn i j).newname names
    if tm.numTn < maxNodes then
      some ({(tm.set i j ⟨name.1,t⟩).set 0 tm.numTn ⟨name.1,t⟩ with numTn := tm.numTn+1},name.2)
    else none
  else some (tm.set i j ⟨(tm.tn 0 (checkTable tm t)).newname,t⟩,names)

/-- The body of the inner loop of NFA_to_DFA for row j and column i. -/
def fillCell (g : Graph) (j : ℕ) (st : TranMatrix × List ℤ) (i : ℕ) :
    Option (TranMatrix × List ℤ) :=
  match st.1.transword[i-1]? with
  | some w => do
    let t ← smove g (st.1.tn 0 j).ch (st.1.tn i j).ch w
    let t ← eClosure g t
    enter (st.1.set i j ⟨(st.1.tn i j).newname,t⟩) st.2 i j
  | none => none

/-- The inner loop: all columns of row j. -/
def fillRow (g : Graph) (j : ℕ) (st : TranMatrix × List ℤ) : Option (TranMatrix × List ℤ) :=
  (List.range' 1 st.1.transnum).foldlM (fillCell g j) st

/-- The outer loop, over a table that grows while it is scanned. A column has
ten rows, so eleven turns reach the end of every table. -/
def fillLoop (g : Graph) : ℕ → ℕ → TranMatrix × List ℤ → Option (TranMatrix × List ℤ)
  | 0,_,_ => none
  | fuel+1,j,st =>
    if j < st.1.numTn then do
      let st ← fillRow g j st
      fillLoop g fuel (j+1) st
    else some st

/-- The first row: the name of vertex 0, closed once for every character. -/
def firstSet (g : Graph) (tm : TranMatrix) : Option Str :=
  match g.nodeTable[0]? with
  | some v => (List.range tm.transnum).foldlM (fun t _ => eClosure g t) (v.data::(tm.tn 0 0).ch.tail)
  | none => none

/-- NFA_to_DFA with the names the user will enter. -/
def nfaToDfa (g : Graph) (tm : TranMatrix) (names : List ℤ) : Option TranMatrix := do
  let t ← firstSet g tm
  let name := scanName (tm.tn 0 0).newname names
  let st ← fillLoop g (maxNodes+1) 0 ({tm.set 0 0 ⟨name.1,t⟩ with numTn := tm.numTn+1},name.2)
  some st.1

end StudyCode.Nfa
