import StudyCode.Multipart

/-!
# Encoded bodies are decoded to their parts

The decoder is followed line by line: over the boundary in front of a part, its
headers, the empty line and the lines of its value up to the next boundary,
where the line end in front of it is taken away from the pieces of the value.
-/

namespace StudyCode.Multipart

/-! ## Parts that come back -/

/-- No character ends a line. -/
def OneLine (l : Text) : Prop := ∀ c ∈ l,isBreak c=false

/-- A header that the decoder knows as one. -/
structure HeaderOk (boundary line : Text) : Prop where
  /-- It is one line. -/
  oneLine : OneLine line
  /-- It is not empty. -/
  ne_nil : line≠[]
  /-- It does not look like the boundary. -/
  other : ¬delimiter boundary <+: line
  /-- It looks like a header. -/
  kind : isDisposition line=true ∨ isHeader line=true

/-- The name of a part by its headers. -/
def nameOf (headers : List Text) (name : Option Text) : Option Text :=
  headers.foldl (fun name h => if isDisposition h=true then names h name else name) name

/-- No line of a value begins like the boundary. -/
def Clear (boundary value : Text) : Prop :=
  ∀ pre post,value=pre++delimiter boundary++post → ∃ c ∈ pre.getLast?,isBreak c=false

/-- A part that the decoder can find again. -/
structure Part.Ok (boundary : Text) (p : Part) : Prop where
  /-- There is a header. -/
  ne_nil : p.headers≠[]
  /-- The headers. -/
  headers : ∀ h ∈ p.headers,HeaderOk boundary h
  /-- The name stands in the headers. -/
  name : nameOf p.headers none=some p.name
  /-- The value. -/
  clear : Clear boundary p.value

/-- The index of the last part of a name, from one on. -/
def indexesOf (parts : List Part) : AList fun _ : Text => ℕ :=
  (parts.zipIdx 1).foldl (fun t q => t.insert q.1.name q.2) ∅

/-! ## Lines -/

/-- The loop of decode with as much fuel as it needs. -/
def decodeFrom (boundary rest : Text) (d : State) : Option State :=
  decodeLoop boundary (rest.length+1) rest d

/-- A line ends at the first break. -/
theorem OneLine.takeWhile {l : Text} (hl : OneLine l) {c : Char} (hc : isBreak c=true)
    (rest : Text) : (l++c::rest).takeWhile (fun c => !isBreak c)=l ∧
      (l++c::rest).dropWhile (fun c => !isBreak c)=c::rest := by
  have hall : ∀ a ∈ l,(!isBreak a)=true := fun a ha => by rw [hl a ha]; rfl
  constructor
  · rw [List.takeWhile_append_of_pos hall,List.takeWhile_cons_of_neg (by simp [hc]),
      List.append_nil]
  · rw [List.dropWhile_append_of_pos hall,List.dropWhile_cons_of_neg (by simp [hc])]

/-- What is behind a break is clear. -/
theorem Clear.rest {boundary l rest : Text} {c : Char} (h : Clear boundary (l++c::rest))
    (hc : isBreak c=true) : Clear boundary rest := fun pre post hp => by
  obtain ⟨x,hx,hxc⟩ := h (l++c::pre) post (by simp [hp])
  cases pre with
  | nil =>
    have hlast : (l++[c]).getLast?=some c := List.getLast?_concat
    rw [hlast] at hx
    cases hx
    rw [hc] at hxc
    cases hxc
  | cons y pre =>
    refine ⟨x,?_,hxc⟩
    rw [List.getLast?_append_of_ne_nil _ (List.cons_ne_nil _ _),List.getLast?_cons_cons] at hx
    exact hx

/-- The pieces that a line of the value gives. -/
def pieces (l : Text) : List Text := if l=[] then [] else [l]

/-- The state after a boundary. -/
def fresh (parts : List Part) : State := ⟨none,[],[],false,parts,indexesOf parts⟩

/-- One part more. -/
theorem indexesOf_concat (parts : List Part) (p : Part) :
    indexesOf (parts++[p])=(indexesOf parts).insert p.name (parts.length+1) := by
  unfold indexesOf
  rw [List.zipIdx_append,List.foldl_append]
  simp [Nat.add_comm]

/-- A form with one field. -/
def field : Part :=
  ⟨['x'],["Content-Disposition: form-data; name=\"x\"".toList],['1']⟩

end StudyCode.Multipart
