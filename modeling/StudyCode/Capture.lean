import Mathlib.Data.List.GetD
import StudyCode.TextLines

/-!
# Scanning stored lines again and again

`readInputData` stores what fgets returns in slots of 128 bytes, and `main`
hands the slots to a matcher in turn, each time behind a cut of the last
character in place. The matchers read the text only and succeed.
-/

namespace StudyCode.Capture

open TextLines

/-! ## The program -/

/-- LEN_MAX_NUM. -/
def lenMaxNum : ℕ := 1024

/-- LEN_PER_LINE. -/
def lenPerLine : ℕ := 128

/-- LEN_MAX_SUPPORT. -/
def lenMaxSupport : ℕ := lenMaxNum*lenPerLine

/-- A line feed. -/
def newline : UInt8 := 10

/-- The function fgets with room for a number of bytes: the line and the rest of
the file. -/
def fgets (n : ℕ) (s : List UInt8) : List UInt8 × List UInt8 := takeLine newline n s

/-- The successive results of fgets with a buffer of a line. -/
def chunks (s : List UInt8) : List (List UInt8) :=
  match h : fgets (lenPerLine-1) s with
  | ([],_) => []
  | (c::line,rest) =>
    have hlen : rest.length < s.length := by
      have happ := congrArg List.length (takeLine_append newline (lenPerLine-1) s)
      rw [←fgets,h,List.length_append,List.length_cons] at happ
      dsimp only at happ
      omega
    (c::line)::chunks rest
termination_by s.length

/-- The bytes of inputData. -/
abbrev Data := ℕ → UInt8

/-- memcpy of a buffer to an offset; outside of the data it has no value. -/
def memcpy (data : Data) (offset : ℕ) (buf : List UInt8) : Option Data :=
  if offset+buf.length ≤ lenMaxSupport then
    some fun x => if offset ≤ x ∧ x < offset+buf.length then buf.getD (x-offset) 0 else data x
  else none

/-- What fgets leaves in a buffer: the line, a NUL and what was there. -/
def fillBuf (line buf : List UInt8) : List UInt8 := line++0::buf.drop (line.length+1)

/-- The reading loop over the results of fgets, with line_n and buf. -/
def readLoop : List (List UInt8) → ℕ → List UInt8 → Data → Option (ℕ × Data)
  | [],lineN,_,data => some (lineN,data)
  | line::lines,lineN,buf,data =>
    if lenMaxNum < lineN then some (lineN,data)
    else do
      let data ← memcpy data (lineN*lenPerLine) (fillBuf line buf)
      readLoop lines (lineN+1) (List.replicate lenPerLine 0) data

/-- `readInputData` on a file that is not empty: line_num and the data. -/
def readInputData (file : List UInt8) : Option (ℕ × Data) :=
  readLoop (chunks file) 0 (List.replicate lenPerLine 0) fun _ => 0

/-- strlen of the string at an offset; without a NUL it has no value. -/
def strlen (data : Data) (p : ℕ) : Option ℕ :=
  (List.range (lenMaxSupport-p)).find? fun n => data (p+n)=0

/-- The text of a length at an offset. -/
def textAt (data : Data) (p n : ℕ) : List UInt8 := (List.range n).map fun k => data (p+k)

/-- p[strlen(p) - 1]= '\0'. The index of an empty string is SIZE_MAX, which is
the byte in front of it. -/
def cutLast (data : Data) (p : ℕ) : Option Data := do
  let n ← strlen data p
  if 0 < p+n ∧ p+n-1 < lenMaxSupport then some fun x => if x=p+n-1 then 0 else data x
  else none

/-- Iteration i of the scan: the text that is handed to the matcher. -/
def scanText (lineNum i : ℕ) (data : Data) : Option (List UInt8 × Data) :=
  if lineNum=0 then none
  else do
    let p := if lineNum ≤ i then i%lineNum*lenPerLine else i*lenPerLine
    let data ← cutLast data p
    let n ← strlen data p
    some (textAt data p n,data)

/-- The first iterations of the scan. -/
def scanLoop (lineNum : ℕ) (data : Data) : ℕ → Option (List (List UInt8) × Data)
  | 0 => some ([],data)
  | i+1 => do
    let r ← scanLoop lineNum data i
    let t ← scanText lineNum i r.2
    some (r.1++[t.1],t.2)

/-! ## What the scan should hand over -/

/-- A chunk without its trailing newline. -/
def chomp (line : List UInt8) : List UInt8 :=
  if line.getLast?=some newline then line.dropLast else line

/-- All accesses are inside, the number of lines is that of the chunks kept and
each iteration hands over a chunk without its newline. -/
def Scans (file : List UInt8) (grepC : ℕ) : Prop :=
  ∃ lineNum data texts data',readInputData file=some (lineNum,data) ∧
    lineNum=((chunks file).take lenMaxNum).length ∧
    scanLoop lineNum data (grepC+1)=some (texts,data') ∧
    ∀ i ≤ grepC,texts[i]?=((chunks file).take lenMaxNum)[i%lineNum]?.map chomp

/-! ## Chunks -/

variable {file line buf : List UInt8} {lines : List (List UInt8)} {data data' : Data}
  {lineNum grepC k n p : ℕ}

/-- An empty file has no chunks. -/
theorem chunks_nil : chunks []=[] := by
  rw [chunks]
  rfl

/-- A file gives what fgets reads, and the chunks of the rest. -/
theorem chunks_cons (c : UInt8) (s : List UInt8) :
    chunks (c::s)=(fgets (lenPerLine-1) (c::s)).1::chunks (fgets (lenPerLine-1) (c::s)).2 := by
  have hne : (fgets (lenPerLine-1) (c::s)).1≠[] := takeLine_ne_nil newline 126 s
  rw [chunks]
  split
  · next h => exact (hne (congrArg Prod.fst h)).elim
  · next h => simp only [h]

/-- A line has room in a slot and no NUL. -/
structure Fits (line : List UInt8) : Prop where
  /-- It is shorter than a line. -/
  short : line.length < lenPerLine
  /-- It has no zero. -/
  noNul : 0 ∉ line

/-- Every chunk is not empty and fits into a line. -/
theorem chunks_fits (h0 : 0 ∉ file) : ∀ line ∈ chunks file,line≠[] ∧ Fits line := by
  induction hlen : file.length using Nat.strong_induction_on generalizing file with
  | _ len ih =>
    cases file with
    | nil =>
      intro line hline
      rw [chunks_nil] at hline
      cases hline
    | cons c s =>
      have happ : (fgets (lenPerLine-1) (c::s)).1++(fgets (lenPerLine-1) (c::s)).2=c::s :=
        takeLine_append newline (lenPerLine-1) (c::s)
      have hfirst : (fgets (lenPerLine-1) (c::s)).1≠[] := takeLine_ne_nil newline 126 s
      have hlength := congrArg List.length happ
      have hpos := List.length_pos_iff.mpr hfirst
      rw [List.length_append] at hlength
      rw [←happ,List.mem_append,not_or] at h0
      intro line hline
      rw [chunks_cons,List.mem_cons] at hline
      rcases hline with rfl|hline
      · have hle := takeLine_length newline (lenPerLine-1) (c::s)
        exact ⟨hfirst,Nat.lt_of_le_pred (by decide) hle,h0.1⟩
      · exact ih _ (by omega) h0.2 rfl line hline

/-- A file with a character has a chunk. -/
theorem chunks_ne_nil (h : file≠[]) : chunks file≠[] := by
  obtain ⟨c,s,rfl⟩ := List.exists_cons_of_ne_nil h
  rw [chunks_cons]
  exact List.cons_ne_nil _ _

/-- The last character is cut off rightly exactly when it ends the line. -/
theorem chomp_eq_dropLast (hne : line≠[]) :
    chomp line=line.dropLast ↔ line.getLast?=some newline := by
  rw [chomp]
  constructor
  · intro h
    by_contra hlast
    rw [if_neg hlast] at h
    have hlen := congrArg List.length h
    have hpos := List.length_pos_iff.mpr hne
    rw [List.length_dropLast] at hlen
    omega
  · intro h
    rw [if_pos h]

/-! ## The slots -/

/-- A slot holds a line with NULs behind it. -/
def Holds (data : Data) (k : ℕ) (line : List UInt8) : Prop :=
  ∀ b < lenPerLine,data (k*lenPerLine+b)=line.getD b 0

/-- The lines stand in the slots, the first ones without their last characters. -/
def Scanned (lines : List (List UInt8)) (n : ℕ) (data : Data) : Prop :=
  ∀ k line,lines[k]?=some line → Holds data k (if k < n then line.dropLast else line)

/-- The buffer holds the line and zeros behind it. -/
theorem fillBuf_getD (line : List UInt8) (b : ℕ) :
    (fillBuf line (List.replicate lenPerLine 0)).getD b 0=line.getD b 0 := by
  rw [fillBuf]
  rcases lt_or_ge b line.length with hb|hb
  · rw [List.getD_append _ _ _ _ hb]
  · rw [List.getD_append_right _ _ _ _ hb,List.getD_eq_default _ _ hb,List.drop_replicate,
      ←List.replicate_succ]
    by_cases hin : b-line.length < lenPerLine-(line.length+1)+1
    · rw [List.getD_replicate _ hin]
    · rw [List.getD_eq_default]
      rw [List.length_replicate]
      omega

/-- The buffer is as long as a line. -/
theorem fillBuf_length (hf : Fits line) :
    (fillBuf line (List.replicate lenPerLine 0)).length=lenPerLine := by
  have hshort := hf.short
  rw [fillBuf,List.length_append,List.length_cons,List.length_drop,List.length_replicate]
  omega

/-- A line that is copied to a slot stands there, and the other slots are as
they were. -/
theorem memcpy_holds (data : Data) (hf : Fits line) (hk : k < lenMaxNum) :
    ∃ data',memcpy data (k*lenPerLine) (fillBuf line (List.replicate lenPerLine 0))=some data' ∧
      Holds data' k line ∧ ∀ j l,j≠k → Holds data j l → Holds data' j l := by
  have hlen := fillBuf_length hf
  rw [memcpy,hlen,if_pos]
  · refine ⟨_,rfl,?_,?_⟩
    · intro b hb
      dsimp only
      rw [if_pos (by omega),Nat.add_sub_cancel_left,fillBuf_getD]
    · intro j l hjk hj b hb
      have hout : ¬(k*lenPerLine ≤ j*lenPerLine+b ∧ j*lenPerLine+b < k*lenPerLine+lenPerLine) := by
        unfold lenPerLine at *
        omega
      dsimp only
      rw [if_neg hout,hj b hb]
  · unfold lenMaxSupport lenPerLine lenMaxNum at *
    omega

/-- A copy behind the last line is outside of the array. -/
theorem memcpy_outside (hf : Fits line) :
    memcpy data (lenMaxNum*lenPerLine) (fillBuf line (List.replicate lenPerLine 0))=none := by
  rw [memcpy,fillBuf_length hf,if_neg]
  decide

/-! ## Reading -/

variable {d : Data}

/-- Up to 1024 lines are stored. -/
theorem readLoop_stores (hfits : ∀ line ∈ lines,Fits line) (hlen : n+lines.length ≤ lenMaxNum) :
    ∃ d',readLoop lines n (List.replicate lenPerLine 0) d=
        some (n+lines.length,d') ∧
      (∀ k line,lines[k]?=some line → Holds d' (n+k) line) ∧
      ∀ j l,j < n → Holds d j l → Holds d' j l := by
  induction lines generalizing n d with
  | nil =>
    refine ⟨d,rfl,?_,fun j l _ h => h⟩
    intro k line hline
    cases hline
  | cons line lines ih =>
    rw [List.length_cons] at hlen
    rw [List.forall_mem_cons] at hfits
    obtain ⟨d1,hcopy,hline,hother⟩ := memcpy_holds d hfits.1 (k:=n) (by omega)
    obtain ⟨d',hread,hlines,hbefore⟩ := ih (d:=d1) hfits.2 (n:=n+1) (by omega)
    refine ⟨d',?_,?_,?_⟩
    · rw [readLoop,if_neg (by omega),hcopy,Option.bind_eq_bind,Option.bind_some,hread,
        List.length_cons,Nat.add_assoc,Nat.add_comm 1]
    · intro k l hl
      cases k with
      | zero =>
        obtain rfl : line=l := Option.some.inj hl
        exact hbefore n line (by omega) hline
      | succ k =>
        have hnext := hlines k l hl
        rwa [Nat.add_assoc,Nat.add_comm 1] at hnext
    · intro j l hj hold
      exact hbefore j l (by omega) (hother j l (by omega) hold)

/-- The line behind the last slot is written outside. -/
theorem readLoop_outside (hfits : ∀ line ∈ lines,Fits line) (hle : n ≤ lenMaxNum)
    (hlen : lenMaxNum < n+lines.length) :
    readLoop lines n (List.replicate lenPerLine 0) d=none := by
  induction lines generalizing n d with
  | nil =>
    rw [List.length_nil] at hlen
    omega
  | cons line lines ih =>
    rw [List.length_cons] at hlen
    rw [List.forall_mem_cons] at hfits
    rw [readLoop,if_neg (by omega)]
    rcases hle.lt_or_eq with hlt|rfl
    · obtain ⟨d1,hcopy,-⟩ := memcpy_holds d hfits.1 hlt
      rw [hcopy,Option.bind_eq_bind,Option.bind_some]
      exact ih hfits.2 hlt (by omega)
    · rw [memcpy_outside hfits.1]
      rfl

/-! ## One iteration -/

/-- The length of a stored line. -/
theorem strlen_eq (hk : k < lenMaxNum) (h : Holds data k line) (hf : Fits line) :
    strlen data (k*lenPerLine)=some line.length := by
  have hshort := hf.short
  rw [strlen,List.find?_range_eq_some]
  refine ⟨?_,?_,?_⟩
  · rw [h _ hshort,List.getD_eq_default _ _ le_rfl]
    rfl
  · rw [List.mem_range]
    unfold lenMaxSupport lenMaxNum lenPerLine at *
    omega
  · intro b hb
    have hget : line.getD b 0 ∈ line := by
      rw [List.getD_eq_getElem _ _ hb]
      exact List.getElem_mem hb
    have hne : line.getD b 0≠0 := fun h0 => hf.noNul (h0 ▸ hget)
    rw [h b (by omega),decide_eq_false hne]
    rfl

/-- The text of a stored line. -/
theorem textAt_eq (h : Holds data k line) (hf : Fits line) :
    textAt data (k*lenPerLine) line.length=line := by
  have hshort := hf.short
  refine List.ext_getElem (by rw [textAt,List.length_map,List.length_range]) ?_
  intro b hb hb2
  simp only [textAt,List.getElem_map,List.getElem_range]
  rw [h b (by omega),List.getD_eq_getElem _ _ hb2]

/-- A line without its last character fits. -/
theorem Fits.dropLast (hf : Fits line) : Fits line.dropLast := by
  have hshort := hf.short
  refine ⟨?_,fun h => hf.noNul (List.mem_of_mem_dropLast h)⟩
  rw [List.length_dropLast]
  omega

/-- Cutting off the last character writes a zero there. -/
theorem getD_dropLast (b : ℕ) :
    line.dropLast.getD b 0=if b=line.length-1 then 0 else line.getD b 0 := by
  rcases lt_or_ge b (line.length-1) with hb|hb
  · have hb2 : b < line.dropLast.length := by rwa [List.length_dropLast]
    rw [if_neg (by omega),List.getD_eq_getElem _ _ hb2,List.getElem_dropLast,
      List.getD_eq_getElem _ _ (by omega)]
  · rw [List.getD_eq_default _ _ (by rwa [List.length_dropLast])]
    split
    · rfl
    · rw [List.getD_eq_default _ _ (by omega)]

/-- The last character of a slot is cut off. -/
theorem cutLast_holds (hk : k < lenMaxNum) (h : Holds data k line) (hf : Fits line)
    (hne : line≠[]) :
    ∃ data',cutLast data (k*lenPerLine)=some data' ∧ Holds data' k line.dropLast ∧
      ∀ j l,j≠k → Holds data j l → Holds data' j l := by
  have hshort := hf.short
  have hpos := List.length_pos_iff.mpr hne
  have hin : k*lenPerLine+line.length-1 < lenMaxSupport := by
    unfold lenMaxSupport lenMaxNum lenPerLine at *
    omega
  rw [cutLast,strlen_eq hk h hf,Option.bind_eq_bind,Option.bind_some,if_pos ⟨by omega,hin⟩]
  refine ⟨_,rfl,?_,?_⟩
  · intro b hb
    have hiff : k*lenPerLine+b=k*lenPerLine+line.length-1 ↔ b=line.length-1 := by omega
    rw [getD_dropLast,←h b hb]
    simp only [hiff]
  · intro j l hjk hj b hb
    have hout : j*lenPerLine+b≠k*lenPerLine+line.length-1 := by
      unfold lenPerLine at *
      omega
    dsimp only
    rw [if_neg hout,hj b hb]

/-- In the first slot nothing can be cut off an empty line. -/
theorem cutLast_nil (h : Holds data 0 []) : cutLast data (0*lenPerLine)=none := by
  rw [cutLast,strlen_eq (by decide) h ⟨by decide,List.not_mem_nil⟩,Option.bind_eq_bind,
    Option.bind_some,if_neg (by decide)]

/-- What one round cuts off and hands to the match. -/
theorem scanText_eq (hpos : 0 < lineNum) (n : ℕ) (data : Data) :
    scanText lineNum n data=(cutLast data (n%lineNum*lenPerLine)).bind fun data =>
      (strlen data (n%lineNum*lenPerLine)).bind fun k =>
        some (textAt data (n%lineNum*lenPerLine) k,data) := by
  have hslot : (if lineNum ≤ n then n%lineNum*lenPerLine else n*lenPerLine)=
      n%lineNum*lenPerLine := by
    split
    · rfl
    · rw [Nat.mod_eq_of_lt (by omega)]
  rw [scanText,if_neg (by omega),hslot]
  rfl

/-- An iteration hands over what it leaves in its slot. -/
theorem scanText_holds (hpos : 0 < lineNum) (hslot : n%lineNum=k) (hk : k < lenMaxNum)
    (h : Holds data k line) (hf : Fits line) (hne : line≠[]) :
    ∃ data',scanText lineNum n data=some (line.dropLast,data') ∧ Holds data' k line.dropLast ∧
      ∀ j l,j≠k → Holds data j l → Holds data' j l := by
  obtain ⟨data',hcut,hline,hother⟩ := cutLast_holds hk h hf hne
  refine ⟨data',?_,hline,hother⟩
  rw [scanText_eq hpos,hslot,hcut,Option.bind_some,strlen_eq hk hline hf.dropLast,
    Option.bind_some,textAt_eq hline hf.dropLast]

/-! ## The iterations -/

variable {text : List UInt8} {texts : List (List UInt8)} {data1 : Data}

/-- One round more. -/
theorem scanLoop_succ (hloop : scanLoop lineNum data n=some (texts,data1))
    (htext : scanText lineNum n data1=some (text,data')) :
    scanLoop lineNum data (n+1)=some (texts++[text],data') := by
  rw [scanLoop,hloop,Option.bind_eq_bind,Option.bind_some]
  dsimp only
  rw [htext]
  rfl

/-- A run of one more iteration is a run and an iteration. -/
theorem scanLoop_inv (h : scanLoop lineNum data (n+1)=some (texts,data')) :
    ∃ texts1 data1 text,scanLoop lineNum data n=some (texts1,data1) ∧
      scanText lineNum n data1=some (text,data') ∧ texts=texts1++[text] := by
  rw [scanLoop,Option.bind_eq_bind,Option.bind_eq_some_iff] at h
  obtain ⟨⟨texts1,data1⟩,hloop,hstep⟩ := h
  rw [Option.bind_eq_bind,Option.bind_eq_some_iff] at hstep
  obtain ⟨⟨text,data2⟩,htext,heq⟩ := hstep
  cases heq
  exact ⟨texts1,data1,text,hloop,htext,rfl⟩

/-- Each round hands one text on. -/
theorem scanLoop_length (h : scanLoop lineNum data n=some (texts,data')) : texts.length=n := by
  induction n generalizing texts data' with
  | zero =>
    cases h
    rfl
  | succ n ih =>
    obtain ⟨texts1,data1,text,hloop,-,rfl⟩ := scanLoop_inv h
    rw [List.length_append,ih hloop]
    rfl

/-- A run has all its shorter runs as beginnings. -/
theorem scanLoop_prefix (h : scanLoop lineNum data grepC=some (texts,data')) (hn : n ≤ grepC) :
    ∃ data1,scanLoop lineNum data n=some (texts.take n,data1) := by
  induction grepC generalizing texts data' with
  | zero =>
    obtain rfl : n=0 := by omega
    cases h
    exact ⟨data,rfl⟩
  | succ i ih =>
    rcases hn.lt_or_eq with hlt|rfl
    · obtain ⟨texts1,data1,text,hloop,-,rfl⟩ := scanLoop_inv h
      have hlen := scanLoop_length hloop
      rw [List.take_append_of_le_length (by omega)]
      exact ih hloop (by omega)
    · have hlen := scanLoop_length h
      rw [List.take_of_length_le hlen.le]
      exact ⟨data',h⟩

/-- The first visits hand over the lines without their last characters. -/
theorem scanLoop_eq (hfits : ∀ line ∈ lines,line≠[] ∧ Fits line)
    (hlen : lines.length ≤ lenMaxNum) (hdata : Scanned lines 0 data) (hn : n ≤ lines.length) :
    ∃ data',scanLoop lines.length data n=some ((lines.take n).map List.dropLast,data') ∧
      Scanned lines n data' := by
  induction n with
  | zero => exact ⟨data,by rw [scanLoop,List.take_zero,List.map_nil],hdata⟩
  | succ n ih =>
    obtain ⟨data1,hloop,hscan⟩ := ih (by omega)
    have hget : lines[n]?=some lines[n] := List.getElem?_eq_getElem (by omega)
    obtain ⟨hne,hf⟩ := hfits _ (List.mem_of_getElem? hget)
    have hslot : Holds data1 n lines[n] := by
      have h := hscan n _ hget
      rwa [if_neg (by omega)] at h
    obtain ⟨data',htext,hline,hother⟩ := scanText_holds
      (show 0 < lines.length by omega) (Nat.mod_eq_of_lt hn) (by omega) hslot hf hne
    refine ⟨data',?_,?_⟩
    · rw [scanLoop_succ hloop htext,List.take_add_one,hget,List.map_append]
      rfl
    · intro k l hl
      by_cases hk : k=n
      · subst hk
        obtain rfl : lines[k]=l := Option.some.inj (hget.symm.trans hl)
        rw [if_pos (by omega)]
        exact hline
      · have hiff : k < n+1 ↔ k < n := by omega
        rw [if_congr hiff rfl rfl]
        exact hother k _ hk (hscan k l hl)

/-- The first visit that is not the first of its line goes to the first line
and either fails or hands over less than the visit before. -/
theorem scanLoop_again (hfits : ∀ line ∈ lines,line≠[] ∧ Fits line) (hne : lines≠[])
    (hlen : lines.length ≤ lenMaxNum) (hdata : Scanned lines 0 data)
    (h : scanLoop lines.length data (lines.length+1)=some (texts,data')) :
    texts[lines.length]?≠texts[0]? := by
  obtain ⟨data1,hloop,hscan⟩ := scanLoop_eq hfits hlen hdata le_rfl
  have hpos := List.length_pos_iff.mpr hne
  have hget : lines[0]?=some lines[0] := List.getElem?_eq_getElem hpos
  obtain ⟨-,hf⟩ := hfits _ (List.mem_of_getElem? hget)
  have hslot : Holds data1 0 lines[0].dropLast := by
    have h0 := hscan 0 _ hget
    rwa [if_pos hpos] at h0
  obtain ⟨texts1,data2,text,hloop2,htext,rfl⟩ := scanLoop_inv h
  rw [hloop] at hloop2
  cases hloop2
  by_cases hnil : lines[0].dropLast=[]
  · rw [hnil] at hslot
    rw [scanText_eq hpos,Nat.mod_self,cutLast_nil hslot] at htext
    cases htext
  · obtain ⟨data2,hagain,-⟩ := scanText_holds hpos (Nat.mod_self _) (by decide) hslot hf.dropLast hnil
    rw [hagain] at htext
    cases htext
    have hsize : ((lines.take lines.length).map List.dropLast).length=lines.length := by
      rw [List.length_map,List.take_length]
    rw [List.getElem?_append_right (by omega),hsize,Nat.sub_self,
      List.getElem?_append_left (by omega),List.getElem?_map,List.take_length,hget]
    intro heq
    have hless := congrArg List.length (Option.some.inj heq)
    have hpos2 := List.length_pos_iff.mpr hnil
    rw [List.length_dropLast,List.length_dropLast] at hless
    rw [List.length_dropLast] at hpos2
    omega

/-- The stored chunks of a file of up to 1024 chunks. -/
theorem readInputData_eq (hfits : ∀ line ∈ chunks file,line≠[] ∧ Fits line)
    (hlen : (chunks file).length ≤ lenMaxNum) :
    ∃ data,readInputData file=some ((chunks file).length,data) ∧ Scanned (chunks file) 0 data := by
  obtain ⟨data,hread,hlines,-⟩ := readLoop_stores (d:=fun _ => 0) (n:=0)
    (fun line hline => (hfits line hline).2) (by omega)
  rw [Nat.zero_add] at hread
  refine ⟨data,hread,?_⟩
  intro k line hline
  rw [if_neg (by omega)]
  have h := hlines k line hline
  rwa [Nat.zero_add] at h

/-- There are not more chunks than slots and more than repetitions, and the
chunks that are visited end with a newline. -/
structure Covers (file : List UInt8) (grepC : ℕ) : Prop where
  /-- There is a slot for every chunk. -/
  slots : (chunks file).length ≤ lenMaxNum
  /-- No chunk is visited twice. -/
  visits : grepC < (chunks file).length
  /-- The chunks that are visited end with a newline. -/
  newlines : ∀ k ≤ grepC,∀ line,(chunks file)[k]?=some line → line.getLast?=some newline

/-- Where the rounds reach every line, every line is scanned. -/
theorem Covers.scans (h0 : 0 ∉ file) (h : Covers file grepC) : Scans file grepC := by
  have hfits := chunks_fits h0
  obtain ⟨data,hread,hdata⟩ := readInputData_eq hfits h.slots
  obtain ⟨data',hloop,-⟩ := scanLoop_eq hfits h.slots hdata (Nat.succ_le_of_lt h.visits)
  have hkeep : (chunks file).take lenMaxNum=chunks file := List.take_of_length_le h.slots
  refine ⟨_,data,_,data',hread,by rw [hkeep],hloop,?_⟩
  intro i hi
  have hvisits := h.visits
  have hget : (chunks file)[i]?=some (chunks file)[i] := List.getElem?_eq_getElem (by omega)
  have hmem := hfits _ (List.mem_of_getElem? hget)
  rw [hkeep,Nat.mod_eq_of_lt (by omega),List.getElem?_map,List.getElem?_take_of_lt (by omega),hget,
    Option.map_some,Option.map_some,
    (chomp_eq_dropLast hmem.1).mpr (h.newlines i hi _ hget)]

/-- When every line is scanned, the rounds reach every line. -/
theorem Scans.covers (hne : file≠[]) (h0 : 0 ∉ file) (h : Scans file grepC) :
    Covers file grepC := by
  have hfits := chunks_fits h0
  obtain ⟨lineNum,data,texts,data',hread,hnum,hloop,htexts⟩ := h
  have hslots : (chunks file).length ≤ lenMaxNum := by
    by_contra hmany
    rw [readInputData,readLoop_outside (fun line hline => (hfits line hline).2) (Nat.zero_le _)
      (by omega)] at hread
    cases hread
  have hkeep : (chunks file).take lenMaxNum=chunks file := List.take_of_length_le hslots
  obtain ⟨data0,hread0,hdata⟩ := readInputData_eq hfits hslots
  rw [hread0] at hread
  cases hread
  rw [hkeep] at htexts
  have hpos := List.length_pos_iff.mpr (chunks_ne_nil hne)
  have hvisits : grepC < (chunks file).length := by
    by_contra hmany
    obtain ⟨data1,hshort⟩ := scanLoop_prefix (n:=(chunks file).length+1) hloop (by omega)
    refine scanLoop_again hfits (chunks_ne_nil hne) hslots hdata hshort ?_
    rw [List.getElem?_take_of_lt (by omega),List.getElem?_take_of_lt (by omega),
      htexts _ (by omega),htexts 0 (by omega),Nat.mod_self,Nat.zero_mod]
  refine ⟨hslots,hvisits,?_⟩
  obtain ⟨data1,hfirst,-⟩ := scanLoop_eq hfits hslots hdata (Nat.succ_le_of_lt hvisits)
  rw [hfirst] at hloop
  cases hloop
  intro k hk line hline
  have hmem := hfits _ (List.mem_of_getElem? hline)
  have htext := htexts k hk
  rw [Nat.mod_eq_of_lt (by omega),List.getElem?_map,List.getElem?_take_of_lt (by omega),hline,
    Option.map_some,Option.map_some] at htext
  exact (chomp_eq_dropLast hmem.1).mp (Option.some.inj htext).symm

/-- A file is scanned as it should be if and only if it has at most 1024
chunks, each is visited at most once and all that are visited end with a
newline. -/
theorem scans_iff (file : List UInt8) (hne : file≠[]) (h0 : 0 ∉ file) (grepC : ℕ) :
    Scans file grepC ↔ Covers file grepC :=
  ⟨Scans.covers hne h0,Covers.scans h0⟩

/-- A file of one line is one chunk. -/
theorem chunks_line : chunks [97,10]=[[97,10]] := by
  rw [chunks_cons]
  exact congrArg (List.cons [97,10]) chunks_nil

/-- A file of one line is scanned in one round. -/
theorem scans_iff_one : ([97,10] : List UInt8)≠[] ∧ 0 ∉ ([97,10] : List UInt8) ∧ Scans [97,10] 0 := by
  refine ⟨by decide,by decide,(scans_iff [97,10] (by decide) (by decide) 0).mpr ⟨?_,?_,?_⟩⟩
  · rw [chunks_line]
    decide
  · rw [chunks_line]
    decide
  · intro k hk line hline
    obtain rfl : k=0 := by omega
    rw [chunks_line] at hline
    obtain rfl := Option.some.inj hline
    rfl

/-- A file of one character. -/
theorem chunks_a : chunks [97]=[[97]] := by
  rw [chunks_cons]
  exact congrArg (List.cons [97]) chunks_nil

/-- The last character of a file without a newline at its end is lost. -/
theorem scans_a_false : ¬Scans [97] 0 := by
  intro h
  have hlast := (h.covers (by decide) (by decide)).newlines 0 le_rfl [97] (by rw [chunks_a]; rfl)
  revert hlast
  decide

end StudyCode.Capture
