import Mathlib.Tactic

/-!
# Copying a file block by block

The copy loop of `main` takes a read of less than a block for the last one.
With `WR_FILE_IO` a read asks for a block, with `WR_COMMON_IO` for one byte
whatever the block is, and there the output file is opened without being cut.
The loop is not reached with `WR_COMMON_IO`: `main` moves the stream of the
input to its start, and only `WR_FILE_IO` opens one.
-/

namespace StudyCode.RateWr

/-! ## The program -/

/-- The modes that transfer data: WR_COMMON_IO and WR_FILE_IO. -/
inductive WrType where
  /-- WR_COMMON_IO: open, read and write. -/
  | commonIo
  /-- WR_FILE_IO: fopen, fread and fwrite. -/
  | fileIo

/-- The attributes of an open file: WR_READ and WR_WRITE. -/
inductive Attr where
  /-- WR_READ. -/
  | read
  /-- WR_WRITE. -/
  | write

/-- An open file. -/
structure Output where
  /-- Bytes of the file. -/
  content : List UInt8
  /-- Position of the next access. -/
  pos : ℕ

/-- Bytes written at the position replace what stands there. -/
def Output.put (f : Output) (data : List UInt8) : Output :=
  ⟨f.content.take f.pos++data++f.content.drop (f.pos+data.length),f.pos+data.length⟩

/-- The struct file_info_t; a field that was not set is none. -/
structure FileInfo where
  /-- The stream. -/
  cFd : Option Output
  /-- The descriptor. -/
  fd : Option Output

/-- `wr_open` of a file that holds some bytes: O_RDWR | O_CREAT, "rb" or "wb". -/
def wrOpen : WrType → Attr → List UInt8 → FileInfo
  | .commonIo,_,bytes => ⟨none,some ⟨bytes,0⟩⟩
  | .fileIo,.read,bytes => ⟨some ⟨bytes,0⟩,none⟩
  | .fileIo,.write,_ => ⟨some ⟨[],0⟩,none⟩

/-- The file that `wr_read` and `wr_write` use. -/
def FileInfo.file (f : FileInfo) : WrType → Option Output
  | .commonIo => f.fd
  | .fileIo => f.cFd

/-- fseek(fp_i.c_fd, 0L, SEEK_SET): without a stream its effect is undefined. -/
def FileInfo.rewind (f : FileInfo) : Option FileInfo :=
  f.cFd.map fun c => {f with cFd := some {c with pos := 0}}

/-- What the loop works on. -/
structure State where
  /-- The buffer. -/
  buf : List UInt8
  /-- Bytes of the input behind its position. -/
  input : List UInt8
  /-- The output. -/
  out : Output

/-- A read of at most n bytes into the buffer. -/
def State.fetch (s : State) (n : ℕ) : ℕ × State :=
  ((s.input.take n).length,
    ⟨s.input.take n++s.buf.drop (s.input.take n).length,s.input.drop n,s.out⟩)

/-- A write of n bytes from the buffer. -/
def State.store (s : State) (n : ℕ) : State := {s with out := s.out.put (s.buf.take n)}

/-- `wr_read`: read(fd, buff, 1) or fread(buff, 1, block_size). -/
def wrRead : WrType → ℕ → State → ℕ × State
  | .commonIo,_,s => s.fetch 1
  | .fileIo,blockSize,s => s.fetch blockSize

/-- `wr_write`: write(fd, buff, 1) or fwrite(buff, block_size, 1). -/
def wrWrite : WrType → ℕ → State → State
  | .commonIo,_,s => s.store 1
  | .fileIo,blockSize,s => s.store blockSize

/-- The copy loop; the fuel bounds the number of turns. -/
def copyLoop (wrType : WrType) (blockSize : ℕ) : ℕ → State → Option State
  | 0,_ => none
  | fuel+1,s =>
    let r := wrRead wrType blockSize s
    if r.1 ≤ 0 then some r.2
    else if r.1 < blockSize then some (wrWrite wrType r.1 r.2)
    else copyLoop wrType blockSize fuel (wrWrite wrType blockSize r.2)

/-- The copy that `main` makes of an input to a file that held some bytes, with an
allocated buffer. -/
def copyFile (fuel : ℕ) (wrType : WrType) (blockSize : ℕ) (buf input old : List UInt8) :
    Option State := do
  let fpI ← (wrOpen wrType .read input).rewind
  let fpO := wrOpen wrType .write old
  let i ← fpI.file wrType
  let o ← fpO.file wrType
  copyLoop wrType blockSize fuel ⟨buf,i.content.drop i.pos,o⟩

/-- The copy ends and leaves exactly the bytes of the input in the output,
whatever the buffer held. -/
def Copies (wrType : WrType) (blockSize : ℕ) (input old : List UInt8) : Prop :=
  ∃ n,∀ fuel ≥ n,∀ buf : List UInt8,buf.length=blockSize →
    ∃ s,copyFile fuel wrType blockSize buf input old=some s ∧ s.out.content=input

/-- The same of the loop alone, on an output that was opened. -/
def LoopCopies (wrType : WrType) (blockSize : ℕ) (input : List UInt8) (out : Output) : Prop :=
  ∃ n,∀ fuel ≥ n,∀ buf : List UInt8,buf.length=blockSize →
    ∃ s,copyLoop wrType blockSize fuel ⟨buf,input,out⟩=some s ∧ s.out.content=input

/-! ## One turn -/

/-- The output when some bytes have been copied over a file. -/
def overlaid (copied old : List UInt8) : Output := ⟨copied++old.drop copied.length,copied.length⟩

variable {wrType : WrType} {blockSize fuel : ℕ} {buf input old copied rest : List UInt8}

/-- Writing goes on behind what was copied. -/
theorem overlaid_put (copied old data : List UInt8) :
    (overlaid copied old).put data=overlaid (copied++data) old := by
  rw [overlaid,overlaid,Output.put]
  dsimp only
  rw [List.take_left,List.drop_append,List.drop_eq_nil_of_le (by omega),List.nil_append,
    List.drop_drop,List.length_append]
  congr 3
  omega

/-- Reading into the buffer and writing what has been read copies it. -/
theorem fetch_store {n : ℕ} (hn : n=(rest.take blockSize).length) :
    ((⟨buf,rest,overlaid copied old⟩ : State).fetch blockSize).2.store n=
      ⟨rest.take blockSize++buf.drop (rest.take blockSize).length,rest.drop blockSize,
        overlaid (copied++rest.take blockSize) old⟩ := by
  rw [State.fetch,State.store,hn]
  dsimp only
  rw [List.take_left,overlaid_put]

/-- The requests of a mode are those of the loop up to the block size. -/
def Plain (wrType : WrType) (blockSize : ℕ) : Prop :=
  (∀ s,wrRead wrType blockSize s=s.fetch blockSize) ∧
    ∀ n,0 < n → n ≤ blockSize → ∀ s,wrWrite wrType n s=s.store n

/-- Streams ask for the block. -/
theorem plain_fileIo (blockSize : ℕ) : Plain .fileIo blockSize :=
  ⟨fun _ => rfl,fun _ _ _ _ => rfl⟩

/-- Blocks of one byte. -/
theorem plain_commonIo : Plain .commonIo 1 := by
  refine ⟨fun _ => rfl,?_⟩
  intro n hpos hle s
  obtain rfl : n=1 := by omega
  rfl

/-! ## The copy -/

/-- With plain requests everything is copied. -/
theorem Plain.copyLoop_eq (h : Plain wrType blockSize) (hb : 1 ≤ blockSize)
    (hfuel : rest.length < fuel) :
    ∃ buf',copyLoop wrType blockSize fuel ⟨buf,rest,overlaid copied old⟩=
      some ⟨buf',[],overlaid (copied++rest) old⟩ := by
  induction fuel generalizing buf copied rest with
  | zero => omega
  | succ fuel ih =>
    rw [copyLoop,h.1]
    have hlen : ((⟨buf,rest,overlaid copied old⟩ : State).fetch blockSize).1=
        (rest.take blockSize).length := rfl
    have htake : (rest.take blockSize).length=min blockSize rest.length := List.length_take
    rw [hlen]
    by_cases hnil : rest.length=0
    · obtain rfl := List.length_eq_zero_iff.mp hnil
      rw [if_pos (by omega),State.fetch]
      exact ⟨buf,by simp⟩
    · rw [if_neg (by omega)]
      by_cases hshort : (rest.take blockSize).length < blockSize
      · have hall : rest.take blockSize=rest := List.take_of_length_le (by omega)
        have hnone : rest.drop blockSize=[] := List.drop_eq_nil_of_le (by omega)
        rw [if_pos hshort,h.2 _ (by omega) (by omega),fetch_store rfl,hall,hnone]
        exact ⟨_,rfl⟩
      · rw [if_neg hshort,h.2 _ hb le_rfl,fetch_store (by omega)]
        have hless : (rest.drop blockSize).length < fuel := by
          rw [List.length_drop]
          omega
        have hall : copied++rest.take blockSize++rest.drop blockSize=copied++rest := by
          rw [List.append_assoc,List.take_append_drop]
        rw [←hall]
        exact ih hless

/-- A loop with plain requests leaves the end of a longer file. -/
theorem Plain.loopCopies_iff (h : Plain wrType blockSize) (old : List UInt8) (hb : 1 ≤ blockSize) :
    LoopCopies wrType blockSize input (overlaid [] old) ↔ old.drop input.length=[] := by
  have hcontent : (overlaid input old).content=input ↔ old.drop input.length=[] :=
    List.append_right_eq_self
  rw [←hcontent]
  constructor
  · rintro ⟨n,hn⟩
    have hall : ∃ buf',copyLoop wrType blockSize (max n (input.length+1))
        ⟨List.replicate blockSize 0,input,overlaid [] old⟩=some ⟨buf',[],overlaid input old⟩ :=
      h.copyLoop_eq hb (by omega)
    rcases hall with ⟨buf',hrun⟩
    obtain ⟨s,hs,hin⟩ := hn (max n (input.length+1)) (by omega) (List.replicate blockSize 0)
      List.length_replicate
    rw [hrun] at hs
    cases hs
    exact hin
  · intro hin
    refine ⟨input.length+1,?_⟩
    intro fuel hfuel buf _
    have hall : ∃ buf',copyLoop wrType blockSize fuel ⟨buf,input,overlaid [] old⟩=
        some ⟨buf',[],overlaid input old⟩ := h.copyLoop_eq hb hfuel
    rcases hall with ⟨buf',hrun⟩
    exact ⟨_,hrun,hin⟩

/-- Where a block is more than one byte, WR_COMMON_IO copies one byte. -/
theorem copyLoop_commonIo (hb : 1 < blockSize) (buf input old : List UInt8) (fuel : ℕ) :
    ∃ buf',copyLoop .commonIo blockSize (fuel+1) ⟨buf,input,overlaid [] old⟩=
      some ⟨buf',input.drop 1,overlaid (input.take 1) old⟩ := by
  have hread : ∀ s,wrRead .commonIo blockSize s=s.fetch 1 := fun _ => rfl
  rw [copyLoop,hread]
  cases input with
  | nil => exact ⟨buf,rfl⟩
  | cons c input =>
    have hlen : ((⟨buf,c::input,overlaid [] old⟩ : State).fetch 1).1=1 := rfl
    rw [hlen,if_neg (by omega),if_pos hb]
    have hstore : ((⟨buf,c::input,overlaid [] old⟩ : State).fetch 1).2.store 1=
        ⟨c::buf.drop 1,input,overlaid [c] old⟩ := fetch_store rfl
    exact ⟨c::buf.drop 1,congrArg some hstore⟩

/-- Then the rest of the input has to stand in the output already. -/
theorem loopCopies_commonIo_block (hb : 1 < blockSize) (old : List UInt8) :
    LoopCopies .commonIo blockSize input (overlaid [] old) ↔
      old.drop (min 1 input.length)=input.drop 1 := by
  have hcontent : (overlaid (input.take 1) old).content=input ↔
      old.drop (min 1 input.length)=input.drop 1 := by
    have hsplit : input.take 1++input.drop 1=input := List.take_append_drop 1 input
    rw [overlaid,List.length_take]
    constructor
    · intro h
      exact List.append_cancel_left (h.trans hsplit.symm)
    · intro h
      rw [h,hsplit]
  rw [←hcontent]
  constructor
  · rintro ⟨n,hn⟩
    obtain ⟨buf',hrun⟩ := copyLoop_commonIo hb (List.replicate blockSize 0) input old n
    obtain ⟨s,hs,hin⟩ := hn (n+1) (by omega) (List.replicate blockSize 0) List.length_replicate
    rw [hrun] at hs
    cases hs
    exact hin
  · intro hin
    refine ⟨1,?_⟩
    intro fuel hfuel buf _
    obtain ⟨fuel,rfl⟩ : ∃ k,fuel=k+1 := ⟨fuel-1,by omega⟩
    obtain ⟨buf',hrun⟩ := copyLoop_commonIo hb buf input old fuel
    exact ⟨_,hrun,hin⟩

/-- The loop alone: with WR_FILE_IO every copy is exact. With WR_COMMON_IO it is
exact for blocks of one byte over a file that is not longer than the input, and
for longer blocks over a file that agrees with the input behind the first byte. -/
theorem loopCopies_iff (blockSize : ℕ) (hb : 1 ≤ blockSize) (input old : List UInt8) :
    LoopCopies .fileIo blockSize input ⟨[],0⟩ ∧
      (LoopCopies .commonIo blockSize input ⟨old,0⟩ ↔
        if blockSize=1 then old.length ≤ input.length
        else old.drop (min 1 input.length)=input.drop 1) := by
  constructor
  · exact ((plain_fileIo blockSize).loopCopies_iff [] hb).mpr List.drop_nil
  · by_cases hone : blockSize=1
    · subst hone
      rw [if_pos rfl,←List.drop_eq_nil_iff]
      exact plain_commonIo.loopCopies_iff old hb
    · rw [if_neg hone]
      exact loopCopies_commonIo_block (by omega) old

/-! ## The program -/

/-- Without a stream of the input the program does not come to its loop. -/
theorem copyFile_commonIo (fuel blockSize : ℕ) (buf input old : List UInt8) :
    copyFile fuel .commonIo blockSize buf input old=none := rfl

/-- With a stream it comes to the loop with the whole input and an empty output. -/
theorem copyFile_fileIo (fuel blockSize : ℕ) (buf input old : List UInt8) :
    copyFile fuel .fileIo blockSize buf input old=
      copyLoop .fileIo blockSize fuel ⟨buf,input,⟨[],0⟩⟩ := rfl

/-- The copy of the program is exact with WR_FILE_IO and only there. -/
theorem copies_iff (wrType : WrType) (blockSize : ℕ) (hb : 1 ≤ blockSize)
    (input old : List UInt8) : Copies wrType blockSize input old ↔ wrType=.fileIo := by
  cases wrType with
  | commonIo =>
    refine iff_of_false ?_ (fun h => by cases h)
    rintro ⟨n,hn⟩
    obtain ⟨s,hs,-⟩ := hn n le_rfl (List.replicate blockSize 0) List.length_replicate
    rw [copyFile_commonIo] at hs
    cases hs
  | fileIo =>
    refine iff_of_true ?_ rfl
    obtain ⟨n,hn⟩ := (loopCopies_iff blockSize hb input old).1
    refine ⟨n,fun fuel hfuel buf hbuf => ?_⟩
    rw [copyFile_fileIo]
    exact hn fuel hfuel buf hbuf

/-- Three bytes in blocks of two bytes, over a file with another byte. -/
theorem copies_iff_three : Copies .fileIo 2 [97,98,99] [120] :=
  (copies_iff .fileIo 2 (by decide) [97,98,99] [120]).mpr rfl

/-- No file is copied with WR_COMMON_IO, not even one of two bytes. -/
theorem copies_commonIo_two_false : ¬Copies .commonIo 2 [97,98] [] := by
  rintro ⟨n,hn⟩
  obtain ⟨s,hs,-⟩ := hn n le_rfl [0,0] rfl
  cases hs

end StudyCode.RateWr
