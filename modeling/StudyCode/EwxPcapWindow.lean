import StudyCode.EwxPcap

/-!
# The read position and the mapped window

The window invariant says where the window lies in the file and that the
read position is inside it. Under it the wrapped comparisons of the source
are comparisons of file positions. A read keeps the invariant and stays in
the window exactly when the lengths it meets are clear; the others move the
window although it cannot hold the bytes asked for.
-/

namespace StudyCode.EwxPcap

/-- File position of the reader. -/
def PcapInfo.pos (s : PcapInfo) : ℕ := s.offset+(s.cPtr-s.ptr)

/-- The window is the part of the file that starts at a page and is as long as
the map allows; the read position is inside it. -/
structure Window (P : Platform) (f : CaptureFile) (s : PcapInfo) : Prop where
  /-- The recorded length is that of the file. -/
  fileLen : s.fileLen=f.bytes.length
  /-- The map starts where the reader believes. -/
  mapped : s.mapped=s.offset
  /-- The window starts at a page. -/
  page : P.pageSize∣s.offset
  /-- The window starts inside the file. -/
  offset_le : s.offset ≤ f.bytes.length
  /-- The window of a file that fits it has never moved. -/
  unmoved : f.bytes.length ≤ P.mapSize → s.offset=0
  /-- The window reaches to the end of the file or is full. -/
  length : s.length=min P.mapSize (f.bytes.length-s.offset)
  /-- The read position is not before the window. -/
  ptr_le : s.ptr ≤ s.cPtr
  /-- The read position is not behind the window. -/
  cPtr_le : s.cPtr ≤ s.ptr+s.length

/-- A field has 32 bits. -/
theorem le32_lt (bs : List UInt8) (i : ℕ) : le32 bs i < 2^32 := by
  have h0 := (bs.getD i 0).toNat_lt
  have h1 := (bs.getD (i+1) 0).toNat_lt
  have h2 := (bs.getD (i+2) 0).toNat_lt
  have h3 := (bs.getD (i+3) 0).toNat_lt
  unfold le32
  omega

/-- So has a field with its bytes swapped. -/
theorem ntohl_lt (v : ℕ) : ntohl v < 2^32 := by
  unfold ntohl
  omega

/-- A decoded record length is an unsigned 32-bit value. -/
theorem inclLen_lt (s : PcapInfo) (bs : List UInt8) :
    (ewxPcapConvert s (readPcaprecHdr bs)).inclLen < 2^32 := by
  unfold ewxPcapConvert
  split
  · exact ntohl_lt _
  · exact le32_lt _ _

/-- A number that is not negative stays. -/
theorem toU64_natCast (n : ℕ) : toU64 n=n := by
  unfold toU64
  split <;> omega

/-- A field that is read as an int is widened with its sign. -/
theorem toU64_toInt {v : ℕ} (h : v < 2^32) :
    toU64 (toInt v)=if v < 2^31 then v else v+(2^64-2^32) := by
  unfold toU64 toInt
  split <;> split <;> omega

/-- A difference that is not negative stays. -/
theorem sub64_of_le {a b : ℕ} (h : b ≤ a) : sub64 a b=a-b := if_pos h

/-- A small sum stays. -/
theorem add64_of_lt {a b : ℕ} (h : a+b < 2^64) : add64 a b=a+b := if_pos h

/-- What mapping the window of a position inside the file yields. -/
theorem preread_eq {P : Platform} {f : CaptureFile} {s : PcapInfo}
    (hf : s.fileLen=f.bytes.length) (ho : s.offset ≤ f.bytes.length) :
    ewxPrereadFile P s={s with
      offset := s.offset-s.offset%P.pageSize,
      ptr := P.mmap64 s.maps,
      length := min P.mapSize (f.bytes.length-(s.offset-s.offset%P.pageSize)),
      cPtr := P.mmap64 s.maps+s.offset%P.pageSize,
      mapped := s.offset-s.offset%P.pageSize,
      maps := s.maps+1} := by
  have h1 := f.size_lt
  have h2 := P.map_lt
  have hlen : (if add64 P.mapSize (s.offset-s.offset%P.pageSize) ≤ s.fileLen then P.mapSize
      else sub64 s.fileLen (s.offset-s.offset%P.pageSize))=
        min P.mapSize (f.bytes.length-(s.offset-s.offset%P.pageSize)) := by
    rw [sub64_of_le (by omega),hf,add64_of_lt (by omega)]
    split <;> omega
  unfold ewxPrereadFile
  dsimp only
  rw [hlen]

/-- A new window contains the read position when the window can hold a page
offset of that size. -/
theorem Window.preread {P : Platform} {f : CaptureFile} {s : PcapInfo}
    (hf : s.fileLen=f.bytes.length) (ho : s.offset ≤ f.bytes.length)
    (hp : s.offset%P.pageSize ≤ P.mapSize) (hu : f.bytes.length ≤ P.mapSize → s.offset=0) :
    Window P f (ewxPrereadFile P s) := by
  rw [preread_eq hf ho]
  have hle := Nat.mod_le s.offset P.pageSize
  refine ⟨hf,rfl,Nat.dvd_sub_mod _,by dsimp only; omega,fun h => ?_,rfl,by dsimp only; omega,?_⟩
  · dsimp only
    rw [hu h,Nat.zero_sub]
  · dsimp only
    omega

/-- Behind a new window the position is its offset. -/
theorem preread_pos {P : Platform} {f : CaptureFile} {s : PcapInfo}
    (hf : s.fileLen=f.bytes.length) (ho : s.offset ≤ f.bytes.length) :
    (ewxPrereadFile P s).pos=s.offset := by
  rw [preread_eq hf ho]
  have hle := Nat.mod_le s.offset P.pageSize
  simp only [PcapInfo.pos]
  omega

section Prepare

variable {P : Platform} {f : CaptureFile} {s : PcapInfo}

/-- The position is not behind the window. -/
theorem Window.pos_le (h : Window P f s) : s.pos ≤ s.offset+s.length := by
  have h1 := h.ptr_le
  have h2 := h.cPtr_le
  unfold PcapInfo.pos
  omega

/-- The window is inside of the file. -/
theorem Window.end_le (h : Window P f s) : s.offset+s.length ≤ f.bytes.length := by
  have h1 := h.length
  have h2 := h.offset_le
  omega

/-- The page offset of the read position is part of the window. -/
theorem Window.pos_mod_le (h : Window P f s) : s.pos%P.pageSize ≤ s.cPtr-s.ptr := by
  obtain ⟨k,hk⟩ := h.page
  unfold PcapInfo.pos
  rw [hk,Nat.mul_add_mod]
  exact Nat.mod_le _ _

/-- The source's test, with the unsigned length of the request, as a test on
file positions. -/
theorem Window.prepare_eq (h : Window P f s) {len : ℤ} :
    ewxPcapReadPrepare P s len=
      if s.pos+toU64 len ≤ s.offset+s.length then (s,true)
      else if f.bytes.length ≤ add64 s.pos (toU64 len) then (s,false)
      else (ewxPrereadFile P {s with offset := s.pos},true) := by
  have h1 := f.size_lt
  have h2 := h.end_le
  have h3 := h.pos_le
  have h4 := h.ptr_le
  have h5 := h.cPtr_le
  have htmp : sub64 s.cPtr s.ptr=s.cPtr-s.ptr := sub64_of_le h4
  have hpos : add64 s.offset (s.cPtr-s.ptr)=s.pos := add64_of_lt (by omega)
  have hrest : sub64 s.length (s.cPtr-s.ptr)=s.offset+s.length-s.pos := by
    rw [sub64_of_le (by omega)]
    unfold PcapInfo.pos
    omega
  have hcond : toU64 len ≤ s.offset+s.length-s.pos ↔ s.pos+toU64 len ≤ s.offset+s.length := by
    omega
  unfold ewxPcapReadPrepare
  simp only [htmp,hpos,hrest,hcond,h.fileLen]

/-- A request that is a non-negative int. -/
theorem Window.prepare_small (h : Window P f s) {v : ℕ} (hv : v < 2^31) :
    ewxPcapReadPrepare P s v=
      if s.pos+v ≤ s.offset+s.length then (s,true)
      else if f.bytes.length ≤ s.pos+v then (s,false)
      else (ewxPrereadFile P {s with offset := s.pos},true) := by
  have h1 := f.size_lt
  have h2 := h.end_le
  have h3 := h.pos_le
  rw [h.prepare_eq,toU64_natCast,add64_of_lt (by omega)]

/-- A request that the narrowing turns negative. It never fits the window;
it is refused only near the start of the file. -/
theorem Window.prepare_large (h : Window P f s) {v : ℕ} (hv : 2^31 ≤ v) (hv' : v < 2^32) :
    ewxPcapReadPrepare P s (toInt v)=
      if s.pos+v < 2^32 then (s,false)
      else (ewxPrereadFile P {s with offset := s.pos},true) := by
  have h1 := f.size_lt
  have h2 := h.end_le
  have h3 := h.pos_le
  rw [h.prepare_eq,toU64_toInt hv',if_neg (show ¬v < 2^31 by omega),if_neg (by omega)]
  by_cases hp : s.pos+v < 2^32
  · rw [if_pos hp,add64_of_lt (by omega),if_pos (by omega)]
  · rw [if_neg hp,add64,if_neg (show ¬s.pos+(v+(2^64-2^32)) < 2^64 by omega),if_neg (by omega)]

/-- A small field is read as it is. -/
theorem toInt_small {v : ℕ} (hv : v < 2^31) : toInt v=(v : ℤ) := by
  exact if_pos hv

end Prepare

/-! ## Requests that the window can serve -/

/-- A request of some length at a file position keeps the reader inside its
window. A length that stays positive must reach the end of the file or fit a
new window; one that turns negative must be refused. -/
def LengthClear (P : Platform) (fileLen pos v : ℕ) : Prop :=
  if v < 2^31 then fileLen ≤ pos+v ∨ pos%P.pageSize+v ≤ P.mapSize else pos+v < 2^32

section Requests

variable {P : Platform} {f : CaptureFile} {s : PcapInfo}

/-- A window moved for a request that it can serve. -/
theorem Window.move (h : Window P f s) {v : ℕ} (hout : ¬s.pos+v ≤ s.offset+s.length)
    (hv : s.pos%P.pageSize+v ≤ P.mapSize) (hN : s.pos+v ≤ f.bytes.length) :
    Window P f (ewxPrereadFile P {s with offset := s.pos}) ∧
      (ewxPrereadFile P {s with offset := s.pos}).pos=s.pos ∧
      s.pos+v ≤ (ewxPrereadFile P {s with offset := s.pos}).offset+
        (ewxPrereadFile P {s with offset := s.pos}).length := by
  have ho : ({s with offset := s.pos} : PcapInfo).offset ≤ f.bytes.length := by
    dsimp only
    omega
  have hf : ({s with offset := s.pos} : PcapInfo).fileLen=f.bytes.length := h.fileLen
  have hlong : ¬f.bytes.length ≤ P.mapSize := by
    intro hs
    have h1 := h.unmoved hs
    have h2 := h.length
    omega
  refine ⟨Window.preread hf ho (by dsimp only; omega) fun hs => (hlong hs).elim,
    preread_pos hf ho,?_⟩
  rw [preread_eq hf ho]
  have hle := Nat.mod_le s.pos P.pageSize
  dsimp only
  omega

/-- A clear request keeps the window invariant and the position, and what it
grants is inside the window. -/
theorem Window.prepare_clear (h : Window P f s) {v : ℕ} (hv : v < 2^32)
    (hc : LengthClear P f.bytes.length s.pos v) :
    ∃ s' b,ewxPcapReadPrepare P s (toInt v)=(s',b) ∧ Window P f s' ∧ s'.pos=s.pos ∧
      s'.endian=s.endian ∧ (b=true → s'.pos+v ≤ s'.offset+s'.length) := by
  unfold LengthClear at hc
  by_cases hs : v < 2^31
  · rw [if_pos hs] at hc
    rw [toInt_small hs,h.prepare_small hs]
    split
    · rename_i hin
      exact ⟨s,true,rfl,h,rfl,rfl,fun _ => hin⟩
    · rename_i hout
      split
      · exact ⟨s,false,rfl,h,rfl,rfl,fun hb => by cases hb⟩
      · rename_i hN
        obtain ⟨h1,h2,h3⟩ := h.move hout (hc.resolve_left hN) (by omega)
        exact ⟨_,true,rfl,h1,h2,rfl,fun _ => by rw [h2]; exact h3⟩
  · rw [if_neg hs] at hc
    rw [h.prepare_large (by omega) hv,if_pos hc]
    exact ⟨s,false,rfl,h,rfl,rfl,fun hb => by cases hb⟩

/-- Any other request is granted although it reaches behind the window. -/
theorem Window.prepare_unclear (h : Window P f s) (hm : P.mapSize < 2^31) {v : ℕ} (hv : v < 2^32)
    (hc : ¬LengthClear P f.bytes.length s.pos v) :
    ∃ s',ewxPcapReadPrepare P s (toInt v)=(s',true) ∧ s'.ptr+s'.length < s'.cPtr+v ∧
      s'.endian=s.endian := by
  have hpos := h.pos_le
  have hend := h.end_le
  have ho : ({s with offset := s.pos} : PcapInfo).offset ≤ f.bytes.length := by
    dsimp only
    omega
  have hf : ({s with offset := s.pos} : PcapInfo).fileLen=f.bytes.length := h.fileLen
  have hle := Nat.mod_le s.pos P.pageSize
  have hlong : P.mapSize < s.pos%P.pageSize+v →
      (ewxPrereadFile P {s with offset := s.pos}).ptr+
        (ewxPrereadFile P {s with offset := s.pos}).length <
          (ewxPrereadFile P {s with offset := s.pos}).cPtr+v := by
    intro g
    rw [preread_eq hf ho]
    dsimp only
    omega
  unfold LengthClear at hc
  by_cases hs : v < 2^31
  · rw [if_pos hs,not_or] at hc
    rw [toInt_small hs,h.prepare_small hs]
    have hmod := h.pos_mod_le
    have hlen := h.length
    have hp : s.pos=s.offset+(s.cPtr-s.ptr) := rfl
    rw [if_neg (by omega),if_neg hc.1]
    exact ⟨_,rfl,hlong (by omega),rfl⟩
  · rw [if_neg hs] at hc
    rw [h.prepare_large (by omega) hv,if_neg hc]
    exact ⟨_,rfl,hlong (by omega),rfl⟩

end Requests

/-! ## Reads and runs -/

/-- The record header at the read position. -/
def hdrAt (f : CaptureFile) (s : PcapInfo) : PcaprecHdr :=
  ewxPcapConvert s (readPcaprecHdr ((f.bytes.drop s.pos).take sizeofPcaprecHdr))

/-- The reader gets to see a record header. -/
def HeaderSeen (f : CaptureFile) (s : PcapInfo) : Prop :=
  s.pos+sizeofPcaprecHdr ≤ s.offset+s.length ∨ s.pos+sizeofPcaprecHdr < f.bytes.length

/-- The requests of a call are clear in the state before it. -/
def CallClear (P : Platform) (f : CaptureFile) (s : PcapInfo) : Call → Prop
  | .rewind => True
  | _ => LengthClear P f.bytes.length s.pos sizeofPcaprecHdr ∧
      (HeaderSeen f s →
        LengthClear P f.bytes.length (s.pos+sizeofPcaprecHdr) (hdrAt f s).inclLen)

/-- The state that every call has to leave. -/
structure StateInv (P : Platform) (s : PcapInfo) : Prop where
  /-- The window starts at a page. -/
  page : P.pageSize∣s.offset
  /-- The window ends inside the file. -/
  inside : s.offset+s.length ≤ s.fileLen
  /-- The read position is not before the window. -/
  ptr_le : s.ptr ≤ s.cPtr
  /-- The read position is not behind the window. -/
  cPtr_le : s.cPtr ≤ s.ptr+s.length

/-- A window of the file keeps the invariant. -/
theorem Window.stateInv {P : Platform} {f : CaptureFile} {s : PcapInfo} (h : Window P f s) :
    StateInv P s :=
  ⟨h.page,by rw [h.fileLen]; exact h.end_le,h.ptr_le,h.cPtr_le⟩

/-- The bytes at the read position of a window are those of the file. -/
theorem Window.load {P : Platform} {f : CaptureFile} {s : PcapInfo} (h : Window P f s) (n : ℕ) :
    load f s s.cPtr n=(f.bytes.drop s.pos).take n := by
  unfold EwxPcap.load PcapInfo.pos
  rw [h.mapped]

/-- Moving the read position inside the window. -/
theorem Window.advance {P : Platform} {f : CaptureFile} {s : PcapInfo} (h : Window P f s) {n : ℕ}
    (hn : s.pos+n ≤ s.offset+s.length) :
    Window P f {s with cPtr := s.cPtr+n} ∧ ({s with cPtr := s.cPtr+n} : PcapInfo).pos=s.pos+n := by
  have h1 := h.ptr_le
  unfold PcapInfo.pos at *
  refine ⟨⟨h.fileLen,h.mapped,h.page,h.offset_le,h.unmoved,h.length,?_,?_⟩,?_⟩
  · dsimp only
    omega
  · dsimp only
    omega
  · dsimp only
    omega

/-- An access up to the end of the window is inside. -/
theorem Window.access_inside {P : Platform} {f : CaptureFile} {s : PcapInfo} (h : Window P f s)
    {n : ℕ} (hn : s.pos+n ≤ s.offset+s.length) : (accessAt s n).inside := by
  have h1 := h.ptr_le
  unfold PcapInfo.pos at hn
  refine ⟨h1,?_⟩
  dsimp only [accessAt]
  omega

/-- The header of a record is small. -/
theorem sizeofPcaprecHdr_lt : sizeofPcaprecHdr < 2^31 := by
  unfold sizeofPcaprecHdr
  omega

/-- A read whose header request is granted, with the two branches of the
source on the caller's buffer brought together. -/
theorem readRecord_of_header {d : Delivery} {P : Platform} {f : CaptureFile} {s s1 : PcapInfo}
    {bufLen : ℕ} {hdr : PcaprecHdr}
    (h1 : ewxPcapReadPrepare P s (toInt sizeofPcaprecHdr)=(s1,true))
    (hh : ewxPcapConvert s1 (readPcaprecHdr (EwxPcap.load f s1 s1.cPtr sizeofPcaprecHdr))=hdr)
    {s3 : PcapInfo} {b : Bool}
    (h2 : ewxPcapReadPrepare P {s1 with cPtr := s1.cPtr+sizeofPcaprecHdr} (toInt hdr.inclLen)=(s3,b)) :
    readRecord d P f s bufLen=
      if b=true then
        ({s3 with cPtr := s3.cPtr+hdr.inclLen},⟨hdr.inclLen,some hdr,
          if bufLen < hdr.inclLen then none else some (d,EwxPcap.load f s3 s3.cPtr hdr.inclLen),
          accessAt s1 sizeofPcaprecHdr::if bufLen < hdr.inclLen then []
            else [accessAt s3 hdr.inclLen]⟩)
      else (s3,⟨0,some hdr,none,[accessAt s1 sizeofPcaprecHdr]⟩) := by
  rw [toInt_small sizeofPcaprecHdr_lt] at h1
  simp only [readRecord,h1,hh,h2]
  cases b <;> by_cases hb : bufLen < hdr.inclLen <;> simp only [hb,if_true,if_false,Bool.false_eq_true]

/-- Reads either see no header and change nothing, or see the header at their
position from a window that contains it. -/
theorem Window.readRecord_header {P : Platform} {f : CaptureFile} {s : PcapInfo}
    (h : Window P f s) (hc : LengthClear P f.bytes.length s.pos sizeofPcaprecHdr)
    (d : Delivery) (bufLen : ℕ) :
    (¬HeaderSeen f s → readRecord d P f s bufLen=(s,⟨0,none,none,[]⟩)) ∧
    (HeaderSeen f s → ∃ s1,ewxPcapReadPrepare P s (toInt sizeofPcaprecHdr)=(s1,true) ∧
      Window P f s1 ∧ s1.pos=s.pos ∧ s1.endian=s.endian ∧
      s1.pos+sizeofPcaprecHdr ≤ s1.offset+s1.length ∧
      ewxPcapConvert s1 (readPcaprecHdr (EwxPcap.load f s1 s1.cPtr sizeofPcaprecHdr))=hdrAt f s) := by
  have hsmall := sizeofPcaprecHdr_lt
  have hend := h.end_le
  have hprep := h.prepare_small hsmall
  constructor
  · intro hn
    rw [HeaderSeen,not_or] at hn
    rw [if_neg hn.1,if_pos (by omega)] at hprep
    simp only [readRecord,hprep]
  · intro hs
    obtain ⟨s1,b,h1,h2,h3,h4,h5⟩ := h.prepare_clear (by omega) hc
    have hb : b=true := by
      rw [toInt_small hsmall,hprep] at h1
      rcases hs with hs|hs
      · rw [if_pos hs] at h1
        exact (Prod.mk.inj h1).2.symm
      · rw [if_neg (show ¬f.bytes.length ≤ s.pos+sizeofPcaprecHdr by omega)] at h1
        split at h1 <;> exact (Prod.mk.inj h1).2.symm
    subst hb
    refine ⟨s1,h1,h2,h3,h4,h5 rfl,?_⟩
    rw [h2.load,h3,hdrAt]
    unfold ewxPcapConvert
    rw [h4]

/-- A clear read keeps the window invariant and uses no byte outside of it. -/
theorem Window.readRecord_clear {P : Platform} {f : CaptureFile} {s : PcapInfo}
    (h : Window P f s) (hc : LengthClear P f.bytes.length s.pos sizeofPcaprecHdr)
    (hp : HeaderSeen f s →
      LengthClear P f.bytes.length (s.pos+sizeofPcaprecHdr) (hdrAt f s).inclLen)
    (d : Delivery) (bufLen : ℕ) :
    Window P f (readRecord d P f s bufLen).1 ∧
      ∀ a ∈ (readRecord d P f s bufLen).2.accesses,a.inside := by
  obtain ⟨hno,hyes⟩ := h.readRecord_header hc d bufLen
  by_cases hs : HeaderSeen f s
  · obtain ⟨s1,h1,h2,h3,h4,h5,h6⟩ := hyes hs
    obtain ⟨g1,g2⟩ := h2.advance h5
    obtain ⟨s3,b,k1,k2,k3,k4,k5⟩ := g1.prepare_clear (inclLen_lt s _)
      (by rw [g2,h3]; exact hp hs)
    have ha := h2.access_inside h5
    rw [readRecord_of_header h1 h6 k1]
    cases b with
    | false => exact ⟨k2,by simpa using ha⟩
    | true =>
      refine ⟨(k2.advance (k5 rfl)).1,?_⟩
      have ha3 := k2.access_inside (k5 rfl)
      intro a hm
      by_cases hb : bufLen < (hdrAt f s).inclLen
      · simp only [if_true,hb,List.mem_singleton] at hm
        exact hm ▸ ha
      · simp only [if_true,hb,if_false,List.mem_cons,List.not_mem_nil,or_false] at hm
        rcases hm with rfl|rfl
        · exact ha
        · exact ha3
  · rw [hno hs]
    exact ⟨h,by simp⟩

/-- Any other read leaves the position behind the window or uses bytes there. -/
theorem Window.readRecord_unclear {P : Platform} {f : CaptureFile} {s : PcapInfo}
    (h : Window P f s) (hm : P.mapSize < 2^31)
    (hc : ¬(LengthClear P f.bytes.length s.pos sizeofPcaprecHdr ∧ (HeaderSeen f s →
      LengthClear P f.bytes.length (s.pos+sizeofPcaprecHdr) (hdrAt f s).inclLen)))
    (d : Delivery) (bufLen : ℕ) :
    ¬((readRecord d P f s bufLen).1.cPtr ≤
        (readRecord d P f s bufLen).1.ptr+(readRecord d P f s bufLen).1.length ∧
      ∀ a ∈ (readRecord d P f s bufLen).2.accesses,a.inside) := by
  by_cases hh : LengthClear P f.bytes.length s.pos sizeofPcaprecHdr
  · have hs : HeaderSeen f s := by
      by_contra hn
      exact hc ⟨hh,fun hs => (hn hs).elim⟩
    have hl : ¬LengthClear P f.bytes.length (s.pos+sizeofPcaprecHdr) (hdrAt f s).inclLen :=
      fun hl => hc ⟨hh,fun _ => hl⟩
    obtain ⟨s1,h1,h2,h3,h4,h5,h6⟩ := (h.readRecord_header hh d bufLen).2 hs
    obtain ⟨g1,g2⟩ := h2.advance h5
    obtain ⟨s3,k1,k2,k3⟩ := g1.prepare_unclear hm (inclLen_lt s _) (by rw [g2,h3]; exact hl)
    rw [readRecord_of_header h1 h6 k1]
    rintro ⟨hcp,hacc⟩
    simp only [if_true] at hcp
    have : (hdrAt f s).inclLen=(ewxPcapConvert s (readPcaprecHdr
      ((f.bytes.drop s.pos).take sizeofPcaprecHdr))).inclLen := rfl
    omega
  · obtain ⟨s1,h1,h2,h3⟩ := h.prepare_unclear hm (by have := sizeofPcaprecHdr_lt; omega) hh
    have hread : ∃ t r,readRecord d P f s bufLen=(t,r) ∧ accessAt s1 sizeofPcaprecHdr∈r.accesses := by
      cases hk : ewxPcapReadPrepare P {s1 with cPtr := s1.cPtr+sizeofPcaprecHdr}
        (toInt (ewxPcapConvert s1 (readPcaprecHdr
          (EwxPcap.load f s1 s1.cPtr sizeofPcaprecHdr))).inclLen) with
      | mk s3 b =>
        rw [readRecord_of_header h1 rfl hk]
        cases b <;> exact ⟨_,_,rfl,by simp⟩
    obtain ⟨t,r,hr,hm⟩ := hread
    rw [hr]
    rintro ⟨-,hacc⟩
    have := (hacc _ hm).2
    dsimp only [accessAt] at this
    omega

/-- The state after the first window has been mapped. -/
theorem Window.first {P : Platform} {f : CaptureFile} {s : PcapInfo}
    (hlen : sizeofPcapHdr ≤ f.bytes.length) (hf : s.fileLen=f.bytes.length) (h0 : s.offset=0) :
    Window P f {ewxPrereadFile P s with cPtr := (ewxPrereadFile P s).ptr+sizeofPcapHdr} := by
  have hge := P.map_ge
  unfold sizeofPcapHdr at *
  have hw : Window P f (ewxPrereadFile P s) :=
    Window.preread hf (by omega) (by rw [h0,Nat.zero_mod]; exact Nat.zero_le _) fun _ => h0
  have hl := hw.length
  have ho : (ewxPrereadFile P s).offset=0 := by
    rw [preread_eq hf (by omega)]
    dsimp only
    rw [h0,Nat.zero_sub]
  refine ⟨hw.fileLen,hw.mapped,hw.page,hw.offset_le,hw.unmoved,hl,?_,?_⟩
  · dsimp only
    omega
  · dsimp only
    omega

/-- A rewind stands behind the file header of the first window. -/
theorem Window.rewind {P : Platform} {f : CaptureFile} {s : PcapInfo} (h : Window P f s)
    (hlen : sizeofPcapHdr ≤ f.bytes.length) : Window P f (ewxPcapRewind P s) := by
  have hge := P.map_ge
  unfold ewxPcapRewind
  split
  · rename_i hle
    rw [h.fileLen] at hle
    have h0 := h.unmoved hle
    have hl := h.length
    unfold sizeofPcapHdr at *
    refine ⟨h.fileLen,h.mapped.trans h0,⟨0,rfl⟩,Nat.zero_le _,fun _ => rfl,?_,?_,?_⟩
    · dsimp only
      rw [hl,h0]
    · dsimp only
      omega
    · dsimp only
      omega
  · exact Window.first hlen h.fileLen rfl

/-- A file that opens is mapped from its start. -/
theorem ewxPcapOpen_window {P : Platform} {f : CaptureFile} {s : PcapInfo}
    (h : ewxPcapOpen P f=some s) : Window P f s ∧ sizeofPcapHdr ≤ f.bytes.length ∧ s.pos=24 := by
  unfold ewxPcapOpen at h
  split at h
  · cases h
  · split at h
    · cases h
    · rename_i hlen
      dsimp only at h
      split at h
      · cases h
      · cases h
        refine ⟨Window.first (by omega) rfl rfl,by omega,?_⟩
        simp [PcapInfo.pos,ewxPrereadFile,sizeofPcapHdr]

/-- A file with a header and an accepted magic number opens. -/
theorem ewxPcapOpen_isSome {P : Platform} {f : CaptureFile} (hp : P.pageSize ≤ P.mapSize)
    (hlen : sizeofPcapHdr ≤ f.bytes.length)
    (hm : le32 f.bytes 0=ewxMagicNumber ∨ le32 f.bytes 0=ntohl ewxMagicNumber) :
    ∃ s,ewxPcapOpen P f=some s := by
  unfold ewxPcapOpen
  rw [if_neg (by omega),if_neg (by omega)]
  dsimp only
  rw [if_neg]
  · exact ⟨_,rfl⟩
  · rintro ⟨h1,h2⟩
    exact hm.elim h1 h2

/-- Every state of a run is in order and every range used lies in the window
of its time. -/
def RunSafe (P : Platform) (f : CaptureFile) : PcapInfo → List Call → Prop
  | s,[] => StateInv P s
  | s,c::cs => StateInv P s ∧ (∀ a ∈ (call P f s c).2.accesses,a.inside) ∧
      RunSafe P f (call P f s c).1 cs

/-- Every call of a run is clear in the state before it. -/
def ClearRun (P : Platform) (f : CaptureFile) : PcapInfo → List Call → Prop
  | _,[] => True
  | s,c::cs => CallClear P f s c ∧ ClearRun P f (call P f s c).1 cs

/-- A safe run is safe at its start. -/
theorem RunSafe.head {P : Platform} {f : CaptureFile} {s : PcapInfo} {calls : List Call}
    (h : RunSafe P f s calls) : StateInv P s := by
  cases calls with
  | nil => exact h
  | cons c cs => exact h.1

/-- One call inside the window. -/
theorem Window.call_iff {P : Platform} {f : CaptureFile} {s : PcapInfo} (h : Window P f s)
    (hm : P.mapSize < 2^31) (hlen : sizeofPcapHdr ≤ f.bytes.length) (c : Call) :
    (CallClear P f s c → Window P f (call P f s c).1 ∧ ∀ a ∈ (call P f s c).2.accesses,a.inside) ∧
    (¬CallClear P f s c → ¬(StateInv P (call P f s c).1 ∧
      ∀ a ∈ (call P f s c).2.accesses,a.inside)) := by
  cases c with
  | rewind => exact ⟨fun _ => ⟨h.rewind hlen,by simp [call]⟩,fun hn => (hn trivial).elim⟩
  | read bufLen =>
    exact ⟨fun hc => h.readRecord_clear hc.1 hc.2 .memcpy bufLen,
      fun hn hs => h.readRecord_unclear hm hn .memcpy bufLen ⟨hs.1.cPtr_le,hs.2⟩⟩
  | read2 bufLen =>
    exact ⟨fun hc => h.readRecord_clear hc.1 hc.2 .pointer bufLen,
      fun hn hs => h.readRecord_unclear hm hn .pointer bufLen ⟨hs.1.cPtr_le,hs.2⟩⟩

/-- A run is safe exactly when it is clear. -/
theorem Window.runSafe_iff {P : Platform} {f : CaptureFile} {s : PcapInfo} (h : Window P f s)
    (hm : P.mapSize < 2^31) (hlen : sizeofPcapHdr ≤ f.bytes.length) (calls : List Call) :
    RunSafe P f s calls ↔ ClearRun P f s calls := by
  induction calls generalizing s with
  | nil => exact ⟨fun _ => trivial,fun _ => h.stateInv⟩
  | cons c cs ih =>
    obtain ⟨h1,h2⟩ := h.call_iff hm hlen c
    constructor
    · rintro ⟨-,hacc,hrest⟩
      have hc : CallClear P f s c := by
        by_contra hn
        exact h2 hn ⟨hrest.head,hacc⟩
      exact ⟨hc,(ih (h1 hc).1).mp hrest⟩
    · rintro ⟨hc,hrest⟩
      obtain ⟨g1,g2⟩ := h1 hc
      exact ⟨h.stateInv,g2,(ih g1).mpr hrest⟩

/-- With the window size of the source, a run of reads and rewinds on any
file that opens stays inside its window exactly when the lengths it meets
are clear. -/
theorem runSafe_iff_clearRun (P : Platform) (f : CaptureFile) (hP : P.mapSize=2^30)
    (hp : P.pageSize ≤ P.mapSize) (hlen : sizeofPcapHdr ≤ f.bytes.length)
    (hm : le32 f.bytes 0=ewxMagicNumber ∨ le32 f.bytes 0=ntohl ewxMagicNumber) :
    ∃ s,ewxPcapOpen P f=some s ∧ ∀ calls,RunSafe P f s calls ↔ ClearRun P f s calls := by
  obtain ⟨s,hs⟩ := ewxPcapOpen_isSome hp hlen hm
  exact ⟨s,hs,fun calls => (ewxPcapOpen_window hs).1.runSafe_iff (by omega) hlen calls⟩

/-- Four-kilobyte pages and the window size of the source. -/
def pagePlatform : Platform where
  mapSize := 2^30
  pageSize := 2^12
  mmap64 := fun n => 2^46+2^31*n
  page_pos := by norm_num
  map_ge := by norm_num
  map_lt := by norm_num

/-- A header and one record header whose length has all bits set. -/
def wildFile : CaptureFile where
  bytes := [0xd4,0xc3,0xb2,0xa1]++List.replicate 20 0++
    [0,0,0,0,0,0,0,0,0xff,0xff,0xff,0xff,0,0,0,0]
  size_lt := by simp

/-- The wild file opens, and a single read on it is not clear. -/
theorem runSafe_iff_clearRun_wild :
    (∃ s,ewxPcapOpen pagePlatform wildFile=some s ∧
      ∀ calls,RunSafe pagePlatform wildFile s calls ↔ ClearRun pagePlatform wildFile s calls) :=
  runSafe_iff_clearRun pagePlatform wildFile rfl (by decide +kernel) (by decide +kernel)
    (by decide +kernel)

/-- Skipping the record of the wild file moves the read position four
gigabytes behind a window of forty bytes. -/
theorem runSafe_wild_false :
    ∃ s,ewxPcapOpen pagePlatform wildFile=some s ∧
      ¬RunSafe pagePlatform wildFile s [.read 65535] := by
  obtain ⟨s,hs⟩ : ∃ s,ewxPcapOpen pagePlatform wildFile=some s :=
    ewxPcapOpen_isSome (by decide +kernel) (by decide +kernel) (by decide +kernel)
  refine ⟨s,hs,fun h => ?_⟩
  have hout : (ewxPcapOpen pagePlatform wildFile).all (fun s =>
      decide ((call pagePlatform wildFile s (.read 65535)).1.cPtr ≤
        (call pagePlatform wildFile s (.read 65535)).1.ptr+
          (call pagePlatform wildFile s (.read 65535)).1.length))=false := by decide +kernel
  rw [hs] at hout
  exact of_decide_eq_false hout h.2.2.cPtr_le

end StudyCode.EwxPcap
