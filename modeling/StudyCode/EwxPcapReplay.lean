import Mathlib
import StudyCode.EwxPcapWindow

/-!
# Reading complete captures

A complete capture is a file header with an accepted magic number followed
by whole records. On such a file the reader either delivers every record or
every record but the last, and which of the two is decided by where the
window lies when the last record header has been read. Rewinding replays
the reads from the start whatever was read before.
-/

namespace StudyCode.EwxPcap

/-- A 32-bit field in the byte order of the file. -/
def enc32 (e : Endian) (v : ℕ) : List UInt8 :=
  match e with
  | .little => [.ofNat v,.ofNat (v/2^8),.ofNat (v/2^16),.ofNat (v/2^24)]
  | .big => [.ofNat (v/2^24),.ofNat (v/2^16),.ofNat (v/2^8),.ofNat v]

/-- One record of a capture. -/
structure Rec where
  /-- Timestamp seconds. -/
  tsSec : UInt32
  /-- Timestamp microseconds. -/
  tsUsec : UInt32
  /-- Length of the packet on the wire. -/
  origLen : UInt32
  /-- Captured octets. -/
  payload : List UInt8
  /-- Something was captured. -/
  payload_pos : 1 ≤ payload.length
  /-- Captures are bounded. -/
  payload_le : payload.length ≤ 65535

/-- A record in the byte order of the file. -/
def Rec.encode (e : Endian) (r : Rec) : List UInt8 :=
  enc32 e r.tsSec.toNat++(enc32 e r.tsUsec.toNat++(enc32 e r.payload.length++
    (enc32 e r.origLen.toNat++r.payload)))

/-- The header of a record in host order. -/
def Rec.hdr (r : Rec) : PcaprecHdr := ⟨r.tsSec.toNat,r.tsUsec.toNat,r.payload.length,r.origLen.toNat⟩

/-- A file header with an accepted magic number and whole records behind it. -/
structure Capture where
  /-- Byte order of the file. -/
  endian : Endian
  /-- The file header behind the magic number. -/
  rest : List UInt8
  /-- Records in file order. -/
  recs : List Rec
  /-- Size of the file header. -/
  rest_length : rest.length=20
  /-- Bound on the file size. -/
  size_lt : (enc32 endian ewxMagicNumber++rest++recs.flatMap (Rec.encode endian)).length < 2^63

/-- The file of a capture. -/
def Capture.file (v : Capture) : CaptureFile :=
  ⟨enc32 v.endian ewxMagicNumber++v.rest++v.recs.flatMap (Rec.encode v.endian),v.size_lt⟩

/-- A field has four bytes. -/
@[simp] theorem enc32_length (e : Endian) (v : ℕ) : (enc32 e v).length=4 := by
  cases e <;> rfl

/-- A record is its header and its payload. -/
@[simp] theorem Rec.encode_length (e : Endian) (r : Rec) :
    (r.encode e).length=16+r.payload.length := by
  simp [Rec.encode]
  omega

/-- Reading behind a field. -/
theorem le32_append_right {xs : List UInt8} (h : xs.length=4) (ys : List UInt8) (i : ℕ) :
    le32 (xs++ys) (i+4)=le32 ys i := by
  have hg : ∀ j,(xs++ys).getD (j+4) 0=ys.getD j 0 := fun j => by
    simp only [List.getD_eq_getElem?_getD,List.getElem?_append_right (show xs.length ≤ j+4 by omega),
      h,Nat.add_sub_cancel]
  unfold le32
  rw [hg i,show i+4+1=i+1+4 by omega,show i+4+2=i+2+4 by omega,show i+4+3=i+3+4 by omega,
    hg (i+1),hg (i+2),hg (i+3)]

/-- Convert a field that was loaded on the host. -/
def fieldValue (e : Endian) (v : ℕ) : ℕ := if e=.big then ntohl v else v

/-- Byte reversal of four assembled bytes. -/
theorem ntohl_bytes {a b c d : ℕ} (ha : a < 2^8) (hb : b < 2^8) (hc : c < 2^8) (hd : d < 2^8) :
    ntohl (a+2^8*b+2^16*c+2^24*d)=d+2^8*c+2^16*b+2^24*a := by
  have h0 : (a+2^8*b+2^16*c+2^24*d)%2^8=a := by omega
  have h1 : (a+2^8*b+2^16*c+2^24*d)/2^8%2^8=b := by omega
  have h2 : (a+2^8*b+2^16*c+2^24*d)/2^16%2^8=c := by omega
  have h3 : (a+2^8*b+2^16*c+2^24*d)/2^24%2^8=d := by omega
  unfold ntohl
  rw [h0,h1,h2,h3]
  omega

/-- A field that was encoded is read again. -/
theorem fieldValue_enc32 (e : Endian) {v : ℕ} (hv : v < 2^32) (ys : List UInt8) :
    fieldValue e (le32 (enc32 e v++ys) 0)=v := by
  cases e with
  | little =>
    simp [fieldValue,le32,enc32]
    omega
  | big =>
    rw [fieldValue,if_pos rfl,le32,ntohl_bytes (UInt8.toNat_lt _) (UInt8.toNat_lt _)
      (UInt8.toNat_lt _) (UInt8.toNat_lt _)]
    simp [enc32]
    omega

/-- The header is converted field by field. -/
theorem ewxPcapConvert_eq (s : PcapInfo) (h : PcaprecHdr) :
    ewxPcapConvert s h=⟨fieldValue s.endian h.tsSec,fieldValue s.endian h.tsUsec,
      fieldValue s.endian h.inclLen,fieldValue s.endian h.origLen⟩ := by
  unfold ewxPcapConvert fieldValue
  split <;> rfl

/-- The header of a record is decoded to the values it was written from. -/
theorem convert_encode {s : PcapInfo} {e : Endian} (he : s.endian=e) (r : Rec) (ys : List UInt8) :
    ewxPcapConvert s (readPcaprecHdr ((r.encode e++ys).take sizeofPcaprecHdr))=r.hdr := by
  have htake : (r.encode e++ys).take sizeofPcaprecHdr=
      enc32 e r.tsSec.toNat++(enc32 e r.tsUsec.toNat++(enc32 e r.payload.length++
        (enc32 e r.origLen.toNat++[]))) := by
    have hsplit : r.encode e++ys=(enc32 e r.tsSec.toNat++(enc32 e r.tsUsec.toNat++
        (enc32 e r.payload.length++(enc32 e r.origLen.toNat++[]))))++(r.payload++ys) := by
      simp [Rec.encode]
    rw [hsplit,List.take_left' (by simp [sizeofPcaprecHdr])]
  have hlen : r.payload.length < 2^32 := by
    have := r.payload_le
    omega
  have h4 := enc32_length e
  rw [htake,ewxPcapConvert_eq,he]
  unfold readPcaprecHdr Rec.hdr
  dsimp only
  rw [fieldValue_enc32 e r.tsSec.toNat_lt,show (4:ℕ)=0+4 from rfl,show (8:ℕ)=0+4+4 from rfl,
    show (12:ℕ)=0+4+4+4 from rfl]
  simp only [le32_append_right (h4 _)]
  rw [fieldValue_enc32 e r.tsUsec.toNat_lt,fieldValue_enc32 e hlen,
    fieldValue_enc32 e r.origLen.toNat_lt]

/-! ## Reading until the end -/

/-- What the caller gets from a record. -/
def Rec.delivered (r : Rec) : Option PcaprecHdr×Option (Delivery×List UInt8) :=
  (some r.hdr,some (.memcpy,r.payload))

/-- Read until a call returns 0; the fuel bounds the number of calls. -/
def readAll (P : Platform) (f : CaptureFile) (bufLen : ℕ) :
    ℕ → PcapInfo → Option (List (Option PcaprecHdr×Option (Delivery×List UInt8)))
  | 0,_ => none
  | k+1,s =>
    if (ewxPcapRead P f s bufLen).2.ret=0 then some []
    else (readAll P f bufLen k (ewxPcapRead P f s bufLen).1).map
      (((ewxPcapRead P f s bufLen).2.hdr,(ewxPcapRead P f s bufLen).2.payload)::·)

/-- Start of the window after a number of bytes was asked for at a position. -/
def slide (P : Platform) (off pos n : ℕ) : ℕ :=
  if pos+n ≤ off+P.mapSize then off else pos-pos%P.pageSize

/-- Start of the window in which the header of the last record is read, for
records of given lengths from a position on. -/
def lastWindow (P : Platform) : ℕ → ℕ → List ℕ → ℕ
  | off,_,[] => off
  | off,pos,[_] => slide P off pos sizeofPcaprecHdr
  | off,pos,n::n'::ns =>
    lastWindow P (slide P (slide P off pos sizeofPcaprecHdr) (pos+sizeofPcaprecHdr) n)
      (pos+sizeofPcaprecHdr+n) (n'::ns)

section Serve

variable {P : Platform} {f : CaptureFile} {s : PcapInfo}

/-- A request for bytes of the file that a window can hold is granted unless
it ends with the file and the window does not reach it. -/
theorem Window.prepare_serve (h : Window P f s) (hp : P.pageSize+65551 ≤ P.mapSize) {v : ℕ}
    (hv : v ≤ 65535) (hN : s.pos+v ≤ f.bytes.length)
    (hfit : s.pos+v ≤ s.offset+P.mapSize ∨ s.pos+v < f.bytes.length) :
    ∃ s',ewxPcapReadPrepare P s (toInt v)=(s',true) ∧ Window P f s' ∧ s'.pos=s.pos ∧
      s'.endian=s.endian ∧ s'.pos+v ≤ s'.offset+s'.length ∧
      s'.offset=slide P s.offset s.pos v := by
  have hlen := h.length
  have hmod := Nat.mod_lt s.pos P.page_pos
  rw [toInt_small (by omega),h.prepare_small (by omega)]
  unfold slide
  by_cases hin : s.pos+v ≤ s.offset+P.mapSize
  · have hin' : s.pos+v ≤ s.offset+s.length := by omega
    rw [if_pos hin',if_pos hin]
    exact ⟨s,rfl,h,rfl,rfl,hin',rfl⟩
  · rw [if_neg (by omega),if_neg (by omega),if_neg hin]
    obtain ⟨h1,h2,h3⟩ := h.move (v:=v) (by omega) (by omega) hN
    exact ⟨_,rfl,h1,h2,rfl,by rw [h2]; exact h3,rfl⟩

/-- A request that ends with the file behind the window is refused. -/
theorem Window.prepare_refuse (h : Window P f s) {v : ℕ} (hv : v ≤ 65535)
    (hN : s.pos+v=f.bytes.length) (hfit : s.offset+P.mapSize < f.bytes.length) :
    ewxPcapReadPrepare P s (toInt v)=(s,false) := by
  have hlen := h.length
  rw [toInt_small (by omega),h.prepare_small (by omega),if_neg (by omega),if_pos (by omega)]

/-- The header of a record that follows in the file is read. -/
theorem Window.header_serve (h : Window P f s) (hp : P.pageSize+65551 ≤ P.mapSize) {r : Rec}
    {e : Endian} (he : s.endian=e) {rest : List UInt8}
    (hd : f.bytes.drop s.pos=r.encode e++rest) :
    ∃ s1,ewxPcapReadPrepare P s (toInt sizeofPcaprecHdr)=(s1,true) ∧
      ewxPcapConvert s1 (readPcaprecHdr (EwxPcap.load f s1 s1.cPtr sizeofPcaprecHdr))=r.hdr ∧
      Window P f {s1 with cPtr := s1.cPtr+sizeofPcaprecHdr} ∧
      ({s1 with cPtr := s1.cPtr+sizeofPcaprecHdr} : PcapInfo).pos=s.pos+sizeofPcaprecHdr ∧
      s1.endian=e ∧ s1.offset=slide P s.offset s.pos sizeofPcaprecHdr ∧
      s.pos+sizeofPcaprecHdr+r.payload.length+rest.length=f.bytes.length := by
  have hsum : s.pos+sizeofPcaprecHdr+r.payload.length+rest.length=f.bytes.length := by
    have hl := congrArg List.length hd
    have := r.payload_pos
    rw [List.length_drop,List.length_append,Rec.encode_length] at hl
    unfold sizeofPcaprecHdr
    omega
  have hpos := r.payload_pos
  obtain ⟨s1,h1,h2,h3,h4,h5,h6⟩ := h.prepare_serve hp (show sizeofPcaprecHdr ≤ 65535 by decide)
    (by omega) (Or.inr (by omega))
  obtain ⟨g1,g2⟩ := h2.advance h5
  refine ⟨s1,h1,?_,g1,by rw [g2,h3],h4.trans he,h6,hsum⟩
  rw [h2.load,h3,hd]
  exact convert_encode (h4.trans he) r rest

/-- Reading a record whose payload is within reach. -/
theorem Window.read_serve (h : Window P f s) (hp : P.pageSize+65551 ≤ P.mapSize) {r : Rec}
    {e : Endian} (he : s.endian=e) {rest : List UInt8}
    (hd : f.bytes.drop s.pos=r.encode e++rest) {bufLen : ℕ} (hb : 65535 ≤ bufLen)
    (hfit : rest≠[] ∨ f.bytes.length ≤ slide P s.offset s.pos sizeofPcaprecHdr+P.mapSize) :
    ∃ s' acc,ewxPcapRead P f s bufLen=
        (s',⟨r.payload.length,some r.hdr,some (.memcpy,r.payload),acc⟩) ∧
      Window P f s' ∧ s'.endian=e ∧ f.bytes.drop s'.pos=rest ∧
      s'.pos=s.pos+sizeofPcaprecHdr+r.payload.length ∧
      s'.offset=slide P (slide P s.offset s.pos sizeofPcaprecHdr) (s.pos+sizeofPcaprecHdr)
        r.payload.length := by
  obtain ⟨s1,h1,h2,h3,h4,h5,h6,h7⟩ := h.header_serve hp he hd
  have hle := r.payload_le
  have hrest : rest≠[] → 0 < rest.length := fun hr => List.length_pos_iff.mpr hr
  obtain ⟨s3,k1,k2,k3,k4,k5,k6⟩ := h3.prepare_serve hp (v:=r.payload.length) hle (by rw [h4]; omega) (by
    rw [h4]
    dsimp only
    rw [h6]
    rcases hfit with hr|hr
    · exact Or.inr (by have := hrest hr; omega)
    · exact Or.inl (by omega))
  have hinc : r.hdr.inclLen=r.payload.length := rfl
  have hdrop : f.bytes.drop s3.pos=r.payload++rest := by
    rw [k3,h4,← List.drop_drop,hd]
    unfold Rec.encode
    simp only [← List.append_assoc]
    rw [List.append_assoc _ r.payload,List.drop_left' (by simp [sizeofPcaprecHdr])]
  have hload : EwxPcap.load f s3 s3.cPtr r.hdr.inclLen=r.payload := by
    rw [k2.load,hdrop,hinc,List.take_left]
  obtain ⟨g1,g2⟩ := k2.advance k5
  refine ⟨{s3 with cPtr := s3.cPtr+r.payload.length},
    [accessAt s1 sizeofPcaprecHdr,accessAt s3 r.payload.length],?_,g1,k4.trans h5,?_,?_,?_⟩
  · unfold ewxPcapRead
    rw [readRecord_of_header h1 h2 k1,if_pos rfl,hload,if_neg (by omega),if_neg (by omega)]
    rfl
  · rw [g2,← List.drop_drop,hdrop,List.drop_left]
  · rw [g2,k3,h4]
  · dsimp only at k6 ⊢
    rw [k6,h4,h6]

/-- Reading the last record when its payload ends behind the window. -/
theorem Window.read_refuse (h : Window P f s) (hp : P.pageSize+65551 ≤ P.mapSize) {r : Rec}
    {e : Endian} (he : s.endian=e) (hd : f.bytes.drop s.pos=r.encode e++[]) {bufLen : ℕ}
    (hfit : slide P s.offset s.pos sizeofPcaprecHdr+P.mapSize < f.bytes.length) :
    (ewxPcapRead P f s bufLen).2.ret=0 := by
  obtain ⟨s1,h1,h2,h3,h4,h5,h6,h7⟩ := h.header_serve hp he hd
  have hk := h3.prepare_refuse r.payload_le (by rw [h4]; simpa using h7) (by
    dsimp only
    rw [h6]
    exact hfit)
  unfold ewxPcapRead
  rw [readRecord_of_header h1 h2 hk]
  rfl

/-- At the end of the file nothing is read. -/
theorem Window.readRecord_end (h : Window P f s) (hd : f.bytes.drop s.pos=[]) (d : Delivery)
    (bufLen : ℕ) : readRecord d P f s bufLen=(s,⟨0,none,none,[]⟩) := by
  have hl := congrArg List.length hd
  have hend := h.end_le
  rw [List.length_drop,List.length_nil] at hl
  have h16 : 0 < sizeofPcaprecHdr := by decide
  have hprep := h.prepare_small sizeofPcaprecHdr_lt
  rw [if_neg (by omega),if_pos (by omega)] at hprep
  simp only [readRecord,hprep]

/-- Reading to the end delivers all records that follow, or all but the last. -/
theorem Window.readAll_recs (h : Window P f s) (hp : P.pageSize+65551 ≤ P.mapSize) {e : Endian}
    (he : s.endian=e) {rs : List Rec} (hd : f.bytes.drop s.pos=rs.flatMap (Rec.encode e))
    {bufLen : ℕ} (hb : 65535 ≤ bufLen) {fuel : ℕ} (hfuel : rs.length < fuel) :
    readAll P f bufLen fuel s=some ((if f.bytes.length ≤
      lastWindow P s.offset s.pos (rs.map (·.payload.length))+P.mapSize then rs
        else rs.dropLast).map Rec.delivered) := by
  induction rs generalizing s fuel with
  | nil =>
    obtain ⟨k,rfl⟩ : ∃ k,fuel=k+1 := ⟨fuel-1,by omega⟩
    have hr := h.readRecord_end hd .memcpy bufLen
    unfold readAll ewxPcapRead
    rw [hr]
    simp
  | cons r rs ih =>
    obtain ⟨k,rfl⟩ : ∃ k,fuel=k+1 := ⟨fuel-1,by omega⟩
    rw [List.flatMap_cons] at hd
    have hpos := r.payload_pos
    rw [List.length_cons] at hfuel
    cases rs with
    | nil =>
      simp only [List.map_cons,List.map_nil,lastWindow]
      by_cases hfit : f.bytes.length ≤ slide P s.offset s.pos sizeofPcaprecHdr+P.mapSize
      · obtain ⟨s',acc,g1,g2,g3,g4,g5,g6⟩ := h.read_serve hp he hd hb (Or.inr hfit)
        have hrec := ih g2 g3 g4 (show ([] : List Rec).length < k by omega)
        unfold readAll
        rw [g1,if_pos hfit,hrec]
        simp [Rec.delivered,show r.payload≠[] by intro hn; simp [hn] at hpos]
      · have g1 : (ewxPcapRead P f s bufLen).2.ret=0 := h.read_refuse hp he hd (by omega)
        unfold readAll
        rw [g1,if_neg hfit]
        rfl
    | cons r' rs =>
      obtain ⟨s',acc,g1,g2,g3,g4,g5,g6⟩ := h.read_serve hp he hd hb (Or.inl (by
        intro hn
        have := congrArg List.length hn
        rw [List.flatMap_cons,List.length_append,Rec.encode_length,List.length_nil] at this
        omega))
      have hrec := ih g2 g3 g4 (show (r'::rs).length < k by omega)
      unfold readAll
      simp only [List.map_cons,lastWindow] at hrec ⊢
      rw [g1,hrec,g6,g5]
      dsimp only
      rw [if_neg (by omega)]
      split <;> simp [Rec.delivered]

end Serve

/-! ## Complete captures -/

/-- A capture is its header and its records. -/
theorem Capture.length_eq (v : Capture) :
    v.file.bytes.length=24+(v.recs.flatMap (Rec.encode v.endian)).length := by
  simp [Capture.file,v.rest_length]
  omega

/-- The records stand behind the header. -/
theorem Capture.drop_header (v : Capture) :
    v.file.bytes.drop 24=v.recs.flatMap (Rec.encode v.endian) := by
  unfold Capture.file
  exact List.drop_left' (by simp [v.rest_length])

/-- The magic number as the host reads it. -/
theorem le32_magic (e : Endian) (xs : List UInt8) :
    le32 (enc32 e ewxMagicNumber++xs) 0=
      if e=.big then ntohl ewxMagicNumber else ewxMagicNumber := by
  have happ : ∀ v,le32 (enc32 e v++xs) 0=le32 (enc32 e v) 0 := fun v => by
    cases e <;> simp [le32,enc32]
  rw [happ]
  cases e <;> decide +kernel

/-- The magic number tells the byte order. -/
theorem Capture.magic (v : Capture) :
    le32 v.file.bytes 0=if v.endian=.big then ntohl ewxMagicNumber else ewxMagicNumber := by
  unfold Capture.file
  dsimp only
  rw [List.append_assoc,le32_magic]

/-- A capture opens, at its first record and in its byte order. -/
theorem Capture.open_eq {P : Platform} (hp : P.pageSize ≤ P.mapSize) (v : Capture) :
    ∃ s,ewxPcapOpen P v.file=some s ∧ Window P v.file s ∧ s.endian=v.endian ∧ s.pos=24 ∧
      s.offset=0 := by
  have hlen : sizeofPcapHdr ≤ v.file.bytes.length := by
    rw [v.length_eq]
    unfold sizeofPcapHdr
    omega
  have hmagic := v.magic
  obtain ⟨s,hs⟩ := ewxPcapOpen_isSome hp hlen (by
    rw [hmagic]
    split
    · exact Or.inr rfl
    · exact Or.inl rfl)
  obtain ⟨h1,-,h3⟩ := ewxPcapOpen_window hs
  refine ⟨s,hs,h1,?_,h3,?_⟩
  · unfold ewxPcapOpen at hs
    rw [if_neg (by omega),if_neg (by omega)] at hs
    dsimp only at hs
    split at hs
    · cases hs
    · cases hs
      have hm : (readPcapHdr v.file).magicNumber=le32 v.file.bytes 0 := rfl
      dsimp only [ewxPrereadFile]
      rw [hm,hmagic]
      cases v.endian with
      | little => exact if_neg (by decide +kernel)
      | big => exact if_pos (by decide +kernel)
  · unfold ewxPcapOpen at hs
    rw [if_neg (by omega),if_neg (by omega)] at hs
    dsimp only at hs
    split at hs
    · cases hs
    · cases hs
      simp [ewxPrereadFile]

/-- Opening a file and reading it to the end delivers exactly its records,
and ends with a call that returns 0. -/
def DeliversAll (P : Platform) (v : Capture) : Prop :=
  ∃ s,ewxPcapOpen P v.file=some s ∧ ∀ bufLen,65535 ≤ bufLen → ∀ fuel,v.recs.length < fuel →
    readAll P v.file bufLen fuel s=some (v.recs.map Rec.delivered)

/-- What opening and reading a capture to its end delivers. -/
theorem Capture.readAll_eq {P : Platform} (hp : P.pageSize+65551 ≤ P.mapSize) (v : Capture) :
    ∃ s,ewxPcapOpen P v.file=some s ∧ ∀ bufLen,65535 ≤ bufLen → ∀ fuel,v.recs.length < fuel →
      readAll P v.file bufLen fuel s=some ((if v.file.bytes.length ≤
        lastWindow P 0 24 (v.recs.map (·.payload.length))+P.mapSize then v.recs
          else v.recs.dropLast).map Rec.delivered) := by
  obtain ⟨s,h1,h2,h3,h4,h5⟩ := v.open_eq (P:=P) (by omega)
  refine ⟨s,h1,fun bufLen hb fuel hfuel => ?_⟩
  rw [h2.readAll_recs hp h3 (by rw [h4]; exact v.drop_header) hb hfuel,h4,h5]

/-- A capture whose last payload ends behind the window of its header is not
delivered completely. -/
theorem Capture.not_deliversAll {P : Platform} (hp : P.pageSize+65551 ≤ P.mapSize) (v : Capture)
    (hn : ¬v.file.bytes.length ≤ lastWindow P 0 24 (v.recs.map (·.payload.length))+P.mapSize) :
    ¬DeliversAll P v := by
  rintro ⟨s',h1',h2'⟩
  obtain ⟨s,h1,h2⟩ := v.readAll_eq hp
  rw [h1] at h1'
  cases h1'
  have heq := (h2' 65535 le_rfl (v.recs.length+1) (by omega)).symm.trans
    (h2 65535 le_rfl (v.recs.length+1) (by omega))
  rw [if_neg hn] at heq
  have hlen := congrArg List.length (Option.some.inj heq)
  simp only [List.length_map,List.length_dropLast] at hlen
  have hnil : v.recs=[] := List.length_eq_zero_iff.mp (by omega)
  apply hn
  rw [v.length_eq,hnil]
  have := P.map_ge
  simp only [List.flatMap_nil,List.length_nil,List.map_nil,lastWindow]
  omega

/-- A complete capture is delivered completely exactly when its last payload
ends inside the window that the header of the last record was read from. -/
theorem deliversAll_iff_last_in_window (P : Platform) (hp : P.pageSize+65551 ≤ P.mapSize)
    (v : Capture) :
    DeliversAll P v ↔
      v.file.bytes.length ≤ lastWindow P 0 24 (v.recs.map (·.payload.length))+P.mapSize := by
  constructor
  · intro h
    by_contra hn
    exact v.not_deliversAll hp hn h
  · intro h
    obtain ⟨s,h1,h2⟩ := v.readAll_eq hp
    refine ⟨s,h1,fun bufLen hb fuel hfuel => ?_⟩
    rw [h2 bufLen hb fuel hfuel,if_pos h]

/-- A record of the largest length. -/
def largestRec : Rec where
  tsSec := 0
  tsUsec := 0
  origLen := 65535
  payload := List.replicate 65535 0
  payload_pos := by rw [List.length_replicate]; norm_num
  payload_le := by rw [List.length_replicate]

/-- The largest payload. -/
theorem largestRec_length : largestRec.payload.length=65535 := List.length_replicate

/-- The length of equal records. -/
theorem replicate_flatMap_length (e : Endian) (r : Rec) (k : ℕ) :
    ((List.replicate k r).flatMap (Rec.encode e)).length=k*(16+r.payload.length) := by
  induction k with
  | zero => simp
  | succ k ih =>
    rw [List.replicate_succ,List.flatMap_cons,List.length_append,ih,Rec.encode_length]
    ring

/-- Little-endian captures of records of the largest length. -/
def largestCapture (k : ℕ) (hk : k < 2^40) : Capture where
  endian := .little
  rest := List.replicate 20 0
  recs := List.replicate k largestRec
  rest_length := by simp
  size_lt := by
    rw [List.length_append,replicate_flatMap_length,largestRec_length,List.length_append,
      List.length_replicate,enc32_length]
    omega

/-- The length of a capture of the largest records. -/
theorem largestCapture_length (k : ℕ) (hk : k < 2^40) :
    (largestCapture k hk).file.bytes.length=24+k*65551 := by
  rw [Capture.length_eq]
  simp only [largestCapture,replicate_flatMap_length,largestRec_length]

/-- A single record of the largest length. -/
theorem deliversAll_iff_last_in_window_single :
    DeliversAll pagePlatform (largestCapture 1 (by norm_num)) ↔
      (largestCapture 1 (by norm_num)).file.bytes.length ≤ lastWindow pagePlatform 0 24
        ((largestCapture 1 (by norm_num)).recs.map (·.payload.length))+pagePlatform.mapSize :=
  deliversAll_iff_last_in_window pagePlatform (by decide +kernel) _

/-- The window stays while headers and payloads fit it. -/
theorem lastWindow_replicate {P : Platform} {off pos n k : ℕ}
    (h : pos+k*(16+n)+16 ≤ off+P.mapSize) : lastWindow P off pos (List.replicate (k+1) n)=off := by
  induction k generalizing pos with
  | zero => exact if_pos (by unfold sizeofPcaprecHdr; omega)
  | succ k ih =>
    rw [Nat.succ_mul] at h
    rw [List.replicate_succ,List.replicate_succ,lastWindow,← List.replicate_succ]
    have h1 : slide P off pos sizeofPcaprecHdr=off := if_pos (by unfold sizeofPcaprecHdr; omega)
    have h2 : slide P off (pos+sizeofPcaprecHdr) n=off := if_pos (by unfold sizeofPcaprecHdr; omega)
    rw [h1,h2]
    exact ih (by unfold sizeofPcaprecHdr; omega)

/-- With the window of the source, the last of 16381 records of the largest
length ends behind the first window, and is lost. -/
theorem deliversAll_largest_false :
    ¬DeliversAll pagePlatform (largestCapture 16381 (by norm_num)) := by
  apply Capture.not_deliversAll (by decide +kernel)
  rw [largestCapture_length]
  have hmap : (largestCapture 16381 (by norm_num)).recs.map (·.payload.length)=
      List.replicate (16380+1) 65535 := by
    unfold largestCapture
    dsimp only
    rw [List.map_replicate,largestRec_length]
  have hm : pagePlatform.mapSize=2^30 := rfl
  rw [hmap,lastWindow_replicate (by rw [hm]; norm_num),hm]
  norm_num

/-! ## Rewinding -/

/-- What the caller sees of a read: return value, header and payload. -/
def ReadReport.result (r : ReadReport) : ℕ×Option PcaprecHdr×Option (Delivery×List UInt8) :=
  (r.ret,r.hdr,r.payload)

/-- Reads with their buffer lengths, one after the other; the last state and
all results. -/
def runReads (P : Platform) (f : CaptureFile) :
    PcapInfo → List (Delivery×ℕ) → PcapInfo×List (ℕ×Option PcaprecHdr×Option (Delivery×List UInt8))
  | s,[] => (s,[])
  | s,(d,bufLen)::rs =>
    ((runReads P f (readRecord d P f s bufLen).1 rs).1,
      (readRecord d P f s bufLen).2.result::(runReads P f (readRecord d P f s bufLen).1 rs).2)

/-- Two readers of the same file whose windows differ only by their address. -/
structure Shift (s t : PcapInfo) : Prop where
  /-- Same byte order. -/
  endian : s.endian=t.endian
  /-- Same recorded offset. -/
  offset : s.offset=t.offset
  /-- Same window length. -/
  length : s.length=t.length
  /-- Same file length. -/
  fileLen : s.fileLen=t.fileLen
  /-- Same part of the file. -/
  mapped : s.mapped=t.mapped
  /-- Same position inside the window. -/
  cPtr : ∃ d,s.cPtr=s.ptr+d ∧ t.cPtr=t.ptr+d

namespace Shift

variable {P : Platform} {f : CaptureFile} {s t : PcapInfo}

/-- Both positions move on. -/
theorem advance (h : Shift s t) (n : ℕ) :
    Shift {s with cPtr := s.cPtr+n} {t with cPtr := t.cPtr+n} := by
  obtain ⟨d,h1,h2⟩ := h.cPtr
  refine ⟨h.endian,h.offset,h.length,h.fileLen,h.mapped,d+n,?_,?_⟩
  · dsimp only
    rw [h1,Nat.add_assoc]
  · dsimp only
    rw [h2,Nat.add_assoc]

/-- Both windows show the same bytes. -/
theorem load (h : Shift s t) (n : ℕ) :
    EwxPcap.load f s s.cPtr n=EwxPcap.load f t t.cPtr n := by
  obtain ⟨d,h1,h2⟩ := h.cPtr
  unfold EwxPcap.load
  rw [h1,h2,h.mapped,Nat.add_sub_cancel_left,Nat.add_sub_cancel_left]

/-- Both headers are converted alike. -/
theorem convert (h : Shift s t) (hdr : PcaprecHdr) :
    ewxPcapConvert s hdr=ewxPcapConvert t hdr := by
  unfold ewxPcapConvert
  rw [h.endian]

/-- Mapping a window anew. -/
theorem preread (he : s.endian=t.endian) (ho : s.offset=t.offset) (hf : s.fileLen=t.fileLen) :
    Shift (ewxPrereadFile P s) (ewxPrereadFile P t) := by
  unfold ewxPrereadFile
  rw [ho,hf]
  exact ⟨he,rfl,rfl,rfl,rfl,t.offset%P.pageSize,rfl,rfl⟩

/-- Both readers grant or refuse a request alike. -/
theorem prepare (h : Shift s t) (len : ℤ) :
    ∃ s' t' b,ewxPcapReadPrepare P s len=(s',b) ∧ ewxPcapReadPrepare P t len=(t',b) ∧
      Shift s' t' := by
  obtain ⟨d,h1,h2⟩ := h.cPtr
  have hs : sub64 s.cPtr s.ptr=d := by
    rw [h1,sub64_of_le (Nat.le_add_right _ _),Nat.add_sub_cancel_left]
  have ht : sub64 t.cPtr t.ptr=d := by
    rw [h2,sub64_of_le (Nat.le_add_right _ _),Nat.add_sub_cancel_left]
  simp only [ewxPcapReadPrepare,hs,ht,h.length,h.fileLen,h.offset]
  by_cases hin : toU64 len ≤ sub64 t.length d
  · exact ⟨s,t,true,if_pos hin,if_pos hin,h⟩
  · rw [if_neg hin,if_neg hin]
    by_cases hend : t.fileLen ≤ add64 (add64 t.offset d) (toU64 len)
    · exact ⟨s,t,false,if_pos hend,if_pos hend,h⟩
    · exact ⟨_,_,true,if_neg hend,if_neg hend,preread h.endian rfl rfl⟩

/-- Both readers give the same result. -/
theorem readRecord (h : Shift s t) (d : Delivery) (bufLen : ℕ) :
    Shift (readRecord d P f s bufLen).1 (readRecord d P f t bufLen).1 ∧
      (readRecord d P f s bufLen).2.result=(readRecord d P f t bufLen).2.result := by
  obtain ⟨s1,t1,b,hs1,ht1,h1⟩ := h.prepare (P:=P) sizeofPcaprecHdr
  cases b with
  | false =>
    simp only [EwxPcap.readRecord,hs1,ht1,and_true]
    exact h1
  | true =>
    rw [← toInt_small sizeofPcaprecHdr_lt] at hs1 ht1
    have hh : ewxPcapConvert s1 (readPcaprecHdr (EwxPcap.load f s1 s1.cPtr sizeofPcaprecHdr))=
        ewxPcapConvert t1 (readPcaprecHdr (EwxPcap.load f t1 t1.cPtr sizeofPcaprecHdr)) := by
      rw [h1.load,h1.convert]
    obtain ⟨s3,t3,b,hs3,ht3,h3⟩ := (h1.advance sizeofPcaprecHdr).prepare (P:=P) (toInt
      (ewxPcapConvert t1 (readPcaprecHdr (EwxPcap.load f t1 t1.cPtr sizeofPcaprecHdr))).inclLen)
    rw [readRecord_of_header hs1 hh hs3,readRecord_of_header ht1 rfl ht3]
    cases b with
    | false => exact ⟨h3,rfl⟩
    | true =>
      refine ⟨h3.advance _,?_⟩
      simp only [if_true,ReadReport.result,h3.load]

/-- Both readers read the same records. -/
theorem runReads (h : Shift s t) (rs : List (Delivery×ℕ)) :
    (runReads P f s rs).2=(runReads P f t rs).2 := by
  induction rs generalizing s t with
  | nil => rfl
  | cons r rs ih =>
    obtain ⟨h1,h2⟩ := h.readRecord (P:=P) (f:=f) r.1 r.2
    simp only [EwxPcap.runReads,h2,ih h1]

end Shift

/-- Requests leave the byte order and the length of the file alone. -/
theorem prepare_keeps (P : Platform) (s : PcapInfo) (len : ℤ) :
    (ewxPcapReadPrepare P s len).1.endian=s.endian ∧
      (ewxPcapReadPrepare P s len).1.fileLen=s.fileLen := by
  simp only [ewxPcapReadPrepare]
  split
  · exact ⟨rfl,rfl⟩
  · split <;> exact ⟨rfl,rfl⟩

/-- Reads leave the byte order and the length of the file alone. -/
theorem readRecord_keeps (d : Delivery) (P : Platform) (f : CaptureFile) (s : PcapInfo)
    (bufLen : ℕ) :
    (readRecord d P f s bufLen).1.endian=s.endian ∧
      (readRecord d P f s bufLen).1.fileLen=s.fileLen := by
  have hk := prepare_keeps P s sizeofPcaprecHdr
  cases h1 : ewxPcapReadPrepare P s sizeofPcaprecHdr with
  | mk s1 b =>
    rw [h1] at hk
    cases b with
    | false =>
      simp only [readRecord,h1]
      exact hk
    | true =>
      rw [← toInt_small sizeofPcaprecHdr_lt] at h1
      have hk3 := prepare_keeps P {s1 with cPtr := s1.cPtr+sizeofPcaprecHdr} (toInt
        (ewxPcapConvert s1 (readPcaprecHdr (load f s1 s1.cPtr sizeofPcaprecHdr))).inclLen)
      cases h3 : ewxPcapReadPrepare P {s1 with cPtr := s1.cPtr+sizeofPcaprecHdr} (toInt
        (ewxPcapConvert s1 (readPcaprecHdr (load f s1 s1.cPtr sizeofPcaprecHdr))).inclLen) with
      | mk s3 b =>
        rw [h3] at hk3
        rw [readRecord_of_header h1 rfl h3]
        cases b <;> exact ⟨hk3.1.trans hk.1,hk3.2.trans hk.2⟩

/-- Reading leaves the byte order and the length of the file. -/
theorem runReads_keeps (P : Platform) (f : CaptureFile) (s : PcapInfo) (rs : List (Delivery×ℕ)) :
    (runReads P f s rs).1.endian=s.endian ∧ (runReads P f s rs).1.fileLen=s.fileLen := by
  induction rs generalizing s with
  | nil => exact ⟨rfl,rfl⟩
  | cons r rs ih =>
    have h1 := readRecord_keeps r.1 P f s r.2
    have h2 := ih (readRecord r.1 P f s r.2).1
    exact ⟨h2.1.trans h1.1,h2.2.trans h1.2⟩

/-- The reader of a file that fits one window stands at a record. -/
structure AtRecord (P : Platform) (f : CaptureFile) (e : Endian) (s : PcapInfo) : Prop where
  /-- The window is that of the whole file. -/
  window : Window P f s
  /-- Byte order of the file. -/
  endian : s.endian=e
  /-- Whole records follow. -/
  rest : ∃ rs : List Rec,f.bytes.drop s.pos=rs.flatMap (Rec.encode e)

/-- In a file that fits one window a read steps over one record, or stays at
the end. -/
theorem AtRecord.readRecord {P : Platform} {f : CaptureFile} {e : Endian} {s : PcapInfo}
    (h : AtRecord P f e s) (hN : f.bytes.length ≤ P.mapSize) (d : Delivery) (bufLen : ℕ) :
    AtRecord P f e (readRecord d P f s bufLen).1 := by
  obtain ⟨rs,hd⟩ := h.rest
  cases rs with
  | nil =>
    rw [h.window.readRecord_end hd]
    exact h
  | cons r rs =>
    have hw := h.window
    have h0 := hw.unmoved hN
    have hlen := hw.length
    have hpos := r.payload_pos
    have hle := r.payload_le
    have h16 : sizeofPcaprecHdr=16 := rfl
    rw [List.flatMap_cons] at hd
    have hsum := congrArg List.length hd
    rw [List.length_drop,List.length_append,Rec.encode_length] at hsum
    have h1 := hw.prepare_small sizeofPcaprecHdr_lt
    rw [if_pos (by omega),← toInt_small sizeofPcaprecHdr_lt] at h1
    obtain ⟨g1,g2⟩ := hw.advance (n:=sizeofPcaprecHdr) (by omega)
    have hh : ewxPcapConvert s (readPcaprecHdr (load f s s.cPtr sizeofPcaprecHdr))=r.hdr := by
      rw [hw.load,hd]
      exact convert_encode h.endian r _
    have hin : ({s with cPtr := s.cPtr+sizeofPcaprecHdr} : PcapInfo).pos+r.payload.length ≤
        s.offset+s.length := by
      rw [g2]
      omega
    have hsmall : r.hdr.inclLen < 2^31 := show r.payload.length < 2^31 by omega
    have h2 := (g1.prepare_small hsmall).trans (if_pos hin)
    rw [← toInt_small hsmall] at h2
    obtain ⟨k1,k2⟩ := g1.advance hin
    rw [readRecord_of_header h1 hh h2,if_pos rfl]
    refine ⟨k1,h.endian,rs,?_⟩
    have hskip : (r.encode e++rs.flatMap (Rec.encode e)).drop (sizeofPcaprecHdr+r.payload.length)=
        rs.flatMap (Rec.encode e) := List.drop_left' (by rw [Rec.encode_length,h16])
    rw [← hskip,← hd,List.drop_drop]
    show f.bytes.drop ({s with cPtr := s.cPtr+sizeofPcaprecHdr+r.payload.length} : PcapInfo).pos=_
    rw [k2,g2,Nat.add_assoc]

/-- Reading ends at a record. -/
theorem AtRecord.runReads {P : Platform} {f : CaptureFile} {e : Endian} {s : PcapInfo}
    (h : AtRecord P f e s) (hN : f.bytes.length ≤ P.mapSize) (rs : List (Delivery×ℕ)) :
    AtRecord P f e (runReads P f s rs).1 := by
  induction rs generalizing s with
  | nil => exact h
  | cons r rs ih => exact ih (h.readRecord hN r.1 r.2)

/-- Rewinding after any reads leads to a window like the one after opening. -/
theorem Capture.shift_rewind {P : Platform} {v : Capture} {s : PcapInfo}
    (hw : Window P v.file s) (he : s.endian=v.endian) (hpos : s.pos=24) (ho : s.offset=0)
    (rs : List (Delivery×ℕ)) :
    Shift (ewxPcapRewind P (runReads P v.file s rs).1) s := by
  have hptr := hw.ptr_le
  have hcptr : s.cPtr=s.ptr+sizeofPcapHdr := by
    unfold PcapInfo.pos at hpos
    unfold sizeofPcapHdr
    omega
  obtain ⟨k1,k2⟩ := runReads_keeps P v.file s rs
  unfold ewxPcapRewind
  rw [k2,hw.fileLen]
  split
  · rename_i hN
    have hr : AtRecord P v.file v.endian s :=
      ⟨hw,he,v.recs,by rw [hpos]; exact v.drop_header⟩
    have hw' := (hr.runReads hN rs).window
    have ho' := hw'.unmoved hN
    refine ⟨k1,ho.symm,?_,hw.fileLen.symm,?_,sizeofPcapHdr,rfl,hcptr⟩
    · dsimp only
      rw [hw'.length,hw.length,ho,ho']
    · dsimp only
      rw [hw'.mapped,hw.mapped,ho,ho']
  · rename_i hN
    dsimp only
    rw [preread_eq (f:=v.file) rfl (by dsimp only; omega)]
    refine ⟨k1,?_,?_,hw.fileLen.symm,?_,sizeofPcapHdr,rfl,hcptr⟩
    · dsimp only
      rw [ho,Nat.zero_sub]
    · dsimp only
      rw [hw.length,ho,Nat.zero_sub]
    · dsimp only
      rw [hw.mapped,ho,Nat.zero_sub]

/-- Reading after a rewind gives the results of reading after opening,
whatever was read before. -/
theorem rewind_replays (P : Platform) (hp : P.pageSize ≤ P.mapSize) (v : Capture) :
    ∃ s,ewxPcapOpen P v.file=some s ∧ ∀ first second,
      (runReads P v.file (ewxPcapRewind P (runReads P v.file s first).1) second).2=
        (runReads P v.file s second).2 := by
  obtain ⟨s,h1,h2,h3,h4,h5⟩ := v.open_eq hp
  exact ⟨s,h1,fun first second => (Capture.shift_rewind h2 h3 h4 h5 first).runReads second⟩

/-- The capture of 16381 records of the largest length, longer than the
window of the source. -/
theorem rewind_replays_largest :
    ∃ s,ewxPcapOpen pagePlatform (largestCapture 16381 (by norm_num)).file=some s ∧
      ∀ first second,(runReads pagePlatform (largestCapture 16381 (by norm_num)).file
        (ewxPcapRewind pagePlatform
          (runReads pagePlatform (largestCapture 16381 (by norm_num)).file s first).1) second).2=
        (runReads pagePlatform (largestCapture 16381 (by norm_num)).file s second).2 :=
  rewind_replays pagePlatform (by decide +kernel) _

end StudyCode.EwxPcap
