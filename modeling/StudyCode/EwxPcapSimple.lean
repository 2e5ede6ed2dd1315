import StudyCode.EwxPcapReplay

/-!
# The descriptor reader beside the mapped one

`ewx_pcap_read_simple` reads the same records with read(2) and takes every
header as it stands in the file. On a file that fits one window it delivers
what the mapped reader delivers as long as the byte order of the headers makes
no difference.
-/

namespace StudyCode.EwxPcap

/-- The bytes that read(2) returns at a position; it returns full counts while
data remains. -/
def readFd (f : CaptureFile) (pos n : ℕ) : List UInt8 := (f.bytes.drop pos).take n

/-- `ewx_pcap_read_simple` on a descriptor at a file position: the position
behind the call and its report. A header that was read in part is not reported. -/
def ewxPcapReadSimple (f : CaptureFile) (pos bufLen : ℕ) : ℕ×ReadReport :=
  let raw := readFd f pos sizeofPcaprecHdr
  if raw.length≠sizeofPcaprecHdr then (pos+raw.length,⟨0,none,none,[]⟩)
  else
    let hdr := readPcaprecHdr raw
    let pos := pos+sizeofPcaprecHdr
    if bufLen < hdr.inclLen then (pos+hdr.inclLen,⟨hdr.inclLen,some hdr,none,[]⟩)
    else
      let data := readFd f pos hdr.inclLen
      (pos+data.length,⟨data.length,some hdr,some (.memcpy,data),[]⟩)

/-- Both readers give the same results, call by call, until both return 0. -/
inductive SameUntilEnd (P : Platform) (f : CaptureFile) (bufLen : ℕ) : PcapInfo → ℕ → Prop where
  /-- Both return 0. -/
  | done {s : PcapInfo} {pos : ℕ}
      (same : (ewxPcapRead P f s bufLen).2.result=(ewxPcapReadSimple f pos bufLen).2.result)
      (last : (ewxPcapRead P f s bufLen).2.ret=0) : SameUntilEnd P f bufLen s pos
  /-- Both deliver the same and go on. -/
  | next {s : PcapInfo} {pos : ℕ}
      (same : (ewxPcapRead P f s bufLen).2.result=(ewxPcapReadSimple f pos bufLen).2.result)
      (more : (ewxPcapRead P f s bufLen).2.ret≠0)
      (rest : SameUntilEnd P f bufLen (ewxPcapRead P f s bufLen).1
        (ewxPcapReadSimple f pos bufLen).1) : SameUntilEnd P f bufLen s pos

/-! ## Records of any length -/

/-- A header whose fields stand in a byte order, on the host. -/
def inOrder (e : Endian) (h : PcaprecHdr) : PcaprecHdr :=
  ⟨fieldValue e h.tsSec,fieldValue e h.tsUsec,fieldValue e h.inclLen,fieldValue e h.origLen⟩

/-- A complete record of a file: sixteen octets and as many as they say. -/
structure RawRec (e : Endian) where
  /-- Header octets. -/
  header : List UInt8
  /-- Captured octets. -/
  payload : List UInt8
  /-- Size of a header. -/
  header_length : header.length=sizeofPcaprecHdr
  /-- The record is complete. -/
  incl : (inOrder e (readPcaprecHdr header)).inclLen=payload.length
  /-- Something was captured. -/
  payload_pos : 1 ≤ payload.length

/-- The octets of a record. -/
def RawRec.bytes {e : Endian} (r : RawRec e) : List UInt8 := r.header++r.payload

/-- The header as the host loads it. -/
def RawRec.loaded {e : Endian} (r : RawRec e) : PcaprecHdr := readPcaprecHdr r.header

section Readers

variable {P : Platform} {f : CaptureFile} {s : PcapInfo} {e : Endian} {r : RawRec e}
  {rest : List UInt8} {bufLen : ℕ}

/-- Inside a file that fits the window every request of bytes that follow is
granted where the reader stands. -/
theorem Window.prepare_whole (h : Window P f s) (hm : P.mapSize=2^30)
    (hf : f.bytes.length ≤ P.mapSize) {v : ℕ} (hN : s.pos+v ≤ f.bytes.length) :
    ewxPcapReadPrepare P s (toInt v)=(s,true) ∧ s.pos+v ≤ s.offset+s.length := by
  have hlen := h.length
  have hoff := h.unmoved hf
  have hin : s.pos+v ≤ s.offset+s.length := by omega
  rw [toInt_small (by omega),h.prepare_small (by omega),if_pos hin]
  exact ⟨rfl,hin⟩

/-- The mapped reader delivers the record at its position. -/
theorem Window.read_raw (h : Window P f s) (hm : P.mapSize=2^30) (hf : f.bytes.length ≤ P.mapSize)
    (he : s.endian=e) (hd : f.bytes.drop s.pos=r.bytes++rest) (hb : r.payload.length ≤ bufLen) :
    ∃ s' acc,ewxPcapRead P f s bufLen=
        (s',⟨r.payload.length,some (inOrder e r.loaded),some (.memcpy,r.payload),acc⟩) ∧
      Window P f s' ∧ s'.endian=e ∧ s'.pos=s.pos+r.bytes.length := by
  have hsum : s.pos+(sizeofPcaprecHdr+r.payload.length)+rest.length=f.bytes.length := by
    have hl := congrArg List.length hd
    have hpos := r.payload_pos
    rw [List.length_drop,List.length_append,RawRec.bytes,List.length_append,r.header_length] at hl
    omega
  obtain ⟨h1,k1⟩ := h.prepare_whole hm hf (v:=sizeofPcaprecHdr) (by omega)
  obtain ⟨g1,g2⟩ := h.advance k1
  have hhdr : ewxPcapConvert s (readPcaprecHdr (EwxPcap.load f s s.cPtr sizeofPcaprecHdr))=
      inOrder e r.loaded := by
    rw [h.load,hd,RawRec.bytes,List.append_assoc,List.take_left' r.header_length,
      ewxPcapConvert_eq,he]
    rfl
  have hincl : (inOrder e r.loaded).inclLen=r.payload.length := r.incl
  obtain ⟨h2,k2⟩ := g1.prepare_whole hm hf (v:=r.payload.length) (by rw [g2]; omega)
  obtain ⟨g3,g4⟩ := g1.advance k2
  have hload : EwxPcap.load f {s with cPtr := s.cPtr+sizeofPcaprecHdr}
      (s.cPtr+sizeofPcaprecHdr) r.payload.length=r.payload := by
    rw [g1.load,g2,← List.drop_drop,hd,RawRec.bytes,List.append_assoc,
      List.drop_left' r.header_length,List.take_left]
  rw [← hincl] at h2
  refine ⟨{s with cPtr := s.cPtr+sizeofPcaprecHdr+r.payload.length},
    [accessAt s sizeofPcaprecHdr,
      accessAt {s with cPtr := s.cPtr+sizeofPcaprecHdr} r.payload.length],?_,g3,he,?_⟩
  · unfold ewxPcapRead
    rw [readRecord_of_header h1 hhdr h2,if_pos rfl,hincl,if_neg (by omega),if_neg (by omega),hload]
  · rw [g4,g2,RawRec.bytes,List.length_append,r.header_length]
    omega

/-- Reading a header from the file. -/
theorem readFd_header {pos : ℕ} (hd : f.bytes.drop pos=r.bytes++rest) :
    readFd f pos sizeofPcaprecHdr=r.header := by
  rw [readFd,hd,RawRec.bytes,List.append_assoc,List.take_left' r.header_length]

/-- The descriptor reader reports the header as it stands in the file. -/
theorem simple_hdr {pos : ℕ} (hd : f.bytes.drop pos=r.bytes++rest) :
    (ewxPcapReadSimple f pos bufLen).2.hdr=some r.loaded := by
  rw [ewxPcapReadSimple,readFd_header hd,if_neg (by rw [r.header_length]; simp)]
  dsimp only
  split <;> rfl

/-- When the length reads the same, the descriptor reader delivers the record. -/
theorem simple_raw {pos : ℕ} (hd : f.bytes.drop pos=r.bytes++rest)
    (hb : r.payload.length ≤ bufLen) (hl : r.loaded.inclLen=r.payload.length) :
    ewxPcapReadSimple f pos bufLen=(pos+r.bytes.length,
      ⟨r.payload.length,some r.loaded,some (.memcpy,r.payload),[]⟩) := by
  have hdata : readFd f (pos+sizeofPcaprecHdr) r.payload.length=r.payload := by
    rw [readFd,← List.drop_drop,hd,RawRec.bytes,List.append_assoc,
      List.drop_left' r.header_length,List.take_left]
  have hinc : (readPcaprecHdr r.header).inclLen=r.payload.length := hl
  rw [ewxPcapReadSimple,readFd_header hd,if_neg (by rw [r.header_length]; simp)]
  dsimp only
  rw [hinc,if_neg (by omega),hdata]
  refine Prod.ext ?_ rfl
  rw [RawRec.bytes,List.length_append,r.header_length]
  exact Nat.add_assoc _ _ _

/-- At the end of the file nothing is read. -/
theorem simple_end {pos : ℕ} (hd : f.bytes.drop pos=[]) :
    (ewxPcapReadSimple f pos bufLen).2.result=(0,none,none) := by
  rw [ewxPcapReadSimple,readFd,hd,if_pos (by decide)]
  rfl

/-! ## Agreement -/

/-- Over the records that follow, the readers agree exactly as long as each
header is the same on the host and in the file. -/
theorem Window.sameUntilEnd_iff (h : Window P f s) (hm : P.mapSize=2^30)
    (hf : f.bytes.length ≤ P.mapSize) (he : s.endian=e) {recs : List (RawRec e)}
    (hd : f.bytes.drop s.pos=recs.flatMap RawRec.bytes)
    (hb : ∀ r ∈ recs,r.payload.length ≤ bufLen) :
    SameUntilEnd P f bufLen s s.pos ↔ ∀ r ∈ recs,inOrder e r.loaded=r.loaded := by
  induction recs generalizing s with
  | nil =>
    have hread := h.readRecord_end hd .memcpy bufLen
    refine ⟨fun _ r hr => absurd hr List.not_mem_nil,fun _ => .done ?_ ?_⟩
    · rw [simple_end hd,ewxPcapRead,hread]
      rfl
    · rw [ewxPcapRead,hread]
  | cons r recs ih =>
    rw [List.flatMap_cons] at hd
    have hpos := r.payload_pos
    have hbr := hb r (.head recs)
    obtain ⟨s',acc,hread,hw,he',hp⟩ := h.read_raw hm hf he hd hbr
    have hd' : f.bytes.drop s'.pos=recs.flatMap RawRec.bytes := by
      rw [hp,← List.drop_drop,hd,List.drop_left]
    have ih' := ih hw he' hd' fun x hx => hb x (.tail r hx)
    have hmore : (ewxPcapRead P f s bufLen).2.ret≠0 := by
      rw [hread]
      dsimp only
      omega
    rw [List.forall_mem_cons]
    constructor
    · intro hsame
      cases hsame with
      | done same last => exact absurd last hmore
      | next same more hrest =>
        have hhdr : inOrder e r.loaded=r.loaded := by
          have heq := congrArg (fun x => x.2.1) same
          rw [hread] at heq
          exact Option.some.inj (heq.trans (simple_hdr hd))
        have hlen : r.loaded.inclLen=r.payload.length := by
          rw [← hhdr]
          exact r.incl
        rw [hread,simple_raw hd hbr hlen] at hrest
        dsimp only at hrest
        rw [← hp] at hrest
        exact ⟨hhdr,ih'.mp hrest⟩
    · rintro ⟨hhdr,hall⟩
      have hlen : r.loaded.inclLen=r.payload.length := by
        rw [← hhdr]
        exact r.incl
      refine .next ?_ hmore ?_
      · rw [hread,simple_raw hd hbr hlen,hhdr]
        rfl
      · rw [hread,simple_raw hd hbr hlen]
        dsimp only
        rw [← hp]
        exact ih'.mpr hall

end Readers

/-- The headers of a big-endian capture are in order when they read the same both ways. -/
theorem inOrder_all_iff (e : Endian) (recs : List (RawRec e)) :
    (∀ r ∈ recs,inOrder e r.loaded=r.loaded) ↔
      e=.little ∨ ∀ r ∈ recs,inOrder .big r.loaded=r.loaded := by
  cases e with
  | little => exact ⟨fun _ => .inl rfl,fun _ r _ => rfl⟩
  | big => simp

/-- On a file that opens and fits the window, both readers agree exactly when
the file is in host order or every header reads the same in both orders. -/
theorem sameUntilEnd_iff_headers (P : Platform) (hm : P.mapSize=2^30) (f : CaptureFile)
    (hf : f.bytes.length ≤ P.mapSize) (s : PcapInfo) (hs : ewxPcapOpen P f=some s)
    (recs : List (RawRec s.endian)) (hd : f.bytes.drop 24=recs.flatMap RawRec.bytes) (bufLen : ℕ)
    (hb : ∀ r ∈ recs,r.payload.length ≤ bufLen) :
    SameUntilEnd P f bufLen s 24 ↔
      s.endian=.little ∨ ∀ r ∈ recs,inOrder .big r.loaded=r.loaded := by
  obtain ⟨hw,-,hpos⟩ := ewxPcapOpen_window hs
  have hiff := hw.sameUntilEnd_iff hm hf rfl (by rw [hpos]; exact hd) hb
  rw [hpos] at hiff
  exact hiff.trans (inOrder_all_iff s.endian recs)

/-- The octets of a capture with one record of one octet whose length field is
given. -/
def oneOctetBytes (magic incl : List UInt8) : List UInt8 :=
  magic++List.replicate 20 0++[0,0,0,0,0,0,0,0]++incl++incl++[7]

/-- A capture in network order. -/
def networkOrderFile : CaptureFile := ⟨oneOctetBytes [0xa1,0xb2,0xc3,0xd4] [0,0,0,1],by decide⟩

/-- The same capture in host order. -/
def hostOrderFile : CaptureFile := ⟨oneOctetBytes [0xd4,0xc3,0xb2,0xa1] [1,0,0,0],by decide⟩

/-- The record of the capture in host order. -/
def hostOrderRec : RawRec .little where
  header := [0,0,0,0,0,0,0,0,1,0,0,0,1,0,0,0]
  payload := [7]
  header_length := rfl
  incl := by decide
  payload_pos := by decide

/-- The reader on the capture in host order. -/
def hostOrderInfo : PcapInfo where
  endian := .little
  ptr := 2^46
  cPtr := 2^46+24
  offset := 0
  length := 41
  fileLen := 41
  info := readPcapHdr hostOrderFile
  mapped := 0
  maps := 1

/-- In host order both readers agree. -/
theorem sameUntilEnd_hostOrder : ewxPcapOpen pagePlatform hostOrderFile=some hostOrderInfo ∧
    SameUntilEnd pagePlatform hostOrderFile 65535 hostOrderInfo 24 := by
  have hopen : ewxPcapOpen pagePlatform hostOrderFile=some hostOrderInfo := rfl
  refine ⟨hopen,?_⟩
  exact (sameUntilEnd_iff_headers pagePlatform rfl hostOrderFile (by decide) hostOrderInfo hopen
    [hostOrderRec] rfl 65535 (by decide)).mpr (.inl rfl)

/-- In network order the mapped reader delivers one octet where the descriptor
reader skips 16777216. -/
theorem networkOrder_differs : ∃ s,ewxPcapOpen pagePlatform networkOrderFile=some s ∧
    (ewxPcapRead pagePlatform networkOrderFile s 65535).2.ret=1 ∧
    (ewxPcapReadSimple networkOrderFile 24 65535).2.ret=16777216 ∧
    ¬SameUntilEnd pagePlatform networkOrderFile 65535 s 24 := by
  obtain ⟨s,hs⟩ : ∃ s,ewxPcapOpen pagePlatform networkOrderFile=some s :=
    ewxPcapOpen_isSome (by decide +kernel) (by decide +kernel) (by decide +kernel)
  have hmapped : (ewxPcapOpen pagePlatform networkOrderFile).map
      (fun s => (ewxPcapRead pagePlatform networkOrderFile s 65535).2.ret)=some 1 := by
    decide +kernel
  rw [hs] at hmapped
  have h1 : (ewxPcapRead pagePlatform networkOrderFile s 65535).2.ret=1 := Option.some.inj hmapped
  have h2 : (ewxPcapReadSimple networkOrderFile 24 65535).2.ret=16777216 := by decide +kernel
  refine ⟨s,hs,h1,h2,?_⟩
  have hne : (ewxPcapRead pagePlatform networkOrderFile s 65535).2.result≠
      (ewxPcapReadSimple networkOrderFile 24 65535).2.result := by
    intro he
    have := congrArg Prod.fst he
    dsimp only [ReadReport.result] at this
    omega
  intro h
  cases h with
  | done same last => exact hne same
  | next same more rest => exact hne same

end StudyCode.EwxPcap
