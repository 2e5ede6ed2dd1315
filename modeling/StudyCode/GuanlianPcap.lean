import Mathlib
import StudyCode.GuanlianErr

/-!
# Splitting a capture file into hex texts

`decode_pkt` walks over the records of a capture file and turns the bytes of
each record into text with `display_hex`. Each record header holds two lengths,
the number of stored bytes and the original length of the packet. The walk goes
by the second one, so that a packet of which not all bytes are stored carries it
into the next record.
-/

namespace StudyCode.GuanlianPcap

open GuanlianErr

/-! ## Text of bytes -/

/-- `hex(n)`. -/
def pyHex (n : ℕ) : Text := ['0','x']++Nat.toDigits 16 n

/-- `s.replace(old,new)` for an old text of two characters. -/
def pyReplace (a b : Char) (new : Text) : Text → Text
  | [] => []
  | [c] => [c]
  | c::x::r => if c=a ∧ x=b then new++pyReplace a b new r else c::pyReplace a b new (x::r)

/-- The text of one byte before the last replacement. -/
def displayByte (j : UInt8) : Text :=
  let temp := pyHex j.toNat
  if temp.length=3 then pyReplace '0' 'x' ['0','x','0'] temp else temp

/-- `display_hex`. -/
def displayHex (frame : List UInt8) : Text :=
  pyReplace '0' 'x' [' '] (frame.foldl (fun hexStr j => hexStr++displayByte j) [])

/-- A space and the two hexadecimal digits of a byte. -/
def hexPair (b : UInt8) : Text := [' ',Nat.digitChar (b.toNat/16),Nat.digitChar (b.toNat%16)]

/-- A character whose successor does not end the old text is kept. -/
theorem pyReplace_cons {a b c : Char} {new r : Text} (h : r.head? ≠ some b) :
    pyReplace a b new (c::r)=c::pyReplace a b new r := by
  cases r with
  | nil => rfl
  | cons x r =>
    have hx : ¬(c=a ∧ x=b) := by
      rintro ⟨-,rfl⟩
      exact h rfl
    rw [pyReplace,if_neg hx]

/-- A digit is not an x. -/
theorem digitChar_ne_x {n : ℕ} (h : n < 16) : Nat.digitChar n ≠ 'x' := by
  interval_cases n <;> decide

/-- Every byte has a mark and two digits. -/
theorem displayByte_eq (b : UInt8) :
    displayByte b=['0','x',Nat.digitChar (b.toNat/16),Nat.digitChar (b.toNat%16)] := by
  have hlt : b.toNat < 256 := b.toNat_lt
  rcases Nat.lt_or_ge b.toNat 16 with hsmall|hlarge
  · have hdigits : Nat.toDigits 16 b.toNat=[Nat.digitChar b.toNat] := Nat.toDigits_of_lt_base hsmall
    rw [displayByte,pyHex,hdigits,Nat.div_eq_of_lt hsmall,Nat.mod_eq_of_lt hsmall]
    rfl
  · have hdigits : Nat.toDigits 16 b.toNat=
        [Nat.digitChar (b.toNat/16),Nat.digitChar (b.toNat%16)] := by
      rw [Nat.toDigits_of_base_le (by norm_num) hlarge,Nat.toDigits_of_lt_base (by omega)]
      rfl
    rw [displayByte,pyHex,hdigits]
    rfl

/-- The text is built byte by byte. -/
theorem foldl_displayByte (frame : List UInt8) (acc : Text) :
    frame.foldl (fun hexStr j => hexStr++displayByte j) acc=acc++frame.flatMap displayByte := by
  induction frame generalizing acc with
  | nil => simp
  | cons b frame ih => rw [List.foldl_cons,ih,List.flatMap_cons,List.append_assoc]

/-- The texts of bytes begin with a zero. -/
theorem head_flatMap_displayByte (frame : List UInt8) :
    (frame.flatMap displayByte).head? ≠ some 'x' := by
  cases frame with
  | nil => simp
  | cons b frame =>
    rw [List.flatMap_cons,displayByte_eq]
    simp

/-- The last replacement meets the mark of each byte and nothing else. -/
theorem displayHex_eq (frame : List UInt8) : displayHex frame=frame.flatMap hexPair := by
  rw [displayHex,foldl_displayByte,List.nil_append]
  induction frame with
  | nil => rfl
  | cons b frame ih =>
    have hlow : (Nat.digitChar (b.toNat%16)::frame.flatMap displayByte).head? ≠ some 'x' := by
      rw [List.head?_cons,Ne,Option.some.injEq]
      exact digitChar_ne_x (Nat.mod_lt _ (by norm_num))
    rw [List.flatMap_cons,List.flatMap_cons,displayByte_eq,List.cons_append,List.cons_append,
      List.cons_append,List.cons_append,List.nil_append,pyReplace,if_pos ⟨rfl,rfl⟩,
      pyReplace_cons hlow,pyReplace_cons (head_flatMap_displayByte frame),ih]
    rfl

/-- Three characters for each byte. -/
theorem displayHex_length (frame : List UInt8) : (displayHex frame).length=3*frame.length := by
  rw [displayHex_eq]
  induction frame with
  | nil => rfl
  | cons b frame ih =>
    rw [List.flatMap_cons,List.length_append,ih,List.length_cons,hexPair,List.length_cons,
      List.length_cons,List.length_singleton]
    omega

/-! ## The walk -/

/-- The exception of `unpack`. -/
inductive StructError where
  /-- A text that does not have the size of the value. -/
  | size
deriving DecidableEq,Repr

/-- `data[a:b]` for bounds that are not negative. -/
def slice (data : List UInt8) (a b : ℕ) : List UInt8 := (data.take b).drop a

/-- `unpack('I',s)[0]` with the lowest byte first. -/
def unpackI : List UInt8 → Except StructError ℕ
  | [a,b,c,d] => .ok (a.toNat+256*b.toNat+65536*c.toNat+16777216*d.toNat)
  | _ => .error .size

/-- `while (offset<len(data))`; of the header fields only `len` is used. -/
def decodeFrom (data : List UInt8) (offset : ℕ) (pktData : List Text) :
    Except StructError (List Text) :=
  if offset < data.length then
    match unpackI (slice data (offset+12) (offset+16)) with
    | .error e => .error e
    | .ok pktLen =>
      decodeFrom data (offset+pktLen+16)
        (pktData++[displayHex (slice data (offset+16) (offset+16+pktLen))])
  else .ok pktData
termination_by data.length-offset

/-- `decode_pkt`. -/
def decodePkt (data : List UInt8) : Except StructError (List Text) := decodeFrom data 24 []

/-- At the end of the data nothing is added. -/
theorem decodeFrom_end {data : List UInt8} {offset : ℕ} (h : data.length ≤ offset)
    (acc : List Text) : decodeFrom data offset acc=.ok acc := by
  rw [decodeFrom,if_neg (by omega)]

/-- A record is added and the next begins behind it. -/
theorem decodeFrom_next {data : List UInt8} {offset n : ℕ} (h : offset < data.length)
    (hn : unpackI (slice data (offset+12) (offset+16))=.ok n) (acc : List Text) :
    decodeFrom data offset acc=decodeFrom data (offset+n+16)
      (acc++[displayHex (slice data (offset+16) (offset+16+n))]) := by
  rw [decodeFrom,if_pos h,hn]

/-- What has been collected stays in front. -/
theorem decodeFrom_prefix (data : List UInt8) (offset : ℕ) (acc : List Text) {out : List Text}
    (h : decodeFrom data offset acc=.ok out) : ∃ more,out=acc++more := by
  induction offset,acc using decodeFrom.induct data with
  | case1 offset acc hlt e he =>
    rw [decodeFrom,if_pos hlt,he] at h
    cases h
  | case2 offset acc hlt n hn ih =>
    rw [decodeFrom_next hlt hn] at h
    obtain ⟨more,rfl⟩ := ih h
    exact ⟨_,List.append_assoc ..⟩
  | case3 offset acc hge =>
    rw [decodeFrom_end (by omega)] at h
    cases h
    exact ⟨[],(List.append_nil _).symm⟩

/-! ## Records -/

/-- A number as four bytes, the lowest first. -/
def le32 (n : ℕ) : List UInt8 :=
  [UInt8.ofNat n,UInt8.ofNat (n/256),UInt8.ofNat (n/65536),UInt8.ofNat (n/16777216)]

/-- A length that was packed is unpacked. -/
theorem unpackI_le32 {n : ℕ} (h : n < 2^32) : unpackI (le32 n)=.ok n := by
  rw [le32,unpackI]
  simp only [UInt8.toNat_ofNat',Except.ok.injEq]
  omega

/-- A complete record of a capture file. -/
structure Record where
  /-- Seconds. -/
  gmtTime : List UInt8
  /-- Microseconds. -/
  microTime : List UInt8
  /-- Original length of the packet. -/
  len : ℕ
  /-- The stored bytes; their number is the `caplen` field. -/
  stored : List UInt8
  /-- The seconds have four bytes. -/
  gmtTime_length : gmtTime.length=4
  /-- The microseconds have four bytes. -/
  microTime_length : microTime.length=4
  /-- The original length is a 32-bit number. -/
  len_lt : len < 2^32
  /-- Not more bytes are stored than the packet has. -/
  stored_le : stored.length ≤ len

namespace Record

/-- The 16 bytes in front of the stored ones. -/
def header (r : Record) : List UInt8 :=
  r.gmtTime++r.microTime++le32 r.stored.length++le32 r.len

/-- The record as it stands in the file. -/
def bytes (r : Record) : List UInt8 := r.header++r.stored

/-- All bytes of the packet are stored. -/
def Whole (r : Record) : Prop := r.len=r.stored.length

/-- The header of a record. -/
theorem header_length (r : Record) : r.header.length=16 := by
  simp [header,r.gmtTime_length,r.microTime_length,le32]

end Record

/-- Bytes of a text that consists of three parts. -/
theorem slice_middle (a b c : List UInt8) (n : ℕ) :
    slice (a++b++c) a.length (a.length+n)=(b++c).take n := by
  rw [slice,List.append_assoc,List.take_length_add_append,List.drop_left]

section Walk

variable {pre rest : List UInt8} {r : Record}

/-- Where the length of a record stands. -/
theorem slice_len (pre rest : List UInt8) (r : Record) :
    slice (pre++r.bytes++rest) (pre.length+12) (pre.length+16)=le32 r.len := by
  have hsplit : pre++r.bytes++rest=
      (pre++r.gmtTime++r.microTime++le32 r.stored.length)++le32 r.len++(r.stored++rest) := by
    simp [Record.bytes,Record.header]
  have hlen : (pre++r.gmtTime++r.microTime++le32 r.stored.length).length=pre.length+12 := by
    simp [r.gmtTime_length,r.microTime_length,le32]
  have hmid := slice_middle (pre++r.gmtTime++r.microTime++le32 r.stored.length) (le32 r.len)
    (r.stored++rest) 4
  rw [hlen,←hsplit,List.take_left' (show (le32 r.len).length=4 from rfl)] at hmid
  exact hmid

/-- Where the bytes of a record stand. -/
theorem slice_stored (pre rest : List UInt8) (r : Record) (n : ℕ) :
    slice (pre++r.bytes++rest) (pre.length+16) (pre.length+16+n)=(r.stored++rest).take n := by
  have hsplit : pre++r.bytes++rest=(pre++r.header)++r.stored++rest := by simp [Record.bytes]
  have hlen : (pre++r.header).length=pre.length+16 := by rw [List.length_append,r.header_length]
  have hmid := slice_middle (pre++r.header) r.stored rest n
  rw [hlen,←hsplit] at hmid
  exact hmid

/-- One turn at the beginning of a record. -/
theorem decodeFrom_record (pre rest : List UInt8) (r : Record) (acc : List Text) :
    decodeFrom (pre++r.bytes++rest) pre.length acc=
      decodeFrom (pre++r.bytes++rest) (pre.length+r.len+16)
        (acc++[displayHex ((r.stored++rest).take r.len)]) := by
  have hlt : pre.length < (pre++r.bytes++rest).length := by
    rw [List.length_append,List.length_append,Record.bytes,List.length_append,r.header_length]
    omega
  have hn : unpackI (slice (pre++r.bytes++rest) (pre.length+12) (pre.length+16))=.ok r.len := by
    rw [slice_len,unpackI_le32 r.len_lt]
  rw [decodeFrom_next hlt hn,slice_stored]

/-- A whole record is left at the beginning of the next one. -/
theorem decodeFrom_whole (h : r.Whole) (acc : List Text) :
    decodeFrom (pre++r.bytes++rest) pre.length acc=
      decodeFrom (pre++r.bytes++rest) (pre++r.bytes).length (acc++[displayHex r.stored]) := by
  have hlen : pre.length+r.len+16=(pre++r.bytes).length := by
    rw [List.length_append,Record.bytes,List.length_append,r.header_length,h]
    omega
  rw [decodeFrom_record,hlen,h,List.take_left' rfl]

/-- The last record ends with the file, whatever its original length. -/
theorem decodeFrom_last (pre : List UInt8) (r : Record) (acc : List Text) :
    decodeFrom (pre++r.bytes++[]) pre.length acc=.ok (acc++[displayHex r.stored]) := by
  have hle := r.stored_le
  rw [decodeFrom_record,List.append_nil,List.append_nil,List.take_of_length_le hle]
  refine decodeFrom_end ?_ _
  rw [List.length_append,Record.bytes,List.length_append,r.header_length]
  omega

/-- A record that is not whole takes bytes of what follows it. -/
theorem decodeFrom_snapped (pre : List UInt8) (h : ¬r.Whole) (hrest : rest ≠ []) (acc more : List Text) :
    decodeFrom (pre++r.bytes++rest) pre.length acc ≠ .ok (acc++displayHex r.stored::more) := by
  intro hok
  rw [decodeFrom_record] at hok
  obtain ⟨tail,htail⟩ := decodeFrom_prefix _ _ _ hok
  rw [List.append_assoc,List.append_cancel_left_eq,List.singleton_append,List.cons.injEq] at htail
  have hlen := congrArg List.length htail.1
  have hle := r.stored_le
  have hpos : 0 < rest.length := List.length_pos_iff.mpr hrest
  rw [Record.Whole] at h
  rw [displayHex_length,displayHex_length,List.length_take,List.length_append] at hlen
  omega

end Walk

/-- The records of a file as it should be split. -/
def texts (recs : List Record) : List Text := recs.map fun r => displayHex r.stored

/-- The walk is right if and only if all records but the last are whole. -/
theorem decodeFrom_eq_iff (recs : List Record) (pre : List UInt8) (acc : List Text) :
    decodeFrom (pre++recs.flatMap Record.bytes) pre.length acc=.ok (acc++texts recs) ↔
      ∀ r ∈ recs.dropLast,r.Whole := by
  induction recs generalizing pre acc with
  | nil =>
    rw [List.flatMap_nil,List.append_nil,decodeFrom_end le_rfl]
    simp [texts]
  | cons r recs ih =>
    rw [List.flatMap_cons,←List.append_assoc]
    cases recs with
    | nil =>
      rw [List.flatMap_nil,decodeFrom_last]
      simp [texts]
    | cons q recs =>
      rw [List.dropLast_cons_cons,List.forall_mem_cons]
      by_cases hwhole : r.Whole
      · rw [decodeFrom_whole hwhole,←ih (pre++r.bytes) (acc++[displayHex r.stored])]
        simp [texts,hwhole]
      · have hrest : (q::recs).flatMap Record.bytes ≠ [] := by
          intro hnil
          have hlen := congrArg List.length hnil
          rw [List.flatMap_cons,List.length_append,Record.bytes,List.length_append,
            q.header_length,List.length_nil] at hlen
          omega
        have hbad := decodeFrom_snapped pre hwhole hrest acc (texts (q::recs))
        exact ⟨fun hok => absurd hok hbad,fun h => absurd h.1 hwhole⟩

/-! ## The whole file -/

/-- The file is split into its records, and texts of bytes are made of pairs. -/
def Splits (header : List UInt8) (recs : List Record) : Prop :=
  decodePkt (header++recs.flatMap Record.bytes)=.ok (texts recs) ∧
    ∀ frame,displayHex frame=frame.flatMap hexPair

/-- The data split rightly exactly when all records but the last are whole. -/
theorem splits_iff_whole {header : List UInt8} (h : header.length=24) (recs : List Record) :
    Splits header recs ↔ ∀ r ∈ recs.dropLast,r.Whole := by
  have hiff := decodeFrom_eq_iff recs header []
  rw [h,List.nil_append] at hiff
  exact (and_iff_left displayHex_eq).trans hiff

/-- A file is split into its records if and only if no packet but the last has
been cut when it was stored. -/
theorem decodePkt_splits_iff (header : List UInt8) (hheader : header.length=24)
    (recs : List Record) : Splits header recs ↔ ∀ r ∈ recs.dropLast,r.len=r.stored.length :=
  splits_iff_whole hheader recs

/-- A record of one stored byte. -/
def oneByte (len : ℕ) (hlow : 1 ≤ len) (hhigh : len < 2^32) : Record where
  gmtTime := [0,0,0,0]
  microTime := [0,0,0,0]
  len := len
  stored := [0xab]
  gmtTime_length := rfl
  microTime_length := rfl
  len_lt := hhigh
  stored_le := hlow

/-- A whole record in front of one that was cut. -/
theorem decodePkt_splits_last_cut :
    (List.replicate 24 (0 : UInt8)).length=24 ∧
      Splits (List.replicate 24 0) [oneByte 1 le_rfl (by norm_num),oneByte 2 one_le_two (by norm_num)] := by
  refine ⟨rfl,(decodePkt_splits_iff _ rfl _).mpr ?_⟩
  intro r hr
  obtain rfl := List.mem_singleton.mp hr
  rfl

/-- A cut record in front of another one. -/
theorem decodePkt_first_cut :
    (List.replicate 24 (0 : UInt8)).length=24 ∧
      ¬Splits (List.replicate 24 0) [oneByte 2 one_le_two (by norm_num),oneByte 1 le_rfl (by norm_num)] := by
  refine ⟨rfl,?_⟩
  rw [splits_iff_whole rfl]
  intro h
  have hwhole : (2 : ℕ)=1 := h (oneByte 2 one_le_two (by norm_num)) (List.mem_singleton_self _)
  omega

end StudyCode.GuanlianPcap
