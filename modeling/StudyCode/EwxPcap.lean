import Mathlib.Data.List.Basic
import Mathlib.Tactic

/-!
# The memory-mapped capture reader

The reader keeps a window of the capture file mapped and slides it ahead
when a record does not fit. Fields of the C structure are naturals below
2^64 with the wrap-around of the source written out; the record length is
narrowed to a signed 32-bit value and widened again as the source does.
Addresses come from the operating system, and every range that is read or
handed out is kept in the report of the call. The host is little endian.
-/

namespace StudyCode.EwxPcap

/-- Constants of the platform and the addresses at which maps are placed. -/
structure Platform where
  /-- Size of the window. -/
  mapSize : ℕ
  /-- Page size of the system. -/
  pageSize : ℕ
  /-- Address of the n-th map; mapping always succeeds. -/
  mmap64 : ℕ → ℕ
  /-- A page is not empty. -/
  page_pos : 0 < pageSize
  /-- The window holds at least the file header. -/
  map_ge : 24 ≤ mapSize
  /-- The window size is a positive signed 64-bit number. -/
  map_lt : mapSize < 2^63

/-- A capture file; its size fits the signed file size of the system. -/
structure CaptureFile where
  /-- Contents. -/
  bytes : List UInt8
  /-- Bound on the file size. -/
  size_lt : bytes.length < 2^63

/-- Sum of two unsigned 64-bit values. -/
def add64 (a b : ℕ) : ℕ := if a+b < 2^64 then a+b else a+b-2^64

/-- Difference of two unsigned 64-bit values. -/
def sub64 (a b : ℕ) : ℕ := if b ≤ a then a-b else a+2^64-b

/-- Conversion of an unsigned 32-bit value to int. -/
def toInt (v : ℕ) : ℤ := if v < 2^31 then v else v-2^32

/-- Conversion of an int to an unsigned 64-bit value. -/
def toU64 (v : ℤ) : ℕ := if 0 ≤ v then v.toNat else (v+2^64).toNat

/-- The byte orders of a capture file. -/
inductive Endian where
  /-- Least significant byte first, as the host. -/
  | little
  /-- Most significant byte first. -/
  | big
  deriving DecidableEq

/-- Little-endian 32-bit field at a position of a buffer. -/
def le32 (bs : List UInt8) (i : ℕ) : ℕ :=
  (bs.getD i 0).toNat+2^8*(bs.getD (i+1) 0).toNat+2^16*(bs.getD (i+2) 0).toNat+
    2^24*(bs.getD (i+3) 0).toNat

/-- Little-endian 16-bit field at a position of a buffer. -/
def le16 (bs : List UInt8) (i : ℕ) : ℕ := (bs.getD i 0).toNat+2^8*(bs.getD (i+1) 0).toNat

/-- Byte reversal of a 32-bit value. -/
def ntohl (v : ℕ) : ℕ := 2^24*(v%2^8)+2^16*(v/2^8%2^8)+2^8*(v/2^16%2^8)+v/2^24%2^8

/-- Byte reversal of a 16-bit value. -/
def ntohs (v : ℕ) : ℕ := 2^8*(v%2^8)+v/2^8%2^8

/-- The magic number of capture files. -/
def ewxMagicNumber : ℕ := 0xa1b2c3d4

/-- The file header. -/
structure PcapHdr where
  /-- Magic number. -/
  magicNumber : ℕ
  /-- Major version. -/
  versionMajor : ℕ
  /-- Minor version. -/
  versionMinor : ℕ
  /-- Time zone correction. -/
  thiszone : ℕ
  /-- Accuracy of timestamps. -/
  sigfigs : ℕ
  /-- Largest captured length. -/
  snaplen : ℕ
  /-- Data link type. -/
  network : ℕ

/-- The header of one record. -/
structure PcaprecHdr where
  /-- Timestamp seconds. -/
  tsSec : ℕ
  /-- Timestamp microseconds. -/
  tsUsec : ℕ
  /-- Number of octets saved in the file. -/
  inclLen : ℕ
  /-- Length of the packet on the wire. -/
  origLen : ℕ
  deriving DecidableEq

/-- The reader's fields, and what the system knows of its map. -/
structure PcapInfo where
  /-- Byte order found in the file. -/
  endian : Endian
  /-- Start of the mapped window. -/
  ptr : ℕ
  /-- Read position inside the window. -/
  cPtr : ℕ
  /-- File offset of the window as the reader records it. -/
  offset : ℕ
  /-- Length of the window. -/
  length : ℕ
  /-- Length of the file. -/
  fileLen : ℕ
  /-- File header in host order. -/
  info : PcapHdr
  /-- File offset that the map at the window start was made with. -/
  mapped : ℕ
  /-- Maps made so far. -/
  maps : ℕ

/-- Size of the file header. -/
def sizeofPcapHdr : ℕ := 24

/-- Size of a record header. -/
def sizeofPcaprecHdr : ℕ := 16

/-- Bytes found from an address on. Inside the window these are the bytes of
the file behind it; outside of it the access is reported by its range. -/
def load (f : CaptureFile) (s : PcapInfo) (a n : ℕ) : List UInt8 :=
  (f.bytes.drop (s.mapped+(a-s.ptr))).take n

/-- Map a window that starts at the page of the recorded offset. -/
def ewxPrereadFile (P : Platform) (s : PcapInfo) : PcapInfo :=
  let delta := s.offset%P.pageSize
  let offset := s.offset-delta
  let len := if add64 P.mapSize offset ≤ s.fileLen then P.mapSize else sub64 s.fileLen offset
  {s with
    offset := offset,
    ptr := P.mmap64 s.maps,
    length := len,
    cPtr := P.mmap64 s.maps+delta,
    mapped := offset,
    maps := s.maps+1}

/-- File header as read into host memory. -/
def readPcapHdr (f : CaptureFile) : PcapHdr where
  magicNumber := le32 f.bytes 0
  versionMajor := le16 f.bytes 4
  versionMinor := le16 f.bytes 6
  thiszone := le32 f.bytes 8
  sigfigs := le32 f.bytes 12
  snaplen := le32 f.bytes 16
  network := le32 f.bytes 20

/-- File header of the opposite byte order, converted. -/
def swapPcapHdr (h : PcapHdr) : PcapHdr where
  magicNumber := ntohl h.magicNumber
  versionMajor := ntohs h.versionMajor
  versionMinor := ntohs h.versionMinor
  thiszone := ntohl h.thiszone
  sigfigs := ntohl h.sigfigs
  snaplen := ntohl h.snaplen
  network := ntohl h.network

/-- Open a capture file: check its header, map the first window and stand
behind the header. -/
def ewxPcapOpen (P : Platform) (f : CaptureFile) : Option PcapInfo :=
  if P.mapSize < P.pageSize then none
  else if f.bytes.length < sizeofPcapHdr then none
  else
    let info := readPcapHdr f
    if info.magicNumber≠ewxMagicNumber ∧ info.magicNumber≠ntohl ewxMagicNumber then none
    else
      let swapped := info.magicNumber=ntohl ewxMagicNumber
      let s := ewxPrereadFile P
        { endian := if swapped then .big else .little,
          ptr := 0,
          cPtr := 0,
          offset := 0,
          length := 0,
          fileLen := f.bytes.length,
          info := if swapped then swapPcapHdr info else info,
          mapped := 0,
          maps := 0 }
      some {s with cPtr := s.ptr+sizeofPcapHdr}

/-- Go back to the first record. A file that fits one window is not mapped
again. -/
def ewxPcapRewind (P : Platform) (s : PcapInfo) : PcapInfo :=
  if s.fileLen ≤ P.mapSize then {s with offset := 0,cPtr := s.ptr+sizeofPcapHdr}
  else
    let s' := ewxPrereadFile P {s with offset := 0,length := 0,ptr := 0,cPtr := 0}
    {s' with cPtr := s'.ptr+sizeofPcapHdr}

/-- Record header as it stands in memory. -/
def readPcaprecHdr (bs : List UInt8) : PcaprecHdr := ⟨le32 bs 0,le32 bs 4,le32 bs 8,le32 bs 12⟩

/-- Bring a record header to host order. -/
def ewxPcapConvert (s : PcapInfo) (h : PcaprecHdr) : PcaprecHdr :=
  if s.endian=.big then ⟨ntohl h.tsSec,ntohl h.tsUsec,ntohl h.inclLen,ntohl h.origLen⟩ else h

/-- Make a number of bytes available at the read position; the flag tells
whether they are. -/
def ewxPcapReadPrepare (P : Platform) (s : PcapInfo) (len : ℤ) : PcapInfo×Bool :=
  let tmp := sub64 s.cPtr s.ptr
  if toU64 len ≤ sub64 s.length tmp then (s,true)
  else if s.fileLen ≤ add64 (add64 s.offset tmp) (toU64 len) then (s,false)
  else (ewxPrereadFile P {s with offset := add64 s.offset tmp},true)

/-- A range of addresses that the reader uses, with the window at that time. -/
structure Access where
  /-- First address. -/
  addr : ℕ
  /-- Number of bytes. -/
  size : ℕ
  /-- Start of the window. -/
  ptr : ℕ
  /-- Length of the window. -/
  length : ℕ

/-- The range lies inside the window. -/
def Access.inside (a : Access) : Prop := a.ptr ≤ a.addr ∧ a.addr+a.size ≤ a.ptr+a.length

/-- The two ways to give a payload to the caller. -/
inductive Delivery where
  /-- Copy it to the caller's buffer. -/
  | memcpy
  /-- Return its address in the window. -/
  | pointer
  deriving DecidableEq

/-- Outcome of a read. -/
structure ReadReport where
  /-- Return value, 0 when no record was read. -/
  ret : ℕ
  /-- Header stored for the caller. -/
  hdr : Option PcaprecHdr
  /-- Payload given to the caller and the way it was given. -/
  payload : Option (Delivery×List UInt8)
  /-- All ranges copied from or handed out. -/
  accesses : List Access

/-- The range of a number of bytes at the read position. -/
def accessAt (s : PcapInfo) (n : ℕ) : Access := ⟨s.cPtr,n,s.ptr,s.length⟩

/-- Read one record. A record longer than the caller's buffer is skipped. -/
def readRecord (d : Delivery) (P : Platform) (f : CaptureFile) (s : PcapInfo) (bufLen : ℕ) :
    PcapInfo×ReadReport :=
  match ewxPcapReadPrepare P s sizeofPcaprecHdr with
  | (s1,false) => (s1,⟨0,none,none,[]⟩)
  | (s1,true) =>
    let hdr := ewxPcapConvert s1 (readPcaprecHdr (load f s1 s1.cPtr sizeofPcaprecHdr))
    let a1 := accessAt s1 sizeofPcaprecHdr
    let s2 := {s1 with cPtr := s1.cPtr+sizeofPcaprecHdr}
    if bufLen < hdr.inclLen then
      match ewxPcapReadPrepare P s2 (toInt hdr.inclLen) with
      | (s3,false) => (s3,⟨0,some hdr,none,[a1]⟩)
      | (s3,true) =>
        ({s3 with cPtr := s3.cPtr+hdr.inclLen},⟨hdr.inclLen,some hdr,none,[a1]⟩)
    else
      match ewxPcapReadPrepare P s2 (toInt hdr.inclLen) with
      | (s3,false) => (s3,⟨0,some hdr,none,[a1]⟩)
      | (s3,true) =>
        ({s3 with cPtr := s3.cPtr+hdr.inclLen},⟨hdr.inclLen,some hdr,
          some (d,load f s3 s3.cPtr hdr.inclLen),[a1,accessAt s3 hdr.inclLen]⟩)

/-- Read one record into the caller's buffer. -/
def ewxPcapRead : Platform → CaptureFile → PcapInfo → ℕ → PcapInfo×ReadReport :=
  readRecord .memcpy

/-- Read one record and hand out its address. -/
def ewxPcapRead2 : Platform → CaptureFile → PcapInfo → ℕ → PcapInfo×ReadReport :=
  readRecord .pointer

/-- Calls on an open reader. -/
inductive Call where
  /-- Read with a copy. -/
  | read (bufLen : ℕ)
  /-- Read in place. -/
  | read2 (bufLen : ℕ)
  /-- Start over. -/
  | rewind

/-- Execute one call. A rewind reports nothing. -/
def call (P : Platform) (f : CaptureFile) (s : PcapInfo) : Call → PcapInfo×ReadReport
  | .read bufLen => ewxPcapRead P f s bufLen
  | .read2 bufLen => ewxPcapRead2 P f s bufLen
  | .rewind => (ewxPcapRewind P s,⟨0,none,none,[]⟩)

end StudyCode.EwxPcap
