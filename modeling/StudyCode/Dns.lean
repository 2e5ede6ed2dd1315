import Mathlib.Data.List.Basic
import Mathlib.Tactic

/-!
# Names and answers of a DNS response

A name is converted with a read cursor in the message, a write cursor in a
block from malloc, and a counter. The cursors are offsets from the start of
the message and of the block. Every range that is read in the message and
written in the block is recorded, with the place from which the block is
copied and freed. The message is followed by arbitrary memory. What is printed
is left out, but the texts that printf reads for it are recorded.
-/

namespace StudyCode.Dns

/-- Memory from a start on. -/
abbrev Memory := ℕ → UInt8

/-- A range of memory: its start and its length. -/
abbrev Range := ℕ × ℕ

/-- PA_FPE_L7_DNS_URL_MAX_LENGTH. -/
def urlMaxLength : ℕ := 260

/-- Big-endian 16-bit number. -/
def be16 (mem : Memory) (o : ℕ) : ℕ := (mem o).toNat*256+(mem (o+1)).toNat

/-- Big-endian 32-bit number. -/
def be32 (mem : Memory) (o : ℕ) : ℕ := be16 mem o*65536+be16 mem (o+2)

/-- A load of uint16_t on a big-endian or a little-endian host. -/
def load16 (big : Bool) (mem : Memory) (o : ℕ) : ℕ :=
  if big then be16 mem o else (mem (o+1)).toNat*256+(mem o).toNat

/-- Unsigned 16-bit value. -/
def u16 (v : ℕ) : ℕ := v%2^16

/-- The library function memcpy. -/
def memcpy (dst src : Memory) (d s n : ℕ) : Memory := fun i =>
  if d ≤ i ∧ i < d+n then src (s+(i-d)) else dst i

/-! ## url_convert -/

/-- The local variables of url_convert and the accesses so far. -/
structure Cursor where
  /-- Offset of ptr_ from ptr. -/
  q : ℕ
  /-- Offset of result from the start of its block. -/
  cur : ℕ
  /-- The block and what follows it. -/
  block : Memory
  /-- No compression pointer so far. -/
  notCompress : Bool
  /-- Rounds of the loop. -/
  counter : ℕ
  /-- The value at len. -/
  len : ℕ
  /-- Ranges of the message that were read. -/
  reads : List Range
  /-- Ranges of the block that were written. -/
  writes : List Range

/-- How a part of the loop ends. -/
inductive Flow where
  /-- The loop goes on, or it is left at its condition. -/
  | next (s : Cursor)
  /-- The jump to error. -/
  | error (s : Cursor)

/-- The branch for a label. -/
def label (mem : Memory) (s : Cursor) : Flow :=
  let n := (mem s.q).toNat
  let s := { s with len := u16 (s.len+if s.notCompress then n+1 else 0) }
  if s.cur+urlMaxLength < s.cur+n+1 then .error s
  else
    let dot := mem (s.q+n+1)≠0
    .next
      { s with
        q := s.q+n+1
        cur := if dot then s.cur+n+1 else s.cur+n
        block := Function.update (memcpy s.block mem s.cur (s.q+1) n) (s.cur+n) (if dot then 46 else 0)
        len := if dot then s.len else u16 (s.len+if s.notCompress then 1 else 0)
        reads := s.reads++[(s.q+1,n),(s.q+n+1,1)]
        writes := s.writes++[(s.cur,n),(s.cur+n,1)] }

/-- A compression pointer that is rejected: to itself, or not above 0xc012. -/
def Rejected (big : Bool) (mem : Memory) (q : ℕ) : Prop :=
  q+0xC000=load16 big mem q ∨ load16 big mem q ≤ 0xC012

instance (big : Bool) (mem : Memory) (q : ℕ) : Decidable (Rejected big mem q) :=
  inferInstanceAs (Decidable (_ ∨ _))

/-- The target of a compression pointer. -/
def target (big : Bool) (mem : Memory) (q : ℕ) : ℕ := load16 big mem q-0xC000

/-- The branch for a compression pointer. -/
def pointer (big : Bool) (mem : Memory) (s : Cursor) : Flow :=
  let s :=
    { s with
      len := u16 (s.len+if s.notCompress then 2 else 0)
      notCompress := false
      reads := s.reads++[(s.q,2)] }
  if Rejected big mem s.q then .error s else .next { s with q := target big mem s.q }

/-- The limit of the counter. -/
def limit (s : Cursor) : Flow :=
  if 100 ≤ s.counter then
    .error
      { s with
        block := Function.update s.block s.cur 0
        reads := s.reads++[(s.q,2)]
        writes := s.writes++[(s.cur,1)] }
  else .next s

/-- The branch that a byte selects. -/
def branch (big : Bool) (mem : Memory) (s : Cursor) : Flow :=
  if mem s.q < 0xC0 then label mem s else pointer big mem s

/-- The body of the loop. -/
def body (big : Bool) (mem : Memory) (s : Cursor) : Flow :=
  match branch big mem { s with counter := s.counter+1 } with
  | .error s => .error s
  | .next s => limit s

/-- The condition of the loop reads a byte. -/
def readByte (s : Cursor) : Cursor := { s with reads := s.reads++[(s.q,1)] }

/-- The loop; none when it needs more rounds. -/
def loop (big : Bool) (mem : Memory) (size : ℕ) : ℕ → Cursor → Option Flow
  | 0,_ => none
  | n+1,s =>
    if mem s.q≠0 ∧ s.q ≤ size then
      match body big mem (readByte s) with
      | .error s => some (.error s)
      | .next s => loop big mem size n s
    else some (.next (readByte s))

/-- A text that printf reads up to its NUL. -/
structure Text where
  /-- The memory. -/
  mem : Memory
  /-- The first byte. -/
  start : ℕ
  /-- The end of the array. -/
  size : ℕ
  /-- The array has been freed. -/
  freed : Bool

/-- A text that may be read: its array is there and the NUL is in it. -/
def Text.Inside (t : Text) : Prop := t.freed=false ∧ ∃ i,t.start ≤ i ∧ i < t.size ∧ t.mem i=0

/-- What url_convert leaves. -/
structure Converted where
  /-- The return value. -/
  ret : ℤ
  /-- The value at len. -/
  len : ℕ
  /-- The array query_name. -/
  queryName : Memory
  /-- Rounds of the loop. -/
  counter : ℕ
  /-- Ranges of the message that were read. -/
  reads : List Range
  /-- Ranges of the block that were written. -/
  writes : List Range
  /-- Where the copy of the block starts. -/
  copied : Option ℕ
  /-- Where the block is freed. -/
  freed : Option ℕ
  /-- The texts that are printed. -/
  texts : List Text

/-- The label error. -/
def failed (queryName : Memory) (s : Cursor) : Converted :=
  ⟨-1,0,queryName,s.counter,s.reads,s.writes,none,some s.cur,[]⟩

/-- The state at the start of the loop: the message was read for two texts. -/
def start (block : Memory) (size offset : ℕ) : Cursor :=
  ⟨offset,0,block,true,0,0,[(0,2),(offset,size-offset)],[]⟩

/-- The texts behind the copy: query_name, result, and result again once its block
is freed. -/
def printed (queryName : Memory) (s : Cursor) : List Text :=
  [⟨queryName,0,urlMaxLength,false⟩,⟨s.block,s.cur,urlMaxLength,false⟩,
    ⟨s.block,s.cur,urlMaxLength,true⟩]

/-- Behind the loop. -/
def finish (size : ℕ) (queryName : Memory) : Flow → Converted
  | .error s => failed queryName s
  | .next s =>
    if size < s.q then failed queryName s
    else
      let queryName := memcpy queryName s.block 0 s.cur urlMaxLength
      ⟨0,s.len,queryName,s.counter,s.reads,s.writes,some s.cur,some s.cur,printed queryName s⟩

/-- url_convert on a message of size bytes up to packet_tail; none when the
loop needs more than 100 rounds. -/
def urlConvert (big malloc : Bool) (block mem : Memory) (size offset : ℕ) (queryName : Memory) :
    Option Converted :=
  if !malloc then some ⟨-1,0,queryName,0,[(0,2)],[],none,none,[]⟩
  else (loop big mem size 101 (start block size offset)).map (finish size queryName)

/-! ## process_dns -/

/-- What the library does. -/
structure Platform where
  /-- Whether malloc succeeds in the call for an offset. -/
  malloc : ℕ → Bool
  /-- The block from malloc and what follows it. -/
  block : Memory
  /-- Whether a copy from inside of a block and its free there go on. -/
  interior : Bool

/-- The end of a call of url_convert in process_dns. -/
inductive Name where
  /-- The program does not come back. -/
  | lost
  /-- The value -1. -/
  | error
  /-- The value 0 and a length. -/
  | length (n : ℕ)

/-- Whether a call comes back: no write behind the block, and no copy or free
inside of it unless the library goes on there. The texts that are printed, the
last of which is read from the freed block, do not change what it returns. -/
def defined (interior : Bool) (r : Converted) : Bool :=
  r.writes.all (fun x => x.1+x.2 ≤ urlMaxLength) &&
    (interior || (r.copied.all (· == 0) && r.freed.all (· == 0)))

/-- A call of url_convert; the offset is passed as uint16_t. -/
def name (p : Platform) (mem : Memory) (size offset : ℕ) : Name :=
  match urlConvert true (p.malloc offset) p.block mem size (u16 offset) (fun _ => 0) with
  | none => .lost
  | some r =>
    if !defined p.interior r then .lost
    else if r.ret≠0 then .error
    else .length r.len

/-- One round of the loop over the answers: the offset at its start, the type
and the address that are read. -/
structure Visit where
  /-- The offset. -/
  offset : ℕ
  /-- The variable answer_type. -/
  answerType : ℕ
  /-- The variable ip, when it is set. -/
  ip : Option ℕ

/-- What process_dns does. -/
structure Report where
  /-- The return value, if it returns. -/
  ret : Option ℤ
  /-- The rounds of the loop. -/
  visits : List Visit

/-- A round before the others. -/
def Report.visit (v : Visit) (r : Report) : Report := ⟨r.ret,v::r.visits⟩

/-- What follows a call of url_convert in a round. -/
def Visit.afterName (v : Visit) (rest : ℕ → Report) : Name → Report
  | .lost => ⟨none,[v]⟩
  | .error => ⟨some (-1),[v]⟩
  | .length len => (rest len).visit v

/-- The loop over the answers, by the number of rounds left. -/
def answers (p : Platform) (mem : Memory) (size : ℕ) : ℕ → ℕ → Report
  | 0,_ => ⟨some 0,[]⟩
  | n+1,offset =>
    let answerType := be16 mem (offset+2)
    if answerType=5 then
      Visit.afterName ⟨offset,answerType,none⟩ (fun len => answers p mem size n (offset+2+10+len))
        (name p mem size (offset+2+10))
    else if answerType=15 then
      Visit.afterName ⟨offset,answerType,none⟩ (fun len => answers p mem size n (offset+2+12+len))
        (name p mem size (offset+2+12))
    else if answerType=1 then
      (answers p mem size n (offset+2+10+4)).visit
        ⟨offset,answerType,some (be32 mem (offset+2+10))⟩
    else (answers p mem size n (offset+2)).visit ⟨offset,answerType,none⟩

/-- The loop over 802.1Q tags; none when there are more tags than fuel. -/
def skipTags (packet : Memory) : ℕ → ℕ → Option ℕ
  | 0,_ => none
  | n+1,offset =>
    if be16 packet offset=0x8100 then skipTags packet n (offset+4) else some offset

/-- The checks of is_dns_response behind the tags: the offset of the DNS
header, or none for NULL. -/
def dnsHeader (packet : Memory) (offset : ℕ) : Option ℕ :=
  if be16 packet offset≠0x0800 then none
  else if packet (offset+(2+9))≠0x11 then none
  else if be16 packet (offset+(2+9)+11)≠0x35 then none
  else some (offset+(2+9)+11+8)

/-- process_dns on a big-endian host. -/
def processDns (p : Platform) (packet : Memory) (length : ℕ) : Report :=
  match skipTags packet length 12 with
  | none => ⟨none,[]⟩
  | some offset =>
    match dnsHeader packet offset with
    | none => ⟨some 1,[]⟩
    | some d =>
      let mem : Memory := fun i => packet (d+i)
      let answerRRs := be16 mem 6
      if mem 2 &&& 0x80=0 ∨ answerRRs=0 then ⟨some 1,[]⟩
      else
        match name p mem (length-d) 12 with
        | .lost => ⟨none,[]⟩
        | .error => ⟨some (-1),[]⟩
        | .length len => answers p mem (length-d) answerRRs (12+(len+4))

end StudyCode.Dns
