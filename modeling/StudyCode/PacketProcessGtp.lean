import StudyCode.PacketProcess

/-!
# Where the inner packet of GTPv1-U is taken from

In a well-formed frame the inner packet starts behind the optional fields and
the chain of extension headers, each of which says its length in words.
`process_file` takes its addresses and ports from the offset at which its own
loop ends. It reads a second tag four bytes too late, and everything behind it.
-/

namespace StudyCode.PacketProcess

open Orbit

variable {mem : Memory} {p q g start tags fuel : ℕ}

/-! ## Well-formed frames -/

/-- Extension headers from an offset to another one. The byte in front of a
header is its type, its first byte its length in words, its last byte the next
type. -/
inductive Chain (mem : Memory) : ℕ → ℕ → Prop
  /-- The headers end behind a zero. -/
  | done {p : ℕ} (h : byteBefore mem p=0) : Chain mem p p
  /-- A header and those behind it. -/
  | next {p q : ℕ} (h : byteBefore mem p≠0) (hn : 1 ≤ byteAt mem p)
      (rest : Chain mem (p+4*byteAt mem p) q) : Chain mem p q

/-- An Ethernet header with up to two tags in front of IPv4. -/
def Tagged (mem : Memory) : ℕ → Prop
  | 0 => read16 mem 12=0x0800
  | 1 => read16 mem 12=0x8100 ∧ read16 mem 16=0x0800
  | 2 => read16 mem 12=0x8100 ∧ read16 mem 16=0x8100 ∧ read16 mem 20=0x0800
  | _ => False

/-- The offset of the IP header behind some tags. -/
def ipAt (tags : ℕ) : ℕ := 14+4*tags

/-- A frame with a GTPv1-U message that carries an inner packet at an offset. -/
structure WellFormed (mem : Memory) (tags start : ℕ) : Prop where
  /-- The Ethernet header. -/
  tagged : Tagged mem tags
  /-- An IPv4 header without options. -/
  header : byteAt mem (ipAt tags)=0x45
  /-- The packet is not a fragment. -/
  whole : read16 mem (ipAt tags+6)%0x4000=0
  /-- It carries UDP. -/
  udp : byteAt mem (ipAt tags+9)=0x11
  /-- One of the ports is that of the tunnel. -/
  port : read16 mem (ipAt tags+22)=2152 ∨ read16 mem (ipAt tags+20)=2152
  /-- Version 1 of GTP. -/
  version : byteAt mem (ipAt tags+28)/16=3
  /-- The message carries a packet. -/
  type : byteAt mem (ipAt tags+29)=0xff
  /-- Where the inner packet starts. -/
  start : if flagE mem (ipAt tags+28) then Chain mem (ipAt tags+40) start
    else start=ipAt tags+36+if flagAny mem (ipAt tags+28) then 4 else 0

/-! ## What should be taken -/

/-- The offset of the source address of the IP packet at an offset. -/
def srcAt (mem : Memory) (p : ℕ) : ℕ := if ipV mem p=6 then p+8 else p+12

/-- The offset of its destination address. -/
def dstAt (mem : Memory) (p : ℕ) : ℕ := if ipV mem p=6 then p+24 else p+16

/-- Its protocol. -/
def protocol (mem : Memory) (p : ℕ) : ℕ := byteAt mem (if ipV mem p=6 then p+6 else p+9)

/-- The offset of what it carries. -/
def payloadAt (mem : Memory) (p : ℕ) : ℕ :=
  if ipV mem p=6 then p+40 else p+4*(byteAt mem p%16)

/-- The addresses and ports are those of the IP packet at an offset. -/
structure Takes (mem : Memory) (start : ℕ) (inner : Inner) : Prop where
  /-- The source address is read at its place. -/
  src : inner.iphdrIn+12=srcAt mem start
  /-- The destination address is read at its place. -/
  dst : inner.iphdrIn+16=dstAt mem start
  /-- The source address. -/
  sip : inner.sip=inAddr mem (srcAt mem start)
  /-- The destination address. -/
  dip : inner.dip=inAddr mem (dstAt mem start)
  /-- The ports of TCP and UDP. -/
  ports : protocol mem start=0x06 ∨ protocol mem start=0x11 →
    inner.ports=some ⟨payloadAt mem start,read16 mem (payloadAt mem start),
      read16 mem (payloadAt mem start+2)⟩

/-- `process_file` ends and takes the IP packet at an offset for the inner one. -/
def Located (mem : Memory) (start : ℕ) : Prop :=
  ∃ ext inner n,(∀ fuel ≥ n,processFile mem false fuel=some (.gtpv1U ext inner)) ∧
    Takes mem start inner

/-- The packet at an offset is not IPv6, and its ports stand behind 20 bytes. -/
structure ShortHeader (mem : Memory) (p : ℕ) : Prop where
  /-- It is not IPv6. -/
  version : ipV mem p≠6
  /-- Its ports stand behind 20 bytes. -/
  ports : byteAt mem (p+9)=0x06 ∨ byteAt mem (p+9)=0x11 → byteAt mem p%16=5 ∧ p+20 < 65536

/-- The inner packet is taken at its start. -/
theorem takes_innerIp_iff (hq : q < 65536) :
    Takes mem start (innerIp mem q) ↔ q=start ∧ ShortHeader mem start := by
  constructor
  · intro h
    have hsrc := h.src
    have hdst := h.dst
    have hv : ipV mem start≠6 := by
      intro hv
      rw [srcAt,if_pos hv] at hsrc
      rw [dstAt,if_pos hv] at hdst
      omega
    rw [srcAt,if_neg hv] at hsrc
    obtain rfl : q=start := Nat.add_right_cancel hsrc
    refine ⟨rfl,hv,?_⟩
    intro hports
    have hplace := h.ports (by rwa [protocol,if_neg hv])
    simp only [innerIp,if_pos hports,payloadAt,if_neg hv,Option.some.injEq,Ports.mk.injEq,
      add16] at hplace
    omega
  · rintro ⟨rfl,h⟩
    refine ⟨?_,?_,?_,?_,?_⟩
    · rw [srcAt,if_neg h.version]
      rfl
    · rw [dstAt,if_neg h.version]
      rfl
    · rw [srcAt,if_neg h.version]
      rfl
    · rw [dstAt,if_neg h.version]
      rfl
    · intro hports
      rw [protocol,if_neg h.version] at hports
      obtain ⟨hihl,hlt⟩ := h.ports hports
      have hplace : payloadAt mem q=q+20 := by
        rw [payloadAt,if_neg h.version,hihl]
      simp only [innerIp,if_pos hports,hplace,add16_of_lt hlt]

/-! ## Where the program comes to -/

/-- From an IP header at an offset the program takes the inner packet from
start. -/
structure Leads (mem : Memory) (p start : ℕ) : Prop where
  /-- The packet reaches the tunnel. -/
  reaches : Reaches mem p
  /-- The message carries a packet. -/
  type : byteAt mem (p+29)=0xff
  /-- The headers end at the start. -/
  place : ∃ q,Behind mem (p+28) q ∧ (if flagAny mem (p+28) then add16 q 4 else q)=start
  /-- The inner packet has a short header. -/
  inner : ShortHeader mem start

/-- A flag that is set is one of the flags. -/
theorem flagAny_of_flagE (h : flagE mem g=true) : flagAny mem g=true := by
  have h2 : (byteAt mem g).testBit 2=true := h
  rw [flagAny,h2,Bool.or_true,Bool.true_or]

/-- The inner packet is taken from an offset of 16 bits. -/
theorem Behind.place_lt (hg : g+20 < 65536) (h : Behind mem g q) :
    (if flagAny mem g then add16 q 4 else q) < 65536 := by
  split
  · exact Nat.mod_lt _ (by decide)
  · next hany =>
    have he : ¬flagE mem g=true := fun he => hany (flagAny_of_flagE he)
    rw [Behind,if_neg he] at h
    omega

/-- A packet is located exactly when the headers lead there. -/
theorem located_iff_leads (hether : etherLayer mem=.ok p) :
    Located mem start ↔ Leads mem p start := by
  have hp := etherLayer_le hether
  have hg : p+28+20 < 65536 := by omega
  constructor
  · rintro ⟨ext,inner,n,hn,htakes⟩
    have hreach : Reaches mem p := by
      by_contra hnot
      have hnone : ∀ p',etherLayer mem=.ok p' → ¬Reaches mem p' := by
        intro p' hp' hreach
        obtain rfl : p=p' := Except.ok.inj (hether.symm.trans hp')
        exact hnot hreach
      obtain ⟨line,hline,hplain⟩ := processFile_other hnone
      exact hplain ext inner (Option.some.inj ((hline n).symm.trans (hn n le_rfl)))
    have hline := hn n le_rfl
    rw [processFile_reaches hether hreach] at hline
    obtain ⟨q,hq,hgtp⟩ := gtpv1U_some hg hline
    have hlt := hq.place_lt hg
    rw [gtpv1ULine] at hgtp
    split at hgtp
    · next htype =>
      obtain rfl := (Line.gtpv1U.inj hgtp).2
      obtain ⟨hstart,hinner⟩ := (takes_innerIp_iff hlt).mp htakes
      exact ⟨hreach,htype,⟨q,hq,hstart⟩,hinner⟩
    · cases hgtp
  · intro h
    obtain ⟨q,hq,hstart⟩ := h.place
    obtain ⟨n,hn⟩ := hq.gtpv1U hg
    have hlt := hq.place_lt hg
    have hline : gtpv1ULine mem (p+28) q=.gtpv1U (flagE mem (p+28)) (innerIp mem start) := by
      rw [gtpv1ULine,if_pos h.type,hstart]
    refine ⟨flagE mem (p+28),innerIp mem start,n,?_,
      (takes_innerIp_iff (hstart ▸ hlt)).mpr ⟨rfl,h.inner⟩⟩
    intro fuel hfuel
    rw [processFile_reaches hether h.reaches,hn fuel hfuel,hline]

/-! ## Well-formed frames in the program -/

/-- With at most one tag: no port is one of those that are tested before, the
loop ends four bytes in front of the inner packet, which has a short header. -/
structure Direct (mem : Memory) (p start : ℕ) : Prop where
  /-- No port is one that is tested before. -/
  others : ∀ n ∈ otherPorts,read16 mem (p+22)≠n ∧ read16 mem (p+20)≠n
  /-- The loop ends four bytes in front of the start. -/
  walk : flagE mem (p+28)=true → ∃ q,Walk mem (p+48) q ∧ add16 q 4=start
  /-- The inner packet has a short header. -/
  inner : ShortHeader mem start

/-- The frames that are read as they should be. Behind two tags that is so only
if the bytes four places behind the headers look like headers too. -/
def Meets (mem : Memory) (tags start : ℕ) : Prop :=
  if tags ≤ 1 then Direct mem (ipAt tags) start
  else read16 mem 24=0x0800 ∧ Leads mem 26 start

/-- A well-formed frame reaches the tunnel by its ports. -/
theorem WellFormed.reaches_iff (h : WellFormed mem tags start) :
    Reaches mem (ipAt tags) ↔
      ∀ n ∈ otherPorts,read16 mem (ipAt tags+22)≠n ∧ read16 mem (ipAt tags+20)≠n := by
  constructor
  · intro hreach
    exact hreach.ports.others
  · intro hothers
    refine ⟨?_,?_,h.udp,h.port,hothers⟩
    · rw [ipV,h.header]
      decide
    · have hwhole := h.whole
      omega

/-- With at most two tags the headers lead to the start. -/
theorem WellFormed.leads_iff (h : WellFormed mem tags start) (htags : tags ≤ 2) :
    Leads mem (ipAt tags) start ↔ Direct mem (ipAt tags) start := by
  have hstart := h.start
  constructor
  · intro hl
    refine ⟨h.reaches_iff.mp hl.reaches,?_,hl.inner⟩
    intro he
    obtain ⟨q,hq,hplace⟩ := hl.place
    rw [Behind,if_pos he] at hq
    rw [if_pos (flagAny_of_flagE he)] at hplace
    exact ⟨q,hq,hplace⟩
  · intro hd
    refine ⟨h.reaches_iff.mpr hd.others,h.type,?_,hd.inner⟩
    by_cases he : flagE mem (ipAt tags+28)=true
    · obtain ⟨q,hq,hplace⟩ := hd.walk he
      refine ⟨q,?_,?_⟩
      · rw [Behind,if_pos he]
        exact hq
      · rw [if_pos (flagAny_of_flagE he)]
        exact hplace
    · rw [if_neg he] at hstart
      refine ⟨ipAt tags+36,?_,?_⟩
      · rw [Behind,if_neg he]
      · rw [hstart]
        split
        · exact add16_of_lt (by unfold ipAt; omega)
        · rfl

/-- A well-formed frame has at most two tags. -/
theorem WellFormed.tags_le (h : WellFormed mem tags start) : tags ≤ 2 := by
  have htagged := h.tagged
  match tags with
  | 0 => omega
  | 1 => omega
  | 2 => omega
  | _+3 => exact htagged.elim

/-- Up to one tag the IP header is taken from its place. -/
theorem etherLayer_single (h : WellFormed mem tags start) (htags : tags ≤ 1) :
    etherLayer mem=.ok (ipAt tags) := by
  have htagged := h.tagged
  match tags with
  | 0 =>
    have htype : read16 mem 12=0x0800 := htagged
    rw [etherLayer,if_neg (not_not.mpr htype)]
    rfl
  | 1 =>
    obtain ⟨htype,hnext⟩ : read16 mem 12=0x8100 ∧ read16 mem 16=0x0800 := htagged
    simp only [etherLayer,htype,hnext]
    rfl

/-- Behind two tags it is taken four bytes late, if it is taken at all. -/
theorem etherLayer_double (h : WellFormed mem 2 start) :
    etherLayer mem=if read16 mem 24=0x0800 then .ok 26
      else .error (.doubleVlanNotIp (read16 mem 24)) := by
  obtain ⟨htype,hnext,-⟩ : read16 mem 12=0x8100 ∧ read16 mem 16=0x8100 ∧ read16 mem 20=0x0800 :=
    h.tagged
  rw [etherLayer,htype,if_pos (by decide),if_pos rfl,hnext,if_pos rfl]
  exact ite_not _ _ _

/-- In a well-formed frame the inner packet is found exactly when the headers meet its start. -/
theorem WellFormed.located_iff (h : WellFormed mem tags start) :
    Located mem start ↔ Meets mem tags start := by
  have htags := h.tags_le
  rw [Meets]
  by_cases hone : tags ≤ 1
  · rw [if_pos hone,located_iff_leads (etherLayer_single h hone),h.leads_iff htags]
  · obtain rfl : tags=2 := by omega
    have hether := etherLayer_double h
    rw [if_neg hone]
    by_cases hlen : read16 mem 24=0x0800
    · rw [if_pos hlen] at hether
      rw [located_iff_leads hether]
      exact (and_iff_right hlen).symm
    · rw [if_neg hlen] at hether
      constructor
      · rintro ⟨ext,inner,n,hn,-⟩
        have hline := hn n le_rfl
        rw [processFile,hether] at hline
        cases hline
      · intro hmeets
        exact absurd hmeets.1 hlen

/-- In a well-formed frame the inner packet is found if and only if the frame
meets the condition for its number of tags, and for any memory the program
ends if and only if the loop, where it is entered, meets a zero byte. -/
theorem processFile_locates_iff (mem : Memory) :
    (∀ tags start,WellFormed mem tags start → (Located mem start ↔ Meets mem tags start)) ∧
      (Returns mem ↔ Stops mem) :=
  ⟨fun _ _ h => h.located_iff,returns_iff_stops⟩

/-- The memory of a frame, with zeros around it. -/
def memoryOf (frame : List UInt8) : Memory := fun z => if 0 ≤ z then frame.getD z.toNat 0 else 0

/-- A frame without optional fields whose inner UDP packet starts at 50. -/
def plainFrame : List UInt8 :=
  [0,0,0,0,0,0,0,0,0,0,0,0,0x08,0x00,
    0x45,0,0,0x40,0,0,0,0,0x40,0x11,0,0,10,0,0,1,10,0,0,2,
    0x08,0x68,0x08,0x68,0,0x2c,0,0,
    0x30,0xff,0,0x1c,0,0,0,1,
    0x45,0,0,0x1c,0,0,0,0,0x40,0x11,0,0,10,0,0,3,10,0,0,4,
    0x03,0xe8,0x07,0xd0,0,8,0,0]

/-- It is well-formed and meets the condition. -/
example : WellFormed (memoryOf plainFrame) 0 50 ∧ Meets (memoryOf plainFrame) 0 50 := by
  refine ⟨⟨?_,by decide,by decide,by decide,by decide,by decide,by decide,?_⟩,?_⟩
  · change read16 (memoryOf plainFrame) 12=0x0800
    decide
  · rw [if_neg (by decide)]
    decide
  · rw [Meets,if_pos (by decide)]
    exact ⟨by decide,fun he => absurd he (by decide),by decide,fun _ => by decide⟩

/-! ## A frame on which the loop does not end -/

/-- One extension header of one word in front of an inner UDP packet. -/
def extFrame : List UInt8 :=
  [0,0,0,0,0,0,0,0,0,0,0,0,0x08,0x00,
    0x45,0,0,0x48,0,0,0,0,0x40,0x11,0,0,10,0,0,1,10,0,0,2,
    0x08,0x68,0x08,0x68,0,0x34,0,0,
    0x34,0xff,0,0x24,0,0,0,1,0,0,0,0x85,
    1,0,0,0,
    0x45,0,0,0x1c,0,0,0,0,0x40,0x11,0,0,10,0,0,3,10,0,0,4,
    0x03,0xe8,0x07,0xd0,0,8,0,0]

/-- A frame with an extension header. -/
theorem extFrame_wellFormed : WellFormed (memoryOf extFrame) 0 58 where
  tagged := by
    change read16 (memoryOf extFrame) 12=0x0800
    decide
  header := by decide
  whole := by decide
  udp := by decide
  port := by decide
  version := by decide
  type := by decide
  start := by
    rw [if_pos (by decide)]
    exact .next (by decide) (by decide) (.done (by decide))

/-- The loop stays where it starts: the byte it adds is zero. -/
theorem extFrame_not_stops : ¬Stops (memoryOf extFrame) := by
  intro h
  have hreach : Reaches (memoryOf extFrame) 14 :=
    extFrame_wellFormed.reaches_iff.mpr (by decide)
  obtain ⟨k,-,hk⟩ := h 14 (etherLayer_single extFrame_wellFormed (by decide)) hreach (by decide)
  have hfixed : hop (memoryOf extFrame) 62=62 := by decide
  rw [Function.iterate_fixed hfixed] at hk
  revert hk
  decide

/-- The frame is well-formed, and the program neither ends on it nor finds its
inner packet. -/
theorem processFile_extFrame_false :
    WellFormed (memoryOf extFrame) 0 58 ∧ ¬Located (memoryOf extFrame) 58 ∧
      ¬Returns (memoryOf extFrame) := by
  have hreturns : ¬Returns (memoryOf extFrame) := by
    rw [returns_iff_stops]
    exact extFrame_not_stops
  refine ⟨extFrame_wellFormed,?_,hreturns⟩
  rintro ⟨ext,inner,n,hn,-⟩
  exact hreturns ⟨_,n,hn⟩

end StudyCode.PacketProcess
