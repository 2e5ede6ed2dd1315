import StudyCode.Orbit

/-!
# The headers of a packet

`process_file` walks over the headers of a packet with an offset of 16 bits
and prints one line. It knows no length, so the packet is the memory around it.
The extension headers of GTPv1-U are a loop over offsets that the packet
itself determines; it stops if and only if one of the first 65536 offsets
stands behind a zero byte.
-/

namespace StudyCode.PacketProcess

open Orbit

/-! ## The program -/

/-- The bytes from the packet on; -1 is in front of it. -/
abbrev Memory := ℤ → UInt8

variable (mem : Memory)

/-- A byte. -/
def byteAt (p : ℕ) : ℕ := (mem p).toNat

/-- The byte in front of an offset. -/
def byteBefore (p : ℕ) : ℕ := (mem (p-1)).toNat

/-- A uint16_t in the order of the network. -/
def read16 (p : ℕ) : ℕ := byteAt mem p*256+byteAt mem (p+1)

/-- A struct in_addr. -/
def inAddr (p : ℕ) : List ℕ := [byteAt mem p,byteAt mem (p+1),byteAt mem (p+2),byteAt mem (p+3)]

/-- An addition to pkt_len. -/
def add16 (p n : ℕ) : ℕ := (p+n)%65536

/-- The lines that show addresses and ports of the outer packet. -/
inductive Label where
  | tcp
  | udp
  | dns
  | radius
  | gtpv1C
  | gtpv0C

/-- The ports of an inner packet. -/
structure Ports where
  /-- Offset of the header. -/
  place : ℕ
  /-- sport_in. -/
  sport : ℕ
  /-- dport_in. -/
  dport : ℕ

/-- What is taken from an inner packet. -/
structure Inner where
  /-- Offset of iphdr_in. -/
  iphdrIn : ℕ
  /-- sip. -/
  sip : List ℕ
  /-- dip. -/
  dip : List ℕ
  /-- ip_p. -/
  ipP : ℕ
  /-- The ports, with TCP or UDP. -/
  ports : Option Ports

/-- A line of the output; all of them start with the number of the packet. -/
inductive Line where
  /-- DOUBLE_VLAN,NOT_IP. -/
  | doubleVlanNotIp (etype : ℕ)
  /-- SINGLE_VLAN,NOT_IP. -/
  | singleVlanNotIp (etype : ℕ)
  /-- NOT_VLAN,NOT_IP. -/
  | notVlanNotIp (etype : ℕ)
  /-- IPv6. -/
  | ipv6
  /-- IP_FRAGMENTS. -/
  | ipFragments
  /-- NOT_TCP_OR_UDP. -/
  | notTcpOrUdp (ipP : ℕ)
  /-- A label, the addresses and the ports. -/
  | outer (label : Label) (sip dip : List ℕ) (sport dport : ℕ)
  /-- GTPv1-U_HAVE_EXT_HEADER or GTPv1-U_NO_EXT_HEADER. -/
  | gtpv1U (ext : Bool) (inner : Inner)
  /-- The same with NOT_T-PDU. -/
  | gtpv1UNotTPdu (ext : Bool) (type : ℕ)
  /-- GTPv0-U. -/
  | gtpv0U (inner : Inner)

/-- The offset of the IP header behind the Ethernet header and the tags. -/
def etherLayer : Except Line ℕ :=
  let etype := read16 mem 12
  if etype≠0x0800 then
    if etype=0x8100 then
      let etype := read16 mem (14+2)
      if etype=0x8100 then
        -- pkt_len = 22, and vlanhdr is taken there
        let etype := read16 mem (22+2)
        if etype≠0x0800 then .error (.doubleVlanNotIp etype) else .ok (add16 22 4)
      else if etype≠0x0800 then .error (.singleVlanNotIp etype)
      else .ok (add16 14 4)
    else .error (.notVlanNotIp etype)
  else .ok 14

/-- The inner IP header at an offset with the ports behind 20 bytes. -/
def innerIp (p : ℕ) : Inner :=
  let ipP := byteAt mem (p+9)
  let q := add16 p 20
  ⟨p,inAddr mem (p+12),inAddr mem (p+16),ipP,
    if ipP=0x06 ∨ ipP=0x11 then some ⟨q,read16 mem q,read16 mem (q+2)⟩ else none⟩

/-- The flag e of pdphdr_v1_t. -/
def flagE (g : ℕ) : Bool := (byteAt mem g).testBit 2

/-- One of the flags pn, e and s. -/
def flagAny (g : ℕ) : Bool :=
  (byteAt mem g).testBit 0 || (byteAt mem g).testBit 2 || (byteAt mem g).testBit 1

/-- The loop over ext; the fuel bounds the number of turns. -/
def extLoop : ℕ → ℕ → Option ℕ
  | 0,_ => none
  | fuel+1,p => if byteBefore mem p=0 then some p else extLoop fuel (add16 p (byteAt mem p))

/-- The line for a GTPv1-U header at g behind the loop. -/
def gtpv1ULine (g p : ℕ) : Line :=
  let p := if flagAny mem g then add16 p 4 else p
  if byteAt mem (g+1)=0xff then .gtpv1U (flagE mem g) (innerIp mem p)
  else .gtpv1UNotTPdu (flagE mem g) (byteAt mem (g+1))

/-- GTPv1-U at an offset. -/
def gtpv1U (fuel g : ℕ) : Option Line :=
  let p := add16 g 8
  (if flagE mem g then extLoop mem fuel (add16 p 12) else some p).map (gtpv1ULine mem g)

/-- sizeof(struct pdphdr_v0_t): the tid is aligned to eight bytes. -/
def sizeofPdphdrV0 : ℕ := 24

/-- GTPv0 at an offset. -/
def gtpv0 (sip dip : List ℕ) (sport dport g : ℕ) : Line :=
  if byteAt mem (g+1)=0xff then .gtpv0U (innerIp mem (add16 g sizeofPdphdrV0))
  else .outer .gtpv0C sip dip sport dport

/-- UDP at an offset. -/
def udpLayer (tFlag : Bool) (sip dip : List ℕ) (fuel p : ℕ) : Option Line :=
  let sport := read16 mem p
  let dport := read16 mem (p+2)
  let p := add16 p 8
  if tFlag then some (.outer .udp sip dip sport dport)
  else if dport=53 ∨ sport=53 then some (.outer .dns sip dip sport dport)
  else if dport=1812 ∨ dport=1813 ∨ dport=1645 ∨ dport=1646 ∨ sport=1812 ∨ sport=1813 ∨
      sport=1645 ∨ sport=1646 then
    some (.outer .radius sip dip sport dport)
  else if dport=2123 ∨ sport=2123 then some (.outer .gtpv1C sip dip sport dport)
  else if dport=2152 ∨ sport=2152 then gtpv1U mem fuel p
  else if dport=3386 ∨ sport=3386 then some (gtpv0 mem sip dip sport dport p)
  else some (.outer .udp sip dip sport dport)

/-- ip_v. -/
def ipV (p : ℕ) : ℕ := byteAt mem p/16

/-- IP at an offset. -/
def ipLayer (tFlag : Bool) (fuel p : ℕ) : Option Line :=
  if ipV mem p=6 then some .ipv6
  else
    let sip := inAddr mem (p+12)
    let dip := inAddr mem (p+16)
    let q := add16 p 20
    if 0 < read16 mem (p+6)%0x2000 then some .ipFragments
    else if byteAt mem (p+9)=0x06 then
      some (.outer .tcp sip dip (read16 mem q) (read16 mem (q+2)))
    else if byteAt mem (p+9)≠0x11 then some (.notTcpOrUdp (byteAt mem (p+9)))
    else udpLayer mem tFlag sip dip fuel q

/-- `process_file`: the line it prints. -/
def processFile (tFlag : Bool) (fuel : ℕ) : Option Line :=
  match etherLayer mem with
  | .error line => some line
  | .ok p => ipLayer mem tFlag fuel p

/-! ## Where the loop is reached -/

variable {mem} {g p q fuel : ℕ} {sip dip : List ℕ}

/-- Ports of which GTPv1-U has none. -/
def otherPorts : List ℕ := [53,1812,1813,1645,1646,2123]

/-- The ports of the UDP header at an offset are those of GTPv1-U. -/
structure GtpPorts (mem : Memory) (p : ℕ) : Prop where
  /-- One of the ports is that of the tunnel. -/
  port : read16 mem (p+2)=2152 ∨ read16 mem p=2152
  /-- Neither is one that is tested before. -/
  others : ∀ n ∈ otherPorts,read16 mem (p+2)≠n ∧ read16 mem p≠n

/-- The IP header at an offset leads to GTPv1-U. -/
structure Reaches (mem : Memory) (p : ℕ) : Prop where
  /-- The packet is not IPv6. -/
  version : ipV mem p≠6
  /-- It is whole or a first fragment. -/
  whole : read16 mem (p+6)%0x2000=0
  /-- It carries UDP. -/
  udp : byteAt mem (p+9)=0x11
  /-- Its ports are those of the tunnel. -/
  ports : GtpPorts mem (p+20)

/-- A small offset is not wrapped. -/
theorem add16_of_lt {n : ℕ} (h : p+n < 65536) : add16 p n=p+n := Nat.mod_eq_of_lt h

/-- A line that shows nothing of an inner packet of GTPv1-U. -/
def Plain (line : Line) : Prop := ∀ ext inner,line≠.gtpv1U ext inner

/-- A line of the outer addresses is plain. -/
theorem plain_outer (label : Label) (sip dip : List ℕ) (sport dport : ℕ) :
    Plain (.outer label sip dip sport dport) := by
  intro ext inner h
  cases h

/-- So is a line for the old version. -/
theorem plain_gtpv0 (sip dip : List ℕ) (sport dport g : ℕ) :
    Plain (gtpv0 mem sip dip sport dport g) := by
  intro ext inner h
  rw [gtpv0] at h
  split at h <;> cases h

/-- A packet to the ports of the tunnel. -/
theorem udpLayer_gtp (h : GtpPorts mem p) (hp : p+8 < 65536) :
    udpLayer mem false sip dip fuel p=gtpv1U mem fuel (p+8) := by
  have hother := h.others
  simp only [otherPorts,List.forall_mem_cons] at hother
  rw [udpLayer,if_neg Bool.false_ne_true,if_neg (by omega),if_neg (by omega),if_neg (by omega),
    if_pos h.port,add16_of_lt hp]

/-- Any other packet gives a plain line. -/
theorem udpLayer_other (h : ¬GtpPorts mem p) :
    ∃ line,(∀ fuel,udpLayer mem false sip dip fuel p=some line) ∧ Plain line := by
  simp only [udpLayer,if_neg Bool.false_ne_true]
  split_ifs with h1 h2 h3 h4 h5
  · exact ⟨_,fun _ => rfl,plain_outer _ _ _ _ _⟩
  · exact ⟨_,fun _ => rfl,plain_outer _ _ _ _ _⟩
  · exact ⟨_,fun _ => rfl,plain_outer _ _ _ _ _⟩
  · refine absurd ⟨h4,?_⟩ h
    simp only [otherPorts,List.forall_mem_cons,List.not_mem_nil,false_implies,implies_true,and_true]
    omega
  · exact ⟨_,fun _ => rfl,plain_gtpv0 _ _ _ _ _⟩
  · exact ⟨_,fun _ => rfl,plain_outer _ _ _ _ _⟩

/-- A packet that reaches the tunnel. -/
theorem ipLayer_reaches (h : Reaches mem p) (hp : p+28 < 65536) :
    ipLayer mem false fuel p=gtpv1U mem fuel (p+28) := by
  rw [ipLayer,if_neg h.version]
  dsimp only
  rw [if_neg (by rw [h.whole]; exact lt_irrefl 0),if_neg (by rw [h.udp]; decide),
    if_neg (not_not.mpr h.udp),add16_of_lt (by omega),udpLayer_gtp h.ports (by omega)]

/-- Any other packet gives a plain line. -/
theorem ipLayer_other (h : ¬Reaches mem p) (hp : p+28 < 65536) :
    ∃ line,(∀ fuel,ipLayer mem false fuel p=some line) ∧ Plain line := by
  simp only [ipLayer,add16_of_lt (show p+20 < 65536 by omega)]
  split_ifs with h1 h2 h3 h4
  · exact ⟨_,fun _ => rfl,fun _ _ h => by cases h⟩
  · exact ⟨_,fun _ => rfl,fun _ _ h => by cases h⟩
  · exact ⟨_,fun _ => rfl,plain_outer _ _ _ _ _⟩
  · exact ⟨_,fun _ => rfl,fun _ _ h => by cases h⟩
  · exact udpLayer_other fun hports =>
      h ⟨h1,Nat.eq_zero_of_not_pos h2,not_not.mp h4,hports⟩

/-- The Ethernet header leads to an IP header at a small offset. -/
theorem etherLayer_le (h : etherLayer mem=.ok p) : p ≤ 26 := by
  simp only [etherLayer] at h
  split_ifs at h <;> cases h <;> decide

/-- A frame that is no IP packet gives a plain line. -/
theorem etherLayer_plain {line : Line} (h : etherLayer mem=.error line) : Plain line := by
  simp only [etherLayer] at h
  split_ifs at h <;> cases h <;> exact fun _ _ h => by cases h

/-! ## The loop -/

/-- The next offset of the loop. -/
def hop (mem : Memory) (p : ℕ) : ℕ := add16 p (byteAt mem p)

/-- The loop goes from an offset to another one. -/
def Walk (mem : Memory) : ℕ → ℕ → Prop := Ends (hop mem) fun p => byteBefore mem p=0

/-- The loop over the extension headers is a walk. -/
theorem extLoop_eq_run (fuel p : ℕ) :
    extLoop mem fuel p=run (hop mem) (fun p => byteBefore mem p=0) fuel p := by
  induction fuel generalizing p with
  | zero => rfl
  | succ fuel ih =>
    rw [extLoop,run]
    exact if_congr Iff.rfl rfl (ih _)

/-- A loop that ends has walked to its end. -/
theorem extLoop_walk (h : extLoop mem fuel p=some q) : Walk mem p q :=
  ends_of_run ((extLoop_eq_run fuel p).symm.trans h)

/-- A walk that ends is a loop that ends. -/
theorem Walk.extLoop (h : Walk mem p q) : ∃ n,∀ fuel ≥ n,extLoop mem fuel p=some q := by
  obtain ⟨n,hn⟩ := Ends.run h
  exact ⟨n,fun fuel hfuel => (extLoop_eq_run fuel p).trans (hn fuel hfuel)⟩

/-- The walk stays within 16 bits. -/
theorem iterate_hop_lt (hp : p < 65536) (k : ℕ) : (hop mem)^[k] p < 65536 := by
  cases k with
  | zero => exact hp
  | succ k =>
    rw [Function.iterate_succ_apply']
    exact Nat.mod_lt _ (by decide)

/-- The loop ends if and only if one of its first 65536 offsets stands behind a
zero byte. -/
theorem exists_walk_iff (hp : p < 65536) :
    (∃ q,Walk mem p q) ↔ ∃ k < 65536,byteBefore mem ((hop mem)^[k] p)=0 :=
  ends_iff_iterate.trans
    (exists_iterate_lt (fun p => byteBefore mem p=0) (iterate_hop_lt hp))

/-- The offset behind the loop of a GTPv1-U header at g, or behind the header. -/
def Behind (mem : Memory) (g p : ℕ) : Prop :=
  if flagE mem g then Walk mem (g+20) p else p=g+8

/-- A line is that behind the headers. -/
theorem gtpv1U_some {line : Line} (hg : g+20 < 65536) (h : gtpv1U mem fuel g=some line) :
    ∃ p,Behind mem g p ∧ line=gtpv1ULine mem g p := by
  obtain ⟨p,hp,rfl⟩ := Option.map_eq_some_iff.mp h
  refine ⟨p,?_,rfl⟩
  rw [add16_of_lt (show g+8 < 65536 by omega),add16_of_lt (by omega)] at hp
  rw [Behind]
  split at hp
  · next he =>
    rw [if_pos he]
    exact extLoop_walk hp
  · next he =>
    rw [if_neg he]
    exact (Option.some.inj hp).symm

/-- Where the headers end, there is a line. -/
theorem Behind.gtpv1U (hg : g+20 < 65536) (h : Behind mem g p) :
    ∃ n,∀ fuel ≥ n,gtpv1U mem fuel g=some (gtpv1ULine mem g p) := by
  simp only [PacketProcess.gtpv1U,add16_of_lt (show g+8 < 65536 by omega),
    add16_of_lt (show g+8+12 < 65536 by omega)]
  rw [Behind] at h
  split at h
  · next he =>
    obtain ⟨n,hn⟩ := Walk.extLoop h
    refine ⟨n,?_⟩
    intro fuel hfuel
    rw [if_pos he,hn fuel hfuel]
    rfl
  · next he =>
    refine ⟨0,?_⟩
    intro fuel _
    rw [if_neg he,h]
    rfl

/-! ## Termination -/

/-- `process_file` prints a line. -/
def Returns (mem : Memory) : Prop := ∃ line n,∀ fuel ≥ n,processFile mem false fuel=some line

/-- Where the loop is entered, it comes to a zero byte among its first offsets. -/
def Stops (mem : Memory) : Prop :=
  ∀ p,etherLayer mem=.ok p → Reaches mem p → flagE mem (p+28)=true →
    ∃ k < 65536,byteBefore mem ((hop mem)^[k] (p+48))=0

/-- The process of a frame that reaches the tunnel. -/
theorem processFile_reaches (hether : etherLayer mem=.ok p) (hreach : Reaches mem p) (fuel : ℕ) :
    processFile mem false fuel=gtpv1U mem fuel (p+28) := by
  have hp := etherLayer_le hether
  rw [processFile,hether]
  exact ipLayer_reaches hreach (by omega)

/-- Whatever does not reach GTPv1-U is printed without a loop. -/
theorem processFile_other (h : ∀ p,etherLayer mem=.ok p → ¬Reaches mem p) :
    ∃ line,(∀ fuel,processFile mem false fuel=some line) ∧ Plain line := by
  simp only [processFile]
  cases hether : etherLayer mem with
  | error line => exact ⟨line,fun _ => rfl,etherLayer_plain hether⟩
  | ok p =>
    have hp := etherLayer_le hether
    exact ipLayer_other (h p hether) (by omega)

/-- The headers end exactly when the walk stops. -/
theorem behind_iff (hp : p ≤ 26) :
    (∃ q,Behind mem (p+28) q) ↔
      (flagE mem (p+28)=true → ∃ k < 65536,byteBefore mem ((hop mem)^[k] (p+48))=0) := by
  simp only [Behind]
  by_cases he : flagE mem (p+28)=true
  · simp only [he,if_true,forall_const]
    exact exists_walk_iff (by omega)
  · simp only [if_neg he]
    constructor
    · intro _ h
      exact absurd h he
    · intro _
      exact ⟨_,rfl⟩

/-- The process returns exactly when the walk stops. -/
theorem returns_iff_stops : Returns mem ↔ Stops mem := by
  by_cases hgtp : ∃ p,etherLayer mem=.ok p ∧ Reaches mem p
  · obtain ⟨p,hether,hreach⟩ := hgtp
    have hp := etherLayer_le hether
    constructor
    · rintro ⟨line,n,hn⟩ p' hp' _
      obtain rfl : p=p' := Except.ok.inj (hether.symm.trans hp')
      have hline := hn n le_rfl
      rw [processFile_reaches hether hreach] at hline
      obtain ⟨q,hq,-⟩ := gtpv1U_some (by omega) hline
      exact (behind_iff hp).mp ⟨q,hq⟩
    · intro hstops
      obtain ⟨q,hq⟩ := (behind_iff hp).mpr (hstops p hether hreach)
      obtain ⟨n,hn⟩ := hq.gtpv1U (by omega)
      refine ⟨gtpv1ULine mem (p+28) q,n,?_⟩
      intro fuel hfuel
      rw [processFile_reaches hether hreach]
      exact hn fuel hfuel
  · have hnone : ∀ p,etherLayer mem=.ok p → ¬Reaches mem p :=
      fun p hether hreach => hgtp ⟨p,hether,hreach⟩
    obtain ⟨line,hline,-⟩ := processFile_other hnone
    constructor
    · intro _ p hether hreach
      exact absurd hreach (hnone p hether)
    · intro _
      exact ⟨line,0,fun fuel _ => hline fuel⟩

end StudyCode.PacketProcess
