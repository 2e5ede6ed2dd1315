import Mathlib.Data.List.Basic
import Mathlib.Tactic

/-!
# Reads of the QUIC Initial parser

The parser takes offsets from the datagram itself: two connection identifier
lengths and two variable-length integers. Every range of the payload that is
read is kept in the report of a function, as a start and a length; what
lies behind the datagram is arbitrary. Unsigned 32-bit sums wrap as in the
source, pointer sums do not. Results of libgcrypt and malloc are parameters.
The host is little endian.
-/

namespace StudyCode.Quic

/-- The memory from the start of the payload on. -/
abbrev Payload := ℕ → UInt8

/-- A range of the payload: its start and its length. -/
abbrev Range := ℕ × ℕ

/-- What the parser gets from libgcrypt and malloc. -/
structure Env where
  /-- Whether quic_derive_initial_secrets succeeds. -/
  derive : Bool
  /-- Whether quic_cipher_prepare succeeds. -/
  prepare : Bool
  /-- Encryption of the sample; none for an error. -/
  encrypt : List UInt8 → Option (List UInt8)
  /-- Whether malloc of a size succeeds. -/
  malloc : ℕ → Bool
  /-- Whether the packet is decrypted and its tag verified. -/
  opens : Bool

/-- Big-endian number of n bytes. -/
def be (payload : Payload) (o n : ℕ) : ℕ :=
  (List.range n).foldl (fun v i => v*256+(payload (o+i)).toNat) 0

/-- Unsigned 32-bit value. -/
def u32 (v : ℕ) : ℕ := v%2^32

/-! ## Versions -/

/-- is_version_gquic. -/
def isVersionGquic (version : UInt32) : Bool :=
  version &&& 0xFFFFFF00=0x54303500 || version &&& 0xFFFFFF00=0x51303500 ||
    version &&& 0xFFFFFF00=0x51303400 || version &&& 0xFFFFFF00=0x51303300 ||
    version &&& 0xFFFFFF00=0x51303200

/-- is_version_quic. -/
def isVersionQuic (version : UInt32) : Bool :=
  version &&& 0xFFFFFF00=0xFF000000 || version &&& 0xFFFFF000=0xfaceb000

/-- is_version_valid. -/
def isVersionValid (version : UInt32) : Bool := isVersionGquic version || isVersionQuic version

/-- get_u8_quic_ver. -/
def getU8QuicVer (version : UInt32) : ℕ := if version >>> 8=0xff0000 then version.toNat%256 else 0

/-- is_quic_ver_greater_than. -/
def isQuicVerGreaterThan (version : UInt32) (min : ℕ) : Bool := min ≤ getU8QuicVer version

/-- The digits at the start of a string, as atoi reads them. -/
def digits : ℕ → List UInt8 → ℕ
  | v,[] => v
  | v,c::s => if 48 ≤ c ∧ c ≤ 57 then digits (v*10+(c.toNat-48)) s else v

/-- White space of the C locale. -/
def isSpace (c : UInt8) : Bool := c=32 || (9 ≤ c && c ≤ 13)

/-- The library function atoi. -/
def atoi (s : List UInt8) : ℤ :=
  match s.dropWhile isSpace with
  | 45::s => -(digits 0 s)
  | 43::s => digits 0 s
  | s => digits 0 s

/-- get_u8_gquic_ver: the two characters at the end of the version. -/
def getU8GquicVer (version : UInt32) : ℕ :=
  if isVersionGquic version then
    (atoi [UInt8.ofNat (version.toNat/256%256),UInt8.ofNat (version.toNat%256)]%256).toNat
  else 0

/-- is_gquic_ver_less_than. -/
def isGquicVerLessThan (version : UInt32) (max : ℕ) : Bool :=
  getU8GquicVer version≠0 && getU8GquicVer version ≤ max

/-- is_version_supported. -/
def isVersionSupported (version : UInt32) : Bool :=
  version ∈ [0x51303234,0x51303235,0x51303330,0x51303333,0x51303334,0x51303335,0x51303337,
    0x51303339,0x51303433,0x51303436,0x51303530,0x54303530,0x54303531,0xfaceb001,0xfaceb002,
    0xfaceb00e] || isQuicVerGreaterThan version 23

/-- The version Q046. -/
def vQ046 : UInt32 := 0x51303436

/-- The version Q050. -/
def vQ050 : UInt32 := 0x51303530

/-- A bit of the first byte. -/
def bit (b mask : UInt8) : Bool := b &&& mask≠0

/-- The version field of a datagram, and the ranges read. -/
def findVersion (payload : Payload) : UInt32 × List Range :=
  let b := payload 0
  if bit b 0x80 then (UInt32.ofNat (be payload 1 4),[(0,1),(1,4)])
  else if bit b 0x08 && !bit b 0x40 then
    if !bit b 0x01 then (0,[(0,1)]) else (UInt32.ofNat (be payload 9 4),[(0,1),(9,4)])
  else (0,[(0,1)])

/-- The checks of a version against the flags in the first byte. -/
def checkVersion (b : UInt8) (version : UInt32) : Option UInt32 :=
  if !isVersionValid version then none
  else if isGquicVerLessThan version 43 && (!bit b 0x08 || bit b 0x20 || bit b 0x10) then none
  else if version=vQ046 && (!bit b 0x02 || !bit b 0x01) then none
  else if (isVersionQuic version || version=vQ046 || version=vQ050) &&
      (bit b 0x20 || bit b 0x10) then none
  else some version

/-- quic_version: the version of a datagram that may start with an Initial
packet, and the ranges read. -/
def quicVersion (payload : Payload) (plen : ℕ) : Option UInt32 × List Range :=
  if plen < 1200 then (none,[])
  else (checkVersion (payload 0) (findVersion payload).1,(findVersion payload).2)

/-! ## Decryption -/

/-- What quic_len returns. -/
structure QuicLen where
  /-- The value. -/
  value : ℕ
  /-- The number of bytes. -/
  len : ℕ
  /-- The ranges read. -/
  reads : List Range

/-- quic_len on the integer at an offset. -/
def quicLen (payload : Payload) (o : ℕ) : QuicLen :=
  match (payload o).toNat/64 with
  | 0 => ⟨(payload o).toNat%2^6,1,[(o,1)]⟩
  | 1 => ⟨be payload o 2%2^14,2,[(o,1),(o,2)]⟩
  | 2 => ⟨be payload o 4%2^30,4,[(o,1),(o,4)]⟩
  | _ => ⟨be payload o 8%2^62,8,[(o,1),(o,8)]⟩

/-- What quic_decrypt_header returns. -/
structure Header where
  /-- The first byte without its protection and the packet number. -/
  clear : Option (UInt8 × ℕ)
  /-- The ranges read. -/
  reads : List Range

/-- The first byte without its protection. -/
def unmask (packet0 mask0 : UInt8) : UInt8 :=
  if packet0 &&& 0x80=0x80 then packet0 ^^^ (mask0 &&& 0x0f) else packet0 ^^^ (mask0 &&& 0x1f)

/-- The packet number length of a first byte. -/
def pknLen (firstByte : UInt8) : ℕ := (firstByte &&& 3).toNat+1

/-- quic_decrypt_header. -/
def quicDecryptHeader (env : Env) (payload : Payload) (pnOffset : ℕ) : Header :=
  let sample := (List.range 16).map fun i => payload (pnOffset+4+i)
  match env.encrypt sample with
  | none => ⟨none,[(pnOffset+4,16)]⟩
  | some mask =>
    let packet0 := unmask (payload 0) (mask.getD 0 0)
    let pkn := (List.range (pknLen packet0)).foldl
      (fun v i => v*256+(payload (pnOffset+i) ^^^ mask.getD (i+1) 0).toNat) 0
    ⟨some (packet0,pkn),[(pnOffset+4,16),(0,1),(pnOffset,pknLen packet0)]⟩

/-- A report of the parser. -/
structure Report where
  /-- The ranges of the payload that are read. -/
  reads : List Range
  /-- The header length that is subtracted from the payload length. -/
  cut : Option ℕ
  /-- Length of the decrypted data, or the return value of quic_decap. -/
  result : ℤ

/-- quic_decrypt_message; the copies of the header, of the ciphertext and of
the tag are the reads. -/
def quicDecryptMessage (env : Env) (plen headerLength pkn : ℕ) : Report :=
  if ¬pkn < headerLength ∨ ¬(1 ≤ pkn ∧ pkn ≤ 4) then ⟨[],none,0⟩
  else if !env.malloc headerLength then ⟨[],none,0⟩
  else
    let bufferLength := u32 (plen+2^32-u32 (headerLength+16))
    if bufferLength=0 then ⟨[(0,headerLength)],some headerLength,0⟩
    else if !env.malloc bufferLength then ⟨[(0,headerLength)],some headerLength,0⟩
    else
      ⟨[(0,headerLength),(headerLength,bufferLength),(headerLength+bufferLength,16)],
        some headerLength,if env.opens then bufferLength else 0⟩

/-- The offset behind the token: the connection identifiers, the token length
field and the token. -/
def tokenEnd (payload : Payload) (dcil scil : ℕ) : ℕ :=
  let o := 1+4+1+dcil+1+scil
  u32 (u32 (o+(quicLen payload o).len)+(quicLen payload o).value)

/-- decrypt_initial_packet. -/
def decryptInitialPacket (env : Env) (payload : Payload) (plen dcil scil : ℕ) : Report :=
  if !env.derive then ⟨[(6,dcil)],none,0⟩
  else if !env.prepare then ⟨[(6,dcil)],none,0⟩
  else
    let tokenReads := (6,dcil)::(quicLen payload (1+4+1+dcil+1+scil)).reads
    let pnOffset := tokenEnd payload dcil scil
    if plen ≤ u32 (pnOffset+8+(4+16)) then ⟨tokenReads,none,0⟩
    else
      let payloadLength := quicLen payload pnOffset
      let pnOffset := u32 (pnOffset+payloadLength.len)
      let header := quicDecryptHeader env payload pnOffset
      match header.clear with
      | none => ⟨tokenReads++payloadLength.reads++header.reads,none,0⟩
      | some (firstByte,_) =>
        let message := quicDecryptMessage env plen (u32 (pnOffset+pknLen firstByte)) (pknLen firstByte)
        ⟨tokenReads++payloadLength.reads++header.reads++message.reads,message.cut,message.result⟩

/-- quic_decap. The text printed at the end is in the decrypted buffer. -/
def quicDecap (env : Env) (payload : Payload) (plen : ℕ) : Report :=
  match quicVersion payload plen with
  | (none,reads) => ⟨reads,none,1⟩
  | (some version,reads) =>
    if !isVersionSupported version then ⟨reads,none,1⟩
    else if isGquicVerLessThan version 43 then ⟨reads,none,0⟩
    else if version=vQ046 then ⟨reads++[(5,1)],none,if payload 5≠0x50 then -1 else 0⟩
    else
      let dcil := (payload 5).toNat
      if dcil=0 ∨ 20 < dcil then ⟨reads++[(5,1)],none,-1⟩
      else
        let scil := (payload (6+dcil)).toNat
        if 20 < scil then ⟨reads++[(5,1),(6+dcil,1)],none,-1⟩
        else
          let packet := decryptInitialPacket env payload plen dcil scil
          ⟨reads++[(5,1),(6+dcil,1)]++packet.reads,packet.cut,0⟩

/-! ## Reads inside the datagram -/

/-- Every range read is inside the datagram, and the header with the tag is
not longer than it. -/
def Inside (plen : ℕ) (r : Report) : Prop :=
  (∀ x ∈ r.reads,x.1+x.2 ≤ plen) ∧ ∀ h,r.cut=some h → h+16 ≤ plen

/-- The datagram reaches the decryption of an Initial packet with connection
identifiers of these lengths. -/
def Decrypts (env : Env) (payload : Payload) (version : UInt32) : Prop :=
  ¬isGquicVerLessThan version 43=true ∧ version≠vQ046 ∧
    ¬((payload 5).toNat=0 ∨ 20 < (payload 5).toNat) ∧
    ¬20 < (payload (6+(payload 5).toNat)).toNat ∧ env.derive=true ∧ env.prepare=true

variable {env : Env} {payload : Payload} {plen : ℕ}

/-- A variable-length integer is read within eight bytes. -/
theorem quicLen_spec (payload : Payload) (o : ℕ) :
    (quicLen payload o).len ≤ 8 ∧ (o,1) ∈ (quicLen payload o).reads ∧
      ∀ x ∈ (quicLen payload o).reads,x.1+x.2 ≤ o+8 := by
  unfold quicLen
  split <;> simp

/-- A packet number has one to four bytes. -/
theorem pknLen_le (b : UInt8) : 1 ≤ pknLen b ∧ pknLen b ≤ 4 := by
  unfold pknLen
  have h : (b &&& 3).toNat ≤ 3 := by
    rw [UInt8.toNat_and]
    exact Nat.and_le_right
  omega

/-- The version is read inside. -/
theorem quicVersion_reads (payload : Payload) (h : 1200 ≤ plen) :
    ∀ x ∈ (quicVersion payload plen).2,x.1+x.2 ≤ plen := by
  unfold quicVersion
  rw [if_neg (by omega)]
  intro x hx
  have hsub : x.1+x.2 ≤ 13 := by
    revert hx
    unfold findVersion
    dsimp only
    split
    · simp only [List.mem_cons,List.not_mem_nil,or_false]
      rintro (rfl|rfl) <;> decide
    · split
      · split
        · simp only [List.mem_singleton]
          rintro rfl
          decide
        · simp only [List.mem_cons,List.not_mem_nil,or_false]
          rintro (rfl|rfl) <;> decide
      · simp only [List.mem_singleton]
        rintro rfl
        decide
  omega

/-- The copies of the header, the ciphertext and the tag end at the payload's
end when the header leaves room for the tag. -/
theorem quicDecryptMessage_inside (env : Env) {hl : ℕ} (pkn : ℕ) (hp : plen ≤ 65535) (h : hl+16 ≤ plen) :
    Inside plen (quicDecryptMessage env plen hl pkn) := by
  have hu : u32 (hl+16)=hl+16 := Nat.mod_eq_of_lt (by omega)
  have hb : u32 (plen+2^32-u32 (hl+16))=plen-(hl+16) := by
    rw [hu]
    unfold u32
    have he : plen+2^32-(hl+16)=plen-(hl+16)+2^32 := by omega
    rw [he,Nat.add_mod_right]
    exact Nat.mod_eq_of_lt (by omega)
  have hcut : ∀ m,(some hl : Option ℕ)=some m → m+16 ≤ plen := by
    intro m hm
    obtain rfl := Option.some.inj hm
    exact h
  have hnone : ∀ m,(none : Option ℕ)=some m → m+16 ≤ plen := fun m hm => by cases hm
  unfold quicDecryptMessage
  split
  · exact ⟨fun x hx => absurd hx List.not_mem_nil,hnone⟩
  · split
    · exact ⟨fun x hx => absurd hx List.not_mem_nil,hnone⟩
    · dsimp only
      rw [hb]
      split
      · refine ⟨fun x hx => ?_,hcut⟩
        obtain rfl := List.mem_singleton.mp hx
        show 0+hl ≤ plen
        omega
      · split
        · refine ⟨fun x hx => ?_,hcut⟩
          obtain rfl := List.mem_singleton.mp hx
          show 0+hl ≤ plen
          omega
        · refine ⟨fun x hx => ?_,hcut⟩
          simp only [List.mem_cons,List.not_mem_nil,or_false] at hx
          rcases hx with rfl|rfl|rfl
          · show 0+hl ≤ plen
            omega
          · show hl+(plen-(hl+16)) ≤ plen
            omega
          · show hl+(plen-(hl+16))+16 ≤ plen
            omega

/-- The header is unprotected within 20 bytes from the packet number on. -/
theorem quicDecryptHeader_reads (env : Env) (payload : Payload) {pn : ℕ} (h : pn+20 ≤ plen) :
    ∀ x ∈ (quicDecryptHeader env payload pn).reads,x.1+x.2 ≤ plen := by
  unfold quicDecryptHeader
  dsimp only
  split
  · intro x hx
    obtain rfl := List.mem_singleton.mp hx
    show pn+4+16 ≤ plen
    omega
  · intro x hx
    simp only [List.mem_cons,List.not_mem_nil,or_false] at hx
    rcases hx with rfl|rfl|rfl
    · show pn+4+16 ≤ plen
      omega
    · show 0+1 ≤ plen
      omega
    · have := (pknLen_le (unmask (payload 0) ((‹List UInt8›).getD 0 0))).2
      show pn+pknLen _ ≤ plen
      omega

section Packet

variable {dcil scil : ℕ}

/-- The length of the token is read inside. -/
theorem tokenReads_inside (payload : Payload) (h : 1200 ≤ plen) (hd : dcil ≤ 20) (hs : scil ≤ 20) :
    ∀ x ∈ (6,dcil)::(quicLen payload (1+4+1+dcil+1+scil)).reads,x.1+x.2 ≤ plen := by
  intro x hx
  rcases List.mem_cons.mp hx with rfl|hx
  · show 6+dcil ≤ plen
    omega
  · have := (quicLen_spec payload (1+4+1+dcil+1+scil)).2.2 x hx
    omega

/-- The check behind the token covers all later reads when the offset does
not wrap. -/
theorem decryptInitialPacket_inside (env : Env) (h : 1200 ≤ plen) (hp : plen ≤ 65535) (hd : dcil ≤ 20)
    (hs : scil ≤ 20) (hw : tokenEnd payload dcil scil < 2^32-28) :
    Inside plen (decryptInitialPacket env payload plen dcil scil) := by
  have htok := tokenReads_inside payload h hd hs
  have hid : ∀ x ∈ [(6,dcil)],x.1+x.2 ≤ plen := fun x hx =>
    htok x (List.mem_cons.mpr (Or.inl (List.mem_singleton.mp hx)))
  have hnone : ∀ m,(none : Option ℕ)=some m → m+16 ≤ plen := fun m hm => by cases hm
  unfold decryptInitialPacket
  split
  · exact ⟨hid,hnone⟩
  · split
    · exact ⟨hid,hnone⟩
    · dsimp only
      have hu : u32 (tokenEnd payload dcil scil+8+(4+16))=tokenEnd payload dcil scil+28 :=
        Nat.mod_eq_of_lt (by omega)
      rw [hu]
      split
      · exact ⟨htok,hnone⟩
      · obtain ⟨hlen,-,hreads⟩ := quicLen_spec payload (tokenEnd payload dcil scil)
        generalize tokenEnd payload dcil scil=pn at *
        have hpn : u32 (pn+(quicLen payload pn).len)=pn+(quicLen payload pn).len :=
          Nat.mod_eq_of_lt (by omega)
        have hlen2 : ∀ x ∈ (quicLen payload pn).reads,x.1+x.2 ≤ plen := fun x hx => by
          have := hreads x hx
          omega
        rw [hpn]
        generalize (quicLen payload pn).len=n at *
        have hhead := quicDecryptHeader_reads env payload (show pn+n+20 ≤ plen by omega)
        split
        · refine ⟨fun x hx => ?_,hnone⟩
          simp only [List.mem_append] at hx
          rcases hx with (hx|hx)|hx
          · exact htok x hx
          · exact hlen2 x hx
          · exact hhead x hx
        · rename_i first _ _
          have hk := pknLen_le first
          have hoff : u32 (pn+n+pknLen first)=pn+n+pknLen first := Nat.mod_eq_of_lt (by omega)
          rw [hoff]
          have hmsg := quicDecryptMessage_inside env (pknLen first) hp
            (show pn+n+pknLen first+16 ≤ plen by omega)
          refine ⟨fun x hx => ?_,hmsg.2⟩
          simp only [List.mem_append] at hx
          rcases hx with ((hx|hx)|hx)|hx
          · exact htok x hx
          · exact hlen2 x hx
          · exact hhead x hx
          · exact hmsg.1 x hx

/-- An offset that wraps in the check is read. -/
theorem decryptInitialPacket_wrapped (h : 1200 ≤ plen) (he : env.derive=true)
    (hp : env.prepare=true) (hw : 2^32-28 ≤ tokenEnd payload dcil scil) :
    (tokenEnd payload dcil scil,1) ∈ (decryptInitialPacket env payload plen dcil scil).reads := by
  have hlt : tokenEnd payload dcil scil < 2^32 := Nat.mod_lt _ (by decide)
  have hu : u32 (tokenEnd payload dcil scil+8+(4+16))=tokenEnd payload dcil scil+28-2^32 := by
    unfold u32
    rw [Nat.mod_eq_sub_mod (by omega)]
    exact Nat.mod_eq_of_lt (by omega)
  have hmem := (quicLen_spec payload (tokenEnd payload dcil scil)).2.1
  unfold decryptInitialPacket
  rw [he,hp]
  dsimp only
  rw [if_neg (by decide),if_neg (by decide),hu,if_neg (by omega)]
  split
  · exact List.mem_append_left _ (List.mem_append_right _ hmem)
  · exact List.mem_append_left _ (List.mem_append_left _ (List.mem_append_right _ hmem))

end Packet

/-- For every datagram that quic_version and is_version_supported accept, the
parser reads only inside it exactly when it does not decrypt, or the offset
behind the token, taken modulo 2^32, is at least 28 below 2^32. -/
theorem quicDecap_inside_iff (env : Env) (payload : Payload) (plen : ℕ) (version : UInt32)
    (hlo : 1200 ≤ plen) (hhi : plen ≤ 65535) (hv : (quicVersion payload plen).1=some version)
    (hs : isVersionSupported version=true) :
    Inside plen (quicDecap env payload plen) ↔ (Decrypts env payload version →
      tokenEnd payload (payload 5).toNat (payload (6+(payload 5).toNat)).toNat < 2^32-28) := by
  have hreads := quicVersion_reads payload hlo
  have hnone : ∀ m,(none : Option ℕ)=some m → m+16 ≤ plen := fun m hm => by cases hm
  rcases hq : quicVersion payload plen with ⟨v,reads⟩
  rw [hq] at hv hreads
  obtain rfl := hv
  have happ : ∀ l : List Range,(∀ x ∈ l,x.1+x.2 ≤ plen) → ∀ x ∈ reads++l,x.1+x.2 ≤ plen := by
    intro l hl x hx
    rcases List.mem_append.mp hx with hx|hx
    · exact hreads x hx
    · exact hl x hx
  have h5 : ∀ x ∈ [((5 : ℕ),(1 : ℕ))],x.1+x.2 ≤ plen := by
    intro x hx
    obtain rfl := List.mem_singleton.mp hx
    show 5+1 ≤ plen
    omega
  unfold quicDecap Decrypts
  rw [hq]
  dsimp only
  rw [hs,if_neg (by decide)]
  by_cases hg : isGquicVerLessThan version 43=true
  · rw [if_pos hg]
    exact iff_of_true ⟨hreads,hnone⟩ fun hD => absurd hg hD.1
  · rw [if_neg hg]
    by_cases h46 : version=vQ046
    · rw [if_pos h46]
      exact iff_of_true ⟨happ _ h5,hnone⟩ fun hD => absurd h46 hD.2.1
    · rw [if_neg h46]
      generalize (payload 5).toNat=dcil
      by_cases hd : dcil=0 ∨ 20 < dcil
      · rw [if_pos hd]
        exact iff_of_true ⟨happ _ h5,hnone⟩ fun hD => absurd hd hD.2.2.1
      · rw [if_neg hd]
        generalize (payload (6+dcil)).toNat=scil
        have h56 : ∀ x ∈ [((5 : ℕ),(1 : ℕ)),(6+dcil,1)],x.1+x.2 ≤ plen := by
          intro x hx
          simp only [List.mem_cons,List.not_mem_nil,or_false] at hx
          rcases hx with rfl|rfl
          · show 5+1 ≤ plen
            omega
          · show 6+dcil+1 ≤ plen
            omega
        by_cases hsc : 20 < scil
        · rw [if_pos hsc]
          exact iff_of_true ⟨happ _ h56,hnone⟩ fun hD => absurd hsc hD.2.2.2.1
        · rw [if_neg hsc]
          constructor
          · rintro ⟨hin,-⟩ ⟨-,-,-,-,he,hp⟩
            by_contra hw
            have hmem := decryptInitialPacket_wrapped hlo he hp (not_lt.mp hw)
            have := hin _ (List.mem_append_right _ hmem)
            dsimp only at this
            omega
          · intro hw
            by_cases hkeys : env.derive=true ∧ env.prepare=true
            · have hin := decryptInitialPacket_inside env hlo hhi (by omega) (by omega)
                (hw ⟨hg,h46,hd,hsc,hkeys.1,hkeys.2⟩)
              refine ⟨fun x hx => ?_,hin.2⟩
              rcases List.mem_append.mp hx with hx|hx
              · exact happ _ h56 x hx
              · exact hin.1 x hx
            · have hid : ∀ x ∈ [((6 : ℕ),dcil)],x.1+x.2 ≤ plen := by
                intro x hx
                obtain rfl := List.mem_singleton.mp hx
                show 6+dcil ≤ plen
                omega
              have hpk : decryptInitialPacket env payload plen dcil scil=⟨[(6,dcil)],none,0⟩ := by
                unfold decryptInitialPacket
                by_cases he : env.derive=true
                · have hp : env.prepare=false := by
                    rw [←Bool.not_eq_true]
                    exact fun hp => hkeys ⟨he,hp⟩
                  rw [he,hp,if_neg (by decide),if_pos (by decide)]
                · rw [Bool.not_eq_true] at he
                  rw [he,if_pos (by decide)]
              rw [hpk]
              refine ⟨fun x hx => ?_,hnone⟩
              rcases List.mem_append.mp hx with hx|hx
              · exact happ _ h56 x hx
              · exact hid x hx

/-- An Initial packet of draft 29 with connection identifiers of eight and no
bytes, up to the length of its token. -/
def initialPacket (tokenLength : List UInt8) : Payload := fun i =>
  ([0xC0,0xFF,0,0,0x1D,8,1,2,3,4,5,6,7,8,0]++tokenLength).getD i 0

/-- A library whose calls all succeed. -/
def libgcrypt : Env where
  derive := true
  prepare := true
  encrypt := some
  malloc := fun _ => true
  opens := true

/-- A packet without a token. -/
theorem quicDecap_inside_iff_noToken :
    Inside 1200 (quicDecap libgcrypt (initialPacket [0]) 1200) ∧
      Decrypts libgcrypt (initialPacket [0]) 0xFF00001D :=
  ⟨(quicDecap_inside_iff libgcrypt (initialPacket [0]) 1200 0xFF00001D (by decide) (by decide)
    (by decide) (by decide)).mpr fun _ => by decide,by decide,by decide,by decide,by decide,rfl,rfl⟩

/-- A token length of 2^32-24 in an accepted datagram of 1200 bytes: the
payload length is read 4294967295 bytes behind its start. -/
theorem longToken_not_inside :
    (quicVersion (initialPacket [0xC0,0,0,0,0xFF,0xFF,0xFF,0xE8]) 1200).1=some 0xFF00001D ∧
      isVersionSupported 0xFF00001D=true ∧
      (4294967295,1) ∈
        (quicDecap libgcrypt (initialPacket [0xC0,0,0,0,0xFF,0xFF,0xFF,0xE8]) 1200).reads ∧
      ¬Inside 1200 (quicDecap libgcrypt (initialPacket [0xC0,0,0,0,0xFF,0xFF,0xFF,0xE8]) 1200) := by
  have hmem : ((4294967295 : ℕ),(1 : ℕ)) ∈
      (quicDecap libgcrypt (initialPacket [0xC0,0,0,0,0xFF,0xFF,0xFF,0xE8]) 1200).reads := by
    decide
  refine ⟨by decide,by decide,hmem,fun h => ?_⟩
  have := h.1 _ hmem
  omega

end StudyCode.Quic
