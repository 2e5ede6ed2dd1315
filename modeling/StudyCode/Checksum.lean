import StudyCode.CheckedLoop

/-!
# The Internet checksum

`checksum` adds all words in a wide integer and folds the carries in twice at
the end; `ip_checksum` folds after each of its ten words. Up to 65537 words
both keep the sum modulo 65535 and tell an empty sum from a full one.
-/

namespace StudyCode.Checksum

open Checked

/-- The two widths of `unsigned long`. -/
inductive LongWidth where
  /-- As wide as int. -/
  | ilp32
  /-- Twice as wide. -/
  | lp64

/-- Number of bits of `unsigned long`. -/
def LongWidth.bits : LongWidth → ℕ
  | .ilp32 => 32
  | .lp64 => 64

/-! ## checksum and ip_checksum -/

/-- One turn of the loop of `checksum`. -/
def addWord (k : LongWidth) (buf : List UInt16) (i : ℤ) (sum : ℕ) : Option ℕ := do
  let word ← cellAt buf i
  some ((sum+word.toNat)%2^k.bits)

/-- `checksum`: the complement of the sum with its carries folded in twice. -/
def checksum (k : LongWidth) (buf : List UInt16) (nword : ℤ) : Option UInt16 := do
  let sum ← forUp (addWord k buf) 0 nword 0
  let sum := (sum/2^16+sum%2^16)%2^k.bits
  let sum := (sum+sum/2^16)%2^k.bits
  some (UInt16.ofNat (2^k.bits-1-sum))

/-- One turn of the loop of `ip_checksum`, which folds at once. -/
def addFolded (ipHdr : List UInt16) (i : ℤ) (sum : ℕ) : Option ℕ := do
  let word ← cellAt ipHdr i
  let sum := (sum+word.toNat)%2^32
  some ((sum%2^16+sum/2^16)%2^32)

/-- `ip_checksum` on the ten words of a header. -/
def ipChecksum (ipHdr : List UInt16) : Option UInt16 := do
  let first ← cellAt ipHdr 0
  let sum ← forUp (addFolded ipHdr) 1 10 first.toNat
  some (UInt16.ofNat ((0xffff+2^32-sum)%2^32))

/-! ## The sum in one's complement -/

/-- Plain sum of the words. -/
def plainSum (buf : List UInt16) : ℕ := (buf.map UInt16.toNat).sum

/-- The sum in one's complement of words whose plain sum is given. -/
def onesSum (sum : ℕ) : ℕ := if sum=0 then 0 else (sum-1)%65535+1

/-- A sum with end-around carry is 16 bits wide. -/
theorem onesSum_le (sum : ℕ) : onesSum sum ≤ 65535 := by
  unfold onesSum
  split <;> omega

/-- A folded sum is known from its rest modulo 65535 and from being zero. -/
theorem eq_onesSum {c sum : ℕ} (hc : c ≤ 65535) (hmod : c%65535=sum%65535) (h0 : c=0 ↔ sum=0) :
    c=onesSum sum := by
  unfold onesSum
  split <;> omega

/-- It keeps the rest modulo 65535. -/
theorem onesSum_mod (sum : ℕ) : onesSum sum%65535=sum%65535 := by
  unfold onesSum
  split <;> omega

/-- It is zero only for zero. -/
theorem onesSum_eq_zero (sum : ℕ) : onesSum sum=0 ↔ sum=0 := by
  unfold onesSum
  split <;> omega

/-- One fold: the carries above 16 bits are added to the bits below. -/
def fold (n : ℕ) : ℕ := n/2^16+n%2^16

/-- Folding keeps the rest modulo 65535. -/
theorem fold_mod (n : ℕ) : fold n%65535=n%65535 := by
  have h : n=fold n+65535*(n/2^16) := by
    unfold fold
    omega
  conv_rhs => rw [h,Nat.add_mul_mod_self_left]

/-- Folding gives zero only for zero. -/
theorem fold_eq_zero (n : ℕ) : fold n=0 ↔ n=0 := by
  unfold fold
  omega

/-- A sum of two words folds to a word. -/
theorem fold_le {n : ℕ} (h : n ≤ 131070) : fold n ≤ 65535 := by
  unfold fold
  rcases Nat.lt_or_ge n 65536 with hlt|hge <;> omega

/-- Adding the carry and cutting to 16 bits is a fold. -/
theorem cut_eq_fold {n : ℕ} (h : n ≤ 131070) : (n+n/2^16)%2^16=fold n := by
  unfold fold
  rcases Nat.lt_or_ge n 65536 with hlt|hge
  · have : n/2^16=0 := by omega
    omega
  · have : n/2^16=1 := by omega
    omega

/-- A word is at most 65535. -/
theorem word_le (x : UInt16) : x.toNat ≤ 65535 := by
  have := x.toNat_lt
  omega

/-- The plain sum of a buffer is bounded by its length. -/
theorem plainSum_le (buf : List UInt16) : plainSum buf ≤ 65535*buf.length := by
  induction buf with
  | nil => simp [plainSum]
  | cons x buf ih =>
    have := word_le x
    simp only [plainSum,List.map_cons,List.sum_cons,List.length_cons] at *
    omega

/-- One word more. -/
theorem plainSum_take_succ {buf : List UInt16} {i : ℕ} (hi : i < buf.length) :
    plainSum (buf.take (i+1))=plainSum (buf.take i)+buf[i].toNat := by
  unfold plainSum
  rw [List.take_add_one,List.getElem?_eq_getElem hi,List.map_append,List.sum_append]
  simp

/-- The sum of a first part is bounded too. -/
theorem plainSum_take_le (buf : List UInt16) (i : ℕ) :
    plainSum (buf.take i) ≤ 65535*buf.length := by
  have h := plainSum_le (buf.take i)
  have hlen : (buf.take i).length ≤ buf.length := by simp
  omega

/-! ## Both functions compute it -/

/-- A sum of 32 bits fits into any long. -/
theorem lt_pow_bits (k : LongWidth) {n : ℕ} (h : n < 2^32) : n%2^k.bits=n := by
  cases k <;> simp only [LongWidth.bits] <;> omega

/-- One round adds one word. -/
theorem addWord_spec (k : LongWidth) {buf : List UInt16} (hlen : buf.length ≤ 65537) {i : ℕ}
    (hi : i < buf.length) :
    addWord k buf i (plainSum (buf.take i))=some (plainSum (buf.take (i+1))) := by
  have hle := plainSum_take_le buf (i+1)
  rw [plainSum_take_succ hi] at *
  rw [addWord,cellAt_of_lt hi]
  simp only [Option.bind_eq_bind,Option.bind_some]
  rw [lt_pow_bits k (by omega)]

/-- The loop adds up the words. -/
theorem addWords_spec (k : LongWidth) {buf : List UInt16} (hlen : buf.length ≤ 65537) :
    forUp (addWord k buf) 0 buf.length 0=some (plainSum buf) := by
  obtain ⟨t,ht,hs⟩ := forUp_spec (fun i sum => sum=plainSum (buf.take i))
    (Nat.zero_le buf.length) rfl
    fun i sum _ hi hs => ⟨_,by rw [hs]; exact addWord_spec k hlen hi,rfl⟩
  rw [List.take_length] at hs
  rw [←hs]
  exact_mod_cast ht

/-- Two folds are enough for a sum below 2^32. -/
theorem foldTwice (k : LongWidth) {sum : ℕ} (h : sum < 2^32) :
    (UInt16.ofNat (2^k.bits-1-
      (fold sum%2^k.bits+fold sum%2^k.bits/2^16)%2^k.bits)).toNat=65535-onesSum sum := by
  have hle : fold sum ≤ 131070 := by
    unfold fold
    omega
  rw [lt_pow_bits k (by omega : fold sum < 2^32),lt_pow_bits k (by omega)]
  have hones : fold (fold sum)=onesSum sum := by
    apply eq_onesSum (fold_le hle)
    · rw [fold_mod,fold_mod]
    · rw [fold_eq_zero,fold_eq_zero]
  have hcut := cut_eq_fold hle
  have hword := onesSum_le sum
  cases k <;> simp only [LongWidth.bits,UInt16.toNat_ofNat'] <;> omega

/-- The checksum is the complement of the sum with end-around carry. -/
theorem checksum_eq (k : LongWidth) {buf : List UInt16} (hlen : buf.length ≤ 65537) :
    ∃ c : UInt16,checksum k buf buf.length=some c ∧ c.toNat=65535-onesSum (plainSum buf) := by
  have hlt : plainSum buf < 2^32 := by
    have := plainSum_le buf
    omega
  refine ⟨_,?_,foldTwice k hlt⟩
  rw [checksum,addWords_spec k hlen]
  rfl

/-- One round of the other loop adds one word and folds. -/
theorem addFolded_spec {buf : List UInt16} {i : ℕ} (hi : i < buf.length) :
    addFolded buf i (onesSum (plainSum (buf.take i)))=
      some (onesSum (plainSum (buf.take (i+1)))) := by
  have hw := word_le buf[i]
  have hle := onesSum_le (plainSum (buf.take i))
  rw [addFolded,cellAt_of_lt hi,plainSum_take_succ hi]
  simp only [Option.bind_eq_bind,Option.bind_some,Option.some.injEq]
  generalize plainSum (buf.take i)=s at *
  have hsum : (onesSum s+buf[i].toNat)%2^32=onesSum s+buf[i].toNat := by omega
  have hfold : fold (onesSum s+buf[i].toNat)=onesSum (s+buf[i].toNat) := by
    apply eq_onesSum (fold_le (by omega))
    · rw [fold_mod,Nat.add_mod,onesSum_mod,←Nat.add_mod]
    · rw [fold_eq_zero]
      have := onesSum_eq_zero s
      omega
  rw [hsum,←hfold,Nat.add_comm (_%_)]
  have := fold_le (n := onesSum s+buf[i].toNat) (by omega)
  exact Nat.mod_eq_of_lt (by unfold fold at this; omega)

/-- The first word stands for its own sum. -/
theorem plainSum_take_one {buf : List UInt16} (h : 0 < buf.length) :
    buf[0].toNat=onesSum (plainSum (buf.take 1)) := by
  have hs := plainSum_take_succ h
  rw [hs]
  have hw := word_le buf[0]
  exact eq_onesSum hw (by simp [plainSum]) (by simp [plainSum])

/-- The checksum of the header is the complement of the same sum. -/
theorem ipChecksum_eq {buf : List UInt16} (hlen : buf.length=10) :
    ∃ c : UInt16,ipChecksum buf=some c ∧ c.toNat=65535-onesSum (plainSum buf) := by
  have h0 : 0 < buf.length := by omega
  obtain ⟨t,ht,hs⟩ := forUp_spec (fun i sum => sum=onesSum (plainSum (buf.take i)))
    (show 1 ≤ 10 by omega) (plainSum_take_one h0)
    fun i sum _ hi hs => ⟨_,by rw [hs]; exact addFolded_spec (by omega),rfl⟩
  rw [←hlen,List.take_length] at hs
  have hfirst : cellAt buf 0=some buf[0] := cellAt_of_lt h0
  have hloop : forUp (addFolded buf) 1 10 buf[0].toNat=some t := by exact_mod_cast ht
  have hword := onesSum_le (plainSum buf)
  refine ⟨UInt16.ofNat ((0xffff+2^32-t)%2^32),?_,?_⟩
  · simp [ipChecksum,hfirst,hloop]
  · rw [hs,UInt16.toNat_ofNat']
    omega

/-! ## Storing the checksum -/

/-- Storing the checksum where a zero stood adds it. -/
theorem plainSum_set {buf : List UInt16} {i : ℕ} (h : buf[i]?=some 0) (c : UInt16) :
    plainSum (buf.set i c)=plainSum buf+c.toNat := by
  induction buf generalizing i with
  | nil => simp at h
  | cons x buf ih =>
    cases i with
    | zero =>
      obtain rfl : x=0 := by simpa using h
      simp [plainSum]
      omega
    | succ i =>
      have := ih (i := i) (by simpa using h)
      simp only [plainSum,List.set_cons_succ,List.map_cons,List.sum_cons] at *
      omega

/-- A buffer of zeros sums up to zero. -/
theorem plainSum_eq_zero {buf : List UInt16} (h : ∀ w ∈ buf,w=0) : plainSum buf=0 := by
  apply List.sum_eq_zero
  intro n hn
  obtain ⟨w,hw,rfl⟩ := List.mem_map.mp hn
  rw [h w hw]
  rfl

/-- A sum completed by the complement of its own fold is full. -/
theorem onesSum_complete (sum : ℕ) : onesSum (sum+(65535-onesSum sum))=65535 := by
  have hle := onesSum_le sum
  have hmod := onesSum_mod sum
  have hz := onesSum_eq_zero sum
  refine (eq_onesSum le_rfl ?_ (by omega)).symm
  omega

/-- `checksum` is the complement of the sum in one's complement, `ip_checksum`
agrees with it on ten words, and a list with its checksum stored at a zero
word has checksum 0. -/
theorem checksum_internet (k : LongWidth) (buf : List UInt16) (hlen : buf.length ≤ 65537) :
    (∃ c : UInt16,checksum k buf buf.length=some c ∧ c.toNat=65535-onesSum (plainSum buf)) ∧
    (buf.length=10 → ∃ c,ipChecksum buf=some c ∧ checksum k buf 10=some c) ∧
    ∀ i,buf[i]?=some 0 → ∃ c : UInt16,checksum k buf buf.length=some c ∧
      checksum k (buf.set i c) buf.length=some 0 ∧ ((∀ w ∈ buf,w=0) → c=0xffff) := by
  obtain ⟨c,hc,hv⟩ := checksum_eq k hlen
  refine ⟨⟨c,hc,hv⟩,?_,?_⟩
  · intro h10
    obtain ⟨d,hd,hdv⟩ := ipChecksum_eq h10
    refine ⟨d,hd,?_⟩
    rw [h10] at hc
    rw [show d=c from UInt16.toNat_inj.mp (hdv.trans hv.symm)]
    exact hc
  · intro i hi
    obtain ⟨d,hd,hdv⟩ := checksum_eq k (show (buf.set i c).length ≤ 65537 by simpa using hlen)
    rw [plainSum_set hi,hv,onesSum_complete] at hdv
    rw [List.length_set] at hd
    refine ⟨c,hc,?_,?_⟩
    · rw [show d=0 from UInt16.toNat_inj.mp hdv] at hd
      exact hd
    · intro hzero
      rw [plainSum_eq_zero hzero] at hv
      exact UInt16.toNat_inj.mp hv

/-- The header of the program's main, whose checksum word is 0. -/
theorem checksum_internet_header :
    ∃ c,ipChecksum [0x0045,0x4000,0x54ab,0,0x117f,0,0x0808,0x0808,0xa8c0,0x6700]=some c ∧
      checksum .lp64 [0x0045,0x4000,0x54ab,0,0x117f,0,0x0808,0x0808,0xa8c0,0x6700] 10=some c :=
  (checksum_internet .lp64 [0x0045,0x4000,0x54ab,0,0x117f,0,0x0808,0x0808,0xa8c0,0x6700]
    (by decide)).2.1 rfl

end StudyCode.Checksum
