import Mathlib.Tactic

/-!
# The RAM disk

A request names a sector of 64 bits and a number of sectors of 32 bits. The range
check and the addresses are computed with the widths of the source, so that both
wrap around. The memory is addressed from the start of the disk on, modulo the
width of a pointer.
-/

namespace StudyCode.SimpBlkdev

/-- SIMP_BLKDEV_BYTES. -/
def simpBlkdevBytes : ℕ := 16*1024*1024

/-- The direction of a request. -/
inductive Dir where
  /-- The request reads the disk. -/
  | read
  /-- The request writes it. -/
  | write
  deriving DecidableEq

/-- A request. -/
structure Request where
  /-- The first sector. -/
  sector : UInt64
  /-- The number of sectors. -/
  currentNrSectors : UInt32
  /-- The direction. -/
  dir : Dir
  /-- The bytes of the buffer. -/
  buffer : ℕ → UInt8

/-- The memory from the start of simp_blkdev_data on. -/
abbrev Memory := ℕ → UInt8

/-- The range check: the sum and the shift have 64 bits. -/
def Request.bad (r : Request) : Bool :=
  decide (simpBlkdevBytes < (r.sector.toNat+r.currentNrSectors.toNat)%2^64*2^9%2^64)

/-- Where memcpy starts: the shift has 64 bits. -/
def Request.start (r : Request) : ℕ := r.sector.toNat*2^9%2^64

/-- The length of memcpy: the shift has 32 bits. -/
def Request.length (r : Request) : ℕ := r.currentNrSectors.toNat*2^9%2^32

/-- The address of a byte of memcpy. -/
def Request.addr (r : Request) (j : ℕ) : ℕ := (r.start+j)%2^64

/-- Which byte of memcpy an address is. -/
def Request.index (r : Request) (a : ℕ) : ℕ := (a+2^64-r.start)%2^64

/-- What the end of a request tells the block layer. -/
structure Outcome where
  /-- The argument of end_request. -/
  uptodate : ℕ
  /-- The buffer. -/
  buffer : ℕ → UInt8

/-- One round of simp_blkdev_do_request. -/
def doRequest (m : Memory) (r : Request) : Memory × Outcome :=
  if r.bad then (m,⟨0,r.buffer⟩)
  else
    match r.dir with
    | .read => (m,⟨1,fun j => if j < r.length then m (r.addr j) else r.buffer j⟩)
    | .write => (fun a => if r.index a < r.length then r.buffer (r.index a) else m a,⟨1,r.buffer⟩)

/-- The memory after some requests. -/
def memoryAfter (m : Memory) (rs : List Request) : Memory :=
  rs.foldl (fun m r => (doRequest m r).1) m

/-! ## The disk as a byte store -/

/-- The position of a byte of a request on the disk. -/
def Request.position (r : Request) (j : ℕ) : ℕ := r.sector.toNat*512+j

/-- The number of bytes of a request. -/
def Request.bytes (r : Request) : ℕ := r.currentNrSectors.toNat*512

/-- What the positions of the disk hold after one more request. -/
def written (d : ℕ → UInt8) (r : Request) : ℕ → UInt8 :=
  if r.bad=false ∧ r.dir=.write then fun p =>
    if r.sector.toNat*512 ≤ p ∧ p < r.sector.toNat*512+r.bytes then r.buffer (p-r.sector.toNat*512)
    else d p
  else d

/-- What was written last to each position, or zero. -/
def writtenAfter (rs : List Request) : ℕ → UInt8 := rs.foldl written fun _ => 0

/-- A request is served as by a byte store. -/
structure Served (m : Memory) (d : ℕ → UInt8) (r : Request) : Prop where
  /-- The copied bytes lie inside of the disk. -/
  inside : r.bad=false → ∀ j < r.length,r.addr j < simpBlkdevBytes
  /-- An accepted read returns what was written last. -/
  read : r.bad=false → r.dir=.read →
    (doRequest m r).2.uptodate=1 ∧ ∀ j < r.bytes,(doRequest m r).2.buffer j=d (r.position j)
  /-- An accepted write succeeds. -/
  write : r.bad=false → r.dir=.write → (doRequest m r).2.uptodate=1
  /-- A rejected request fails and changes nothing. -/
  rejected : r.bad=true → (doRequest m r).2.uptodate=0 ∧ (doRequest m r).1=m

/-- Not accepted by a wrapped sum: the request is empty, or it lies on the disk,
or its wrapped range is too large. -/
def Request.Clear (r : Request) : Prop :=
  r.currentNrSectors.toNat=0 ∨ r.sector.toNat+r.currentNrSectors.toNat ≤ 32768 ∨
    32768 < (r.sector.toNat+r.currentNrSectors.toNat)%2^55

/-! ## One request -/

variable {m : Memory} {d : ℕ → UInt8} {r : Request}

/-- A request is refused when its end is behind the disk. -/
theorem bad_iff : r.bad=true ↔ 32768 < (r.sector.toNat+r.currentNrSectors.toNat)%2^55 := by
  unfold Request.bad simpBlkdevBytes
  rw [decide_eq_true_iff]
  omega

/-- An accepted clear request lies on the disk or is empty. -/
theorem Request.Clear.fits (h : r.Clear) (hb : r.bad=false) :
    r.currentNrSectors.toNat=0 ∨ r.sector.toNat+r.currentNrSectors.toNat ≤ 32768 := by
  rcases h with h|h|h
  · exact Or.inl h
  · exact Or.inr h
  · rw [bad_iff.mpr h] at hb
    cases hb

/-- The bytes of a request that is served. -/
theorem length_eq (h : r.currentNrSectors.toNat=0 ∨
    r.sector.toNat+r.currentNrSectors.toNat ≤ 32768) : r.length=r.bytes := by
  unfold Request.length Request.bytes
  omega

/-- The address of a byte of a request on the disk is its position. -/
theorem addr_eq (h : r.sector.toNat+r.currentNrSectors.toNat ≤ 32768) {j : ℕ} (hj : j < r.bytes) :
    r.addr j=r.position j ∧ r.position j < simpBlkdevBytes := by
  unfold Request.addr Request.start Request.position Request.bytes simpBlkdevBytes at *
  omega

/-- Which bytes of the disk a request touches. -/
theorem index_eq (h : r.sector.toNat+r.currentNrSectors.toNat ≤ 32768) {a : ℕ}
    (ha : a < simpBlkdevBytes) :
    r.index a < r.bytes ↔ r.sector.toNat*512 ≤ a ∧ a < r.sector.toNat*512+r.bytes := by
  unfold Request.index Request.start Request.bytes simpBlkdevBytes at *
  omega

/-- The place of such a byte in the request. -/
theorem index_sub {a : ℕ} (ha : a < simpBlkdevBytes) (hle : r.sector.toNat*512 ≤ a) :
    r.index a=a-r.sector.toNat*512 := by
  unfold Request.index Request.start simpBlkdevBytes at *
  omega

/-- The memory of the disk is what was written last. -/
def Stores (m : Memory) (d : ℕ → UInt8) : Prop := ∀ a < simpBlkdevBytes,m a=d a

/-- A clear request is served. -/
theorem Stores.served (h : Stores m d) (hr : r.Clear) : Served m d r := by
  have hsize : ∀ j,r.bad=false → j < r.length →
      r.sector.toNat+r.currentNrSectors.toNat ≤ 32768 ∧ j < r.bytes := by
    intro j hb hj
    have hfits := hr.fits hb
    rw [length_eq hfits] at hj
    refine ⟨hfits.resolve_left fun hz => ?_,hj⟩
    rw [Request.bytes,hz] at hj
    exact Nat.not_lt_zero j hj
  constructor
  · intro hb j hj
    obtain ⟨hle,hjb⟩ := hsize j hb hj
    obtain ⟨h1,h2⟩ := addr_eq hle hjb
    rw [h1]
    exact h2
  · intro hb hdir
    unfold doRequest
    rw [hb,hdir]
    refine ⟨rfl,fun j hj => ?_⟩
    rw [←length_eq (hr.fits hb)] at hj
    obtain ⟨hle,hjb⟩ := hsize j hb hj
    obtain ⟨h1,h2⟩ := addr_eq hle hjb
    show (if j < r.length then m (r.addr j) else r.buffer j)=d (r.position j)
    rw [if_pos hj,h1]
    exact h _ h2
  · intro hb hdir
    unfold doRequest
    rw [hb,hdir]
    rfl
  · intro hb
    unfold doRequest
    rw [hb]
    exact ⟨rfl,rfl⟩

/-- A clear request keeps what is stored. -/
theorem Stores.step (h : Stores m d) (hr : r.Clear) : Stores (doRequest m r).1 (written d r) := by
  intro a ha
  unfold doRequest written
  cases hb : r.bad with
  | true => exact h a ha
  | false =>
    cases hdir : r.dir with
    | read => exact h a ha
    | write =>
      rw [if_neg Bool.false_ne_true,if_pos ⟨rfl,rfl⟩]
      have hfits := hr.fits hb
      show (if r.index a < r.length then r.buffer (r.index a) else m a)=_
      rw [length_eq hfits]
      rcases hfits with hz|hle
      · have hzero : r.bytes=0 := by rw [Request.bytes,hz]
        rw [hzero,if_neg (Nat.not_lt_zero _),if_neg (by omega)]
        exact h a ha
      · by_cases hin : r.sector.toNat*512 ≤ a ∧ a < r.sector.toNat*512+r.bytes
        · rw [if_pos ((index_eq hle ha).mpr hin),if_pos hin,index_sub ha hin.1]
        · rw [if_neg (fun hlt => hin ((index_eq hle ha).mp hlt)),if_neg hin]
          exact h a ha

/-! ## Runs -/

/-- So does a run of clear requests. -/
theorem Stores.run (h : Stores m d) {rs : List Request} (hrs : ∀ r ∈ rs,r.Clear) :
    Stores (memoryAfter m rs) (rs.foldl written d) := by
  induction rs generalizing m d with
  | nil => exact h
  | cons r rs ih =>
    exact ih (h.step (hrs r List.mem_cons_self)) fun x hx => hrs x (List.mem_cons_of_mem r hx)

/-- In every run of requests none of which is accepted by a wrapped sum, every
request is served as by a byte store. -/
theorem requests_served (hm : ∀ a < simpBlkdevBytes,m a=0) (rs : List Request)
    (hrs : ∀ r ∈ rs,r.Clear) :
    ∀ p r q,rs=p++r::q → Served (memoryAfter m p) (writtenAfter p) r := by
  rintro p r q rfl
  have hstores : Stores (memoryAfter m p) (writtenAfter p) :=
    Stores.run hm fun x hx => hrs x (List.mem_append_left _ hx)
  exact hstores.served (hrs r (List.mem_append_right _ List.mem_cons_self))

/-- One sector of ones. -/
def oneSector (sector : UInt64) (dir : Dir) : Request := ⟨sector,1,dir,fun _ => 1⟩

/-- A sector that is written and read. -/
theorem requests_served_sector :
    (∀ r ∈ [oneSector 3 .write,oneSector 3 .read],r.Clear) ∧
      Served (memoryAfter (fun _ => 0) [oneSector 3 .write]) (writtenAfter [oneSector 3 .write])
        (oneSector 3 .read) := by
  have hclear : ∀ r ∈ [oneSector 3 .write,oneSector 3 .read],r.Clear := by
    intro r hr
    rcases List.mem_cons.mp hr with rfl|hr
    · exact Or.inr (Or.inl (by decide))
    · rw [List.mem_singleton.mp hr]
      exact Or.inr (Or.inl (by decide))
  exact ⟨hclear,requests_served (fun _ _ => rfl) _ hclear [oneSector 3 .write] _ [] rfl⟩

/-- The sector before the start of the disk is accepted. -/
theorem request_outside :
    (oneSector 0x7fffffffffffff .write).bad=false ∧
      (oneSector 0x7fffffffffffff .write).addr 0=2^64-512 ∧
      ¬∀ p r q,[oneSector 0x7fffffffffffff .write]=p++r::q →
        Served (memoryAfter (fun _ => 0) p) (writtenAfter p) r := by
  have hgood : (oneSector 0x7fffffffffffff .write).bad=false := by decide
  have haddr : (oneSector 0x7fffffffffffff .write).addr 0=2^64-512 := by decide
  refine ⟨hgood,haddr,fun h => ?_⟩
  have hin := (h [] _ [] rfl).inside hgood 0 (by decide)
  rw [haddr] at hin
  exact absurd hin (by decide)

end StudyCode.SimpBlkdev
