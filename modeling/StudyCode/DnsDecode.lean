import StudyCode.DnsWalk

/-!
# The text of a name

A conversion writes the labels from the start of the block on, but it copies
the block to the caller from the write cursor, which is then behind the last
label. So the caller gets what the block held there before, and the text of a
name only when it happened to stand there already.
-/

namespace StudyCode.Dns

/-- Bytes from a place on. -/
def bytes (mem : Memory) (o n : ℕ) : List UInt8 := (List.range n).map fun i => mem (o+i)

/-- The labels of the name that is read from an offset on. -/
def labels (mem : Memory) : ℕ → List Piece → List (List UInt8)
  | _,[] => []
  | q,.label n::l => bytes mem (q+1) n::labels mem (q+n+1) l
  | _,.pointer t::l => labels mem t l

/-- The labels joined by dots. -/
def text (mem : Memory) (q : ℕ) (l : List Piece) : List UInt8 := [46].intercalate (labels mem q l)

/-- A text and a zero byte stand at a place. -/
def HoldsAt (mem : Memory) (o : ℕ) (a : List UInt8) : Prop := bytes mem o (a.length+1)=a++[0]

instance (mem : Memory) (o : ℕ) (a : List UInt8) : Decidable (HoldsAt mem o a) :=
  inferInstanceAs (Decidable (_=_))

/-- A well-formed name from an offset on: 1 to 99 labels and pointers, each
pointer to an earlier place, and 255 bytes at most without the pointers. -/
structure NameFrom (mem : Memory) (size o : ℕ) (l : List Piece) : Prop where
  /-- The pieces. -/
  chain : Chain mem size o l
  /-- One piece at least. -/
  ne_nil : l≠[]
  /-- At most 99 pieces. -/
  pieces : l.length < 100
  /-- The length. -/
  short : textLength l+1 ≤ 255

/-- A conversion comes back with 0, with the number of bytes that the name
takes at its offset, and with its text in query_name. -/
def Decodes (p : Platform) (mem : Memory) (size o : ℕ) (queryName : Memory) (l : List Piece) : Prop :=
  ∃ r,urlConvert true (p.malloc o) p.block mem size o queryName=some r ∧ defined p.interior r=true ∧
    r.ret=0 ∧ r.len=wireLength l ∧ HoldsAt r.queryName 0 (text mem o l)

/-- The block behind the labels of a name: as it was, with a zero byte behind
a last label. -/
def leftover (block : Memory) (l : List Piece) : Memory :=
  if endsInLabel l then Function.update block (writtenLength l) 0 else block

section Decode

variable {p : Platform} {mem queryName : Memory} {size o q : ℕ} {l : List Piece} {c d : Cursor}

/-- As many bytes as were asked for. -/
@[simp] theorem length_bytes (mem : Memory) (o n : ℕ) : (bytes mem o n).length=n := by simp [bytes]

/-- Bytes depend on their own places only. -/
theorem bytes_congr {mem mem' : Memory} {o o' n : ℕ} (h : ∀ i < n,mem (o+i)=mem' (o'+i)) :
    bytes mem o n=bytes mem' o' n :=
  List.map_congr_left fun i hi => h i (List.mem_range.mp hi)

/-- The text is no longer than its bound. -/
theorem length_text_le (mem : Memory) (q : ℕ) (l : List Piece) :
    (text mem q l).length ≤ textLength l := by
  induction l generalizing q with
  | nil => exact le_rfl
  | cons a l ih =>
    cases a with
    | pointer t => exact ih t
    | label n =>
      have hrest := ih (q+n+1)
      unfold text at hrest ⊢
      rw [labels,textLength]
      cases hL : labels mem (q+n+1) l with
      | nil =>
        rw [List.intercalate_singleton,length_bytes]
        omega
      | cons b L =>
        rw [hL] at hrest
        rw [List.intercalate_cons_cons,List.length_append,List.length_append,length_bytes]
        simp only [List.length_singleton]
        omega

/-- Nothing is written exactly when there is no label. -/
theorem Chain.writtenLength_eq_zero (h : Chain mem size q l) :
    writtenLength l=0 ↔ ∀ n,Piece.label n ∉ l := by
  induction h with
  | root hq h => exact iff_of_true rfl fun n hn => absurd hn List.not_mem_nil
  | @label q l h0 h63 h ih =>
    have hpos : (mem q).toNat≠0 := fun h => h0 (UInt8.toNat_inj.mp h)
    refine iff_of_false (fun hw => ?_) fun hno => hno _ List.mem_cons_self
    rw [writtenLength] at hw
    omega
  | @pointer q l hc hq hlo ht h ih =>
    rw [writtenLength,ih]
    refine forall_congr' fun n => not_congr ?_
    simp

/-- What the copy takes from the block. -/
theorem ReadTo.copied (E : ReadTo size l c d) (hc : c.cur=0) {a : List UInt8}
    (ha : a.length < urlMaxLength) :
    HoldsAt (memcpy queryName d.block 0 d.cur urlMaxLength) 0 a ↔
      HoldsAt (leftover c.block l) (writtenLength l) a := by
  have hcur : d.cur=writtenLength l := by rw [E.cur,hc,Nat.zero_add]
  have hbytes : bytes (memcpy queryName d.block 0 d.cur urlMaxLength) 0 (a.length+1)=
      bytes (leftover c.block l) (writtenLength l) (a.length+1) := by
    refine bytes_congr fun i hi => ?_
    have hcopy : memcpy queryName d.block 0 d.cur urlMaxLength (0+i)=d.block (d.cur+i) := by
      unfold memcpy
      rw [if_pos ⟨by omega,by omega⟩,Nat.zero_add,Nat.sub_zero]
    rw [hcopy,E.block _ (by omega),hcur]
    unfold leftover
    by_cases he : endsInLabel l=true
    · rw [if_pos he]
      by_cases h0 : i=0
      · rw [if_pos ⟨he,by omega⟩,h0,Nat.add_zero,Function.update_self]
      · rw [if_neg (fun hx => h0 (by omega)),Function.update_of_ne (by omega)]
    · rw [if_neg (fun hx => he hx.1),if_neg he]
  unfold HoldsAt
  rw [hbytes]

/-- A name is accepted when no pointer in it is too small. -/
theorem NameFrom.accepted_iff (h : NameFrom mem size o l) :
    Accepted l ↔ ∀ t,Piece.pointer t ∈ l → 18 < t :=
  and_iff_right h.pieces

/-- A name that is accepted is decoded exactly when its call has only defined
effects and the block already held the text where its copy starts. -/
theorem decodes_accepted (h : NameFrom mem size o l) (hm : p.malloc o=true) (ha : Accepted l) :
    Decodes p mem size o queryName l ↔
      (p.interior=true ∨ ∀ n,Piece.label n ∉ l) ∧
        HoldsAt (leftover p.block l) (writtenLength l) (text mem o l) := by
  obtain ⟨d,r,hr,E,R⟩ := urlConvert_accepted queryName h.chain h.short hm ha
  have hshort : (text mem o l).length < urlMaxLength := by
    have := length_text_le mem o l
    have := h.short
    unfold urlMaxLength
    omega
  have hdec : Decodes p mem size o queryName l ↔
      defined p.interior r=true ∧ HoldsAt r.queryName 0 (text mem o l) := by
    constructor
    · rintro ⟨r',hr',hd',-,-,ht'⟩
      rw [hr] at hr'
      obtain rfl := Option.some.inj hr'
      exact ⟨hd',ht'⟩
    · rintro ⟨hd',ht'⟩
      exact ⟨r,hr,hd',R.ret,R.len.trans (codeLength_eq h.ne_nil),ht'⟩
  rw [hdec,defined_iff E R,h.chain.writtenLength_eq_zero,R.queryName,E.copied rfl hshort]
  rfl

/-- A name that is decoded is accepted. -/
theorem Decodes.accepted (hdec : Decodes p mem size o queryName l) (h : Chain mem size o l) :
    p.malloc o=true ∧ Accepted l := by
  obtain ⟨r,hr,-,hret,-⟩ := hdec
  by_contra hno
  obtain ⟨r',hr',hneg⟩ := urlConvert_refused queryName h hno
  rw [hr] at hr'
  obtain rfl := Option.some.inj hr'
  rw [hret] at hneg
  exact absurd hneg (by decide)

/-- A decoded name stood in the block before. -/
theorem Decodes.held (hdec : Decodes p mem size o queryName l) (h : NameFrom mem size o l) :
    HoldsAt (leftover p.block l) (writtenLength l) (text mem o l) := by
  obtain ⟨hm,ha⟩ := hdec.accepted h.chain
  exact ((decodes_accepted h hm ha).mp hdec).2

/-- For every library and every well-formed name, a conversion decodes it
exactly when there is a block, the library goes on inside of a block or the
name has no label, no pointer leads to an offset up to 18, and the block
already held the text where its copy starts. -/
theorem urlConvert_decodes_iff (p : Platform) (mem : Memory) (size o : ℕ) (queryName : Memory)
    (l : List Piece) (h : NameFrom mem size o l) :
    Decodes p mem size o queryName l ↔
      p.malloc o=true ∧ (p.interior=true ∨ ∀ n,Piece.label n ∉ l) ∧
        (∀ t,Piece.pointer t ∈ l → 18 < t) ∧
        HoldsAt (leftover p.block l) (writtenLength l) (text mem o l) := by
  constructor
  · intro hdec
    obtain ⟨hm,ha⟩ := hdec.accepted h.chain
    exact ⟨hm,((decodes_accepted h hm ha).mp hdec).1,h.accepted_iff.mp ha,hdec.held h⟩
  · rintro ⟨hm,hi,hp,hold⟩
    exact (decodes_accepted h hm (h.accepted_iff.mpr hp)).mpr ⟨hi,hold⟩

/-- The text of a name that ends in a label has a character. -/
theorem Chain.text_ne_nil (h : Chain mem size q l) (he : endsInLabel l=true) : text mem q l≠[] := by
  induction h with
  | root hq h => cases he
  | @label q l h0 h63 h ih =>
    have hpos : (mem q).toNat≠0 := fun h => h0 (UInt8.toNat_inj.mp h)
    have hbytes : bytes mem (q+1) (mem q).toNat≠[] := by
      refine List.ne_nil_of_length_pos ?_
      rw [length_bytes]
      omega
    unfold text
    rw [labels]
    cases labels mem (q+(mem q).toNat+1) l with
    | nil =>
      rw [List.intercalate_singleton]
      exact hbytes
    | cons b L =>
      rw [List.intercalate_cons_cons]
      simp [hbytes]
  | @pointer q l hc hq hlo ht h ih =>
    rw [endsInLabel] at he
    have hrest := ih he
    unfold text at hrest ⊢
    rwa [labels]

/-- A name that ends in a label and does not start with a zero byte is never
decoded: query_name starts with a zero byte. -/
theorem not_decodes_of_label (h : NameFrom mem size o l) (he : endsInLabel l=true)
    (hfirst : (text mem o l).head?≠some 0) : ¬Decodes p mem size o queryName l := by
  intro hdec
  have hold := hdec.held h
  obtain ⟨a,b,hab⟩ := List.exists_cons_of_ne_nil (h.chain.text_ne_nil he)
  rw [hab] at hold hfirst
  have hhead := congrArg List.head? hold
  rw [bytes,List.length_cons,List.range_succ_eq_map,leftover,if_pos he,List.map_cons,List.head?_cons,
    Nat.add_zero,Function.update_self] at hhead
  exact hfirst hhead.symm

/-- No name is decoded whatever the block holds: one without a zero byte gives
a text without end. -/
theorem exists_block_not_decodes (p : Platform) (queryName : Memory) (h : NameFrom mem size o l) :
    ∃ block,¬Decodes { p with block := block } mem size o queryName l := by
  refine ⟨fun _ => 1,fun hdec => ?_⟩
  have hold := hdec.held h
  have hlast := congrArg List.getLast? hold
  rw [bytes,List.range_succ,List.map_append,List.map_singleton,List.getLast?_concat,
    List.getLast?_concat] at hlast
  have hzero : leftover (fun _ => 1) l (writtenLength l+(text mem o l).length)=0 :=
    Option.some.inj hlast
  unfold leftover at hzero
  by_cases he : endsInLabel l=true
  · have hpos := List.length_pos_of_ne_nil (h.chain.text_ne_nil he)
    rw [if_pos he,Function.update_of_ne (by omega)] at hzero
    exact absurd hzero (by decide)
  · rw [if_neg he] at hzero
    exact absurd hzero (by decide)

/-- A pointer to a root name, with a block of zero bytes. -/
theorem pointerMessage_name : NameFrom pointerMessage 32 30 [.pointer 20] := by
  have ht : target true pointerMessage 30=20 := by decide
  have hroot : Chain pointerMessage 32 (target true pointerMessage 30) [] :=
    .root (by rw [ht]; decide) (by rw [ht]; rfl)
  have hchain : Chain pointerMessage 32 30 (.pointer (target true pointerMessage 30)::[]) :=
    .pointer (by decide) (by decide) (by decide) (by decide) hroot
  rw [ht] at hchain
  exact ⟨hchain,List.cons_ne_nil _ _,by decide,by decide⟩

/-- A name of one pointer that is followed. -/
theorem urlConvert_decodes_iff_pointer :
    Decodes lenient pointerMessage 32 30 (fun _ => 0) [.pointer 20] :=
  (urlConvert_decodes_iff lenient pointerMessage 32 30 (fun _ => 0) [.pointer 20]
    pointerMessage_name).mpr
    ⟨rfl,Or.inl rfl,fun t ht => by
      rw [Piece.pointer.inj (List.mem_singleton.mp ht)]
      decide,by decide⟩

/-- The name a at 12 is well-formed, and its call returns 0 and length 3 with
an empty query_name. -/
theorem labelMessage_not_decoded :
    NameFrom labelMessage 20 12 [.label 1] ∧ text labelMessage 12 [.label 1]=[97] ∧
      (urlConvert true true lenient.block labelMessage 20 12 (fun _ => 0)).map
        (fun r => (r.ret,r.len,r.queryName 0))=some (0,3,0) ∧
      ¬Decodes lenient labelMessage 20 12 (fun _ => 0) [.label 1] := by
  have hchain : Chain labelMessage 20 12 [.label 1] := by
    have hroot : Chain labelMessage 20 (12+(labelMessage 12).toNat+1) [] :=
      .root (by decide) (by decide)
    exact .label (by decide) (by decide) hroot
  have hrun : (urlConvert true true lenient.block labelMessage 20 12 (fun _ => 0)).map
      (fun r => (r.ret,r.len,r.queryName 0))=some (0,3,0) := by decide
  refine ⟨⟨hchain,List.cons_ne_nil _ _,by decide,by decide⟩,by decide,hrun,?_⟩
  rintro ⟨r,hr,-,-,-,htext⟩
  have hr' : urlConvert true true lenient.block labelMessage 20 12 (fun _ => 0)=some r := hr
  rw [hr'] at hrun
  have h0 : r.queryName 0=0 := congrArg (fun x => x.2.2) (Option.some.inj hrun)
  have h97 : [r.queryName 0,r.queryName 1]=[97,0] := htext
  rw [h0] at h97
  exact absurd (List.cons.inj h97).1 (by decide)

end Decode

end StudyCode.Dns
