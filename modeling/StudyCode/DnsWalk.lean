import StudyCode.DnsUrl
import Mathlib.Logic.Function.Iterate

/-!
# The walk over the answer section

A well-formed response is described on the bytes of the packet: names as
lists of labels and backward pointers, records by their RDLENGTH. The walk
stays on the records exactly when every name that it converts is accepted and
every record but the last has a type and a name that it can step over.
-/

namespace StudyCode.Dns

/-! ## Names -/

/-- A part of a name on its way to the root. -/
inductive Piece where
  /-- A label and its number of characters. -/
  | label (n : ℕ)
  /-- A compression pointer and its target. -/
  | pointer (t : ℕ)

/-- The pieces of the name that is read from an offset on. The first number
is the start of the part that a pointer must lie before. -/
inductive Parses (mem : Memory) (size : ℕ) : ℕ → ℕ → List Piece → Prop where
  /-- The root. -/
  | root {s q : ℕ} (hq : q < size) (h : mem q=0) : Parses mem size s q []
  /-- A label of at most 63 characters. -/
  | label {s q : ℕ} {l : List Piece} (h0 : mem q≠0) (h63 : mem q ≤ 63)
      (h : Parses mem size s (q+(mem q).toNat+1) l) :
      Parses mem size s q (.label (mem q).toNat::l)
  /-- A pointer to an earlier place behind the header. -/
  | pointer {s q : ℕ} {l : List Piece} (hc : 0xC0 ≤ mem q) (hq : q+1 < size)
      (hlo : 12 ≤ target true mem q) (hs : target true mem q < s)
      (h : Parses mem size (target true mem q) (target true mem q) l) :
      Parses mem size s q (.pointer (target true mem q)::l)

/-- The pieces that are read from an offset on, when every pointer only has to
lead to a place before itself. -/
inductive Chain (mem : Memory) (size : ℕ) : ℕ → List Piece → Prop where
  /-- The root. -/
  | root {q : ℕ} (hq : q < size) (h : mem q=0) : Chain mem size q []
  /-- A label of at most 63 characters. -/
  | label {q : ℕ} {l : List Piece} (h0 : mem q≠0) (h63 : mem q ≤ 63)
      (h : Chain mem size (q+(mem q).toNat+1) l) : Chain mem size q (.label (mem q).toNat::l)
  /-- A pointer to a place behind the header and before the pointer. -/
  | pointer {q : ℕ} {l : List Piece} (hc : 0xC0 ≤ mem q) (hq : q+1 < size)
      (hlo : 12 ≤ target true mem q) (ht : target true mem q < q)
      (h : Chain mem size (target true mem q) l) :
      Chain mem size q (.pointer (target true mem q)::l)

/-- Bytes of a name in its place. -/
def wireLength : List Piece → ℕ
  | [] => 1
  | .label n::l => n+1+wireLength l
  | .pointer _::_ => 2

/-- Characters of a name with a dot for each label. -/
def textLength : List Piece → ℕ
  | [] => 0
  | .label n::l => n+1+textLength l
  | .pointer _::l => textLength l

/-- Bytes that are written before the last place of the write cursor. -/
def writtenLength : List Piece → ℕ
  | [] => 0
  | .label n::l => n+(if l.isEmpty then 0 else 1)+writtenLength l
  | .pointer _::l => writtenLength l

/-- The last piece is a label, so the root is behind it. -/
def endsInLabel : List Piece → Bool
  | [] => false
  | .label _::l => l.isEmpty || endsInLabel l
  | .pointer _::l => endsInLabel l

/-- A well-formed name: 255 bytes at most without its pointers. -/
structure NameAt (mem : Memory) (size o : ℕ) (l : List Piece) : Prop where
  /-- The pieces. -/
  parses : Parses mem size o o l
  /-- The length. -/
  short : textLength l+1 ≤ 255

/-- Fewer than 100 pieces, and no pointer to an offset up to 18. -/
def Accepted (l : List Piece) : Prop := l.length < 100 ∧ ∀ t,Piece.pointer t ∈ l → 18 < t

/-- The length that url_convert reports: 0 for the root. -/
def codeLength (l : List Piece) : ℕ := if l.isEmpty then 0 else wireLength l

section Names

variable {mem : Memory} {size s q : ℕ} {l : List Piece} {c : Cursor}

/-- A pointer before its part is before itself. -/
theorem Parses.chain (h : Parses mem size s q l) (hsq : s ≤ q) : Chain mem size q l := by
  induction h with
  | root hq h => exact .root hq h
  | label h0 h63 h ih => exact .label h0 h63 (ih (by omega))
  | pointer hc hq hlo hs h ih => exact .pointer hc hq hlo (by omega) (ih le_rfl)

/-- The name of a message is a chain of pieces. -/
theorem NameAt.chain {o : ℕ} (h : NameAt mem size o l) : Chain mem size o l := h.parses.chain le_rfl

/-- A chain begins inside of the message. -/
theorem Chain.lt_size (h : Chain mem size q l) : q < size := by
  induction h with
  | root hq h => exact hq
  | label h0 h63 h ih => omega
  | pointer hc hq hlo ht h ih => omega

/-- A zero byte is the end of a chain. -/
theorem Chain.zero_iff (h : Chain mem size q l) : mem q=0 ↔ l=[] := by
  cases h with
  | root hq h => exact iff_of_true h rfl
  | label h0 h63 h => exact iff_of_false h0 (List.cons_ne_nil _ _)
  | pointer hc hq hlo ht h =>
    refine iff_of_false (fun h0 => ?_) (List.cons_ne_nil _ _)
    rw [h0] at hc
    exact absurd hc (by decide)

/-- A name is not longer on the wire than as a text. -/
theorem wireLength_le (l : List Piece) : wireLength l ≤ textLength l+2 := by
  induction l with
  | nil => exact Nat.le_succ 1
  | cons p l ih =>
    cases p with
    | label n =>
      show n+1+wireLength l ≤ n+1+textLength l+2
      omega
    | pointer t => exact Nat.le_add_left 2 _

/-- The length that is returned is that on the wire. -/
theorem codeLength_eq (h : l≠[]) : codeLength l=wireLength l := by
  unfold codeLength
  rw [if_neg (by rwa [List.isEmpty_iff])]

/-- The two bytes of a pointer. -/
theorem be16_ge (h : 0xC0 ≤ mem q) : 0xC000 ≤ be16 mem q := by
  have h1 : 192 ≤ (mem q).toNat := UInt8.le_iff_toNat_le.mp h
  unfold be16
  omega

/-- A pointer to an earlier place is rejected exactly up to offset 18. -/
theorem rejected_iff (h : 0xC0 ≤ mem q) (ht : target true mem q < q) :
    Rejected true mem q ↔ target true mem q ≤ 18 := by
  have hge := be16_ge h
  have hload : load16 true mem q=be16 mem q := if_pos rfl
  unfold target at ht ⊢
  unfold Rejected
  rw [hload] at ht ⊢
  omega

/-! ## One piece -/

/-- What a label does to the variables. -/
structure LabelRound (mem : Memory) (c d : Cursor) : Prop where
  /-- The read cursor is behind the label. -/
  q : d.q=c.q+(mem c.q).toNat+1
  /-- The rounds. -/
  counter : d.counter=c.counter+1
  /-- Pointers. -/
  notCompress : d.notCompress=c.notCompress
  /-- The characters and the separator. -/
  writes : d.writes=c.writes++[(c.cur,(mem c.q).toNat),(c.cur+(mem c.q).toNat,1)]
  /-- The write cursor is behind a dot but on a zero byte. -/
  cur : d.cur=if mem (c.q+(mem c.q).toNat+1)≠0 then c.cur+(mem c.q).toNat+1
    else c.cur+(mem c.q).toNat
  /-- The length. -/
  len : d.len=if mem (c.q+(mem c.q).toNat+1)≠0 then
      u16 (c.len+if c.notCompress then (mem c.q).toNat+1 else 0)
    else u16 (u16 (c.len+if c.notCompress then (mem c.q).toNat+1 else 0)+
      if c.notCompress then 1 else 0)
  /-- The block. -/
  block : d.block=Function.update (memcpy c.block mem c.cur (c.q+1) (mem c.q).toNat)
    (c.cur+(mem c.q).toNat) (if mem (c.q+(mem c.q).toNat+1)≠0 then 46 else 0)

/-- A round over a label. -/
theorem body_label_next (h63 : mem c.q ≤ 63) (hc : c.counter+1 < 100) :
    ∃ d,body true mem (readByte c)=.next d ∧ LabelRound mem c d := by
  have hn : (mem c.q).toNat ≤ 63 := UInt8.le_iff_toNat_le.mp h63
  have hlt : mem (readByte c).q < 0xC0 := UInt8.lt_iff_toNat_lt.mpr (show (mem c.q).toNat < 192 by omega)
  have hroom : ¬c.cur+urlMaxLength < c.cur+(mem c.q).toNat+1 := by
    unfold urlMaxLength
    omega
  unfold body branch
  rw [if_pos hlt]
  unfold label
  dsimp only [readByte]
  rw [if_neg hroom]
  dsimp only
  rw [limit_next hc]
  exact ⟨_,rfl,rfl,rfl,rfl,rfl,if_congr Iff.rfl rfl rfl,if_congr Iff.rfl rfl rfl,rfl⟩

/-- The round that exceeds the limit. -/
theorem body_limit (hc : 100 ≤ c.counter+1) :
    ∃ d,body true mem (readByte c)=.error d := by
  cases hb : body true mem (readByte c) with
  | error d => exact ⟨d,rfl⟩
  | next d =>
    have hcount := body_counter true mem (readByte c)
    rw [hb] at hcount
    have hd : d.counter=c.counter+1 := hcount
    have := body_next hb
    omega

/-- A round of the loop that does not end it. -/
theorem loop_step {n : ℕ} (h0 : mem c.q≠0) (hq : c.q ≤ size) :
    loop true mem size (n+1) c=
      match body true mem (readByte c) with
      | .error d => some (.error d)
      | .next d => loop true mem size n d :=
  if_pos ⟨h0,hq⟩

/-- A byte from 0xC0 on is neither an end nor a label. -/
theorem label_ne {b : UInt8} (h : 0xC0 ≤ b) : b≠0 ∧ ¬b < 0xC0 := by
  constructor
  · rintro rfl
    exact absurd h (by decide)
  · exact UInt8.not_lt.mpr h

/-! ## Whole names -/

/-- Writes inside the block. -/
def InBlock (l : List Range) : Prop := ∀ x ∈ l,x.1+x.2 ≤ urlMaxLength

/-- A small offset is passed on. -/
theorem u16_eq {v : ℕ} (h : v < 65536) : u16 v=v := Nat.mod_eq_of_lt h

/-- What a pointer does to the variables. -/
theorem pointerRead_jump (c : Cursor) (t : ℕ) :
    ((pointerRead c).jump t).q=t ∧ ((pointerRead c).jump t).counter=c.counter+1 ∧
      ((pointerRead c).jump t).notCompress=false ∧ ((pointerRead c).jump t).cur=c.cur ∧
      ((pointerRead c).jump t).writes=c.writes ∧ ((pointerRead c).jump t).block=c.block ∧
      ((pointerRead c).jump t).len=u16 (c.len+if c.notCompress then 2 else 0) :=
  ⟨rfl,rfl,rfl,rfl,rfl,rfl,rfl⟩

/-- The length counted for a label, and for the zero byte behind the last one. -/
theorem label_len {n k len : ℕ} {nc : Bool} {z : UInt8} (hz : z=0 ↔ l=[])
    (hk : k=if z≠0 then u16 (len+if nc then n+1 else 0)
      else u16 (u16 (len+if nc then n+1 else 0)+if nc then 1 else 0))
    (hb : (len+if nc then codeLength (.label n::l) else 0) < 65536) :
    (k+if nc then codeLength l else 0)=len+if nc then codeLength (.label n::l) else 0 := by
  have hwire : codeLength (.label n::l)=n+1+wireLength l := rfl
  rw [hwire] at hb ⊢
  cases nc with
  | false =>
    simp only [Bool.false_eq_true,if_false,Nat.add_zero] at hk hb ⊢
    have hu := u16_eq hb
    rw [hk,hu,hu,ite_self]
  | true =>
    simp only [if_true] at hk hb ⊢
    have hn : len+(n+1) < 65536 := by omega
    by_cases hl : l=[]
    · rw [if_neg (not_not.mpr (hz.mpr hl)),u16_eq hn] at hk
      subst hl
      have hw : wireLength []=1 := rfl
      have hc : codeLength []=0 := rfl
      rw [hw] at hb ⊢
      rw [hk,hc,u16_eq (by omega)]
      omega
    · rw [if_pos (fun h0 => hl (hz.mp h0)),u16_eq hn] at hk
      rw [hk,codeLength_eq hl]
      omega

/-- Where a name has been read to its root: its length is counted up to the
first pointer, and the block behind the write cursor is as before but for the
zero byte behind a label. -/
structure ReadTo (size : ℕ) (l : List Piece) (c d : Cursor) : Prop where
  /-- The read cursor. -/
  q : d.q < size
  /-- The ranges written. -/
  writes : InBlock d.writes
  /-- The length. -/
  len : d.len=c.len+if c.notCompress then codeLength l else 0
  /-- The write cursor. -/
  cur : d.cur=c.cur+writtenLength l
  /-- The block. -/
  block : ∀ i,d.cur ≤ i → d.block i=if endsInLabel l=true ∧ i=d.cur then 0 else c.block i

/-- The block after a label, from the new write cursor on. -/
theorem LabelRound.block_behind {d : Cursor} (R : LabelRound mem c d) {i : ℕ} (hi : d.cur ≤ i) :
    d.block i=if mem (c.q+(mem c.q).toNat+1)=0 ∧ i=d.cur then 0 else c.block i := by
  have hcur := R.cur
  have hcopy : c.cur+(mem c.q).toNat ≤ i →
      memcpy c.block mem c.cur (c.q+1) (mem c.q).toNat i=c.block i := fun h => if_neg (by omega)
  rw [R.block]
  by_cases h0 : mem (c.q+(mem c.q).toNat+1)=0
  · rw [if_neg (not_not.mpr h0)] at hcur
    rw [if_neg (not_not.mpr h0)]
    by_cases hic : i=d.cur
    · rw [if_pos ⟨h0,hic⟩,hic,hcur,Function.update_self]
    · rw [if_neg (fun hx => hic hx.2),Function.update_of_ne (by omega),hcopy (by omega)]
  · rw [if_pos h0] at hcur
    rw [Function.update_of_ne (by omega),hcopy (by omega)]
    exact (if_neg (fun hx => h0 hx.1)).symm

/-- A name is read to its root when the rest of it is, behind its first label. -/
theorem LabelRound.readTo {d e : Cursor} (R : LabelRound mem c d)
    (hz : mem (c.q+(mem c.q).toNat+1)=0 ↔ l=[])
    (hlen : (c.len+if c.notCompress then codeLength (.label (mem c.q).toNat::l) else 0) < 65536)
    (E : ReadTo size l d e) : ReadTo size (.label (mem c.q).toNat::l) c e := by
  have hcur := R.cur
  have hecur := E.cur
  refine ⟨E.q,E.writes,?_,?_,fun i hi => ?_⟩
  · rw [E.len,R.notCompress]
    exact label_len hz R.len hlen
  · rw [E.cur,hcur,writtenLength]
    by_cases hl : l=[]
    · rw [if_neg (not_not.mpr (hz.mpr hl)),if_pos (by simp [hl])]
      omega
    · rw [if_pos (fun h0 => hl (hz.mp h0)),if_neg (by simp [hl])]
      omega
  · rw [E.block i hi,R.block_behind (by omega)]
    by_cases hl : l=[]
    · subst hl
      have hw : e.cur=d.cur := hecur
      have h0 := hz.mpr rfl
      simp [endsInLabel,h0,hw]
    · have hends : endsInLabel (.label (mem c.q).toNat::l)=endsInLabel l := by simp [endsInLabel,hl]
      have hback : ¬(mem (c.q+(mem c.q).toNat+1)=0 ∧ i=d.cur) := fun hx => hl (hz.mp hx.1)
      rw [hends,if_neg hback]

/-- An accepted name is read to its root. -/
theorem loop_accepted (h : Chain mem size q l) :
    ∀ {n : ℕ} {c : Cursor},c.q=q → (∀ t,Piece.pointer t ∈ l → 18 < t) →
      c.counter+l.length < 100 → l.length < n →
      (c.len+if c.notCompress then codeLength l else 0) < 65536 →
      c.cur+textLength l ≤ 255 → InBlock c.writes →
      ∃ d,loop true mem size n c=some (.next d) ∧ ReadTo size l c d := by
  induction h with
  | @root q hq h =>
    intro n c hcq _ _ hn hlen _ hw
    obtain ⟨n,rfl⟩ : ∃ m,n=m+1 := ⟨n-1,by omega⟩
    subst hcq
    refine ⟨readByte c,?_,hq,hw,?_,rfl,fun i _ => ?_⟩
    · rw [loop,if_neg (fun hx => hx.1 h)]
    · show c.len=_
      split <;> rfl
    · exact (if_neg (fun hx => absurd hx.1 (by decide))).symm
  | @label q l h0 h63 h ih =>
    intro n c hcq hp hcount hn hlen hcur hw
    subst hcq
    rw [List.length_cons] at hcount hn
    obtain ⟨n,rfl⟩ : ∃ m,n=m+1 := ⟨n-1,by omega⟩
    obtain ⟨d,hd,R⟩ := body_label_next h63 (show c.counter+1 < 100 by omega)
    have htext : textLength (.label (mem c.q).toNat::l)=(mem c.q).toNat+1+textLength l := rfl
    have hcount2 := label_len h.zero_iff R.len hlen
    have hdc := R.counter
    have hdcur : d.cur ≤ c.cur+(mem c.q).toNat+1 := by
      rw [R.cur]
      split <;> omega
    rw [loop_step h0 (by have := h.lt_size; omega),hd]
    have hdw2 : InBlock d.writes := by
      intro x hx
      rw [R.writes] at hx
      rcases List.mem_append.mp hx with hx|hx
      · exact hw x hx
      · simp only [List.mem_cons,List.not_mem_nil,or_false] at hx
        unfold urlMaxLength
        rcases hx with rfl|rfl
        · dsimp only
          omega
        · dsimp only
          omega
    obtain ⟨e,he,E⟩ := ih (n:=n) R.q (fun t ht => hp t (List.mem_cons_of_mem _ ht)) (by omega)
      (by omega) (by rw [R.notCompress]; omega) (by omega) hdw2
    exact ⟨e,he,R.readTo h.zero_iff hlen E⟩
  | @pointer q l hc hq hlo ht h ih =>
    intro n c hcq hp hcount hn hlen hcur hw
    subst hcq
    rw [List.length_cons] at hcount hn
    obtain ⟨n,rfl⟩ : ∃ m,n=m+1 := ⟨n-1,by omega⟩
    have ht18 : 18 < target true mem c.q := hp _ List.mem_cons_self
    have hrej : ¬Rejected true mem c.q := by
      rw [rejected_iff hc ht]
      omega
    have hwire : codeLength (.pointer (target true mem c.q)::l)=2 := rfl
    rw [hwire] at hlen
    rw [loop_step (label_ne hc).1 (by omega),body_pointer (label_ne hc).2 hrej]
    have htext : textLength (.pointer (target true mem c.q)::l)=textLength l := rfl
    rw [htext] at hcur
    have hX := pointerRead_jump c (target true mem c.q)
    generalize (pointerRead c).jump (target true mem c.q)=X at hX
    obtain ⟨hXq,hXc,hXn,hXcur,hXw,hXb,hXlen⟩ := hX
    rw [limit_next (by omega)]
    have hzero : (X.len+if X.notCompress then codeLength l else 0)=X.len := by
      rw [hXn]
      rfl
    have hXlen2 : X.len=c.len+if c.notCompress then 2 else 0 := by rw [hXlen,u16_eq hlen]
    obtain ⟨e,he,E⟩ := ih (n:=n) hXq (fun t ht => hp t (List.mem_cons_of_mem _ ht)) (by omega)
      (by omega) (by omega) (by omega) (by rw [hXw]; exact hw)
    refine ⟨e,he,E.q,E.writes,?_,?_,fun i hi => ?_⟩
    · rw [E.len,hzero,hXlen2,hwire]
    · rw [E.cur,hXcur,writtenLength]
    · rw [E.block i hi,hXb,endsInLabel]

/-- A name with too many pieces or with a low pointer ends at the label
error. -/
theorem loop_refused (h : Chain mem size q l) :
    ∀ {n : ℕ} {c : Cursor},c.q=q → c.counter < 100 → 101 ≤ c.counter+n →
      (100 ≤ c.counter+l.length ∨ ∃ t,Piece.pointer t ∈ l ∧ t ≤ 18) →
      ∃ d,loop true mem size n c=some (.error d) := by
  induction h with
  | root hq h =>
    intro n c _ hcount _ hbad
    rcases hbad with hbad|⟨t,ht,-⟩
    · exact absurd hbad (Nat.not_le_of_lt hcount)
    · exact absurd ht List.not_mem_nil
  | @label q l h0 h63 h ih =>
    intro n c hcq hcount hn hbad
    subst hcq
    rw [List.length_cons] at hbad
    obtain ⟨n,rfl⟩ : ∃ m,n=m+1 := ⟨n-1,by omega⟩
    rw [loop_step h0 (by have := h.lt_size; omega)]
    by_cases hlim : 100 ≤ c.counter+1
    · obtain ⟨d,hd⟩ : ∃ d,body true mem (readByte c)=.error d := body_limit hlim
      rw [hd]
      exact ⟨d,rfl⟩
    · obtain ⟨d,hd,R⟩ := body_label_next h63 (show c.counter+1 < 100 by omega)
      rw [hd]
      have hdc := R.counter
      refine ih R.q (by omega) (by omega) ?_
      rcases hbad with hbad|⟨t,ht,hle⟩
      · exact Or.inl (by omega)
      · rcases List.mem_cons.mp ht with ht|ht
        · cases ht
        · exact Or.inr ⟨t,ht,hle⟩
  | @pointer q l hc hq hlo ht h ih =>
    intro n c hcq hcount hn hbad
    subst hcq
    rw [List.length_cons] at hbad
    obtain ⟨n,rfl⟩ : ∃ m,n=m+1 := ⟨n-1,by omega⟩
    rw [loop_step (label_ne hc).1 (by omega)]
    by_cases hrej : Rejected true mem c.q
    · rw [body_rejected (label_ne hc).2 hrej]
      exact ⟨_,rfl⟩
    · have ht18 : ¬target true mem c.q ≤ 18 := by
        rwa [rejected_iff hc ht] at hrej
      by_cases hlim : 100 ≤ c.counter+1
      · obtain ⟨d,hd⟩ : ∃ d,body true mem (readByte c)=.error d := body_limit hlim
        rw [hd]
        exact ⟨d,rfl⟩
      · rw [body_pointer (label_ne hc).2 hrej]
        have hX := pointerRead_jump c (target true mem c.q)
        generalize (pointerRead c).jump (target true mem c.q)=X at hX
        obtain ⟨hXq,hXc,-⟩ := hX
        rw [limit_next (by omega)]
        refine ih hXq (by omega) (by omega) ?_
        rcases hbad with hbad|⟨t,ht,hle⟩
        · exact Or.inl (by omega)
        · rcases List.mem_cons.mp ht with ht|ht
          · exact absurd (Piece.pointer.inj ht ▸ hle) ht18
          · exact Or.inr ⟨t,ht,hle⟩

/-! ## Calls of url_convert -/

variable {p : Platform} {o : ℕ}

/-- What url_convert leaves for a name that has been read to its root. -/
structure Returned (queryName : Memory) (l : List Piece) (d : Cursor) (r : Converted) : Prop where
  /-- The return value. -/
  ret : r.ret=0
  /-- The length. -/
  len : r.len=codeLength l
  /-- The copy of the block. -/
  queryName : r.queryName=memcpy queryName d.block 0 d.cur urlMaxLength
  /-- The ranges written. -/
  writes : r.writes=d.writes
  /-- The copy starts behind the labels. -/
  copied : r.copied=some (writtenLength l)
  /-- The block is freed there. -/
  freed : r.freed=some (writtenLength l)

/-- An accepted name is converted. -/
theorem urlConvert_accepted (queryName : Memory) (h : Chain mem size o l)
    (hshort : textLength l+1 ≤ 255) (hm : p.malloc o=true) (ha : Accepted l) :
    ∃ d r,urlConvert true (p.malloc o) p.block mem size o queryName=some r ∧
      ReadTo size l (start p.block size o) d ∧ Returned queryName l d r := by
  have hwire := wireLength_le l
  have hpieces := ha.1
  have hcode : codeLength l ≤ wireLength l := by
    unfold codeLength
    split
    · exact Nat.zero_le _
    · exact le_rfl
  obtain ⟨d,hd,E⟩ := loop_accepted h (show (start p.block size o).q=o from rfl) ha.2
    (show 0+l.length < 100 by omega) (show l.length < 101 by omega)
    (show 0+codeLength l < 65536 by omega) (show 0+textLength l ≤ 255 by omega)
    (fun x hx => absurd hx List.not_mem_nil)
  have hfin : finish size queryName (.next d)=
      ⟨0,d.len,memcpy queryName d.block 0 d.cur urlMaxLength,d.counter,d.reads,d.writes,
        some d.cur,some d.cur,printed (memcpy queryName d.block 0 d.cur urlMaxLength) d⟩ :=
    if_neg (by have := E.q; omega)
  have hcur : some d.cur=some (writtenLength l) := congrArg some (E.cur.trans (Nat.zero_add _))
  have hlen : d.len=codeLength l := E.len.trans (Nat.zero_add _)
  refine ⟨d,finish size queryName (.next d),?_,E,?_⟩
  · unfold urlConvert
    rw [hm,if_neg (by decide),hd]
    rfl
  · rw [hfin]
    exact ⟨rfl,hlen,rfl,rfl,hcur,hcur⟩

/-- Without a block, or for a name that is not accepted, url_convert returns
-1. -/
theorem urlConvert_refused (queryName : Memory) (h : Chain mem size o l)
    (hno : ¬(p.malloc o=true ∧ Accepted l)) :
    ∃ r,urlConvert true (p.malloc o) p.block mem size o queryName=some r ∧ r.ret=-1 := by
  cases hm : p.malloc o with
  | false => exact ⟨_,rfl,rfl⟩
  | true =>
    have hbad : 100 ≤ 0+l.length ∨ ∃ t,Piece.pointer t ∈ l ∧ t ≤ 18 := by
      by_contra hgood
      rw [not_or] at hgood
      refine hno ⟨hm,by omega,fun t ht => ?_⟩
      by_contra hle
      exact hgood.2 ⟨t,ht,by omega⟩
    obtain ⟨d,hd⟩ := loop_refused h (show (start p.block size o).q=o from rfl)
      (Nat.zero_lt_succ 99) (show 101 ≤ 0+101 by decide) hbad
    refine ⟨failed queryName d,?_,rfl⟩
    unfold urlConvert
    rw [if_neg (by decide),hd]
    rfl

/-- The writes of a converted name stay in the block, so only an interior copy
can make its effects undefined. -/
theorem defined_iff {queryName : Memory} {c d : Cursor} {r : Converted} {interior : Bool}
    (E : ReadTo size l c d) (R : Returned queryName l d r) :
    defined interior r=true ↔ interior=true ∨ writtenLength l=0 := by
  have hall : d.writes.all (fun x => x.1+x.2 ≤ urlMaxLength)=true :=
    List.all_eq_true.mpr fun x hx => decide_eq_true (E.writes x hx)
  unfold defined
  rw [R.writes,hall,R.copied,R.freed]
  simp

/-- An accepted name is converted where the library goes on. -/
theorem name_accepted (hl : NameAt mem size o l) (ho : o < 65536) (hm : p.malloc o=true)
    (hi : p.interior=true) (ha : Accepted l) : name p mem size o=.length (codeLength l) := by
  obtain ⟨d,r,hr,E,R⟩ := urlConvert_accepted (fun _ => 0) hl.chain hl.short hm ha
  have hdef : defined p.interior r=true := (defined_iff E R).mpr (Or.inl hi)
  unfold name
  rw [u16_eq ho,hr]
  dsimp only
  rw [hdef,if_neg (by decide),R.ret,R.len]
  exact if_neg (not_not.mpr rfl)

/-- Without a block, or for a name that is not accepted, no length comes back. -/
theorem name_refused (hl : NameAt mem size o l) (ho : o < 65536)
    (h : ¬(p.malloc o=true ∧ Accepted l)) (k : ℕ) : name p mem size o≠.length k := by
  obtain ⟨r,hr,hneg⟩ := urlConvert_refused (fun _ => 0) hl.chain h
  unfold name
  rw [u16_eq ho,hr]
  dsimp only
  split
  · exact fun hx => Name.noConfusion hx
  · rw [if_pos (by rw [hneg]; decide)]
    exact fun hx => Name.noConfusion hx

/-- A name that starts with a label is lost where the library does not go on
inside of a block. -/
theorem name_lost (ho : o < 65536) (hm : p.malloc o=true) (hi : p.interior=false) (h0 : mem o≠0)
    (h63 : mem o ≤ 63) (hq : o ≤ size) : name p mem size o=.lost := by
  obtain ⟨f,hf,-⟩ : ∃ f,loop true mem size 101 (start p.block size o)=some f ∧
      f.state.counter ≤ 100 := loop_ends (Nat.zero_lt_succ 99) (Nat.le_refl 101)
  have hlab : mem (readByte (start p.block size o)).q < 0xC0 :=
    UInt8.lt_iff_toNat_lt.mpr (show (mem o).toNat < 192 from
      lt_of_le_of_lt (UInt8.le_iff_toNat_le.mp h63) (by decide))
  have hbody : 0 < (body true mem (readByte (start p.block size o))).state.cur :=
    body_label h0 hlab
  have hcur : 0 < f.state.cur := by
    rw [loop_step (n:=100) (c:=start p.block size o) h0 hq] at hf
    cases hb : body true mem (readByte (start p.block size o)) with
    | next d =>
      rw [hb] at hf hbody
      exact lt_of_lt_of_le hbody (loop_grows hf).cur
    | error d =>
      rw [hb] at hf hbody
      obtain rfl := Option.some.inj hf
      exact hbody
  have hfreed : (finish size (fun _ => 0) f).freed=some f.state.cur := by
    cases f with
    | error d => rfl
    | next d =>
      unfold finish
      dsimp only
      split <;> rfl
  have hdef : defined p.interior (finish size (fun _ => 0) f)=false := by
    unfold defined
    have hne : (f.state.cur==0)=false := beq_false_of_ne (by omega)
    have hall : (some f.state.cur).all (· == 0)=false := hne
    rw [hi,hfreed,hall,Bool.and_false,Bool.or_false,Bool.and_false]
  unfold name urlConvert
  rw [hm,if_neg (by decide),u16_eq ho,hf]
  dsimp only [Option.map_some]
  rw [hdef]
  rfl

end Names

/-! ## Records -/

/-- The record behind a record. -/
def nextRecord (mem : Memory) (q : ℕ) : ℕ := q+12+be16 mem (q+10)

/-- The position of a record when the first one is at an offset. -/
def recordAt (mem : Memory) (o i : ℕ) : ℕ := (nextRecord mem)^[i] o

/-- A well-formed record with a pointer as its owner name. -/
structure RecordAt (mem : Memory) (size : ℕ) (names : ℕ → List Piece) (q : ℕ) : Prop where
  /-- The owner name. -/
  owner : 0xC0 ≤ mem q
  /-- The data of type A. -/
  address : be16 mem (q+2)=1 → be16 mem (q+10)=4
  /-- The data of type CNAME. -/
  cname : be16 mem (q+2)=5 → NameAt mem size (q+12) (names (q+12)) ∧
    be16 mem (q+10)=wireLength (names (q+12))
  /-- The data of type MX. -/
  mx : be16 mem (q+2)=15 → NameAt mem size (q+14) (names (q+14)) ∧
    be16 mem (q+10)=2+wireLength (names (q+14))

/-- The round of the loop that belongs to a record: its type, and its address
for type A. -/
def visitAt (mem : Memory) (q : ℕ) : Visit :=
  ⟨q,be16 mem (q+2),if be16 mem (q+2)=1 then some (be32 mem (q+12)) else none⟩

/-- A record that is not of type 1 has no address. -/
theorem visitAt_other {mem : Memory} {q : ℕ} (h : be16 mem (q+2)≠1) :
    (⟨q,be16 mem (q+2),none⟩ : Visit)=visitAt mem q := by
  unfold visitAt
  rw [if_neg h]

/-- The rounds are those of the records from an offset on. -/
def WalksFrom (mem : Memory) (k o : ℕ) (r : Report) : Prop :=
  r.ret=some 0 ∧ r.visits=(List.range k).map fun i => visitAt mem (recordAt mem o i)

/-- The name of a record, if it is converted, gets a block and is accepted. -/
def Handled (p : Platform) (mem : Memory) (names : ℕ → List Piece) (q : ℕ) : Prop :=
  (be16 mem (q+2)=5 → p.malloc (q+12)=true ∧ Accepted (names (q+12))) ∧
    (be16 mem (q+2)=15 → p.malloc (q+14)=true ∧ Accepted (names (q+14)))

/-- The loop steps over a record: type A, or CNAME or MX without the root. -/
def Passed (mem : Memory) (names : ℕ → List Piece) (q : ℕ) : Prop :=
  be16 mem (q+2)=1 ∨ be16 mem (q+2)=5 ∧ names (q+12)≠[] ∨ be16 mem (q+2)=15 ∧ names (q+14)≠[]

section Records

variable {p : Platform} {mem : Memory} {size : ℕ} {names : ℕ → List Piece} {k o : ℕ}

/-- A CNAME record is handled when its name is. -/
theorem cname_iff (h : be16 mem (o+2)=5) :
    Handled p mem names o ∧ (0 < k → Passed mem names o) ↔
      (p.malloc (o+12)=true ∧ Accepted (names (o+12))) ∧ (0 < k → names (o+12)≠[]) := by
  unfold Handled Passed
  rw [h]
  simp

/-- An MX record is handled when its name is. -/
theorem mx_iff (h : be16 mem (o+2)=15) :
    Handled p mem names o ∧ (0 < k → Passed mem names o) ↔
      (p.malloc (o+14)=true ∧ Accepted (names (o+14))) ∧ (0 < k → names (o+14)≠[]) := by
  unfold Handled Passed
  rw [h]
  simp

/-- Any other record is handled. -/
theorem handled_other (h5 : be16 mem (o+2)≠5) (h15 : be16 mem (o+2)≠15) :
    Handled p mem names o ↔ True :=
  iff_true_intro ⟨fun h => absurd h h5,fun h => absurd h h15⟩

/-- The first record. -/
theorem recordAt_zero : recordAt mem o 0=o := rfl

/-- The records behind the first. -/
theorem recordAt_succ (i : ℕ) : recordAt mem o (i+1)=recordAt mem (nextRecord mem o) i :=
  Function.iterate_succ_apply _ _ _

/-- A round before the others belongs to the record before the others. -/
theorem walksFrom_visit (r : Report) :
    WalksFrom mem (k+1) o (r.visit (visitAt mem o)) ↔ WalksFrom mem k (nextRecord mem o) r := by
  have hlist : (List.range (k+1)).map (fun i => visitAt mem (recordAt mem o i))=
      visitAt mem o::(List.range k).map fun i => visitAt mem (recordAt mem (nextRecord mem o) i) := by
    rw [List.range_succ_eq_map,List.map_cons,List.map_map]
    refine congrArg (List.cons _) (List.map_congr_left fun i _ => ?_)
    exact congrArg (visitAt mem) (recordAt_succ i)
  unfold WalksFrom
  rw [hlist]
  exact and_congr_right fun _ => List.cons_eq_cons.trans (and_iff_right rfl)

/-- The record that is visited first. -/
theorem afterName_offset (v : Visit) (rest : ℕ → Report) (a : Name) :
    (v.afterName rest a).visits.head?.map Visit.offset=some v.offset := by
  cases a <;> rfl

/-- The first round starts at the offset of the loop. -/
theorem answers_offset (p : Platform) (mem : Memory) (size k o : ℕ) :
    ((answers p mem size (k+1) o).visits.head?.map Visit.offset)=some o := by
  rw [answers]
  split
  · exact afterName_offset _ _ _
  · split
    · exact afterName_offset _ _ _
    · split <;> rfl

/-- A loop that goes on at another offset walks the records only if none is
left. -/
theorem walksFrom_other {o' : ℕ} (h : o'≠o) :
    WalksFrom mem k o (answers p mem size k o') ↔ k=0 := by
  cases k with
  | zero => exact iff_of_true ⟨rfl,rfl⟩ rfl
  | succ k =>
    refine iff_of_false ?_ (Nat.succ_ne_zero k)
    rintro ⟨-,hv⟩
    have hhead := answers_offset p mem size k o'
    rw [hv,List.range_succ_eq_map,List.map_cons] at hhead
    exact h (Option.some.inj hhead).symm

/-- A round that converts a name. -/
theorem walksFrom_name {m : ℕ} {l : List Piece} (hi : p.interior=true) (hl : NameAt mem size m l)
    (hm : m < 65536) (hnext : nextRecord mem o=m+wireLength l) :
    WalksFrom mem (k+1) o ((visitAt mem o).afterName (fun len => answers p mem size k (m+len))
        (name p mem size m)) ↔
      (p.malloc m=true ∧ Accepted l) ∧ (0 < k → l≠[]) ∧
        WalksFrom mem k (nextRecord mem o) (answers p mem size k (nextRecord mem o)) := by
  by_cases hgood : p.malloc m=true ∧ Accepted l
  · rw [name_accepted hl hm hgood.1 hi hgood.2,and_iff_right hgood,Visit.afterName,walksFrom_visit]
    by_cases hroot : l=[]
    · have hlen : codeLength l=0 := by
        rw [hroot]
        rfl
      have hone : wireLength l=1 := by
        rw [hroot]
        rfl
      rw [walksFrom_other (by omega)]
      constructor
      · rintro rfl
        exact ⟨fun h => absurd h (Nat.lt_irrefl 0),rfl,rfl⟩
      · rintro ⟨h,-⟩
        by_contra hk
        exact h (Nat.pos_of_ne_zero hk) hroot
    · rw [codeLength_eq hroot,←hnext]
      exact (and_iff_right fun _ => hroot).symm
  · refine iff_of_false ?_ (fun h => hgood h.1)
    have hno := name_refused hl hm hgood
    rintro ⟨hret,-⟩
    cases hn : name p mem size m with
    | lost =>
      rw [hn] at hret
      cases hret
    | error =>
      rw [hn] at hret
      have h1 : (some (-1) : Option ℤ)=some 0 := hret
      exact absurd h1 (by decide)
    | length len => exact hno len hn

/-- From the first record on, the loop walks the records exactly when it
handles every record and steps over every record but the last. -/
theorem answers_walks_iff (hi : p.interior=true)
    (hrec : ∀ i < k,RecordAt mem size names (recordAt mem o i))
    (hshort : ∀ i ≤ k,recordAt mem o i < 65536) :
    WalksFrom mem k o (answers p mem size k o) ↔
      ∀ i < k,Handled p mem names (recordAt mem o i) ∧
        (i+1 < k → Passed mem names (recordAt mem o i)) := by
  induction k generalizing o with
  | zero => exact iff_of_true ⟨rfl,rfl⟩ fun i hi => absurd hi (Nat.not_lt_zero i)
  | succ k ih =>
    have h0 := hrec 0 (Nat.succ_pos k)
    have hs1 := hshort 1 (by omega)
    rw [recordAt_succ] at hs1
    simp only [recordAt_zero] at h0 hs1
    have ih := ih (o:=nextRecord mem o)
      (fun i hi => by
        rw [←recordAt_succ]
        exact hrec (i+1) (by omega))
      (fun i hi => by
        rw [←recordAt_succ]
        exact hshort (i+1) (by omega))
    rw [Nat.forall_lt_succ_left]
    simp only [recordAt_succ,recordAt_zero,Nat.add_lt_add_iff_right]
    rw [←ih,answers]
    have hnext : nextRecord mem o=o+12+be16 mem (o+10) := rfl
    by_cases h5 : be16 mem (o+2)=5
    · obtain ⟨hname,hlen⟩ := h0.cname h5
      rw [if_pos h5,visitAt_other (by omega),
        walksFrom_name hi hname (by omega) (by rw [hnext,hlen]),cname_iff h5]
      exact and_assoc.symm
    · rw [if_neg h5]
      by_cases h15 : be16 mem (o+2)=15
      · obtain ⟨hname,hlen⟩ := h0.mx h15
        rw [if_pos h15,visitAt_other (by omega),
          walksFrom_name hi hname (by omega) (by rw [hnext,hlen]; omega),mx_iff h15]
        exact and_assoc.symm
      · rw [if_neg h15,handled_other h5 h15]
        by_cases h1 : be16 mem (o+2)=1
        · have hv : (⟨o,be16 mem (o+2),some (be32 mem (o+2+10))⟩ : Visit)=visitAt mem o := by
            unfold visitAt
            rw [if_pos h1]
          have hstep : nextRecord mem o=o+2+10+4 := by rw [hnext,h0.address h1]
          rw [if_pos h1,hv,walksFrom_visit,←hstep]
          exact (and_iff_right ⟨trivial,fun _ => Or.inl h1⟩).symm
        · rw [if_neg h1,visitAt_other h1,walksFrom_visit,walksFrom_other (by omega)]
          constructor
          · rintro rfl
            exact ⟨⟨trivial,fun h => absurd h (Nat.lt_irrefl 0)⟩,rfl,rfl⟩
          · rintro ⟨⟨-,h⟩,-⟩
            by_contra hk
            rcases h (Nat.pos_of_ne_zero hk) with h|⟨h,-⟩|⟨h,-⟩
            · exact h1 h
            · exact h5 h
            · exact h15 h

end Records

/-! ## Responses -/

/-- The offset of the DNS header behind a number of tags. -/
def dnsOffset (tags : ℕ) : ℕ := 12+4*tags+30

/-- The message of a packet with a number of tags. -/
def message (packet : Memory) (tags : ℕ) : Memory := fun i => packet (dnsOffset tags+i)

/-- The offset of the first answer behind one question. -/
def firstRecord (names : ℕ → List Piece) : ℕ := 12+wireLength (names 12)+4

/-- A well-formed DNS response over Ethernet, IPv4 without options and UDP,
with one question and at least one answer. -/
structure Response (packet : Memory) (length : ℕ) where
  /-- The number of 802.1Q tags. -/
  tags : ℕ
  /-- The names of the message by their offsets. -/
  names : ℕ → List Piece
  /-- The tags. -/
  tagged : ∀ k < tags,be16 packet (12+4*k)=0x8100
  /-- The type field behind the tags. -/
  etherType : be16 packet (12+4*tags)=0x0800
  /-- Version 4 and a header of 20 bytes. -/
  version : packet (12+4*tags+2)=0x45
  /-- The protocol UDP. -/
  protocol : packet (12+4*tags+11)=0x11
  /-- The source port. -/
  sourcePort : be16 packet (12+4*tags+22)=53
  /-- The flag of a response. -/
  qr : message packet tags 2 &&& 0x80≠0
  /-- The number of questions. -/
  questions : be16 (message packet tags) 4=1
  /-- The number of answers. -/
  answered : 1 ≤ be16 (message packet tags) 6
  /-- The name in the question. -/
  question : NameAt (message packet tags) (length-dnsOffset tags) 12 (names 12)
  /-- The answers. -/
  records : ∀ i < be16 (message packet tags) 6,
    RecordAt (message packet tags) (length-dnsOffset tags) names
      (recordAt (message packet tags) (firstRecord names) i)
  /-- The answers are inside the packet. -/
  inside : dnsOffset tags+recordAt (message packet tags) (firstRecord names)
    (be16 (message packet tags) 6) ≤ length
  /-- The answers are inside a UDP datagram. -/
  datagram : recordAt (message packet tags) (firstRecord names)
    (be16 (message packet tags) 6) ≤ 65507

namespace Response

variable {packet : Memory} {length : ℕ}

/-- The message. -/
def mem (r : Response packet length) : Memory := message packet r.tags

/-- The number of answers. -/
def count (r : Response packet length) : ℕ := be16 r.mem 6

/-- The position of an answer. -/
def pos (r : Response packet length) (i : ℕ) : ℕ := recordAt r.mem (firstRecord r.names) i

/-- process_dns returns 0, and round i of its loop starts at the position of
answer i and reads its type and, for type A, its address. -/
def Walks (r : Response packet length) (report : Report) : Prop :=
  report.ret=some 0 ∧ report.visits=(List.range r.count).map fun i => visitAt r.mem (r.pos i)

end Response

section Responses

variable {packet : Memory} {length : ℕ} {p : Platform}

/-- The tags are skipped. -/
theorem skipTags_eq {t n o : ℕ} (h : ∀ k < t,be16 packet (o+4*k)=0x8100)
    (hend : be16 packet (o+4*t)≠0x8100) (hn : t < n) : skipTags packet n o=some (o+4*t) := by
  induction t generalizing n o with
  | zero =>
    obtain ⟨n,rfl⟩ : ∃ m,n=m+1 := ⟨n-1,by omega⟩
    exact if_neg hend
  | succ t ih =>
    obtain ⟨n,rfl⟩ : ∃ m,n=m+1 := ⟨n-1,by omega⟩
    have he : o+4*(t+1)=o+4+4*t := by omega
    have h0 : be16 packet o=0x8100 := h 0 (by omega)
    rw [skipTags,if_pos h0,he]
    refine ih (fun k hk => ?_) (by rwa [←he]) (by omega)
    have := h (k+1) (by omega)
    rwa [show o+4*(k+1)=o+4+4*k by omega] at this

/-- Records follow each other. -/
theorem recordAt_le (mem : Memory) (o : ℕ) {i j : ℕ} (h : i ≤ j) :
    recordAt mem o i ≤ recordAt mem o j := by
  induction j, h using Nat.le_induction with
  | base => exact le_rfl
  | succ j hj ih =>
    have hs : recordAt mem o (j+1)=nextRecord mem (recordAt mem o j) :=
      Function.iterate_succ_apply' _ _ _
    have hn : recordAt mem o j ≤ nextRecord mem (recordAt mem o j) := by
      unfold nextRecord
      omega
    rw [hs]
    exact ih.trans hn

/-- process_dns finds the header of a response and goes on with its question. -/
theorem processDns_response (r : Response packet length) :
    processDns p packet length=
      match name p r.mem (length-dnsOffset r.tags) 12 with
      | .lost => ⟨none,[]⟩
      | .error => ⟨some (-1),[]⟩
      | .length len => answers p r.mem (length-dnsOffset r.tags) r.count (12+(len+4)) := by
  have hin := r.inside
  have htags : skipTags packet length 12=some (12+4*r.tags) := by
    refine skipTags_eq r.tagged ?_ ?_
    · rw [r.etherType]
      decide
    · unfold dnsOffset at hin
      omega
  have hhdr : dnsHeader packet (12+4*r.tags)=some (dnsOffset r.tags) := by
    unfold dnsHeader
    rw [if_neg (not_not.mpr r.etherType),if_neg (not_not.mpr r.protocol),
      if_neg (not_not.mpr r.sourcePort)]
    rfl
  unfold processDns
  rw [htags]
  dsimp only
  rw [hhdr]
  dsimp only
  have hflag : ¬(message packet r.tags 2 &&& 0x80=0 ∨ be16 (message packet r.tags) 6=0) := by
    rintro (h|h)
    · exact r.qr h
    · have := r.answered
      omega
  exact if_neg hflag

/-- The name in a question has no pointer: no name is before it. -/
theorem question_label {mem : Memory} {size : ℕ} {l : List Piece} (h : NameAt mem size 12 l)
    (hl : l≠[]) : mem 12≠0 ∧ mem 12 ≤ 63 := by
  cases h.parses with
  | root hq h0 => exact absurd rfl hl
  | label h0 h63 _ => exact ⟨h0,h63⟩
  | pointer hc hq hlo hs _ => omega

/-- The name of the root. -/
theorem name_root {mem : Memory} {size o : ℕ} (hm : p.malloc o=true) (h0 : mem o=0)
    (hq : o < size) (ho : o < 65536) : name p mem size o=.length 0 := by
  have hloop : loop true mem size 101 (start p.block size o)=
      some (.next (readByte (start p.block size o))) := if_neg fun hx => hx.1 h0
  have hfin : finish size (fun _ => 0) (.next (readByte (start p.block size o)))=
      ⟨0,0,memcpy (fun _ => 0) p.block 0 0 urlMaxLength,0,
        [(0,2),(o,size-o)]++[(o,1)],[],some 0,some 0,
        printed (memcpy (fun _ => 0) p.block 0 0 urlMaxLength)
          (readByte (start p.block size o))⟩ := if_neg (Nat.not_lt_of_lt hq)
  have hdef : defined p.interior (finish size (fun _ => 0)
      (.next (readByte (start p.block size o))))=true := by
    rw [hfin]
    exact (Bool.or_true _).symm ▸ rfl
  unfold name urlConvert
  rw [hm,if_neg (by decide),u16_eq ho,hloop]
  dsimp only [Option.map_some]
  rw [hdef,if_neg (by decide),hfin]
  rfl

/-- For every library and every well-formed response, process_dns returns 0
with round i of its loop at answer i exactly when the library goes on inside
of a block, every name that is converted gets a block and is accepted, the
question is not the root, and every answer but the last can be stepped over. -/
theorem processDns_walks_iff (p : Platform) (packet : Memory) (length : ℕ)
    (r : Response packet length) :
    r.Walks (processDns p packet length) ↔
      p.interior=true ∧ (p.malloc 12=true ∧ Accepted (r.names 12)) ∧ r.names 12≠[] ∧
        ∀ i < r.count,Handled p r.mem r.names (r.pos i) ∧
          (i+1 < r.count → Passed r.mem r.names (r.pos i)) := by
  have hcount : 1 ≤ r.count := r.answered
  have hfirst : firstRecord r.names=12+wireLength (r.names 12)+4 := rfl
  have hname : NameAt r.mem (length-dnsOffset r.tags) 12 (r.names 12) := r.question
  rw [processDns_response]
  by_cases hgood : p.malloc 12=true ∧ Accepted (r.names 12)
  · by_cases hroot : r.names 12=[]
    · have hwire : wireLength (r.names 12)=1 := by
        rw [hroot]
        rfl
      have hpar := hname.chain
      rw [name_root hgood.1 (hpar.zero_iff.mpr hroot) hpar.lt_size (by decide)]
      refine iff_of_false (fun h => ?_) (fun h => h.2.2.1 hroot)
      have := (walksFrom_other (show 12+(0+4)≠firstRecord r.names by omega)).mp h
      omega
    · obtain ⟨h0,h63⟩ := question_label hname hroot
      cases hi : p.interior with
      | false =>
        rw [name_lost (by decide) hgood.1 hi h0 h63 hname.chain.lt_size.le]
        refine iff_of_false (fun h => ?_) (fun h => absurd h.1 (by decide))
        cases h.1
      | true =>
        rw [name_accepted hname (by decide) hgood.1 hi hgood.2,codeLength_eq hroot]
        have hoff : 12+(wireLength (r.names 12)+4)=firstRecord r.names := by omega
        dsimp only
        rw [hoff,and_iff_right rfl,and_iff_right hgood,and_iff_right hroot]
        refine answers_walks_iff hi r.records fun i hi => ?_
        exact lt_of_le_of_lt ((recordAt_le _ _ hi).trans r.datagram) (by decide)
  · refine iff_of_false ?_ (fun h => hgood h.2.1)
    have hno := name_refused hname (by decide) hgood
    rintro ⟨hret,-⟩
    cases hn : name p r.mem (length-dnsOffset r.tags) 12 with
    | lost =>
      rw [hn] at hret
      cases hret
    | error =>
      rw [hn] at hret
      have h1 : (some (-1) : Option ℤ)=some 0 := hret
      exact absurd h1 (by decide)
    | length len => exact hno len hn

end Responses

/-! ## Two responses -/

/-- A response for the name a with two answers. -/
def twoAnswers (answers : List UInt8) : Memory := fun i =>
  ([0,0,0,0,0,0,0,0,0,0,0,0,0x08,0x00,
    0x45,0,0,0,0,0,0,0,64,0x11,0,0,10,0,0,1,10,0,0,2,
    0,53,0x10,0,0,0,0,0,
    0,1,0x81,0x80,0,1,0,2,0,0,0,0,
    1,97,0,0,1,0,1]++answers).getD i 0

/-- The name a in the question and the name b in an answer. -/
def oneLabel : ℕ → List Piece := fun _ => [.label 1]

/-- A name of one letter. -/
theorem oneLabel_nameAt {mem : Memory} {size o : ℕ} (h1 : mem o=1) (h0 : mem (o+2)=0)
    (hq : o+2 < size) : NameAt mem size o (oneLabel o) := by
  have hroot : Parses mem size o (o+(mem o).toNat+1) [] := by
    rw [h1]
    exact .root hq h0
  have hlab : Parses mem size o o (.label (mem o).toNat::[]) :=
    .label (by rw [h1]; decide) (by rw [h1]; decide) hroot
  rw [h1] at hlab
  exact ⟨hlab,show 1+1+0+1 ≤ 255 by decide⟩

/-- It is accepted. -/
theorem oneLabel_accepted (o : ℕ) : Accepted (oneLabel o) := by
  refine ⟨show 1 < 100 by decide,fun t ht => ?_⟩
  cases List.mem_singleton.mp ht

/-- A library on which a block can be copied and freed from inside. -/
def lenient : Platform where
  malloc := fun _ => true
  block := fun _ => 0
  interior := true

/-- A CNAME record and an A record. -/
def cnameAnswers : Memory := twoAnswers
  [0xC0,12,0,5,0,1,0,0,0,60,0,3,1,98,0,0xC0,12,0,1,0,1,0,0,0,60,0,4,10,0,0,3]

/-- The first record of the message. -/
theorem cnameAnswers_first :
    RecordAt (message cnameAnswers 0) 50 oneLabel 19 where
  owner := by decide
  address := fun h => absurd h (by decide)
  cname := fun _ => ⟨oneLabel_nameAt (by decide) (by decide) (by decide),by decide⟩
  mx := fun h => absurd h (by decide)

/-- The second record of the message. -/
theorem cnameAnswers_second :
    RecordAt (message cnameAnswers 0) 50 oneLabel 34 where
  owner := by decide
  address := fun _ => by decide
  cname := fun h => absurd h (by decide)
  mx := fun h => absurd h (by decide)

/-- The response with a CNAME record and an A record. -/
def cnameResponse : Response cnameAnswers 92 where
  tags := 0
  names := oneLabel
  tagged := fun k hk => absurd hk (Nat.not_lt_zero k)
  etherType := by decide
  version := by decide
  protocol := by decide
  sourcePort := by decide
  qr := by decide
  questions := by decide
  answered := by decide
  question := oneLabel_nameAt (by decide) (by decide) (by decide)
  records := fun i hi => by
    have h2 : be16 (message cnameAnswers 0) 6=2 := by decide
    rw [h2] at hi
    interval_cases i
    · exact cnameAnswers_first
    · exact cnameAnswers_second
  inside := by decide
  datagram := by decide

/-- Every name of the message is handled. -/
theorem cname_handled (q : ℕ) : Handled lenient cnameResponse.mem cnameResponse.names q :=
  ⟨fun _ => ⟨rfl,oneLabel_accepted (q+12)⟩,fun _ => ⟨rfl,oneLabel_accepted (q+14)⟩⟩

/-- Two CNAME records are walked over. -/
theorem processDns_walks_iff_cname : cnameResponse.Walks (processDns lenient cnameAnswers 92) := by
  refine (processDns_walks_iff lenient cnameAnswers 92 cnameResponse).mpr
    ⟨rfl,⟨rfl,oneLabel_accepted 12⟩,List.cons_ne_nil _ _,fun i hi => ?_⟩
  have h2 : cnameResponse.count=2 := by decide
  rw [h2] at hi ⊢
  interval_cases i
  · exact ⟨cname_handled _,fun _ => Or.inr (Or.inl ⟨by decide,List.cons_ne_nil _ _⟩)⟩
  · exact ⟨cname_handled _,fun h => absurd h (by decide)⟩

/-- A TXT record and an A record. -/
def txtAnswers : Memory := twoAnswers
  [0xC0,12,0,16,0,1,0,0,0,60,0,2,1,98,0xC0,12,0,1,0,1,0,0,0,60,0,4,10,0,0,3]

/-- A record of the message with a TXT answer. -/
theorem txtAnswers_record {q : ℕ} (ho : 0xC0 ≤ message txtAnswers 0 q)
    (ha : be16 (message txtAnswers 0) (q+2)=1 → be16 (message txtAnswers 0) (q+10)=4)
    (h5 : be16 (message txtAnswers 0) (q+2)≠5) (h15 : be16 (message txtAnswers 0) (q+2)≠15) :
    RecordAt (message txtAnswers 0) 49 oneLabel q where
  owner := ho
  address := ha
  cname := fun h => absurd h h5
  mx := fun h => absurd h h15

/-- The response with a TXT record and an A record. -/
def txtResponse : Response txtAnswers 91 where
  tags := 0
  names := oneLabel
  tagged := fun k hk => absurd hk (Nat.not_lt_zero k)
  etherType := by decide
  version := by decide
  protocol := by decide
  sourcePort := by decide
  qr := by decide
  questions := by decide
  answered := by decide
  question := oneLabel_nameAt (by decide) (by decide) (by decide)
  records := fun i hi => by
    have h2 : be16 (message txtAnswers 0) 6=2 := by decide
    rw [h2] at hi
    interval_cases i
    · exact txtAnswers_record (q:=19) (by decide) (by decide) (by decide) (by decide)
    · exact txtAnswers_record (q:=33) (by decide) (by decide) (by decide) (by decide)
  inside := by decide
  datagram := by decide

/-- Behind a TXT record at 19 the next round starts at 21, not at the A
record at 33. -/
theorem txtResponse_not_walks :
    (processDns lenient txtAnswers 91).visits.map Visit.offset=[19,21] ∧
      txtResponse.pos 1=33 ∧ ¬txtResponse.Walks (processDns lenient txtAnswers 91) := by
  have hrun : (processDns lenient txtAnswers 91).visits.map Visit.offset=[19,21] := by decide
  refine ⟨hrun,by decide,fun h => ?_⟩
  rw [h.2] at hrun
  exact absurd hrun (by decide)

end StudyCode.Dns
