import StudyCode.Dns

/-!
# Safety of the name conversion

The write cursor result is moved behind every label, and the block is copied
and freed from there. A conversion that returns 0 prints the block once more when
it is freed. So a conversion is safe exactly when it meets no label and fails:
the chain of compression pointers from the offset on stays inside the message
and ends at a rejected pointer or at the counter's limit.
-/

namespace StudyCode.Dns

/-- The accesses of a conversion are safe: at most 100 rounds, reads inside
the message, writes inside the block, copy and free from its start, texts inside
of their arrays, and an error leaves length 0 and the old name. -/
def Safe (malloc : Bool) (size : ℕ) (queryName : Memory) (r : Converted) : Prop :=
  r.counter ≤ 100 ∧ (∀ x ∈ r.reads,x.1+x.2 ≤ size) ∧ (∀ x ∈ r.writes,x.1+x.2 ≤ urlMaxLength) ∧
    (∀ c ∈ r.copied,c=0) ∧ r.freed=(if malloc then some 0 else none) ∧
    (∀ t ∈ r.texts,t.Inside) ∧ (r.ret=-1 → r.len=0 ∧ r.queryName=queryName)

/-- From an offset on only compression pointers are met, inside the message,
until a rejected pointer; at most this number is followed. -/
def PointersOnly (big : Bool) (mem : Memory) (size : ℕ) : ℕ → ℕ → Prop
  | 0,q => q+1 < size
  | n+1,q => 0xC0 ≤ mem q ∧ q+1 < size ∧
      (Rejected big mem q ∨ PointersOnly big mem size n (target big mem q))

section Loop

variable {big : Bool} {mem : Memory} {size : ℕ} {s t : Cursor} {f : Flow}

/-- The state in a flow. -/
def Flow.state : Flow → Cursor
  | .next s => s
  | .error s => s

/-- The state when the loop goes on. -/
@[simp] theorem Flow.state_next (s : Cursor) : (Flow.next s).state=s := rfl

/-- The state when the loop fails. -/
@[simp] theorem Flow.state_error (s : Cursor) : (Flow.error s).state=s := rfl

/-- The jump to error was taken. -/
def Flow.IsError : Flow → Prop
  | .next _ => False
  | .error _ => True

/-- What every part of the loop keeps: accesses are only added, and the write
cursor never moves back. -/
structure Grows (s t : Cursor) : Prop where
  /-- The write cursor. -/
  cur : s.cur ≤ t.cur
  /-- The ranges read. -/
  reads : ∀ x ∈ s.reads,x ∈ t.reads

/-- Accesses only add up. -/
theorem Grows.trans {u : Cursor} (h : Grows s t) (h2 : Grows t u) : Grows s u :=
  ⟨h.cur.trans h2.cur,fun x hx => h2.reads x (h.reads x hx)⟩

/-- A label adds its accesses. -/
theorem label_grows (mem : Memory) (s : Cursor) : Grows s (label mem s).state := by
  unfold label
  dsimp only
  split
  · exact ⟨le_rfl,fun x hx => hx⟩
  · refine ⟨?_,fun x hx => List.mem_append_left _ hx⟩
    dsimp only [Flow.state]
    split <;> omega

/-- A rejected pointer. -/
theorem pointer_error (h : Rejected big mem s.q) :
    pointer big mem s=.error
      { s with
        len := u16 (s.len+if s.notCompress then 2 else 0)
        notCompress := false
        reads := s.reads++[(s.q,2)] } := if_pos h

/-- A pointer that is followed. -/
theorem pointer_next (h : ¬Rejected big mem s.q) :
    pointer big mem s=.next
      { s with
        q := target big mem s.q
        len := u16 (s.len+if s.notCompress then 2 else 0)
        notCompress := false
        reads := s.reads++[(s.q,2)] } := if_neg h

/-- A pointer adds its accesses. -/
theorem pointer_grows (big : Bool) (mem : Memory) (s : Cursor) :
    Grows s (pointer big mem s).state := by
  by_cases h : Rejected big mem s.q
  · rw [pointer_error h,Flow.state_error]
    exact ⟨le_rfl,fun x hx => List.mem_append_left _ hx⟩
  · rw [pointer_next h,Flow.state_next]
    exact ⟨le_rfl,fun x hx => List.mem_append_left _ hx⟩

/-- The test of the counter accesses nothing else. -/
theorem limit_grows (s : Cursor) : Grows s (limit s).state := by
  unfold limit
  split
  · exact ⟨le_rfl,fun x hx => List.mem_append_left _ hx⟩
  · exact ⟨le_rfl,fun x hx => hx⟩

/-- After 100 rounds the loop fails. -/
theorem limit_error (h : 100 ≤ s.counter) :
    limit s=.error
      { s with
        block := Function.update s.block s.cur 0
        reads := s.reads++[(s.q,2)]
        writes := s.writes++[(s.cur,1)] } := if_pos h

/-- Before that it goes on. -/
theorem limit_next (h : s.counter < 100) : limit s=.next s := if_neg (Nat.not_le_of_lt h)

/-- Either branch adds its accesses. -/
theorem branch_grows (big : Bool) (mem : Memory) (s : Cursor) :
    Grows s (branch big mem s).state := by
  unfold branch
  split
  · exact label_grows mem s
  · exact pointer_grows big mem s

/-- A round adds its accesses. -/
theorem body_grows (big : Bool) (mem : Memory) (s : Cursor) : Grows s (body big mem s).state := by
  have hb := branch_grows big mem { s with counter := s.counter+1 }
  unfold body
  cases hf : branch big mem { s with counter := s.counter+1 } with
  | next t =>
    rw [hf] at hb
    exact Grows.trans ⟨hb.cur,hb.reads⟩ (limit_grows t)
  | error t =>
    rw [hf] at hb
    exact ⟨hb.cur,hb.reads⟩

/-- Reading the first byte is one access. -/
theorem readByte_grows (s : Cursor) : Grows s (readByte s) :=
  ⟨le_rfl,fun _ hx => List.mem_append_left _ hx⟩

/-- The whole loop only adds accesses. -/
theorem loop_grows {n : ℕ} (h : loop big mem size n s=some f) : Grows s f.state := by
  induction n generalizing s with
  | zero => cases h
  | succ n ih =>
    have hb := (readByte_grows s).trans (body_grows big mem (readByte s))
    rw [loop] at h
    split at h
    · cases hf : body big mem (readByte s) with
      | next t =>
        rw [hf] at h hb
        exact hb.trans (ih h)
      | error t =>
        rw [hf] at h hb
        obtain rfl := Option.some.inj h
        exact hb
    · obtain rfl := Option.some.inj h
      exact readByte_grows s

/-! ## Rounds -/

/-- Neither branch counts. -/
theorem branch_counter (big : Bool) (mem : Memory) (s : Cursor) :
    (branch big mem s).state.counter=s.counter := by
  unfold branch
  split
  · unfold label
    dsimp only
    split <;> rfl
  · by_cases h : Rejected big mem s.q
    · rw [pointer_error h,Flow.state_error]
    · rw [pointer_next h,Flow.state_next]

/-- The test does not count either. -/
theorem limit_counter (s : Cursor) : (limit s).state.counter=s.counter := by
  unfold limit
  split <;> rfl

/-- A round is counted once. -/
theorem body_counter (big : Bool) (mem : Memory) (s : Cursor) :
    (body big mem s).state.counter=s.counter+1 := by
  have hb := branch_counter big mem { s with counter := s.counter+1 }
  unfold body
  cases hf : branch big mem { s with counter := s.counter+1 } with
  | next t =>
    rw [hf] at hb
    exact (limit_counter t).trans hb
  | error t =>
    rw [hf] at hb
    exact hb

/-- A round that goes on has left the counter below its limit. -/
theorem body_next (h : body big mem s=.next t) : t.counter < 100 := by
  unfold body at h
  cases hf : branch big mem { s with counter := s.counter+1 } with
  | next u =>
    rw [hf] at h
    dsimp only at h
    unfold limit at h
    split at h
    · cases h
    · obtain rfl := Flow.next.inj h
      omega
  | error u =>
    rw [hf] at h
    cases h

/-- The loop ends within 100 rounds. -/
theorem loop_ends {n : ℕ} (h : s.counter < 100) (hn : 101 ≤ s.counter+n) :
    ∃ f,loop big mem size n s=some f ∧ f.state.counter ≤ 100 := by
  induction n generalizing s with
  | zero => omega
  | succ n ih =>
    rw [loop]
    split
    · have hc : (body big mem (readByte s)).state.counter=s.counter+1 := body_counter big mem _
      cases hf : body big mem (readByte s) with
      | next t =>
        rw [hf] at hc
        have ht : t.counter=s.counter+1 := hc
        have hlt := body_next hf
        exact ih hlt (by omega)
      | error t =>
        rw [hf] at hc
        have ht : t.counter=s.counter+1 := hc
        exact ⟨.error t,rfl,show t.counter ≤ 100 by omega⟩
    · exact ⟨_,rfl,show s.counter ≤ 100 by omega⟩

/-! ## Labels -/

/-- A label moves the write cursor. -/
theorem label_cur (h0 : mem s.q≠0) (hc : mem s.q < 0xC0) : s.cur < (label mem s).state.cur := by
  have hpos : 0 < (mem s.q).toNat := by
    rcases Nat.eq_zero_or_pos (mem s.q).toNat with h|h
    · exact absurd (UInt8.toNat_inj.mp h) h0
    · exact h
  have hlt : (mem s.q).toNat < 192 := UInt8.lt_iff_toNat_lt.mp hc
  unfold label
  dsimp only
  rw [if_neg (by unfold urlMaxLength; omega)]
  dsimp only [Flow.state]
  split <;> omega

/-- After a label no end of the loop is safe. -/
theorem body_label (h0 : mem s.q≠0) (hc : mem s.q < 0xC0) :
    0 < (body big mem s).state.cur := by
  have hl : s.cur < (label mem { s with counter := s.counter+1 }).state.cur :=
    label_cur (s:={ s with counter := s.counter+1 }) h0 hc
  unfold body branch
  rw [if_pos hc]
  cases hf : label mem { s with counter := s.counter+1 } with
  | next t =>
    rw [hf] at hl
    have ht : s.cur < t.cur := hl
    have hlim := (limit_grows t).cur
    show 0 < (limit t).state.cur
    omega
  | error t =>
    rw [hf] at hl
    have ht : s.cur < t.cur := hl
    show 0 < t.cur
    omega

/-! ## Safe conversions -/

/-- A state whose accesses are safe and whose write cursor is at the start. -/
structure Clean (size : ℕ) (s : Cursor) : Prop where
  /-- The rounds. -/
  counter : s.counter ≤ 100
  /-- The ranges read. -/
  reads : ∀ x ∈ s.reads,x.1+x.2 ≤ size
  /-- The ranges written. -/
  writes : ∀ x ∈ s.writes,x.1+x.2 ≤ urlMaxLength
  /-- The write cursor. -/
  cur : s.cur=0

/-- A call that fails is safe when its accesses were. -/
theorem failed_safe (name : Memory) (s : Cursor) :
    Safe true size name (failed name s) ↔ Clean size s := by
  constructor
  · rintro ⟨hc,hr,hw,-,hf,-⟩
    exact ⟨hc,hr,hw,Option.some.inj hf⟩
  · intro h
    refine ⟨h.counter,h.reads,h.writes,fun c hc => ?_,congrArg some h.cur,
      fun t ht => absurd ht List.not_mem_nil,fun _ => ⟨rfl,rfl⟩⟩
    cases hc

/-- A byte at the cursor was read before the loop is left. -/
theorem loop_read {n : ℕ} (h : loop big mem size n s=some (.next t)) : (t.q,1) ∈ t.reads := by
  induction n generalizing s with
  | zero => cases h
  | succ n ih =>
    rw [loop] at h
    split at h
    · cases hf : body big mem (readByte s) with
      | next u =>
        rw [hf] at h
        exact ih h
      | error u =>
        rw [hf] at h
        cases h
    · cases h
      exact List.mem_append_right _ List.mem_cons_self

/-- A conversion is safe exactly when the loop jumps to error in a clean state:
behind the copy the freed block is read. -/
theorem finish_safe {n : ℕ} {f : Flow} (name : Memory) (h : loop big mem size n s=some f) :
    Safe true size name (finish size name f) ↔ Clean size f.state ∧ f.IsError := by
  cases f with
  | error t => exact (failed_safe name t).trans (and_iff_left trivial).symm
  | next t =>
    refine iff_of_false ?_ fun hx => hx.2
    unfold finish
    dsimp only
    split
    · next hq =>
      rw [failed_safe]
      intro hc
      have hle : t.q+1 ≤ size := hc.reads (t.q,1) (loop_read h)
      omega
    · rintro ⟨-,-,-,-,-,ht,-⟩
      have hfreed := (ht _ (List.mem_cons_of_mem _ (List.mem_cons_of_mem _ List.mem_cons_self))).1
      cases hfreed

/-- A read outside of the message stays in the record. -/
theorem not_clean_of_read {x : Range} (hx : x ∈ s.reads) (h : ¬x.1+x.2 ≤ size) (hg : Grows s t) :
    ¬Clean size t := fun hc => h (hc.reads x (hg.reads x hx))

/-- One read more that is inside. -/
theorem reads_append {l : List Range} {o n : ℕ} (h : ∀ x ∈ l,x.1+x.2 ≤ size) (ho : o+n ≤ size) :
    ∀ x ∈ l++[(o,n)],x.1+x.2 ≤ size := by
  intro x hx
  rcases List.mem_append.mp hx with hx|hx
  · exact h x hx
  · obtain rfl := List.mem_singleton.mp hx
    exact ho

/-- The state after the bytes of a pointer. -/
def pointerRead (s : Cursor) : Cursor :=
  { s with
    counter := s.counter+1
    len := u16 (s.len+if s.notCompress then 2 else 0)
    notCompress := false
    reads := s.reads++[(s.q,1)]++[(s.q,2)] }

/-- The state at the target of a pointer. -/
def Cursor.jump (s : Cursor) (t : ℕ) : Cursor := { s with q := t }

/-- Reading a pointer inside of the message. -/
theorem pointerRead_clean (h : Clean size s) (hc : s.counter < 100) (hq : s.q+1 < size) :
    Clean size (pointerRead s) :=
  ⟨show s.counter+1 ≤ 100 by omega,reads_append (reads_append h.reads (by omega)) (by omega),
    h.writes,h.cur⟩

/-- Following a pointer accesses nothing. -/
theorem Clean.jump (h : Clean size s) (t : ℕ) : Clean size (s.jump t) :=
  ⟨h.counter,h.reads,h.writes,h.cur⟩

/-- At its limit the loop reads the two bytes at its cursor. -/
theorem limit_clean_iff (hs : Clean size s) (h : 100 ≤ s.counter) :
    Clean size (limit s).state ↔ s.q+1 < size := by
  rw [limit_error h]
  constructor
  · intro hcl
    exact hcl.reads (s.q,2) (List.mem_append_right _ List.mem_cons_self)
  · intro hq
    refine ⟨hs.counter,reads_append hs.reads hq,fun x hx => ?_,hs.cur⟩
    rcases List.mem_append.mp hx with hx|hx
    · exact hs.writes x hx
    · obtain rfl := List.mem_singleton.mp hx
      have h0 : s.cur=0 := hs.cur
      show s.cur+1 ≤ 260
      omega

/-- The state in which the branches are entered. -/
def entered (s : Cursor) : Cursor := { readByte s with counter := s.counter+1 }

/-- A byte from 0xC0 on begins a pointer. -/
theorem branch_pointer (hc : ¬mem s.q < 0xC0) :
    branch big mem (entered s)=pointer big mem (entered s) := if_neg hc

/-- A pointer that is too small ends the call. -/
theorem pointer_rejected (h : Rejected big mem s.q) :
    pointer big mem (entered s)=.error (pointerRead s) := pointer_error (s:=entered s) h

/-- Any other pointer is followed. -/
theorem pointer_followed (h : ¬Rejected big mem s.q) :
    pointer big mem (entered s)=.next ((pointerRead s).jump (target big mem s.q)) :=
  pointer_next (s:=entered s) h

/-- A round behind its first byte. -/
theorem body_entered (big : Bool) (mem : Memory) (s : Cursor) :
    body big mem (readByte s)=
      match branch big mem (entered s) with
      | .error t => .error t
      | .next t => limit t := rfl

/-- A round that ends at a rejected pointer. -/
theorem body_rejected (hc : ¬mem s.q < 0xC0) (h : Rejected big mem s.q) :
    body big mem (readByte s)=.error (pointerRead s) := by
  rw [body_entered,branch_pointer hc,pointer_rejected h]

/-- A round that follows a pointer. -/
theorem body_pointer (hc : ¬mem s.q < 0xC0) (h : ¬Rejected big mem s.q) :
    body big mem (readByte s)=limit ((pointerRead s).jump (target big mem s.q)) := by
  rw [body_entered,branch_pointer hc,pointer_followed h]

/-- A loop keeps what its first round has done. -/
theorem loop_body_grows {n : ℕ} (h : loop big mem size (n+1) s=some f) (h0 : mem s.q≠0)
    (hq : s.q ≤ size) : Grows (body big mem (readByte s)).state f.state := by
  rw [loop,if_pos ⟨h0,hq⟩] at h
  cases hf : body big mem (readByte s) with
  | next t =>
    rw [hf] at h
    exact loop_grows h
  | error t =>
    rw [hf] at h
    obtain rfl := Option.some.inj h
    exact ⟨le_rfl,fun _ hx => hx⟩

/-- A loop that starts with a rejected pointer. -/
theorem loop_rejected {n : ℕ} (h : loop big mem size (n+1) s=some f) (h0 : mem s.q≠0)
    (hq : s.q ≤ size) (hlab : ¬mem s.q < 0xC0) (hrej : Rejected big mem s.q) :
    f=.error (pointerRead s) := by
  rw [loop,if_pos ⟨h0,hq⟩,body_rejected hlab hrej] at h
  exact (Option.some.inj h).symm

/-- A loop reads the byte at its cursor. -/
theorem loop_reads_first {n : ℕ} (h : loop big mem size (n+1) s=some f) : (s.q,1) ∈ f.state.reads := by
  have hread : (s.q,1) ∈ (readByte s).reads := List.mem_append_right _ List.mem_cons_self
  by_cases hin : mem s.q≠0 ∧ s.q ≤ size
  · exact (loop_body_grows h hin.1 hin.2).reads _ ((body_grows big mem (readByte s)).reads _ hread)
  · rw [loop,if_neg hin] at h
    obtain rfl := Option.some.inj h
    exact hread

/-- One round from a clean state, up to the pointer that it follows. -/
theorem round_clean_iff {n : ℕ} {P : Prop} (hs : Clean size s) (hc : s.counter < 100)
    (h : loop big mem size (n+1) s=some f)
    (hnext : ¬mem s.q < 0xC0 → ¬Rejected big mem s.q → s.q+1 < size →
      (Clean size f.state ∧ f.IsError ↔ P)) :
    Clean size f.state ∧ f.IsError ↔ 0xC0 ≤ mem s.q ∧ s.q+1 < size ∧ (Rejected big mem s.q ∨ P) := by
  by_cases hq : s.q < size
  · by_cases h0 : mem s.q=0
    · -- the name ends here, and the block is copied and printed
      rw [loop,if_neg (fun hx => hx.1 h0)] at h
      obtain rfl := Option.some.inj h
      refine iff_of_false (fun hx => hx.2) fun hx => ?_
      rw [h0] at hx
      exact absurd hx.1 (by decide)
    · have hgrow := loop_body_grows h h0 hq.le
      by_cases hlab : mem s.q < 0xC0
      · have hcur : 0 < (body big mem (readByte s)).state.cur := body_label h0 hlab
        refine iff_of_false (fun hcl => ?_) fun hx => absurd hlab (UInt8.not_lt.mpr hx.1)
        have := hgrow.cur
        have := hcl.1.cur
        omega
      · have hge : 0xC0 ≤ mem s.q := UInt8.not_lt.mp hlab
        by_cases hrej : Rejected big mem s.q
        · obtain rfl := loop_rejected h h0 hq.le hlab hrej
          constructor
          · rintro ⟨hcl,-⟩
            have : s.q+2 ≤ size := hcl.reads (s.q,2) (List.mem_append_right _ List.mem_cons_self)
            exact ⟨hge,by omega,Or.inl hrej⟩
          · rintro ⟨-,hq2,-⟩
            exact ⟨pointerRead_clean hs hc hq2,trivial⟩
        · by_cases hq2 : s.q+1 < size
          · rw [hnext hlab hrej hq2]
            exact ⟨fun hP => ⟨hge,hq2,Or.inr hP⟩,fun hx => hx.2.2.resolve_left hrej⟩
          · refine iff_of_false (fun hcl => ?_) fun hx => hq2 hx.2.1
            have hmem : (s.q,2) ∈ (body big mem (readByte s)).state.reads := by
              rw [body_pointer hlab hrej]
              exact (limit_grows _).reads _ (List.mem_append_right _ List.mem_cons_self)
            exact not_clean_of_read hmem (show ¬s.q+2 ≤ size by omega) hgrow hcl.1
  · refine iff_of_false (fun hcl => ?_) fun hx => ?_
    · have : s.q+1 ≤ size := hcl.1.reads _ (loop_reads_first h)
      omega
    · have := hx.2.1
      omega

/-- The loop where it follows a pointer. -/
theorem loop_pointer {n : ℕ} (hc : ¬mem s.q < 0xC0) (hr : ¬Rejected big mem s.q)
    (hq : s.q ≤ size) :
    loop big mem size (n+1) s=
      match limit ((pointerRead s).jump (target big mem s.q)) with
      | .error t => some (.error t)
      | .next t => loop big mem size n t := by
  have h0 : mem s.q≠0 := by
    intro h0
    rw [h0] at hc
    exact hc (by decide)
  rw [←body_pointer hc hr]
  exact if_pos ⟨h0,hq⟩

/-- A loop that starts clean ends clean in an error exactly when it meets pointers
only. -/
theorem loop_clean_iff {m : ℕ} (hs : Clean size s) (hc : s.counter+(m+1)=100)
    (h : loop big mem size (m+2) s=some f) :
    Clean size f.state ∧ f.IsError ↔ PointersOnly big mem size (m+1) s.q := by
  induction m generalizing s with
  | zero =>
    refine round_clean_iff hs (by omega) h fun hlab hrej hq => ?_
    have hj := (pointerRead_clean hs (by omega) hq).jump (target big mem s.q)
    have hcount : 100 ≤ ((pointerRead s).jump (target big mem s.q)).counter :=
      show 100 ≤ s.counter+1 by omega
    rw [loop_pointer hlab hrej (by omega)] at h
    generalize hX : (pointerRead s).jump (target big mem s.q)=X at h hj hcount
    have hq : X.q=target big mem s.q := by
      rw [←hX]
      rfl
    rw [limit_error hcount] at h
    obtain rfl := Option.some.inj h
    rw [PointersOnly,←hq,←limit_clean_iff hj hcount,limit_error hcount]
    exact and_iff_left trivial
  | succ m ih =>
    refine round_clean_iff hs (by omega) h fun hlab hrej hq => ?_
    have hj := (pointerRead_clean hs (by omega) hq).jump (target big mem s.q)
    have hcount : ((pointerRead s).jump (target big mem s.q)).counter=s.counter+1 := rfl
    rw [loop_pointer hlab hrej (by omega)] at h
    generalize hX : (pointerRead s).jump (target big mem s.q)=X at h hj hcount
    have hq : X.q=target big mem s.q := by
      rw [←hX]
      rfl
    rw [limit_next (by omega)] at h
    rw [←hq]
    exact ih hj (by omega) h

end Loop

/-- For every message, every offset in it and every content, a conversion is
safe exactly when the message has two bytes and, if there is a block, only
compression pointers are met from the offset on, until one is rejected. -/
theorem urlConvert_safe_iff (big malloc : Bool) (block mem : Memory) (size offset : ℕ)
    (queryName : Memory) (h : offset < size) :
    (∃ r,urlConvert big malloc block mem size offset queryName=some r ∧
      Safe malloc size queryName r) ↔
      2 ≤ size ∧ (malloc=true → PointersOnly big mem size 100 offset) := by
  cases malloc with
  | false =>
    constructor
    · rintro ⟨r,hr,-,hreads,-⟩
      obtain rfl := Option.some.inj hr
      exact ⟨hreads (0,2) List.mem_cons_self,fun hm => absurd hm (by decide)⟩
    · rintro ⟨hsize,-⟩
      refine ⟨_,rfl,Nat.zero_le 100,fun x hx => ?_,fun x hx => absurd hx List.not_mem_nil,
        fun c hc => ?_,rfl,fun t ht => absurd ht List.not_mem_nil,fun _ => ⟨rfl,rfl⟩⟩
      · obtain rfl := List.mem_singleton.mp hx
        exact hsize
      · cases hc
  | true =>
    have hstart : 2 ≤ size → Clean size (start block size offset) := by
      intro hsize
      refine ⟨Nat.zero_le 100,fun x hx => ?_,fun x hx => absurd hx List.not_mem_nil,rfl⟩
      rcases List.mem_cons.mp hx with rfl|hx
      · exact hsize
      · obtain rfl := List.mem_singleton.mp hx
        show offset+(size-offset) ≤ size
        omega
    obtain ⟨f,hf,-⟩ : ∃ f,loop big mem size 101 (start block size offset)=some f ∧
        f.state.counter ≤ 100 := loop_ends (Nat.zero_lt_succ 99) (Nat.le_refl 101)
    have hconv : urlConvert big true block mem size offset queryName=
        some (finish size queryName f) := by
      unfold urlConvert
      rw [if_neg (by decide),hf]
      rfl
    constructor
    · rintro ⟨r,hr,hsafe⟩
      rw [hconv] at hr
      obtain rfl := Option.some.inj hr
      have hclean := (finish_safe queryName hf).mp hsafe
      have hsize : 2 ≤ size := hclean.1.reads (0,2) ((loop_grows hf).reads _ List.mem_cons_self)
      exact ⟨hsize,fun _ => (loop_clean_iff (hstart hsize) rfl hf).mp hclean⟩
    · rintro ⟨hsize,hp⟩
      have hclean := (loop_clean_iff (hstart hsize) rfl hf).mpr (hp rfl)
      exact ⟨_,hconv,(finish_safe queryName hf).mpr hclean⟩

/-- A message of 32 bytes: a pointer to 20 at 30, and one to 12 at 20, which is
rejected. -/
def rejectedMessage : Memory := fun i =>
  if i=30 then 0xC0 else if i=31 then 20 else if i=20 then 0xC0 else if i=21 then 12 else 0

/-- The message of one rejected pointer has no label. -/
theorem rejectedMessage_pointersOnly (n : ℕ) : PointersOnly true rejectedMessage 32 (n+2) 30 := by
  have ht : target true rejectedMessage 30=20 := by decide
  have hend : PointersOnly true rejectedMessage 32 (n+1) 20 :=
    ⟨by decide,by decide,Or.inl (by decide)⟩
  rw [←ht] at hend
  exact ⟨by decide,by decide,Or.inr hend⟩

/-- A rejected pointer. -/
theorem urlConvert_safe_iff_pointer :
    ∃ r,urlConvert true true (fun _ => 0) rejectedMessage 32 30 (fun _ => 0)=some r ∧
      Safe true 32 (fun _ => 0) r :=
  (urlConvert_safe_iff true true (fun _ => 0) rejectedMessage 32 30 (fun _ => 0) (by decide)).mpr
    ⟨by decide,fun _ => rejectedMessage_pointersOnly 98⟩

/-- A message of 32 bytes: a root name at 20 and a pointer to it at 30. -/
def pointerMessage : Memory := fun i => if i=30 then 0xC0 else if i=31 then 20 else 0

/-- A message of 20 bytes with the name a at 12. -/
def labelMessage : Memory := fun i => if i=12 then 1 else if i=13 then 97 else 0

/-- The block of the name a is copied and freed one byte behind its start. -/
theorem labelMessage_not_safe :
    (urlConvert true true (fun _ => 0) labelMessage 20 12 (fun _ => 0)).map
        (fun r => (r.ret,r.copied,r.freed))=some (0,some 1,some 1) ∧
      ¬∃ r,urlConvert true true (fun _ => 0) labelMessage 20 12 (fun _ => 0)=some r ∧
        Safe true 20 (fun _ => 0) r := by
  have hrun : (urlConvert true true (fun _ => 0) labelMessage 20 12 (fun _ => 0)).map
      (fun r => (r.ret,r.copied,r.freed))=some (0,some 1,some 1) := by decide
  refine ⟨hrun,?_⟩
  rintro ⟨r,hr,-,-,-,-,hfreed,-⟩
  rw [hr] at hrun
  have h1 : r.freed=some 1 := congrArg (fun x => x.2.2) (Option.some.inj hrun)
  rw [h1] at hfreed
  exact absurd hfreed (by decide)

end StudyCode.Dns
