import StudyCode.ArrayListChain

/-!
# Buckets against the set they stand for

Deletion is characterised by the used and stale payloads of the bucket.
From that the shape of every chain follows for all runs, and agreement with
the set semantics follows for exactly those runs in which no deletion is
misled by a stale payload.
-/

namespace StudyCode.ArrayList

/-- Ways for a deletion to end, with its return value and the used payloads
it leaves. -/
inductive DelResult (x : ℤ) (vs st : List ℤ) : ℤ → List ℤ → Prop where
  /-- The value was used and the last payload took its slot. -/
  | removed : x∈vs → st.head?≠some x →
      DelResult x vs st 0 (vs.set (vs.idxOf x) (vs.getLastD x)).dropLast
  /-- The first unused slot still held the value: the last payload is lost. -/
  | lostLast : vs≠[] → st.head?=some x → DelResult x vs st 0 vs.dropLast
  /-- A stale payload matched without reaching a used slot. -/
  | staleOnly : x∉vs → x∈st → (vs=[] ∨ st.head?≠some x) → DelResult x vs st 0 vs
  /-- No slot of the bucket holds the value. -/
  | absent : x∉vs → x∉st → DelResult x vs st 1 vs

/-- In a chain of several blocks the last is not the first. -/
theorem lastAddr_ne {a : ℕ} {as : List ℕ} (hd : (a::as).Nodup) (hs : as≠[]) : lastAddr a as≠a := by
  cases as with
  | nil => exact (hs rfl).elim
  | cons a' as =>
    intro he
    exact (List.nodup_cons.mp hd).1 (he ▸ lastAddr_mem a' as)

/-- A block behind the head is the last one or stands before it. -/
theorem mem_dropLast_or_last {a j : ℕ} {as : List ℕ} (hj : j∈as) :
    j∈as.dropLast ∨ j=lastAddr a as := by
  induction as generalizing a with
  | nil => simp at hj
  | cons a' as ih =>
    cases as with
    | nil => exact Or.inr (by simpa [lastAddr] using hj)
    | cons a2 as =>
      rcases List.mem_cons.mp hj with rfl|hj
      · exact Or.inl (by simp)
      · rcases ih (a:=a') hj with h|h
        · exact Or.inl (List.mem_cons_of_mem _ h)
        · exact Or.inr h

/-- Giving up the last used slot of a chain. -/
theorem clearLast_pop {m : Memory} {a : ℕ} {as : List ℕ} {vs st : List ℤ}
    (h : Holds m (a::as) vs st) (hd : (a::as).Nodup) (hv : vs≠[]) (t tp : ℕ)
    (htp : st≠[] → tp=trail t (a::as)) :
    ∃ m' as' st',clearLast m a tp (lastAddr a as) (lastCount (a::as) vs-1)=some m' ∧
      Holds m' (a::as') vs.dropLast st' ∧
      (as'=as ∨ as≠[] ∧ as'=as.dropLast ∧ m'.cell (lastAddr a as)=none) ∧
      ∀ j,j∉a::as → m'.cell j=m.cell j := by
  obtain ⟨b,pre,c,h1,h2,h3,h4,h5,h6,h7⟩ := h.splitLast hd
  have hc : c≠[] := by
    by_cases hs : as=[]
    · subst hs
      have : lastCount [a] vs=vs.length := by simp [lastCount]
      intro hc
      rw [hc,this,List.length_nil] at h5
      exact hv (List.length_eq_zero_iff.mp h5.symm)
    · exact h6 hs
  obtain ⟨c0,y,rfl⟩ : ∃ c0 y,c=c0++[y] := ⟨c.dropLast,c.getLast hc,(List.dropLast_append_getLast hc).symm⟩
  have hk : lastCount (a::as) vs-1=c0.length := by
    rw [←h5]
    simp
  have hdl : vs.dropLast=pre++c0 := by
    rw [h4,←List.append_assoc,List.dropLast_concat]
  have hout : ∀ j,j∉a::as → j≠lastAddr a as := by
    rintro j hj rfl
    exact hj (lastAddr_mem a as)
  rw [hk,hdl,clearLast,h1]
  dsimp only
  by_cases hdrop : c0.length=0 ∧ lastAddr a as≠a
  · have hs : as≠[] := by
      rintro rfl
      exact hdrop.2 rfl
    have hst : st≠[] := by
      have := h3.size
      rintro rfl
      simp [hdrop.1,blockDepth] at this
    have hc0 : c0=[] := List.length_eq_zero_iff.mp hdrop.1
    obtain ⟨bt,pre',c',g1,g2,g3,g4,g5,g6⟩ := h.dropBlock hd hs t
    have hpre : pre'=pre := by
      have : c'.length=(c0++[y]).length := g5.trans h5.symm
      exact (List.append_inj' (g4.symm.trans h4) this).1
    rw [if_pos hdrop,htp hst,Memory.write_other g2,g1]
    refine ⟨_,as.dropLast,[],rfl,?_,Or.inr ⟨hs,rfl,by simp⟩,?_⟩
    · rw [hc0,List.append_nil,←hpre]
      refine g6 _ ?_ ?_
      · rw [Memory.free_other g2,Memory.write_same]
      · intro j hj hj1 hj2
        rw [Memory.free_other hj1,Memory.write_other hj2,Memory.write_other hj1]
    · intro j hj
      have hj1 := hout j hj
      have hj2 : j≠trail t (a::as) := by
        rintro rfl
        exact hj g3
      rw [Memory.free_other hj1,Memory.write_other hj2,Memory.write_other hj1]
  · rw [if_neg hdrop]
    refine ⟨_,as,y::st,rfl,?_,Or.inl rfl,fun j hj => Memory.write_other (hout j hj)⟩
    refine h7 _ _ c0 _ (Memory.write_same _ _ _) h2 h3.clear_last ?_ fun j _ hj => Memory.write_other hj
    intro hs hc0
    exact hdrop ⟨by simp [hc0],lastAddr_ne hd hs⟩

/-- Overwrite a stale payload of the last block. -/
theorem Holds.setStale {m : Memory} {a : ℕ} {as : List ℕ} {vs st : List ℤ}
    (h : Holds m (a::as) vs st) (hd : (a::as).Nodup) {b : Block}
    (hb : m.cell (lastAddr a as)=some b) (j : ℕ) (v : ℤ) :
    Holds (m.write (lastAddr a as) {b with data := store b.data (lastCount (a::as) vs+j) v})
      (a::as) vs (st.set j v) := by
  obtain ⟨b0,pre,c,h1,h2,h3,h4,h5,h6,h7⟩ := h.splitLast hd
  rw [hb] at h1
  cases h1
  have := h7 (m.write (lastAddr a as) {b with data := store b.data (lastCount (a::as) vs+j) v}) _ c
    (st.set j v) (Memory.write_same _ _ _) h2
    (by rw [←h5]; exact h3.store_stale j v) h6 fun j _ hj => Memory.write_other hj
  rwa [←h4] at this

/-- Clearing the flag of an unused slot of the last block changes no
description. -/
theorem Holds.clearUnused {m : Memory} {a : ℕ} {as : List ℕ} {vs st : List ℤ}
    (h : Holds m (a::as) vs st) (hd : (a::as).Nodup) {b : Block}
    (hb : m.cell (lastAddr a as)=some b) {i : ℕ} (hi : lastCount (a::as) vs ≤ i) :
    Holds (m.write (lastAddr a as) {b with used := store b.used i 0}) (a::as) vs st := by
  obtain ⟨b0,pre,c,h1,h2,h3,h4,h5,h6,h7⟩ := h.splitLast hd
  rw [hb] at h1
  cases h1
  have := h7 (m.write (lastAddr a as) {b with used := store b.used i 0}) _ c st
    (Memory.write_same _ _ _) h2 (h3.clear_unused i (by omega)) h6 fun j _ hj => Memory.write_other hj
  rwa [←h4] at this

/-- The payload in the last used slot. -/
theorem Holds.last_data {m : Memory} {a : ℕ} {as : List ℕ} {vs st : List ℤ}
    (h : Holds m (a::as) vs st) (hd : (a::as).Nodup) (hv : vs≠[]) {b : Block}
    (hb : m.cell (lastAddr a as)=some b) (z : ℤ) :
    0 < lastCount (a::as) vs ∧ b.data (lastCount (a::as) vs-1)=vs.getLastD z := by
  obtain ⟨b0,pre,c,h1,h2,h3,h4,h5,h6,_⟩ := h.splitLast hd
  rw [hb] at h1
  cases h1
  have hc : c≠[] := by
    by_cases hs : as=[]
    · subst hs
      rintro rfl
      simp only [lastCount,List.length_nil,List.length_cons] at h5
      exact hv (List.length_eq_zero_iff.mp (by omega))
    · exact h6 hs
  have hp : 0 < c.length := List.length_pos_of_ne_nil hc
  rw [←h5]
  refine ⟨hp,?_⟩
  have hlast : vs.getLastD z=c.getLast hc := by
    rw [h4,List.getLastD_eq_getLast?,List.getLast?_append_of_ne_nil _ hc,
      List.getLast?_eq_some_getLast hc,Option.getD_some]
  rw [hlast,h3.data_used (Nat.sub_lt hp one_pos),List.getLast_eq_getElem]

/-- A chain with an unused first slot has one empty block. -/
theorem Holds.nil_of_lastCount {m : Memory} {a : ℕ} {as : List ℕ} {vs st : List ℤ}
    (h : Holds m (a::as) vs st) (hk : lastCount (a::as) vs=0) : vs=[] ∧ as=[] := by
  obtain ⟨_,h2⟩ := h.length_bounds
  have has : as=[] := by
    by_contra hs
    have := h2 hs
    simp only [lastCount,List.length_cons,Nat.add_sub_cancel] at hk
    omega
  subst has
  simp only [lastCount,List.length_cons,List.length_nil] at hk
  exact ⟨List.length_eq_zero_iff.mp (by omega),rfl⟩

/-- What a delete leaves of a bucket: the last block may be gone, and no other block
of the memory is touched. -/
def Deleted (m : Memory) (a : ℕ) (as : List ℕ) (vs st : List ℤ) (x : ℤ)
    (o : Option (Memory×ℤ)) : Prop :=
  ∃ m' r as' vs' st',o=some (m',r) ∧ Holds m' (a::as') vs' st' ∧
    (as'=as ∨ as≠[] ∧ as'=as.dropLast ∧ m'.cell (lastAddr a as)=none) ∧
    (∀ j,j∉a::as → m'.cell j=m.cell j) ∧ DelResult x vs st r vs'

/-- A value that is there stands first exactly when its index is zero. -/
theorem idxOf_eq_zero {st : List ℤ} {x : ℤ} (hs : x∈st) : st.idxOf x=0 ↔ st.head?=some x := by
  cases st with
  | nil => simp at hs
  | cons y st =>
    constructor
    · intro hj
      by_contra hne
      rw [List.idxOf_cons_ne _ (by simpa using hne)] at hj
      omega
    · intro hhead
      rw [Option.some.inj hhead]
      exact List.idxOf_cons_self

section Delete

variable {m : Memory} {base n a : ℕ} {as : List ℕ} {vs st : List ℤ} {x : ℤ}

/-- A chain has no more blocks behind its head than the memory has addresses. -/
theorem Holds.lt_brk (h : Holds m (a::as) vs st) (hd : (a::as).Nodup) : as.length < m.brk+1 := by
  have hle := h.length_le_brk hd
  simp only [List.length_cons] at hle
  omega

/-- The last address of a chain is not outside of it. -/
theorem ne_lastAddr {j : ℕ} (hj : j∉a::as) : j≠lastAddr a as := by
  rintro rfl
  exact hj (lastAddr_mem a as)

/-- When the first unused slot is the victim, only the last payload goes. -/
theorem Holds.moveLast (h : Holds m (a::as) vs st) (hd : (a::as).Nodup) (hv : vs≠[]) (t tp : ℕ)
    (htp : st≠[] → tp=trail t (a::as)) :
    ∃ m' as' st',delMove m a tp (lastAddr a as) (lastCount (a::as) vs) (lastAddr a as)
        (lastCount (a::as) vs-1)=some m' ∧ Holds m' (a::as') vs.dropLast st' ∧
      (as'=as ∨ as≠[] ∧ as'=as.dropLast ∧ m'.cell (lastAddr a as)=none) ∧
      ∀ j,j∉a::as → m'.cell j=m.cell j := by
  obtain ⟨bl,hbl⟩ := h.allocated _ (lastAddr_mem a as)
  have hset := h.setStale hd hbl 0 (bl.data (lastCount (a::as) vs-1))
  rw [Nat.add_zero] at hset
  obtain ⟨m',as',st',h1,h2,h3,h4⟩ := clearLast_pop hset hd hv t tp
    (fun hs => htp fun hst => hs (by simp [hst]))
  refine ⟨m',as',st',?_,h2,h3,fun j hj => (h4 j hj).trans (Memory.write_other (ne_lastAddr hj))⟩
  rw [delMove,hbl]
  exact h1

/-- When a later unused slot is the victim, no used slot is touched. -/
theorem Holds.moveStale (h : Holds m (a::as) vs st) (hd : (a::as).Nodup) (x : ℤ) (lastN tp : ℕ)
    (hle : lastCount (a::as) vs ≤ lastN) (hkeep : ¬(lastN=0 ∧ lastAddr a as≠a)) :
    ∃ m' st',delMove m a tp (lastAddr a as) (lastCount (a::as) vs+st.idxOf x) (lastAddr a as)
        lastN=some m' ∧ Holds m' (a::as) vs st' ∧ ∀ j,j∉a::as → m'.cell j=m.cell j := by
  obtain ⟨bl,hbl⟩ := h.allocated _ (lastAddr_mem a as)
  have hset := h.setStale hd hbl (st.idxOf x) (bl.data lastN)
  have hclear := hset.clearUnused hd (Memory.write_same _ _ _) hle
  refine ⟨_,_,?_,hclear,fun j hj => ?_⟩
  · rw [delMove,hbl]
    simp only [clearLast,Memory.write_same,if_neg hkeep]
  · rw [Memory.write_other (ne_lastAddr hj),Memory.write_other (ne_lastAddr hj)]

/-- A delete of a value in a used slot. -/
theorem Holds.delElem_used (ha : base+n=a) (h : Holds m (a::as) vs st) (hd : (a::as).Nodup)
    (hn : vs.Nodup) (hx : x∈vs) : Deleted m a as vs st x (delElem m base n x) := by
  have hv : vs≠[] := List.ne_nil_of_mem hx
  obtain ⟨bl,hbl⟩ := h.allocated _ (lastAddr_mem a as)
  obtain ⟨d,hd1,hd2⟩ := delLoop_mem h hn hx (h.lt_brk hd) a
  rw [delElem,ha,hd2]
  by_cases hhit : st.head?=some x
  · -- the first unused slot holds the value too, and the loop ends there
    obtain ⟨m',as',st',h1,h2,h3,h4⟩ := h.moveLast hd hv a
      (if st=[] then lastAddr a as else trail a (a::as)) (fun hs => if_neg hs)
    refine ⟨m',0,as',vs.dropLast,st',?_,h2,h3,h4,.lostLast hv hhit⟩
    simp [settled,hhit,h1]
  · obtain ⟨bd,hbd⟩ := h.allocated d (List.mem_of_getElem? hd1)
    have hset := h.setData hd (List.idxOf_lt_length_of_mem hx) hd1 hbd
      (bl.data (lastCount (a::as) vs-1))
    have hcount : lastCount (a::as) (vs.set (vs.idxOf x) (bl.data (lastCount (a::as) vs-1)))=
        lastCount (a::as) vs := by simp [lastCount]
    obtain ⟨m',as',st',h1,h2,h3,h4⟩ := clearLast_pop hset hd (by simpa using hv) a
      (if st=[] then lastAddr a as else trail a (a::as)) (fun hs => if_neg hs)
    rw [hcount] at h1
    refine ⟨m',0,as',_,st',?_,h2,h3,fun j hj => (h4 j hj).trans (Memory.write_other ?_),?_⟩
    · simp [settled,hhit,delMove,hbl,hbd,h1]
    · rintro rfl
      exact hj (List.mem_of_getElem? hd1)
    · rw [(h.last_data hd hv hbl x).2]
      exact .removed hx hhit

/-- A delete of a value that only an unused slot holds. -/
theorem Holds.delElem_stale (ha : base+n=a) (h : Holds m (a::as) vs st) (hd : (a::as).Nodup)
    (hn : vs.Nodup) (hx : x∉vs) (hs : x∈st) : Deleted m a as vs st x (delElem m base n x) := by
  rw [delElem,ha,(delLoop_notMem h hn hx (h.lt_brk hd) a).2 hs]
  by_cases hhead : vs≠[] ∧ st.head?=some x
  · have hj : st.idxOf x=0 := (idxOf_eq_zero hs).mpr hhead.2
    obtain ⟨bl,hbl⟩ := h.allocated _ (lastAddr_mem a as)
    have hk := (h.last_data hd hhead.1 hbl x).1
    obtain ⟨m',as',st',g1,g2,g3,g4⟩ := h.moveLast hd hhead.1 a (trail a (a::as)) (fun _ => rfl)
    refine ⟨m',0,as',vs.dropLast,st',?_,g2,g3,g4,.lostLast hhead.1 hhead.2⟩
    simp [hj,hk,g1]
  · have hor : vs=[] ∨ st.head?≠some x := by
      by_contra hcon
      rw [not_or,not_not] at hcon
      exact hhead hcon
    by_cases hi : 0 < lastCount (a::as) vs+st.idxOf x
    · have hj : 0 < st.idxOf x := by
        by_contra hj0
        rcases hor with hv|hne
        · simp only [lastCount,hv,List.length_nil] at hi
          omega
        · exact hne ((idxOf_eq_zero hs).mp (by omega))
      obtain ⟨m',st',g1,g2,g3⟩ := h.moveStale hd x (lastCount (a::as) vs+st.idxOf x-1)
        (trail a (a::as)) (by omega) (fun hdrop => hdrop.2 (by
          have hk : lastCount (a::as) vs=0 := by omega
          rw [(h.nil_of_lastCount hk).2]
          rfl))
      refine ⟨m',0,as,vs,st',?_,g2,Or.inl rfl,g3,.staleOnly hx hs hor⟩
      simp only [hi,if_true]
      simp [g1]
    · have hk : lastCount (a::as) vs=0 := by omega
      obtain ⟨-,rfl⟩ := h.nil_of_lastCount hk
      obtain ⟨m',st',g1,g2,g3⟩ := h.moveStale hd x (blockDepth-1) a (by omega)
        (fun hdrop => by simp [blockDepth] at hdrop)
      refine ⟨m',0,[],vs,st',?_,g2,Or.inl rfl,g3,.staleOnly hx hs hor⟩
      simp only [hi,if_false]
      simpa [trail,lastAddr] using g1

/-- A delete of a value that no slot holds. -/
theorem Holds.delElem_absent (ha : base+n=a) (h : Holds m (a::as) vs st) (hd : (a::as).Nodup)
    (hn : vs.Nodup) (hx : x∉vs) (hs : x∉st) : Deleted m a as vs st x (delElem m base n x) := by
  obtain ⟨s,t,he,hs'⟩ := (delLoop_notMem h hn hx (h.lt_brk hd) a).1 hs
  rw [delElem,ha,he]
  exact ⟨m,1,as,vs,st,by simp [hs'],h,Or.inl rfl,fun _ _ => rfl,.absent hx hs⟩

end Delete

/-- Everything a deletion can do to a chain. -/
theorem delElem_spec {m : Memory} {base n : ℕ} {as : List ℕ} {vs st : List ℤ}
    (h : Holds m ((base+n)::as) vs st) (hd : ((base+n)::as).Nodup) (hn : vs.Nodup) (x : ℤ) :
    ∃ m' r as' vs' st',delElem m base n x=some (m',r) ∧ Holds m' ((base+n)::as') vs' st' ∧
      (as'=as ∨ as≠[] ∧ as'=as.dropLast ∧ m'.cell (lastAddr (base+n) as)=none) ∧
      (∀ j,j∉(base+n)::as → m'.cell j=m.cell j) ∧ DelResult x vs st r vs' := by
  generalize ha : base+n=a at *
  by_cases hx : x∈vs
  · exact h.delElem_used ha hd hn hx
  · by_cases hs : x∈st
    · exact h.delElem_stale ha hd hn hx hs
    · exact h.delElem_absent ha hd hn hx hs

/-! ## Reading a bucket back -/

/-- Flags and payloads of a block whose used slots come first. -/
theorem BlockHolds.slots {b : Block} {vs st : List ℤ} (h : BlockHolds b vs st) :
    (List.range blockDepth).map (fun i => (b.used i,b.data i))=
      vs.map (fun v => (1,v))++st.map (fun v => (0,v)) := by
  have hsz := h.size
  apply List.ext_getElem?
  intro i
  by_cases hi : i < blockDepth
  · have hd := h.data i hi
    rw [List.getElem?_map,List.getElem?_range hi,Option.map_some,h.used i hi]
    by_cases hl : i < vs.length
    · rw [List.getElem?_append_left hl] at hd
      rw [if_pos hl,List.getElem?_append_left (by simpa using hl),List.getElem?_map,hd]
      rfl
    · rw [List.getElem?_append_right (by omega)] at hd
      rw [if_neg hl,List.getElem?_append_right (by simpa using hl),List.getElem?_map,
        List.length_map,hd]
      rfl
  · rw [List.getElem?_eq_none (by simpa using hi),List.getElem?_eq_none]
    simp only [List.length_append,List.length_map]
    omega

/-- Slots of the blocks met on a walk. -/
def slotsOf (l : List (ℕ×Block)) : List (ℤ×ℤ) :=
  l.flatMap fun p => (List.range blockDepth).map fun i => (p.2.used i,p.2.data i)

/-- Conditions on the blocks of a bucket in chain order. -/
structure Linked (l : List (ℕ×Block)) : Prop where
  /-- Each block points to the following one. -/
  link : l.IsChain fun p q => p.2.next=some q.1
  /-- The last block points nowhere. -/
  ends : ∀ p,l.getLast?=some p → p.2.next=none
  /-- All slots of the other blocks are used. -/
  full : ∀ p ∈ l.dropLast,∀ i,i < blockDepth → p.2.used i≠0
  /-- Each block behind the first has a used slot. -/
  nonempty : ∀ p ∈ l.tail,∃ i,i < blockDepth ∧ p.2.used i≠0

/-- A walk along a described chain meets exactly its blocks. -/
theorem Holds.walk {m : Memory} {a : ℕ} {as : List ℕ} {vs st : List ℤ}
    (h : Holds m (a::as) vs st) {fuel : ℕ} (hf : as.length < fuel) :
    (walk m fuel a).map Prod.fst=a::as ∧
    slotsOf (walk m fuel a)=vs.map (fun v => (1,v))++st.map (fun v => (0,v)) ∧
    Linked (walk m fuel a) ∧
    (vs≠[] → ∀ p,(walk m fuel a).head?=some p → ∃ i,i < blockDepth ∧ p.2.used i≠0) := by
  generalize hl : a::as=l at h
  induction h generalizing a as fuel with
  | @last a0 b vs st ha hn hb =>
    cases hl
    obtain ⟨f,rfl⟩ : ∃ f,fuel=f+1 := ⟨fuel-1,by omega⟩
    have hw : ArrayList.walk m (f+1) a0=[(a0,b)] := by
      simp [ArrayList.walk,ha,hn]
    rw [hw]
    refine ⟨rfl,by simpa [slotsOf] using hb.slots,⟨List.isChain_singleton _,?_,by simp,by simp⟩,?_⟩
    · intro p hp
      cases hp
      exact hn
    · intro hv p hp
      cases hp
      have hpos : 0 < vs.length := List.length_pos_of_ne_nil hv
      exact ⟨0,by simp [blockDepth],by rw [hb.used 0 (by simp [blockDepth]),if_pos hpos]; exact one_ne_zero⟩
  | @link a0 a' as' b c vs st ha hn hb hv hr ih =>
    cases hl
    obtain ⟨f,rfl⟩ : ∃ f,fuel=f+1 := ⟨fuel-1,by omega⟩
    have hf' : as'.length < f := by simpa using hf
    obtain ⟨h1,h2,h3,h4⟩ := ih hf' rfl
    have hw : ArrayList.walk m (f+1) a0=(a0,b)::ArrayList.walk m f a' := by
      simp [ArrayList.walk,ha,hn]
    have hfull : ∀ i,i < blockDepth → b.used i≠0 := by
      intro i hi
      rw [hb.used i hi,if_pos (by rw [hb.length_full]; exact hi)]
      exact one_ne_zero
    rw [hw]
    cases hcase : ArrayList.walk m f a' with
    | nil => rw [hcase] at h1; cases h1
    | cons p0 l0 =>
      rw [hcase] at h1 h2 h3 h4
      have hp0 : p0.1=a' := (List.cons.inj h1).1
      refine ⟨by rw [List.map_cons,h1],?_,⟨?_,?_,?_,?_⟩,?_⟩
      · have hs := hb.slots
        simp only [slotsOf,List.flatMap_cons] at h2 ⊢
        rw [h2,hs]
        simp
      · exact List.isChain_cons_cons.mpr ⟨by rw [hp0]; exact hn,h3.link⟩
      · intro p hp
        rw [List.getLast?_cons_cons] at hp
        exact h3.ends p hp
      · intro p hp i hi
        rw [List.dropLast_cons_cons] at hp
        rcases List.mem_cons.mp hp with rfl|hp
        · exact hfull i hi
        · exact h3.full p hp i hi
      · intro p hp
        rcases List.mem_cons.mp hp with rfl|hp
        · exact h4 hv p rfl
        · exact h3.nonempty p hp
      · intro _ p hp
        cases hp
        exact ⟨0,by simp [blockDepth],hfull 0 (by simp [blockDepth])⟩

/-- The walk over a bucket shows the used payloads and then the unused ones. -/
theorem Holds.slots {m : Memory} {a : ℕ} {as : List ℕ} {vs st : List ℤ}
    (h : Holds m (a::as) vs st) (hd : (a::as).Nodup) :
    slots m a=vs.map (fun v => (1,v))++st.map (fun v => (0,v)) := by
  have hl := h.length_le_brk hd
  exact (h.walk (by simpa [Nat.lt_succ_iff] using Nat.le_of_succ_le hl)).2.1

/-- The used values of a bucket. -/
theorem Holds.usedVals {m : Memory} {a : ℕ} {as : List ℕ} {vs st : List ℤ}
    (h : Holds m (a::as) vs st) (hd : (a::as).Nodup) : usedVals m a=vs := by
  rw [ArrayList.usedVals,h.slots hd,List.filter_append,List.filter_map,List.filter_map]
  simp [Function.comp_def]

/-- The payloads of the unused slots of a bucket. -/
theorem Holds.staleVals {m : Memory} {a : ℕ} {as : List ℕ} {vs st : List ℤ}
    (h : Holds m (a::as) vs st) (hd : (a::as).Nodup) : staleVals m a=st := by
  rw [ArrayList.staleVals,h.slots hd,List.filter_append,List.filter_map,List.filter_map]
  simp [Function.comp_def]

/-- A bucket depends on the blocks of its chain only. -/
theorem Holds.bucket_frame {m m' : Memory} {a : ℕ} {as : List ℕ} {vs st : List ℤ}
    (h : Holds m (a::as) vs st) (hd : (a::as).Nodup) (hc : ∀ j ∈ a::as,m'.cell j=m.cell j) :
    bucket m' a=bucket m a := by
  have hwalk : ∀ f f' : ℕ,as.length < f → as.length < f' →
      ArrayList.walk m' f' a=ArrayList.walk m f a := by
    clear hd
    generalize hl : a::as=l at h hc
    induction h generalizing a as with
    | @last a0 b vs st ha hn hb =>
      cases hl
      intro f f' hf hf'
      obtain ⟨g,rfl⟩ : ∃ g,f=g+1 := ⟨f-1,by omega⟩
      obtain ⟨g',rfl⟩ : ∃ g',f'=g'+1 := ⟨f'-1,by omega⟩
      simp [ArrayList.walk,hc a0 (by simp),ha,hn]
    | @link a0 a' as' b c vs st ha hn hb hv hr ih =>
      cases hl
      intro f f' hf hf'
      obtain ⟨g,rfl⟩ : ∃ g,f=g+1 := ⟨f-1,by omega⟩
      obtain ⟨g',rfl⟩ : ∃ g',f'=g'+1 := ⟨f'-1,by omega⟩
      have := ih rfl (fun j hj => hc j (List.mem_cons_of_mem _ hj)) g g'
        (by simpa using hf) (by simpa using hf')
      simp [ArrayList.walk,hc a0 (by simp),ha,hn,this]
  have h1 := h.length_le_brk hd
  have h2 := (h.frame hc).length_le_brk hd
  simp only [List.length_cons] at h1 h2
  exact hwalk _ _ (by omega) (by omega)

/-! ## Whole arrays -/

/-- Overwrite the entry of one bucket. -/
def setBucket {α : Type} {size : ℕ} (f : Fin size → α) (i : Fin size) (v : α) : Fin size → α :=
  fun j => if j=i then v else f j

/-- Every bucket is a described chain, the chains share no block, and no
other block is allocated. -/
structure ArrayInv (base size : ℕ) (m : Memory) (as : Fin size → List ℕ)
    (vs st : Fin size → List ℤ) : Prop where
  /-- Each bucket starts at its base block. -/
  holds : ∀ i : Fin size,Holds m ((base+i)::as i) (vs i) (st i)
  /-- No chain repeats a block. -/
  nodup : ∀ i : Fin size,((base+i)::as i).Nodup
  /-- Chains of different buckets are disjoint. -/
  disjoint : ∀ i j : Fin size,i≠j → List.Disjoint ((base+i)::as i) ((base+j)::as j)
  /-- Unlinked blocks have been released. -/
  live : ∀ a,m.cell a≠none → ∃ i : Fin size,a∈(base+i)::as i
  /-- No payload is stored twice in a bucket. -/
  distinct : ∀ i,(vs i).Nodup

/-- A fresh block holds nothing. -/
theorem BlockHolds.zero : BlockHolds zeroBlock [] (List.replicate blockDepth 0) where
  size := by simp
  used := by simp [zeroBlock]
  data := by
    intro i hi
    simp [zeroBlock,hi]

/-- A fresh array has empty buckets. -/
theorem arrayInv_init (base size : ℕ) :
    ArrayInv base size (initArrayList base size) (fun _ => []) (fun _ => [])
      (fun _ => List.replicate blockDepth 0) where
  holds := fun i => .last (if_pos ⟨by omega,by have := i.isLt; omega⟩) rfl BlockHolds.zero
  nodup := fun _ => List.nodup_singleton _
  disjoint := by
    intro i j hij
    simp only [List.disjoint_singleton,List.mem_singleton]
    intro he
    exact hij (Fin.ext (by omega))
  live := by
    intro a ha
    have hr : base ≤ a ∧ a < base+size := by
      by_contra hn
      exact ha (if_neg hn)
    exact ⟨⟨a-base,by omega⟩,List.mem_singleton.mpr (by simp only; omega)⟩
  distinct := fun _ => List.nodup_nil

/-- One bucket is rewritten and nothing outside its old and new chain. -/
theorem ArrayInv.update {base size : ℕ} {m m' : Memory} {as : Fin size → List ℕ}
    {vs st : Fin size → List ℤ} (h : ArrayInv base size m as vs st) (i : Fin size)
    {as' : List ℕ} {vs' st' : List ℤ} (hh : Holds m' ((base+i)::as') vs' st')
    (hn : ((base+i)::as').Nodup) (hd : vs'.Nodup)
    (hnew : ∀ a ∈ as',a∈as i ∨ m.cell a=none)
    (hgone : ∀ a ∈ as i,a∈as' ∨ m'.cell a=none)
    (hfr : ∀ a,a∉(base+i)::as i → a∉(base+i)::as' → m'.cell a=m.cell a) :
    ArrayInv base size m' (setBucket as i as') (setBucket vs i vs') (setBucket st i st') ∧
      ∀ j : Fin size,j≠i → bucket m' (base+j)=bucket m (base+j) := by
  have hother : ∀ j : Fin size,j≠i → ∀ a ∈ (base+j)::as j,a∉(base+i)::as i ∧ a∉(base+i)::as' := by
    intro j hji a ha
    have h1 : a∉(base+i)::as i := fun hc => h.disjoint j i hji ha hc
    refine ⟨h1,fun hc => ?_⟩
    rcases List.mem_cons.mp hc with rfl|hc
    · exact h1 (by simp)
    · rcases hnew a hc with hc|hc
      · exact h1 (List.mem_cons_of_mem _ hc)
      · obtain ⟨b,hb⟩ := (h.holds j).allocated a ha
        rw [hc] at hb
        cases hb
  have hcell : ∀ j : Fin size,j≠i → ∀ a ∈ (base+j)::as j,m'.cell a=m.cell a := fun j hji a ha =>
    hfr a (hother j hji a ha).1 (hother j hji a ha).2
  refine ⟨⟨?_,?_,?_,?_,?_⟩,fun j hji => (h.holds j).bucket_frame (h.nodup j) (hcell j hji)⟩
  · intro j
    by_cases hj : j=i
    · subst hj
      simpa [setBucket] using hh
    · simpa [setBucket,hj] using (h.holds j).frame (hcell j hj)
  · intro j
    by_cases hj : j=i
    · subst hj
      simpa [setBucket] using hn
    · simpa [setBucket,hj] using h.nodup j
  · intro j k hjk a ha hb
    by_cases hj : j=i
    · subst hj
      have hk : k≠j := Ne.symm hjk
      simp only [setBucket,if_true,if_neg hk] at ha hb
      exact (hother k hk a hb).2 ha
    · by_cases hk : k=i
      · subst hk
        simp only [setBucket,if_true,if_neg hj] at ha hb
        exact (hother j hj a ha).2 hb
      · simp only [setBucket,if_neg hj,if_neg hk] at ha hb
        exact h.disjoint j k hjk ha hb
  · intro a ha
    by_cases hi : a∈(base+i)::as'
    · exact ⟨i,by simpa [setBucket] using hi⟩
    · by_cases ho : a∈(base+i)::as i
      · rcases List.mem_cons.mp ho with rfl|ho
        · exact (hi (by simp)).elim
        · rcases hgone a ho with hc|hc
          · exact (hi (List.mem_cons_of_mem _ hc)).elim
          · exact (ha hc).elim
      · rw [hfr a ho hi] at ha
        obtain ⟨j,hj⟩ := h.live a ha
        have hji : j≠i := by
          rintro rfl
          exact ho hj
        exact ⟨j,by simpa [setBucket,hji] using hj⟩
  · intro j
    by_cases hj : j=i
    · subst hj
      simpa [setBucket] using hd
    · simpa [setBucket,hj] using h.distinct j

/-! ## Steps and runs -/

/-- Storing a value over the first occurrence of another exchanges the two. -/
theorem set_idxOf_perm (l : List ℤ) (x y : ℤ) (hx : x∈l) :
    (l.set (l.idxOf x) y).Perm (y::l.erase x) := by
  induction l with
  | nil => simp at hx
  | cons z l ih =>
    by_cases hz : z=x
    · subst hz
      simp
    · have hm : x∈l := (List.mem_cons.mp hx).resolve_left (Ne.symm hz)
      rw [List.idxOf_cons_ne _ hz,List.set_cons_succ,List.erase_cons_tail (by simpa using hz)]
      exact ((ih hm).cons z).trans (List.Perm.swap y z _)

/-- Moving the last payload over the victim removes exactly the victim. -/
theorem removed_perm {vs : List ℤ} {x : ℤ} (hx : x∈vs) :
    ((vs.set (vs.idxOf x) (vs.getLastD x)).dropLast).Perm (vs.erase x) := by
  obtain ⟨l,y,rfl⟩ : ∃ l y,vs=l++[y] :=
    ⟨vs.dropLast,vs.getLast (List.ne_nil_of_mem hx),(List.dropLast_append_getLast _).symm⟩
  have hlast : (l++[y]).getLastD x=y := by simp
  rw [hlast]
  by_cases hl : x∈l
  · rw [List.idxOf_append_of_mem hl,List.set_append_left _ _ (List.idxOf_lt_length_of_mem hl),
      List.dropLast_concat,List.erase_append_left _ hl]
    exact (set_idxOf_perm l x y hl).trans (List.perm_append_singleton y _).symm
  · have hy : x=y := by simpa [hl] using hx
    subst hy
    rw [List.idxOf_append_of_notMem hl,List.erase_append_right _ hl]
    simp

/-- Deleting keeps the values different from each other. -/
theorem DelResult.nodup {x r : ℤ} {vs st vs' : List ℤ} (h : DelResult x vs st r vs')
    (hn : vs.Nodup) : vs'.Nodup := by
  cases h with
  | removed hx _ => exact (removed_perm hx).nodup_iff.mpr (hn.erase x)
  | lostLast => exact hn.sublist (List.dropLast_sublist vs)
  | staleOnly => exact hn
  | absent => exact hn

/-- What a call returns and leaves in the used slots. -/
inductive CallResult (vs st : List ℤ) : Op → ℤ → List ℤ → Prop where
  /-- The value to insert is already used. -/
  | present {x : ℤ} : x∈vs → CallResult vs st (.add x) 2 vs
  /-- The value goes behind the used ones. -/
  | added {x : ℤ} : x∉vs → CallResult vs st (.add x) 0 (vs++[x])
  /-- A deletion in one of its ways. -/
  | deleted {x r : ℤ} {vs' : List ℤ} : DelResult x vs st r vs' → CallResult vs st (.del x) r vs'

/-- Every call keeps the values different from each other. -/
theorem CallResult.nodup {vs st vs' : List ℤ} {op : Op} {r : ℤ} (h : CallResult vs st op r vs')
    (hn : vs.Nodup) : vs'.Nodup := by
  cases h with
  | present => exact hn
  | added hx => exact List.nodup_append.mpr ⟨hn,List.nodup_singleton _,by
      rintro a ha b hb rfl
      exact hx (List.mem_singleton.mp hb ▸ ha)⟩
  | deleted h => exact h.nodup hn

/-- Every call on an array in order completes, rewrites its own bucket as
described and leaves the array in order. -/
theorem ArrayInv.call (A : Allocator) {base size : ℕ} {m : Memory} {as : Fin size → List ℕ}
    {vs st : Fin size → List ℤ} (h : ArrayInv base size m as vs st) (i : Fin size) (op : Op) :
    ∃ m' r as' vs' st',ArrayList.call A base m i op=some (m',r) ∧
      ArrayInv base size m' (setBucket as i as') (setBucket vs i vs') (setBucket st i st') ∧
      (∀ j : Fin size,j≠i → bucket m' (base+j)=bucket m (base+j)) ∧
      CallResult (vs i) (st i) op r vs' ∧ (r=2 → m'=m) := by
  have hh := h.holds i
  have hd := h.nodup i
  have hn := h.distinct i
  cases op with
  | add x =>
    have hf : (as i).length < m.brk+1 := by
      have := hh.length_le_brk hd
      simp only [List.length_cons] at this
      omega
    obtain ⟨h1,h2⟩ := addLoop_spec A x hh hd hf
    by_cases hx : x∈vs i
    · obtain ⟨hu,hb⟩ := h.update i hh hd hn (fun a ha => Or.inl ha) (fun a ha => Or.inl ha)
        fun _ _ _ => rfl
      exact ⟨m,2,as i,vs i,st i,h1 hx,hu,hb,.present hx,fun _ => rfl⟩
    · obtain ⟨m',as',st',g1,g2,g3,g4⟩ := h2 hx
      have hfresh : A.malloc m∉(base+i)::as i := by
        intro hc
        obtain ⟨b,hb⟩ := hh.allocated _ hc
        rw [A.fresh m] at hb
        cases hb
      have hd' : ((base+(i:ℕ))::as').Nodup := by
        rcases g3 with rfl|rfl
        · exact hd
        · rw [←List.cons_append]
          exact List.nodup_append.mpr ⟨hd,List.nodup_singleton _,by
            rintro a ha b hb rfl
            exact hfresh (List.mem_singleton.mp hb ▸ ha)⟩
      obtain ⟨hu,hb⟩ := h.update i g2 hd' (CallResult.nodup (.added hx : CallResult (vs i) (st i) _ _ _) hn)
        (fun a ha => by
          rcases g3 with rfl|rfl
          · exact Or.inl ha
          · rcases List.mem_append.mp ha with ha|ha
            · exact Or.inl ha
            · exact Or.inr (List.mem_singleton.mp ha ▸ A.fresh m))
        (fun a ha => by
          rcases g3 with rfl|rfl
          · exact Or.inl ha
          · exact Or.inl (List.mem_append_left _ ha))
        (fun a _ ha => g4 a ha)
      exact ⟨m',0,as',vs i++[x],st',g1,hu,hb,.added hx,fun h0 => by simp at h0⟩
  | del x =>
    obtain ⟨m',r,as',vs',st',g1,g2,g3,g4,g5⟩ := delElem_spec hh hd hn x
    have hsub : as'.Sublist (as i) := by
      rcases g3 with rfl|⟨_,rfl,_⟩
      · exact List.Sublist.refl _
      · exact List.dropLast_sublist _
    have hr : r≠2 := by
      cases g5 <;> decide
    obtain ⟨hu,hb⟩ := h.update i g2 (hd.sublist (hsub.cons_cons _)) (g5.nodup hn)
      (fun a ha => Or.inl (hsub.subset ha))
      (fun a ha => by
        rcases g3 with rfl|⟨hs,rfl,hnone⟩
        · exact Or.inl ha
        · rcases mem_dropLast_or_last (a:=base+i) ha with ha|he
          · exact Or.inl ha
          · exact Or.inr (he ▸ hnone))
      (fun a ha _ => g4 a ha)
    exact ⟨m',r,as',vs',st',g1,hu,hb,.deleted g5,fun h0 => (hr h0).elim⟩

/-- Execute calls one after another. -/
def runCalls (A : Allocator) (base : ℕ) {size : ℕ} :
    Memory → List (Fin size×Op) → Option Memory
  | m,[] => some m
  | m,(i,op)::rest => match call A base m i op with
    | none => none
    | some (m',_) => runCalls A base m' rest

/-- Every run on an array in order completes in an array in order. -/
theorem ArrayInv.run (A : Allocator) {base size : ℕ} {m : Memory} {as : Fin size → List ℕ}
    {vs st : Fin size → List ℤ} (h : ArrayInv base size m as vs st) (calls : List (Fin size×Op)) :
    ∃ m' as' vs' st',runCalls A base m calls=some m' ∧ ArrayInv base size m' as' vs' st' := by
  induction calls generalizing m as vs st with
  | nil => exact ⟨m,as,vs,st,rfl,h⟩
  | cons c rest ih =>
    obtain ⟨m',r,as',vs',st',h1,h2,-⟩ := h.call A c.1 c.2
    obtain ⟨m'',as2,vs2,st2,g1,g2⟩ := ih h2
    exact ⟨m'',as2,vs2,st2,by rw [runCalls,h1]; exact g1,g2⟩

/-- The shape of one bucket, read off the memory. -/
structure ChainShape (m : Memory) (a : ℕ) : Prop where
  /-- The chain starts at the base block. -/
  starts : (bucket m a).head?.map Prod.fst=some a
  /-- Links, full blocks and used slots behind the base block. -/
  linked : Linked (bucket m a)
  /-- No block is met twice. -/
  nodup : ((bucket m a).map Prod.fst).Nodup
  /-- No used slot follows an unused one. -/
  used_first : (slots m a).Pairwise fun p q => q.1≠0 → p.1≠0
  /-- The payloads of used slots are pairwise distinct. -/
  distinct : (usedVals m a).Nodup

/-- Each bucket of the array has the shape of a chain over its own addresses. -/
theorem ArrayInv.chainShape {base size : ℕ} {m : Memory} {as : Fin size → List ℕ}
    {vs st : Fin size → List ℤ} (h : ArrayInv base size m as vs st) (i : Fin size) :
    ChainShape m (base+i) ∧ (bucket m (base+i)).map Prod.fst=(base+i)::as i := by
  have hf : (as i).length < m.brk+1 := by
    have := (h.holds i).length_le_brk (h.nodup i)
    simp only [List.length_cons] at this
    omega
  obtain ⟨h1,h2,h3,-⟩ := (h.holds i).walk hf
  refine ⟨⟨?_,h3,?_,?_,?_⟩,h1⟩
  · rw [←List.head?_map,bucket,h1]
    rfl
  · rw [bucket,h1]
    exact h.nodup i
  · rw [(h.holds i).slots (h.nodup i),List.pairwise_append]
    refine ⟨?_,?_,?_⟩
    · exact List.pairwise_map.mpr (List.pairwise_of_forall fun _ _ _ => one_ne_zero)
    · exact List.pairwise_map.mpr (List.pairwise_of_forall fun _ _ h0 => (h0 rfl).elim)
    · intro p hp q hq
      simp only [List.mem_map] at hp hq
      obtain ⟨_,_,rfl⟩ := hp
      obtain ⟨_,_,rfl⟩ := hq
      simp
  · rw [(h.holds i).usedVals (h.nodup i)]
    exact h.distinct i

/-- In every run of insertions and deletions on a fresh array, whatever the
values and their order, every chain keeps its shape: used slots come first,
overflow blocks are not empty, no released block is reachable and every
allocated block belongs to a bucket. -/
theorem runCalls_chainShape (A : Allocator) (base size : ℕ) (calls : List (Fin size×Op)) :
    ∃ m,runCalls A base (initArrayList base size) calls=some m ∧
      (∀ i : Fin size,ChainShape m (base+i)) ∧
      ∀ a,m.cell a≠none → ∃ i : Fin size,a∈(bucket m (base+i)).map Prod.fst := by
  obtain ⟨m,as,vs,st,h1,h2⟩ := (arrayInv_init base size).run A calls
  refine ⟨m,h1,fun i => (h2.chainShape i).1,fun a ha => ?_⟩
  obtain ⟨i,hi⟩ := h2.live a ha
  exact ⟨i,by rw [(h2.chainShape i).2]; exact hi⟩

/-! ## Agreement with sets -/

/-- Return value and next set of an operation on a set of values. -/
def setCall (S : Finset ℤ) : Op → ℤ×Finset ℤ
  | .add x => if x∈S then (2,S) else (0,insert x S)
  | .del x => if x∈S then (0,S.erase x) else (1,S)

/-- One call does what the set operation does, and nothing to other buckets. -/
structure CallAgrees (base : ℕ) {size : ℕ} (m : Memory) (i : Fin size) (S : Finset ℤ) (op : Op)
    (m' : Memory) (r : ℤ) : Prop where
  /-- The return value is that of the set operation. -/
  ret : r=(setCall S op).1
  /-- The used slots hold the resulting set. -/
  used : (usedVals m' (base+i)).toFinset=(setCall S op).2
  /-- A refused insertion changes nothing at all. -/
  refused : r=2 → m'=m
  /-- An unsuccessful deletion leaves the used slots as they were. -/
  missing : r=1 → usedVals m' (base+i)=usedVals m (base+i)
  /-- Every other bucket is the same. -/
  others : ∀ j : Fin size,j≠i → bucket m' (base+j)=bucket m (base+j)

/-- A whole run does what the set operations do on every bucket. -/
def RunAgrees (A : Allocator) (base : ℕ) {size : ℕ} :
    Memory → (Fin size → Finset ℤ) → List (Fin size×Op) → Prop
  | _,_,[] => True
  | m,S,(i,op)::rest => ∃ m' r,call A base m i op=some (m',r) ∧
      CallAgrees base m i (S i) op m' r ∧ RunAgrees A base m' (setBucket S i (setCall (S i) op).2) rest

/-- A deletion is not misled by what unused slots still hold. For a used value
the first unused slot must hold another one, unless the value is the last
used one anyway; for any other value no unused slot may hold it. -/
def CallClear (m : Memory) (a : ℕ) : Op → Prop
  | .add _ => True
  | .del x =>
    if x∈usedVals m a then (staleVals m a).head?≠some x ∨ (usedVals m a).getLast?=some x
    else x∉staleVals m a

/-- Every call of a run is clear in the state before it. -/
def ClearRun (A : Allocator) (base : ℕ) {size : ℕ} : Memory → List (Fin size×Op) → Prop
  | _,[] => True
  | m,(i,op)::rest => CallClear m (base+i) op ∧
      ∀ m' r,call A base m i op=some (m',r) → ClearRun A base m' rest

/-- A removed value is replaced by the last one and nothing else leaves the set. -/
theorem removed_toFinset {vs : List ℤ} {x : ℤ} (hx : x∈vs) (hn : vs.Nodup) :
    (vs.set (vs.idxOf x) (vs.getLastD x)).dropLast.toFinset=vs.toFinset.erase x := by
  ext z
  rw [List.mem_toFinset,(removed_perm hx).mem_iff,Finset.mem_erase,List.mem_toFinset,
    hn.mem_erase_iff]

/-- The condition under which a deletion returns and leaves what the set
operation does, over the described bucket. -/
theorem DelResult.agrees_iff {x r : ℤ} {vs st vs' : List ℤ} (h : DelResult x vs st r vs')
    (hn : vs.Nodup) :
    (r=(setCall vs.toFinset (.del x)).1 ∧ vs'.toFinset=(setCall vs.toFinset (.del x)).2) ↔
      if x∈vs then st.head?≠some x ∨ vs.getLast?=some x else x∉st := by
  simp only [setCall,List.mem_toFinset]
  cases h with
  | removed hx hs => simpa [hx,hs] using removed_toFinset hx hn
  | staleOnly hx hs => simp [hx,hs]
  | absent hx hs => simp [hx,hs]
  | lostLast hv hs =>
    obtain ⟨l,y,rfl⟩ : ∃ l y,vs=l++[y] :=
      ⟨vs.dropLast,vs.getLast hv,(List.dropLast_append_getLast hv).symm⟩
    obtain ⟨hl,-,hdis⟩ := List.nodup_append.mp hn
    have hy : y∉l := fun hy => hdis y hy y (by simp) rfl
    have hst : x∈st := List.mem_of_mem_head? (by simp [hs])
    rw [List.dropLast_concat]
    by_cases hx : x∈l++[y]
    · simp only [hx,if_true,hs,ne_eq,not_true_eq_false,false_or,true_and,
        List.getLast?_append_cons,List.getLast?_singleton,Option.some.injEq]
      constructor
      · intro he
        by_contra hne
        have hxl : x∈l := by
          simp only [List.mem_append,List.mem_singleton] at hx
          exact hx.resolve_right (Ne.symm hne)
        have : x∈l.toFinset := List.mem_toFinset.mpr hxl
        rw [he] at this
        exact (Finset.mem_erase.mp this).1 rfl
      · rintro rfl
        ext z
        simp only [List.mem_toFinset,Finset.mem_erase,List.mem_append,List.mem_singleton]
        constructor
        · intro hz
          exact ⟨fun he => hy (he ▸ hz),Or.inl hz⟩
        · rintro ⟨hne,hz|hz⟩
          · exact hz
          · exact (hne hz).elim
    · simp [hx,hst]

/-- When a call does on the values what it means on their set. -/
theorem CallResult.agrees_iff {vs st vs' : List ℤ} {op : Op} {r : ℤ} (h : CallResult vs st op r vs')
    (hn : vs.Nodup) :
    (r=(setCall vs.toFinset op).1 ∧ vs'.toFinset=(setCall vs.toFinset op).2) ↔
      match op with
      | .add _ => True
      | .del x => if x∈vs then st.head?≠some x ∨ vs.getLast?=some x else x∉st := by
  cases h with
  | present hx => simp [setCall,hx]
  | added hx =>
    simp only [setCall,List.mem_toFinset,hx,if_false,true_and,iff_true]
    ext z
    simp
  | deleted h => exact h.agrees_iff hn

/-- A call that answers 1 changes nothing. -/
theorem CallResult.same_of_one {vs st vs' : List ℤ} {op : Op} {r : ℤ}
    (h : CallResult vs st op r vs') (hr : r=1) : vs'=vs := by
  cases h with
  | present => simp at hr
  | added => simp at hr
  | deleted h => cases h <;> simp_all

/-- Over any array in order, a run agrees with the sets exactly when all its
deletions are clear. -/
theorem ArrayInv.runAgrees_iff (A : Allocator) {base size : ℕ} {m : Memory}
    {as : Fin size → List ℕ} {vs st : Fin size → List ℤ} (h : ArrayInv base size m as vs st)
    (calls : List (Fin size×Op)) :
    RunAgrees A base m (fun i => (vs i).toFinset) calls ↔ ClearRun A base m calls := by
  induction calls generalizing m as vs st with
  | nil => exact Iff.rfl
  | cons c rest ih =>
    obtain ⟨i,op⟩ := c
    obtain ⟨m',r,as',vs',st',h1,h2,h3,h4,h5⟩ := h.call A i op
    have hu := (h.holds i).usedVals (h.nodup i)
    have hs := (h.holds i).staleVals (h.nodup i)
    have hu' : usedVals m' (base+i)=vs' := by
      have := (h2.holds i).usedVals (h2.nodup i)
      simpa [setBucket] using this
    have hclear : CallClear m (base+i) op ↔
        r=(setCall (vs i).toFinset op).1 ∧ vs'.toFinset=(setCall (vs i).toFinset op).2 := by
      rw [h4.agrees_iff (h.distinct i)]
      cases op with
      | add x => exact Iff.rfl
      | del x => simp only [CallClear,hu,hs]
    have hsets : vs'.toFinset=(setCall (vs i).toFinset op).2 →
        (fun j => (setBucket vs i vs' j).toFinset)=
          setBucket (fun j => (vs j).toFinset) i (setCall (vs i).toFinset op).2 := by
      intro he
      funext j
      by_cases hj : j=i
      · subst hj
        simpa [setBucket] using he
      · simp [setBucket,hj]
    rw [RunAgrees,ClearRun,hclear]
    constructor
    · rintro ⟨m2,r2,g1,g2,g3⟩
      rw [h1] at g1
      cases g1
      have he := g2.used
      rw [hu'] at he
      refine ⟨⟨g2.ret,he⟩,?_⟩
      intro m2 r2 g1
      rw [h1] at g1
      cases g1
      rw [←hsets he] at g3
      exact (ih h2).mp g3
    · rintro ⟨⟨hr,he⟩,hrest⟩
      refine ⟨m',r,h1,⟨hr,by rw [hu']; exact he,h5,?_,h3⟩,?_⟩
      · intro h0
        rw [hu',hu,h4.same_of_one h0]
      · rw [←hsets he]
        exact (ih h2).mpr (hrest m' r h1)

/-- On a fresh array a run of insertions and deletions behaves as the sets of
its buckets exactly when no deletion of the run meets a misleading stale
payload. -/
theorem runAgrees_iff_clearRun (A : Allocator) (base size : ℕ) (calls : List (Fin size×Op)) :
    RunAgrees A base (initArrayList base size) (fun _ => ∅) calls ↔
      ClearRun A base (initArrayList base size) calls :=
  (arrayInv_init base size).runAgrees_iff A calls

/-- The sets that the set operations of a run lead to. -/
def setRun {size : ℕ} : (Fin size → Finset ℤ) → List (Fin size×Op) → Fin size → Finset ℤ
  | S,[] => S
  | S,(i,op)::rest => setRun (setBucket S i (setCall (S i) op).2) rest

/-- A run that agrees with the sets ends in their final values. -/
theorem RunAgrees.final {A : Allocator} {base size : ℕ} {m : Memory} {S : Fin size → Finset ℤ}
    {calls : List (Fin size×Op)} (h : RunAgrees A base m S calls)
    (hS : ∀ i : Fin size,(usedVals m (base+i)).toFinset=S i) :
    ∃ m',runCalls A base m calls=some m' ∧
      ∀ i : Fin size,(usedVals m' (base+i)).toFinset=setRun S calls i := by
  induction calls generalizing m S with
  | nil => exact ⟨m,rfl,hS⟩
  | cons c rest ih =>
    obtain ⟨i,op⟩ := c
    obtain ⟨m',r,h1,h2,h3⟩ := h
    have hS' : ∀ j : Fin size,(usedVals m' (base+j)).toFinset=
        setBucket S i (setCall (S i) op).2 j := by
      intro j
      by_cases hj : j=i
      · subst hj
        simpa [setBucket] using h2.used
      · have hu : usedVals m' (base+j)=usedVals m (base+j) := by
          simp only [usedVals,slots,h2.others j hj]
        simp [setBucket,hj,hu,hS j]
    obtain ⟨m2,g1,g2⟩ := ih h3 hS'
    exact ⟨m2,by rw [runCalls,h1]; exact g1,g2⟩

/-- Inserting 5, 7 and 9 and deleting 5 leaves 9 in two slots, one of them
unused; deleting 9 then drops 7. -/
theorem runAgrees_stale_false :
    ¬RunAgrees bumpAllocator 0 (initArrayList 0 1) (fun _ => ∅)
      [((0 : Fin 1),.add 5),(0,.add 7),(0,.add 9),(0,.del 5),(0,.del 9)] := by
  intro h
  obtain ⟨m,h1,h2⟩ := h.final fun i => by fin_cases i; decide
  have hu : (runCalls bumpAllocator 0 (initArrayList 0 1)
      [((0 : Fin 1),.add 5),(0,.add 7),(0,.add 9),(0,.del 5),(0,.del 9)]).map
        (fun m => usedVals m 0)=some [9] := by decide
  rw [h1,Option.map_some,Option.some.injEq] at hu
  have h9 := h2 0
  rw [show (0:ℕ)+((0 : Fin 1) : ℕ)=0 from rfl,hu] at h9
  revert h9
  decide

end StudyCode.ArrayList
