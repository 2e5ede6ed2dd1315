import Mathlib.Tactic

/-!
# Collecting matches in fixed tables

`__scan_on_event` stores each match in four tables of 32 entries. Three of them
are written while the counter is below 32. The fourth, which holds the captured
groups in tables of 32 entries of their own, is written for every match that
has groups, at the counter and for as many groups as there are. Positions are
stored in half the width they come in.
-/

namespace StudyCode.Chimera

/-! ## The callback -/

/-- Entries of the tables of matches. -/
def maxHitNum : ℕ := 32

/-- Entries of the tables of groups. -/
def maxGroupsNum : ℕ := 32

/-- Assignment of an entry; an index outside of the table has no value. -/
def setAt {α : Type} {n : ℕ} (v : Vector α n) (i : ℕ) (x : α) : Option (Vector α n) :=
  if h : i < n then some (v.set i x h) else none

/-- struct groups_match. -/
structure GroupsMatch where
  /-- Starts of the groups. -/
  fromPos : Vector UInt32 maxGroupsNum
  /-- Ends of the groups. -/
  toPos : Vector UInt32 maxGroupsNum
  /-- Number of groups. -/
  count : UInt32

/-- struct scan_ctx. -/
structure ScanCtx where
  /-- Number of matches. -/
  count : UInt32
  /-- Ids of the matches. -/
  id : Vector UInt32 maxHitNum
  /-- Starts of the matches. -/
  fromPos : Vector UInt32 maxHitNum
  /-- Ends of the matches. -/
  toPos : Vector UInt32 maxHitNum
  /-- Groups of the matches. -/
  gpMatch : Vector GroupsMatch maxHitNum

/-- A captured group. -/
structure Capture where
  /-- Its start. -/
  fromPos : UInt64
  /-- Its end. -/
  toPos : UInt64

/-- What the library passes to a call. -/
structure Event where
  /-- Id of the pattern. -/
  id : UInt32
  /-- Start of the match. -/
  fromPos : UInt64
  /-- End of the match. -/
  toPos : UInt64
  /-- Captured groups, as many as the argument `size` says. -/
  captured : List Capture
  /-- The size is an unsigned int. -/
  small : captured.length < 2^32

/-- The argument `size`. -/
def Event.size (e : Event) : UInt32 := UInt32.ofNat e.captured.length

/-- The assignments under the guard. -/
def storeHit (e : Event) (c : ScanCtx) : Option ScanCtx :=
  if c.count.toNat < maxHitNum then do
    let id ← setAt c.id c.count.toNat e.id
    let fromPos ← setAt c.fromPos c.count.toNat e.fromPos.toUInt32
    let toPos ← setAt c.toPos c.count.toNat e.toPos.toUInt32
    some ⟨c.count,id,fromPos,toPos,c.gpMatch⟩
  else some c

/-- The loop over the groups, from index i on. -/
def copyGroups : ℕ → List Capture → GroupsMatch → Option GroupsMatch
  | _,[],g => some g
  | i,cap::captured,g => do
    let fromPos ← setAt g.fromPos i cap.fromPos.toUInt32
    let toPos ← setAt g.toPos i cap.toPos.toUInt32
    copyGroups (i+1) captured ⟨fromPos,toPos,g.count⟩

/-- The assignments for a match with groups. -/
def storeGroups (e : Event) (c : ScanCtx) : Option ScanCtx :=
  if 0 < e.size then do
    let g ← c.gpMatch[c.count.toNat]?
    let g ← copyGroups 0 e.captured ⟨g.fromPos,g.toPos,e.size⟩
    let gpMatch ← setAt c.gpMatch c.count.toNat g
    some ⟨c.count,c.id,c.fromPos,c.toPos,gpMatch⟩
  else some c

/-- `__scan_on_event`. -/
def scanOnEvent (c : ScanCtx) (e : Event) : Option ScanCtx := do
  let c ← storeHit e c
  let c ← storeGroups e c
  some {c with count := c.count+1}

/-- All calls of a scan. -/
def scanAll (c : ScanCtx) (events : List Event) : Option ScanCtx := events.foldlM scanOnEvent c

/-! ## What the tables should hold -/

/-- The tables hold the event at entry k. -/
structure Holds (c : ScanCtx) (k : ℕ) (e : Event) : Prop where
  /-- The id of the pattern. -/
  id : c.id[k]?=some e.id
  /-- The start of the match. -/
  fromPos : (c.fromPos[k]?.map UInt32.toNat)=some e.fromPos.toNat
  /-- The end of the match. -/
  toPos : (c.toPos[k]?.map UInt32.toNat)=some e.toPos.toNat
  /-- The number of the groups. -/
  count : (c.gpMatch[k]?.map fun g => g.count.toNat)=some e.captured.length
  /-- The groups that there is room for. -/
  groups : ∀ i < maxGroupsNum,∀ cap : Capture,e.captured[i]?=some cap →
    ((c.gpMatch[k]?.bind fun g => g.fromPos[i]?).map UInt32.toNat)=some cap.fromPos.toNat ∧
      ((c.gpMatch[k]?.bind fun g => g.toPos[i]?).map UInt32.toNat)=some cap.toPos.toNat

/-- All writes of the calls are inside of the tables, every call is counted and
the tables hold the events as far as they go. -/
def Collects (c : ScanCtx) (events : List Event) : Prop :=
  ∃ c',scanAll c events=some c' ∧ c'.count.toNat=events.length ∧
    ∀ k < maxHitNum,∀ e,events[k]?=some e → Holds c' k e

/-- An event that is stored has positions of 32 bits and at most 32 groups; if
it has none, the entry for its groups has said so before. -/
structure FitsEntry (c : ScanCtx) (k : ℕ) (e : Event) : Prop where
  /-- The start has 32 bits. -/
  fromPos : e.fromPos.toNat < 2^32
  /-- The end has 32 bits. -/
  toPos : e.toPos.toNat < 2^32
  /-- There is room for the groups. -/
  few : e.captured.length ≤ maxGroupsNum
  /-- The positions of the groups have 32 bits. -/
  groups : ∀ cap ∈ e.captured,cap.fromPos.toNat < 2^32 ∧ cap.toPos.toNat < 2^32
  /-- Without groups the count of the entry is zero already. -/
  none : e.captured=[] → (c.gpMatch[k]?.map fun g => g.count.toNat)=some 0

/-- There are fewer than 2^32 events, the first 32 fit their entries and the
others have no groups. -/
structure FitsTables (c : ScanCtx) (events : List Event) : Prop where
  /-- The count does not wrap. -/
  length : events.length < 2^32
  /-- The events that are stored fit their entries. -/
  hits : ∀ k < maxHitNum,∀ e,events[k]?=some e → FitsEntry c k e
  /-- The others have no groups. -/
  rest : ∀ k,maxHitNum ≤ k → ∀ e,events[k]?=some e → e.captured=[]

/-! ## The groups of one match -/

variable {c c' : ScanCtx} {e : Event} {g : GroupsMatch} {k i : ℕ}

/-- A write inside of an array. -/
theorem setAt_of_lt {α : Type} {n : ℕ} {v : Vector α n} (h : i < n) (x : α) :
    setAt v i x=some (v.set i x h) := dif_pos h

/-- A write behind an array. -/
theorem setAt_of_le {α : Type} {n : ℕ} {v : Vector α n} (h : n ≤ i) (x : α) :
    setAt v i x=none := dif_neg (by omega)

/-- The entries from i on hold the groups, the others are as they were. -/
structure Copied (i : ℕ) (captured : List Capture) (g g' : GroupsMatch) : Prop where
  /-- The count stays. -/
  count : g'.count=g.count
  /-- The entries before stay. -/
  before : ∀ j < i,g'.fromPos[j]?=g.fromPos[j]? ∧ g'.toPos[j]?=g.toPos[j]?
  /-- The groups stand from i on. -/
  groups : ∀ (j : ℕ) (cap : Capture),captured[j]?=some cap →
    g'.fromPos[i+j]?=some cap.fromPos.toUInt32 ∧ g'.toPos[i+j]?=some cap.toPos.toUInt32

/-- As many groups as fit are copied. -/
theorem copyGroups_copied {captured : List Capture} (h : i+captured.length ≤ maxGroupsNum)
    (g : GroupsMatch) : ∃ g',copyGroups i captured g=some g' ∧ Copied i captured g g' := by
  induction captured generalizing i g with
  | nil => exact ⟨g,rfl,rfl,fun _ _ => ⟨rfl,rfl⟩,fun j cap hj => by cases hj⟩
  | cons cap captured ih =>
    rw [List.length_cons] at h
    have hi : i < maxGroupsNum := by omega
    obtain ⟨g',hg',hc⟩ := ih (i:=i+1) (by omega) ⟨g.fromPos.set i cap.fromPos.toUInt32 hi,
      g.toPos.set i cap.toPos.toUInt32 hi,g.count⟩
    refine ⟨g',?_,hc.count,?_,?_⟩
    · rw [copyGroups,setAt_of_lt hi,setAt_of_lt hi]
      exact hg'
    · intro j hj
      obtain ⟨hf,ht⟩ := hc.before j (by omega)
      rw [hf,ht,Vector.getElem?_set_ne hi (by omega),Vector.getElem?_set_ne hi (by omega)]
      exact ⟨rfl,rfl⟩
    · intro j cap' hj
      cases j with
      | zero =>
        obtain rfl : cap=cap' := by simpa using hj
        obtain ⟨hf,ht⟩ := hc.before i (by omega)
        rw [Nat.add_zero,hf,ht,Vector.getElem?_set_self hi,Vector.getElem?_set_self hi]
        exact ⟨rfl,rfl⟩
      | succ j =>
        have hnext := hc.groups j cap' (by simpa using hj)
        rwa [show i+1+j=i+(j+1) by omega] at hnext

/-- More groups are written outside. -/
theorem copyGroups_outside {captured : List Capture} (hi : i ≤ maxGroupsNum)
    (h : maxGroupsNum < i+captured.length) (g : GroupsMatch) : copyGroups i captured g=none := by
  induction captured generalizing i g with
  | nil =>
    rw [List.length_nil] at h
    omega
  | cons cap captured ih =>
    rw [List.length_cons] at h
    rw [copyGroups]
    rcases hi.lt_or_eq with hlt|rfl
    · rw [setAt_of_lt hlt,setAt_of_lt hlt]
      exact ih hlt (by omega) _
    · rw [setAt_of_le le_rfl]
      rfl

/-! ## One call -/

/-- The size of an event counts its groups. -/
theorem toNat_size (e : Event) : e.size.toNat=e.captured.length :=
  UInt32.toNat_ofNat_of_lt' e.small

/-- An event has groups when its size is positive. -/
theorem size_pos_iff (e : Event) : 0 < e.size ↔ e.captured≠[] := by
  rw [UInt32.lt_iff_toNat_lt,toNat_size,UInt32.toNat_zero,List.length_pos_iff]

/-- What an entry for groups holds behind a call that writes it. -/
structure Recorded (e : Event) (g g' : GroupsMatch) : Prop where
  /-- The count is set when there are groups. -/
  count : g'.count=if e.captured=[] then g.count else e.size
  /-- The groups stand in their order. -/
  groups : ∀ (i : ℕ) (cap : Capture),e.captured[i]?=some cap →
    g'.fromPos[i]?=some cap.fromPos.toUInt32 ∧ g'.toPos[i]?=some cap.toPos.toUInt32

/-- A call that writes entry k. -/
structure Written (k : ℕ) (e : Event) (c c' : ScanCtx) : Prop where
  /-- The count has gone up. -/
  count : c'.count=c.count+1
  /-- The id at the entry. -/
  id : ∀ j,c'.id[j]?=if j=k then some e.id else c.id[j]?
  /-- The start at the entry, cut to 32 bits. -/
  fromPos : ∀ j,c'.fromPos[j]?=if j=k then some e.fromPos.toUInt32 else c.fromPos[j]?
  /-- The end at the entry, cut to 32 bits. -/
  toPos : ∀ j,c'.toPos[j]?=if j=k then some e.toPos.toUInt32 else c.toPos[j]?
  /-- The groups of the other entries stay. -/
  others : ∀ j,j≠k → c'.gpMatch[j]?=c.gpMatch[j]?
  /-- The groups at the entry. -/
  groups : ∃ g g',c.gpMatch[k]?=some g ∧ c'.gpMatch[k]?=some g' ∧ Recorded e g g'

/-- An array where one element was written. -/
theorem getElem?_set_if {α : Type} {n : ℕ} (v : Vector α n) (h : k < n) (x : α) (j : ℕ) :
    (v.set k x h)[j]?=if j=k then some x else v[j]? := by
  by_cases hj : j=k
  · rw [if_pos hj,hj,Vector.getElem?_set_self h]
  · rw [if_neg hj,Vector.getElem?_set_ne h (Ne.symm hj)]

/-- A hit with room for it is stored behind the others. -/
theorem storeHit_eq (hk : c.count.toNat < maxHitNum) :
    storeHit e c=some ⟨c.count,c.id.set c.count.toNat e.id hk,
      c.fromPos.set c.count.toNat e.fromPos.toUInt32 hk,
      c.toPos.set c.count.toNat e.toPos.toUInt32 hk,c.gpMatch⟩ := by
  rw [storeHit,if_pos hk,setAt_of_lt hk,setAt_of_lt hk,setAt_of_lt hk]
  rfl

/-- Without groups nothing is stored. -/
theorem storeGroups_nil (hnil : e.captured=[]) : storeGroups e c=some c := by
  have hsize : ¬0 < e.size := by
    rw [size_pos_iff]
    exact not_not.mpr hnil
  rw [storeGroups,if_neg hsize]

/-- An event whose parts are stored is counted. -/
theorem scanOnEvent_eq {c1 c2 : ScanCtx} (h1 : storeHit e c=some c1)
    (h2 : storeGroups e c1=some c2) :
    scanOnEvent c e=some {c2 with count := c2.count+1} := by
  rw [scanOnEvent,h1,Option.bind_eq_bind,Option.bind_some,h2,Option.bind_some]

/-- A call in front of the end of the tables with at most 32 groups writes one
entry. -/
theorem scanOnEvent_written (hk : c.count.toNat < maxHitNum)
    (hfew : e.captured.length ≤ maxGroupsNum) :
    ∃ c',scanOnEvent c e=some c' ∧ Written c.count.toNat e c c' := by
  have hget : c.gpMatch[c.count.toNat]?=some c.gpMatch[c.count.toNat] :=
    Vector.getElem?_eq_getElem hk
  by_cases hnil : e.captured=[]
  · refine ⟨_,scanOnEvent_eq (storeHit_eq hk) (storeGroups_nil hnil),rfl,?_,?_,?_,
      fun _ _ => rfl,_,_,hget,hget,?_,?_⟩
    · exact getElem?_set_if c.id hk e.id
    · exact getElem?_set_if c.fromPos hk e.fromPos.toUInt32
    · exact getElem?_set_if c.toPos hk e.toPos.toUInt32
    · rw [if_pos hnil]
    · intro i cap hi
      rw [hnil] at hi
      cases hi
  · have hroom : 0+e.captured.length ≤ maxGroupsNum := by rwa [Nat.zero_add]
    obtain ⟨g',hg',hcopied⟩ := copyGroups_copied hroom
      ⟨c.gpMatch[c.count.toNat].fromPos,c.gpMatch[c.count.toNat].toPos,e.size⟩
    have hgroups : storeGroups e ⟨c.count,c.id.set c.count.toNat e.id hk,
        c.fromPos.set c.count.toNat e.fromPos.toUInt32 hk,
        c.toPos.set c.count.toNat e.toPos.toUInt32 hk,c.gpMatch⟩=
        some ⟨c.count,c.id.set c.count.toNat e.id hk,
          c.fromPos.set c.count.toNat e.fromPos.toUInt32 hk,
          c.toPos.set c.count.toNat e.toPos.toUInt32 hk,c.gpMatch.set c.count.toNat g' hk⟩ := by
      rw [storeGroups,if_pos ((size_pos_iff e).mpr hnil)]
      dsimp only
      rw [hget,Option.bind_eq_bind,Option.bind_some,hg',Option.bind_eq_bind,Option.bind_some,
        setAt_of_lt hk]
      rfl
    refine ⟨_,scanOnEvent_eq (storeHit_eq hk) hgroups,rfl,?_,?_,?_,?_,_,g',hget,?_,?_,?_⟩
    · exact getElem?_set_if c.id hk e.id
    · exact getElem?_set_if c.fromPos hk e.fromPos.toUInt32
    · exact getElem?_set_if c.toPos hk e.toPos.toUInt32
    · intro j hj
      exact Vector.getElem?_set_ne hk (Ne.symm hj)
    · exact Vector.getElem?_set_self hk
    · rw [if_neg hnil,hcopied.count]
    · intro i cap hi
      have hone := hcopied.groups i cap hi
      rwa [Nat.zero_add] at hone

/-- With more groups a write is outside. -/
theorem scanOnEvent_groups_outside (hk : c.count.toNat < maxHitNum)
    (hmany : maxGroupsNum < e.captured.length) : scanOnEvent c e=none := by
  have hne : e.captured≠[] := List.ne_nil_of_length_pos (by omega)
  have hget : c.gpMatch[c.count.toNat]?=some c.gpMatch[c.count.toNat] :=
    Vector.getElem?_eq_getElem hk
  rw [scanOnEvent,storeHit_eq hk,Option.bind_eq_bind,Option.bind_some,storeGroups,
    if_pos ((size_pos_iff e).mpr hne)]
  dsimp only
  rw [hget,Option.bind_eq_bind,Option.bind_some,
    copyGroups_outside (Nat.zero_le _) (by omega)]
  rfl

/-- Behind the end of the tables a call without groups counts only. -/
theorem scanOnEvent_full (hk : maxHitNum ≤ c.count.toNat) (hnil : e.captured=[]) :
    scanOnEvent c e=some {c with count := c.count+1} := by
  have hhit : storeHit e c=some c := by rw [storeHit,if_neg (by omega)]
  exact scanOnEvent_eq hhit (storeGroups_nil hnil)

/-- There a call with groups writes outside. -/
theorem scanOnEvent_outside (hk : maxHitNum ≤ c.count.toNat) (hne : e.captured≠[]) :
    scanOnEvent c e=none := by
  rw [scanOnEvent,storeHit,if_neg (by omega),Option.bind_eq_bind,Option.bind_some,storeGroups,
    if_pos ((size_pos_iff e).mpr hne),Vector.getElem?_eq_none hk]
  rfl

/-! ## All calls -/

/-- Groups a call may have by its position. -/
def room (k : ℕ) : ℕ := if k < maxHitNum then maxGroupsNum else 0

/-- Every event has room for its groups. -/
def HasRoom (events : List Event) : Prop :=
  ∀ k e,events[k]?=some e → e.captured.length ≤ room k

/-- The tables behind some calls. -/
structure Filled (c : ScanCtx) (events : List Event) (c' : ScanCtx) : Prop where
  /-- Every event was counted. -/
  count : c'.count.toNat=events.length
  /-- The ids of the events. -/
  id : ∀ k < maxHitNum,∀ e,events[k]?=some e → c'.id[k]?=some e.id
  /-- Their starts. -/
  fromPos : ∀ k < maxHitNum,∀ e,events[k]?=some e → c'.fromPos[k]?=some e.fromPos.toUInt32
  /-- Their ends. -/
  toPos : ∀ k < maxHitNum,∀ e,events[k]?=some e → c'.toPos[k]?=some e.toPos.toUInt32
  /-- Their groups. -/
  groups : ∀ k < maxHitNum,∀ e,events[k]?=some e →
    ∃ g g',c.gpMatch[k]?=some g ∧ c'.gpMatch[k]?=some g' ∧ Recorded e g g'
  /-- The entries behind them are as they were. -/
  later : ∀ k,events.length ≤ k → c'.gpMatch[k]?=c.gpMatch[k]?

/-- One event more. -/
theorem scanAll_concat (c : ScanCtx) (events : List Event) (e : Event) :
    scanAll c (events++[e])=(scanAll c events).bind fun c => scanOnEvent c e := by
  rw [scanAll,List.foldlM_append]
  simp [scanAll]

/-- There is room for the events when there is room for the first and for the last. -/
theorem hasRoom_concat {events : List Event} :
    HasRoom (events++[e]) ↔ HasRoom events ∧ e.captured.length ≤ room events.length := by
  constructor
  · intro h
    refine ⟨fun k a hk => h k a ?_,h events.length e List.getElem?_concat_length⟩
    rw [List.getElem?_append_left (List.getElem?_eq_some_iff.mp hk).1]
    exact hk
  · rintro ⟨h,he⟩ k a hk
    rcases Nat.lt_or_ge k events.length with hlt|hge
    · rw [List.getElem?_append_left hlt] at hk
      exact h k a hk
    · rw [List.getElem?_append_right hge] at hk
      obtain ⟨hlt,rfl⟩ := List.getElem?_eq_some_iff.mp hk
      rw [List.length_singleton] at hlt
      obtain rfl : k=events.length := by omega
      simpa using he

/-- The count goes up by one while it is small. -/
theorem count_succ {n : ℕ} (h : c.count.toNat=n) (hn : n+1 < 2^32) :
    (c.count+1).toNat=n+1 := by
  rw [UInt32.toNat_add,h,UInt32.toNat_one]
  exact Nat.mod_eq_of_lt hn

/-- An event of the longer list is one of the shorter list or the last one. -/
theorem getElem?_concat_cases {events : List Event} {a : Event} (h : (events++[e])[k]?=some a) :
    (k≠events.length ∧ events[k]?=some a) ∨ (k=events.length ∧ e=a) := by
  rcases Nat.lt_trichotomy k events.length with hlt|rfl|hgt
  · rw [List.getElem?_append_left hlt] at h
    exact Or.inl ⟨by omega,h⟩
  · rw [List.getElem?_concat_length] at h
    exact Or.inr ⟨rfl,Option.some.inj h⟩
  · rw [List.getElem?_eq_none (by rw [List.length_append,List.length_singleton]; omega)] at h
    cases h

/-- A stored event belongs to what the tables hold. -/
theorem Filled.hit {events : List Event} {c1 : ScanCtx} (h : Filled c events c1)
    (hw : Written events.length e c1 c') (hlen : events.length+1 < 2^32) :
    Filled c (events++[e]) c' := by
  refine ⟨?_,?_,?_,?_,?_,?_⟩
  · rw [hw.count,count_succ h.count hlen,List.length_append,List.length_singleton]
  · intro k hk a ha
    rw [hw.id]
    rcases getElem?_concat_cases ha with ⟨hne,ha⟩|⟨rfl,rfl⟩
    · rw [if_neg hne]
      exact h.id k hk a ha
    · rw [if_pos rfl]
  · intro k hk a ha
    rw [hw.fromPos]
    rcases getElem?_concat_cases ha with ⟨hne,ha⟩|⟨rfl,rfl⟩
    · rw [if_neg hne]
      exact h.fromPos k hk a ha
    · rw [if_pos rfl]
  · intro k hk a ha
    rw [hw.toPos]
    rcases getElem?_concat_cases ha with ⟨hne,ha⟩|⟨rfl,rfl⟩
    · rw [if_neg hne]
      exact h.toPos k hk a ha
    · rw [if_pos rfl]
  · intro k hk a ha
    rcases getElem?_concat_cases ha with ⟨hne,ha⟩|⟨rfl,rfl⟩
    · rw [hw.others k hne]
      exact h.groups k hk a ha
    · obtain ⟨g,g',hg,hg',hr⟩ := hw.groups
      rw [h.later _ le_rfl] at hg
      exact ⟨g,g',hg,hg',hr⟩
  · intro k hk
    rw [List.length_append,List.length_singleton] at hk
    rw [hw.others k (by omega),h.later k (by omega)]

/-- Behind a full table only the count goes on. -/
theorem Filled.full {events : List Event} {c1 : ScanCtx} (h : Filled c events c1)
    (hfull : maxHitNum ≤ events.length) (hlen : events.length+1 < 2^32) :
    Filled c (events++[e]) {c1 with count := c1.count+1} := by
  have hold : ∀ {k a},k < maxHitNum → (events++[e])[k]?=some a → events[k]?=some a := by
    intro k a hk ha
    rcases getElem?_concat_cases ha with ⟨-,ha⟩|⟨rfl,-⟩
    · exact ha
    · omega
  refine ⟨?_,?_,?_,?_,?_,?_⟩
  · rw [List.length_append,List.length_singleton]
    exact count_succ h.count hlen
  · exact fun k hk a ha => h.id k hk a (hold hk ha)
  · exact fun k hk a ha => h.fromPos k hk a (hold hk ha)
  · exact fun k hk a ha => h.toPos k hk a (hold hk ha)
  · exact fun k hk a ha => h.groups k hk a (hold hk ha)
  · intro k hk
    rw [List.length_append,List.length_singleton] at hk
    exact h.later k (by omega)

/-- Fewer than 2^32 calls are inside of the tables if and only if every event
has room for its groups. -/
theorem scanAll_spec (hc : c.count=0) {events : List Event} (hlen : events.length < 2^32) :
    (HasRoom events ∧ ∃ c',scanAll c events=some c' ∧ Filled c events c') ∨
      (¬HasRoom events ∧ scanAll c events=none) := by
  induction events using List.reverseRecOn with
  | nil =>
    left
    have hnone : ∀ (k : ℕ) (e : Event),([] : List Event)[k]?≠some e := by
      intro k e hk
      cases hk
    refine ⟨fun k e hk => absurd hk (hnone k e),c,rfl,?_,?_,?_,?_,?_,fun _ _ => rfl⟩
    · rw [hc]
      rfl
    all_goals exact fun k _ e hk => absurd hk (hnone k e)
  | append_singleton events e ih =>
    rw [List.length_append,List.length_singleton] at hlen
    rw [hasRoom_concat,scanAll_concat]
    rcases ih (by omega) with ⟨hroom,c1,hrun,hfill⟩|⟨hno,hrun⟩
    · rw [hrun,Option.bind_some]
      rcases Nat.lt_or_ge events.length maxHitNum with hk|hk
      · rw [room,if_pos hk]
        by_cases hfew : e.captured.length ≤ maxGroupsNum
        · obtain ⟨c',hc',hw⟩ := scanOnEvent_written (by rwa [hfill.count]) hfew
          rw [hfill.count] at hw
          exact Or.inl ⟨⟨hroom,hfew⟩,c',hc',hfill.hit hw hlen⟩
        · exact Or.inr ⟨fun h => hfew h.2,
            scanOnEvent_groups_outside (by rwa [hfill.count]) (by omega)⟩
      · rw [room,if_neg (by omega),Nat.le_zero,List.length_eq_zero_iff]
        by_cases hnil : e.captured=[]
        · exact Or.inl ⟨⟨hroom,hnil⟩,_,scanOnEvent_full (by rwa [hfill.count]) hnil,
            hfill.full hk hlen⟩
        · exact Or.inr ⟨fun h => hnil h.2,scanOnEvent_outside (by rwa [hfill.count]) hnil⟩
    · exact Or.inr ⟨fun h => hno h.1,by rw [hrun,Option.bind_none]⟩

/-- A position keeps its value when it has 32 bits. -/
theorem toUInt32_toNat_iff (x : UInt64) : x.toUInt32.toNat=x.toNat ↔ x.toNat < 2^32 := by
  rw [UInt64.toNat_toUInt32]
  omega

/-- Tables that have been filled hold an event if and only if it fits. -/
theorem Filled.holds_iff {events : List Event} (h : Filled c events c') (hroom : HasRoom events)
    (hk : k < maxHitNum) (he : events[k]?=some e) : Holds c' k e ↔ FitsEntry c k e := by
  obtain ⟨g,g',hg,hg',hr⟩ := h.groups k hk e he
  have hid := h.id k hk e he
  have hfrom := h.fromPos k hk e he
  have hto := h.toPos k hk e he
  have hfew : e.captured.length ≤ maxGroupsNum := by
    have := hroom k e he
    rwa [room,if_pos hk] at this
  have hcount : g'.count.toNat=e.captured.length ↔ (e.captured=[] → g.count.toNat=0) := by
    rw [hr.count]
    by_cases hnil : e.captured=[]
    · rw [if_pos hnil,hnil,List.length_nil]
      exact ⟨fun hz _ => hz,fun hz => hz rfl⟩
    · rw [if_neg hnil,toNat_size]
      exact ⟨fun _ h => absurd h hnil,fun _ => rfl⟩
  constructor
  · intro hh
    refine ⟨?_,?_,hfew,?_,?_⟩
    · have hf := hh.fromPos
      rw [hfrom,Option.map_some,Option.some_inj,toUInt32_toNat_iff] at hf
      exact hf
    · have ht := hh.toPos
      rw [hto,Option.map_some,Option.some_inj,toUInt32_toNat_iff] at ht
      exact ht
    · intro cap hcap
      obtain ⟨i,hi⟩ := List.mem_iff_getElem?.mp hcap
      have hlt := (List.getElem?_eq_some_iff.mp hi).1
      obtain ⟨hf,ht⟩ := hh.groups i (by omega) cap hi
      obtain ⟨hgf,hgt⟩ := hr.groups i cap hi
      rw [hg',Option.bind_some,hgf,Option.map_some,Option.some_inj,toUInt32_toNat_iff] at hf
      rw [hg',Option.bind_some,hgt,Option.map_some,Option.some_inj,toUInt32_toNat_iff] at ht
      exact ⟨hf,ht⟩
    · have hn := hh.count
      rw [hg',Option.map_some,Option.some_inj,hcount] at hn
      intro hnil
      rw [hg,Option.map_some,hn hnil]
  · intro hf
    refine ⟨hid,?_,?_,?_,?_⟩
    · rw [hfrom,Option.map_some,(toUInt32_toNat_iff _).mpr hf.fromPos]
    · rw [hto,Option.map_some,(toUInt32_toNat_iff _).mpr hf.toPos]
    · rw [hg',Option.map_some,Option.some_inj,hcount]
      intro hnil
      have hz := hf.none hnil
      rw [hg,Option.map_some,Option.some_inj] at hz
      exact hz
    · intro i _ cap hi
      obtain ⟨hgf,hgt⟩ := hr.groups i cap hi
      obtain ⟨hsf,hst⟩ := hf.groups cap (List.mem_of_getElem? hi)
      rw [hg',Option.bind_some,Option.bind_some,hgf,hgt,Option.map_some,Option.map_some,
        (toUInt32_toNat_iff _).mpr hsf,(toUInt32_toNat_iff _).mpr hst]
      exact ⟨rfl,rfl⟩

/-- Events that fit into the tables have room. -/
theorem FitsTables.hasRoom {events : List Event} (h : FitsTables c events) : HasRoom events := by
  intro k e he
  rw [room]
  split
  case isTrue hk => exact (h.hits k hk e he).few
  case isFalse hk => rw [h.rest k (by omega) e he,List.length_nil]

/-- Behind a full table the events have no groups. -/
theorem HasRoom.rest {events : List Event} (h : HasRoom events) :
    ∀ k,maxHitNum ≤ k → ∀ e,events[k]?=some e → e.captured=[] := by
  intro k hk e he
  have hle := h k e he
  rw [room,if_neg (by omega)] at hle
  exact List.length_eq_zero_iff.mp (Nat.le_zero.mp hle)

/-- Events that are collected fit into the tables. -/
theorem Collects.fitsTables (hc : c.count=0) {events : List Event} (h : Collects c events) :
    FitsTables c events := by
  obtain ⟨c',hrun,hcount,hall⟩ := h
  have hlen : events.length < 2^32 := by
    rw [←hcount]
    exact c'.count.toNat_lt
  rcases scanAll_spec hc hlen with ⟨hroom,c1,hrun1,hfill⟩|⟨-,hnone⟩
  · rw [hrun] at hrun1
    cases hrun1
    exact ⟨hlen,fun k hk e he => (hfill.holds_iff hroom hk he).mp (hall k hk e he),hroom.rest⟩
  · rw [hrun] at hnone
    cases hnone

/-- From an empty context the calls collect their events if and only if these
fit the tables. -/
theorem collects_iff_fitsTables (c : ScanCtx) (hc : c.count=0) (events : List Event) :
    Collects c events ↔ FitsTables c events := by
  refine ⟨Collects.fitsTables hc,fun h => ?_⟩
  rcases scanAll_spec hc h.length with ⟨hroom,c',hrun,hfill⟩|⟨hno,-⟩
  · exact ⟨c',hrun,hfill.count,fun k hk e he => (hfill.holds_iff hroom hk he).mpr (h.hits k hk e he)⟩
  · exact absurd h.hasRoom hno

/-- A context whose tables are zero. -/
def emptyCtx : ScanCtx :=
  ⟨0,.replicate _ 0,.replicate _ 0,.replicate _ 0,
    .replicate _ ⟨.replicate _ 0,.replicate _ 0,0⟩⟩

/-- A match with one group. -/
def groupEvent : Event := ⟨1,0,5,[⟨2,4⟩],by decide⟩

/-- An empty context collects a match with one group. -/
theorem collects_iff_fitsTables_one : emptyCtx.count=0 ∧ Collects emptyCtx [groupEvent] := by
  refine ⟨rfl,(collects_iff_fitsTables emptyCtx rfl [groupEvent]).mpr ⟨by decide,?_,?_⟩⟩
  · intro k hk e he
    cases k with
    | zero =>
      obtain rfl := Option.some.inj he
      refine ⟨by decide,by decide,by decide,fun cap hcap => ?_,fun h => by cases h⟩
      rw [List.mem_singleton.mp hcap]
      decide
    | succ k => cases he
  · intro k hk e he
    cases k with
    | zero => cases hk
    | succ k => cases he

/-- The groups of the match number 33 are written behind the tables. -/
theorem collects_thirtyThree_false : ¬Collects emptyCtx (List.replicate 33 groupEvent) := by
  intro h
  have hrest := (Collects.fitsTables rfl h).rest 32 le_rfl groupEvent
    (List.getElem?_replicate_of_lt (by decide))
  cases hrest

end StudyCode.Chimera
