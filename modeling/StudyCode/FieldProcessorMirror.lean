import StudyCode.FieldProcessor

/-!
# The array group_used

The array is written only after an SDK call that created or destroyed the group
of the same number, so it agrees with the store after every call of the driver,
wherever SDK calls fail.
-/

namespace StudyCode.FieldProcessor

variable {α : Type} {w : Switch} {ok : ℕ → Bool} {s s1 : State} {op : Sdk → Option (α × Sdk)}

/-! ## SDK calls -/

/-- An SDK call fails and changes nothing, or it succeeds with its effect. -/
theorem call_cases (ok : ℕ → Bool) (op : Sdk → Option (α × Sdk)) (s : State) :
    s.call ok op=(none,{s with calls := s.calls+1}) ∨
      ∃ a sdk,ok s.calls=true ∧ op s.sdk=some (a,sdk) ∧
        s.call ok op=(some a,{s with
          sdk := sdk
          calls := s.calls+1}) := by
  unfold State.call
  cases hk : ok s.calls with
  | false => exact Or.inl rfl
  | true =>
    cases ho : op s.sdk with
    | none => exact Or.inl rfl
    | some r => exact Or.inr ⟨r.1,r.2,rfl,rfl,rfl⟩

/-- A call of the switch that succeeds. -/
theorem call_some {a : α} (hc : s.call ok op=(some a,s1)) :
    ∃ sdk,ok s.calls=true ∧ op s.sdk=some (a,sdk) ∧ s1={s with
      sdk := sdk
      calls := s.calls+1} := by
  rcases call_cases ok op s with he|⟨b,sdk,hk,ho,he⟩
  · exact absurd (Prod.mk.inj (he.symm.trans hc)).1 (by simp)
  · obtain ⟨hb,rfl⟩ := Prod.mk.inj (he.symm.trans hc)
    cases hb
    exact ⟨sdk,hk,ho,rfl⟩

/-- A call that fails is only counted. -/
theorem call_none (hc : s.call ok op=(none,s1)) : s1={s with calls := s.calls+1} := by
  rcases call_cases ok op s with he|⟨a,sdk,-,ho,he⟩
  · exact (Prod.mk.inj (he.symm.trans hc)).2.symm
  · exact absurd (Prod.mk.inj (he.symm.trans hc)).1 (by simp)

/-- A group inside of the array is no access outside. -/
theorem touch_inside {i : ℤ} (h : 0 ≤ i ∧ i < groupNum) : s.touch i=s := by
  unfold State.touch
  rw [decide_eq_true h,Bool.not_true,Bool.or_false]

/-! ## Steps -/

/-- What the driver does with one SDK call: the array is written only together
with a group of the same number. -/
inductive Step (w : Switch) : State → State → Prop
  /-- The call fails, or it only reads. -/
  | count (s : State) : Step w s {s with calls := s.calls+1}
  /-- An entry is changed. -/
  | update (s : State) (eid : ℤ) (f : Entry → Entry) (sdk : Sdk) (hf : ∀ e,(f e).gid=e.gid)
      (h : Sdk.updateEntry eid f s.sdk=some ((),sdk)) : Step w s {s with
        sdk := sdk
        calls := s.calls+1}
  /-- An entry is destroyed. -/
  | destroy (s : State) (eid : ℤ) (sdk : Sdk) (h : Sdk.entryDestroy eid s.sdk=some ((),sdk)) :
      Step w s {s with
        sdk := sdk
        calls := s.calls+1}
  /-- An entry is created. -/
  | create (s : State) (gid eid : ℤ) (sdk : Sdk) (h : w.entryCreate gid s.sdk=some (eid,sdk)) :
      Step w s {s with
        sdk := sdk
        calls := s.calls+1}
  /-- A group is created. -/
  | openGroup (s : State) (gid : ℤ) (group : Group) (hg : 1 ≤ gid ∧ gid ≤ groupNum) :
      Step w s (State.setUsed ⟨⟨Function.update s.sdk.groups gid (some group),s.sdk.entries⟩,
        s.groupUsed,s.outside,s.calls+1⟩ (gid-1) 1)
  /-- An empty group is destroyed. -/
  | closeGroup (s : State) (gid : ℤ) (hg : s.sdk.groups gid≠none) (hz : s.sdk.count gid=0) :
      Step w s (State.setUsed ⟨⟨Function.update s.sdk.groups gid none,s.sdk.entries⟩,
        s.groupUsed,s.outside,s.calls+1⟩ (gid-1) 0)
  /-- The store and the array are cleared. -/
  | clear (s : State) : Step w s ⟨⟨fun _ => none,[]⟩,
      fun i => if 0 ≤ i ∧ i < groupNum then 0 else s.groupUsed i,s.outside,s.calls+1⟩

/-- Some steps. -/
abbrev Steps (w : Switch) : State → State → Prop := Relation.ReflTransGen (Step w)

/-- A call that fails is a step. -/
theorem steps_none (hc : s.call ok op=(none,s1)) : Steps w s s1 := by
  rw [call_none hc]
  exact .single (.count s)

/-- A change of an entry that keeps its group is a step. -/
theorem steps_update {f : Entry → Entry} {eid : ℤ} {r : Option Unit}
    (hc : s.call ok (Sdk.updateEntry eid f)=(r,s1)) (hf : ∀ e,(f e).gid=e.gid) : Steps w s s1 := by
  cases r with
  | none => exact steps_none hc
  | some a =>
    obtain ⟨sdk,-,ho,rfl⟩ := call_some hc
    exact .single (.update s eid f sdk hf ho)

/-- The set-up takes steps only. -/
theorem steps_init : Steps w s (setFieldInit ok s).2 := by
  unfold setFieldInit
  split
  · rename_i s1 hc
    exact steps_none hc
  · rename_i a s1 hc
    obtain ⟨sdk,-,ho,rfl⟩ := call_some hc
    cases ho
    exact .single (.clear s)

/-- So does making a group. -/
theorem steps_createFpGroupId (gid keyMode : ℤ) : Steps w s (createFpGroupId ok gid keyMode s).2 := by
  unfold createFpGroupId
  split
  · exact .refl
  · rename_i hprio
    have hg : 1 ≤ gid ∧ gid ≤ groupNum := by
      by_contra hcon
      refine hprio (if_pos ?_)
      by_contra hno
      rw [not_or,not_lt,not_lt] at hno
      exact hcon hno
    have hin : 0 ≤ gid-1 ∧ gid-1 < groupNum := ⟨by linarith [hg.1],by linarith [hg.2]⟩
    rw [touch_inside hin]
    split
    · split
      · rename_i s2 hc
        exact steps_none hc
      · rename_i a s2 hc
        obtain ⟨sdk,-,ho,rfl⟩ := call_some hc
        unfold Sdk.groupCreateId at ho
        split at ho
        · cases ho
          exact .single (.openGroup s gid _ hg)
        · cases ho
    · exact .refl

/-- So does qualifying an entry. -/
theorem steps_qualifyAll (eid : ℤ) (qs : List Qualify) : Steps w s (qualifyAll ok eid qs s).2 := by
  induction qs generalizing s with
  | nil => exact .refl
  | cons q qs ih =>
    unfold qualifyAll
    split
    · rename_i s1 hc
      exact steps_none hc
    · rename_i a s1 hc
      exact (steps_update hc fun _ => rfl).trans ih

/-- So does filling an entry. -/
theorem steps_fillEntry (fp : FpEntry) (prio gid eid : ℤ) :
    Steps w s (fillEntry ok fp prio gid eid s).2.2 := by
  unfold fillEntry
  split
  · rename_i s1 hc
    exact steps_none hc
  · rename_i a s1 hc
    have h1 : Steps w s s1 := steps_update hc fun _ => rfl
    have h2 : Steps w s (addFpEntryField ok eid fp s1).2 := h1.trans (steps_qualifyAll eid fp.fields)
    dsimp only
    split
    · exact h2
    · split
      · rename_i s3 hc3
        split at hc3
        · exact h2.trans (steps_none hc3)
        · cases hc3
      · rename_i b s3 hc3
        have h3 : Steps w s s3 := by
          split at hc3
          · exact h2.trans (steps_update hc3 fun _ => rfl)
          · cases hc3
            exact h2
        split
        · rename_i s4 hc4
          exact h3.trans (steps_none hc4)
        · rename_i c s4 hc4
          exact h3.trans (steps_update hc4 fun _ => rfl)

/-- So does adding an entry. -/
theorem steps_addEntry (fp : FpEntry) : Steps w s (setFieldAddEntry w ok fp s).2.2 := by
  unfold setFieldAddEntry
  dsimp only
  split
  · exact .refl
  · have h1 : Steps w s (createFpGroupId ok fp.grouped.gid (getFpKeyMode fp.grouped.keyMask) s).2 :=
      steps_createFpGroupId _ _
    split
    · exact h1
    · split
      · rename_i s2 hc
        exact h1.trans (steps_none hc)
      · rename_i eid s2 hc
        obtain ⟨sdk,-,ho,rfl⟩ := call_some hc
        exact (h1.tail (.create _ _ _ sdk ho)).trans (steps_fillEntry ..)

/-- So does removing an entry. -/
theorem steps_removeEntry (fp : FpEntry) : Steps w s (setFieldRemoveEntry w ok fp s).2 := by
  unfold setFieldRemoveEntry
  split
  · rename_i s1 hc1
    exact steps_none hc1
  · rename_i a1 s1 hc1
    have h1 : Steps w s s1 := steps_update hc1 fun _ => rfl
    split
    · rename_i s2 hc2
      exact h1.trans (steps_none hc2)
    · rename_i a2 s2 hc2
      obtain ⟨sdk2,-,ho2,rfl⟩ := call_some hc2
      have h2 := h1.tail (.destroy s1 fp.eid sdk2 ho2)
      split
      · rename_i s3 hc3
        exact h2.trans (steps_none hc3)
      · rename_i status s3 hc3
        obtain ⟨sdk3,-,ho3,rfl⟩ := call_some hc3
        unfold Switch.groupStatusGet at ho3
        split at ho3
        · cases ho3
        · rename_i hg
          cases ho3
          have h3 := h2.tail (.count _)
          split
          · rename_i hfree
            split
            · rename_i s4 hc4
              exact h3.trans (steps_none hc4)
            · rename_i a4 s4 hc4
              obtain ⟨sdk4,-,ho4,rfl⟩ := call_some hc4
              unfold Sdk.groupDestroy at ho4
              rw [if_neg (by exact hg)] at ho4
              cases ho4
              have hz : sdk2.count fp.gid=0 := by
                have hfree2 : w.entriesTotal fp.gid-(sdk2.count fp.gid : ℤ)=w.entriesTotal fp.gid := hfree
                omega
              exact h3.tail (.closeGroup _ fp.gid (by exact hg) (by exact hz))
          · exact h3

/-- So does adding an action. -/
theorem steps_addAction (fp : FpEntryAction) : Steps w s (setFieldAddAction ok fp s).2 := by
  unfold setFieldAddAction
  split
  · exact .refl
  · have h1 : Steps w s (s.call ok (Sdk.actionRemove fp.eid .egressMask)).2 :=
      steps_update (Prod.mk.eta (p:=s.call ok (Sdk.actionRemove fp.eid .egressMask))).symm fun _ => rfl
    split
    · rename_i s2 hc2
      exact h1.trans (steps_none hc2)
    · rename_i a2 s2 hc2
      have h2 : Steps w s s2 := h1.trans (steps_update hc2 fun _ => rfl)
      split
      · rename_i s3 hc3
        exact h2.trans (steps_none hc3)
      · rename_i a3 s3 hc3
        exact h2.trans (steps_update hc3 fun _ => rfl)

/-- So does every request. -/
theorem steps_serve (r : Request) : Steps w s (s.serve w ok r) := by
  cases r with
  | init => exact steps_init
  | addEntry fp => exact steps_addEntry fp
  | removeEntry fp => exact steps_removeEntry fp
  | addAction fp => exact steps_addAction fp

/-- Every run of the driver is made of steps. -/
theorem steps_run (rs : List Request) : Steps w s (s.run w ok rs) := by
  induction rs generalizing s with
  | nil => exact .refl
  | cons r rs ih => exact (steps_serve r).trans ih

/-! ## The invariant -/

/-- The array agrees with the groups of the store, it was accessed only inside
of its bounds, and the group of every entry exists. -/
structure Mirrors (s : State) : Prop where
  /-- The array. -/
  used : ∀ g,1 ≤ g → g ≤ groupNum → s.groupUsed (g-1)=if s.sdk.groups g=none then 0 else 1
  /-- The numbers of the groups. -/
  range : ∀ g,s.sdk.groups g≠none → 1 ≤ g ∧ g ≤ groupNum
  /-- The accesses. -/
  inside : s.outside=false
  /-- The groups of the entries. -/
  housed : ∀ p ∈ s.sdk.entries,s.sdk.groups p.2.gid≠none

/-- A step that keeps the groups, the array and the bounds. -/
theorem Mirrors.congr (h : Mirrors s) (h1 : s1.sdk.groups=s.sdk.groups)
    (h2 : s1.groupUsed=s.groupUsed) (h3 : s1.outside=s.outside)
    (h4 : ∀ p ∈ s1.sdk.entries,s.sdk.groups p.2.gid≠none) : Mirrors s1 := by
  constructor
  · intro g hg hg2
    rw [h1,h2]
    exact h.used g hg hg2
  · intro g hg
    rw [h1] at hg
    exact h.range g hg
  · rw [h3]
    exact h.inside
  · rw [h1]
    exact h4

/-- The write of the array after a group of the same number was created or
destroyed. -/
theorem Mirrors.setUsed {g : ℤ} (h : Mirrors s) (hg : 1 ≤ g ∧ g ≤ groupNum) {o : Option Group}
    {n : ℕ} (ho : ∀ p ∈ s.sdk.entries,p.2.gid=g → o≠none) :
    Mirrors (State.setUsed ⟨⟨Function.update s.sdk.groups g o,s.sdk.entries⟩,s.groupUsed,s.outside,n⟩
      (g-1) (if o=none then 0 else 1)) := by
  have hin : 0 ≤ g-1 ∧ g-1 < groupNum := by
    have h4 := hg.2
    exact ⟨by linarith [hg.1],by linarith⟩
  unfold State.setUsed
  rw [touch_inside hin]
  constructor
  · intro k hk hk2
    show Function.update s.groupUsed (g-1) _ (k-1)=
      if Function.update s.sdk.groups g o k=none then 0 else 1
    by_cases hkg : k=g
    · rw [hkg,Function.update_self,Function.update_self]
    · have hne : k-1≠g-1 := fun he => hkg (by linarith)
      rw [Function.update_of_ne hne,Function.update_of_ne hkg]
      exact h.used k hk hk2
  · intro k hk
    by_cases hkg : k=g
    · rw [hkg]
      exact hg
    · have hk2 : Function.update s.sdk.groups g o k≠none := hk
      rw [Function.update_of_ne hkg] at hk2
      exact h.range k hk2
  · exact h.inside
  · intro p hp
    show Function.update s.sdk.groups g o p.2.gid≠none
    by_cases hpg : p.2.gid=g
    · rw [hpg,Function.update_self]
      exact ho p hp hpg
    · rw [Function.update_of_ne hpg]
      exact h.housed p hp

/-- Every step keeps the invariant. -/
theorem Mirrors.step (h : Mirrors s) (hs : Step w s s1) : Mirrors s1 := by
  cases hs with
  | count => exact h.congr rfl rfl rfl h.housed
  | update eid f sdk hf ho =>
    unfold Sdk.updateEntry at ho
    split at ho
    · cases ho
      refine h.congr rfl rfl rfl fun p hp => ?_
      obtain ⟨q,hq,rfl⟩ := List.mem_map.mp hp
      split
      · rw [hf]
        exact h.housed q hq
      · exact h.housed q hq
    · cases ho
  | destroy eid sdk ho =>
    unfold Sdk.entryDestroy at ho
    split at ho
    · cases ho
      exact h.congr rfl rfl rfl fun p hp => h.housed p (List.mem_of_mem_filter hp)
    · cases ho
  | create gid eid sdk ho =>
    unfold Switch.entryCreate at ho
    split at ho
    · cases ho
    · rename_i hg
      cases ho
      refine h.congr rfl rfl rfl fun p hp => ?_
      rcases List.mem_append.mp hp with hp|hp
      · exact h.housed p hp
      · rw [List.mem_singleton.mp hp]
        exact hg
  | openGroup gid group hg => exact h.setUsed hg (o:=some group) fun _ _ _ => Option.some_ne_none _
  | closeGroup gid hg hz =>
    refine h.setUsed (h.range gid hg) (o:=none) fun p hp hpg => ?_
    exact absurd (decide_eq_true hpg) (List.countP_eq_zero.mp hz p hp)
  | clear =>
    constructor
    · intro g hg hg2
      have hin : 0 ≤ g-1 ∧ g-1 < groupNum := ⟨by linarith,by linarith⟩
      show (if 0 ≤ g-1 ∧ g-1 < groupNum then (0 : ℤ) else _)=0
      exact if_pos hin
    · exact fun g hg => absurd rfl hg
    · exact h.inside
    · exact fun p hp => absurd hp List.not_mem_nil

/-- Steps keep the mirror. -/
theorem Mirrors.steps (h : Mirrors s) (hs : Steps w s s1) : Mirrors s1 := by
  induction hs with
  | refl => exact h
  | tail _ hstep ih => exact ih.step hstep

/-- After set_field_init succeeded, the array agrees with the store. -/
theorem setFieldInit_mirrors (hs : s.outside=false) (h : (setFieldInit ok s).1=0) :
    Mirrors (setFieldInit ok s).2 := by
  unfold setFieldInit at h ⊢
  split at h
  · cases h
  · rename_i a s2 hc
    obtain ⟨sdk,-,ho,rfl⟩ := call_some hc
    cases ho
    constructor
    · intro g hg hg2
      have hin : 0 ≤ g-1 ∧ g-1 < groupNum := ⟨by linarith,by linarith⟩
      show (if 0 ≤ g-1 ∧ g-1 < groupNum then (0 : ℤ) else _)=0
      exact if_pos hin
    · exact fun g hg => absurd rfl hg
    · exact hs
    · exact fun p hp => absurd hp List.not_mem_nil

/-- The states that are reached after set_field_init succeeded. -/
def Reached (w : Switch) (ok : ℕ → Bool) (s : State) : Prop :=
  ∃ sdk used rs,(setFieldInit ok (powerOn sdk used)).1=0 ∧
    s=(setFieldInit ok (powerOn sdk used)).2.run w ok rs

/-- The mirror holds in every state that is reached. -/
theorem Reached.mirrors (h : Reached w ok s) : Mirrors s := by
  obtain ⟨sdk,used,rs,h0,rfl⟩ := h
  exact (setFieldInit_mirrors rfl h0).steps (steps_run rs)

/-- In every reached state the array agrees with the groups of the store, no
group has another number, and the array was accessed only inside of its bounds. -/
theorem groupUsed_mirrors (h : Reached w ok s) :
    (∀ g,1 ≤ g → g ≤ groupNum → (s.groupUsed (g-1)=1 ↔ s.sdk.groups g≠none)) ∧
      (∀ g,g < 1 ∨ groupNum < g → s.sdk.groups g=none) ∧ s.outside=false := by
  have hm := h.mirrors
  refine ⟨?_,?_,hm.inside⟩
  · intro g hg hg2
    rw [hm.used g hg hg2]
    by_cases hn : s.sdk.groups g=none
    · rw [if_pos hn]
      exact iff_of_false (by decide) (fun h2 => h2 hn)
    · rw [if_neg hn]
      exact iff_of_true rfl hn
  · intro g hg
    by_contra hn
    have hr := hm.range g hn
    rcases hg with hg|hg
    · linarith [hr.1]
    · linarith [hr.2]

/-- A number that no entry has. -/
def nextEid (entries : List (ℤ × Entry)) : ℤ := entries.foldr (fun p m => max (p.1+1) m) 0

/-- The next number is above those in use. -/
theorem lt_nextEid {entries : List (ℤ × Entry)} : ∀ p ∈ entries,p.1 < nextEid entries := by
  induction entries with
  | nil => exact fun p hp => absurd hp List.not_mem_nil
  | cons q entries ih =>
    intro p hp
    have hstep : nextEid (q::entries)=max (q.1+1) (nextEid entries) := rfl
    rw [hstep]
    rcases List.mem_cons.mp hp with rfl|hp
    · exact lt_of_lt_of_le (lt_add_one _) (le_max_left _ _)
    · exact lt_of_lt_of_le (ih p hp) (le_max_right _ _)

/-- A switch that counts the entries on. -/
def countingSwitch : Switch where
  newEid := fun sdk => nextEid sdk.entries
  fresh := fun _ p hp => (lt_nextEid p hp).ne
  entriesTotal := fun _ => 128

/-- An entry for one protocol. -/
def protocolEntry (protocol : UInt32) (ruleid gid : ℤ) : FpEntry :=
  ⟨0x0002,protocol,0,0,0,0,0,0,0,0,0,0,0,0,0,0,0,0,ruleid,gid,0⟩

/-- The state after set_field_init when every call succeeds. -/
def fieldReady (ok : ℕ → Bool) : State := (setFieldInit ok (powerOn ⟨fun _ => none,[]⟩ fun _ => 0)).2

/-- Requests from the set-up reach their state. -/
theorem fieldReady_reached (rs : List Request) {ok : ℕ → Bool} (h : ok 0=true) :
    Reached countingSwitch ok ((fieldReady ok).run countingSwitch ok rs) := by
  refine ⟨⟨fun _ => none,[]⟩,fun _ => 0,rs,?_,rfl⟩
  unfold setFieldInit State.call
  have hcall : ok (powerOn ⟨fun _ => none,[]⟩ fun _ => 0).calls=true := h
  rw [hcall]
  rfl

/-- A group is created and its entry refused; the array still agrees. -/
theorem groupUsed_mirrors_refused :
    let ok : ℕ → Bool := fun n => n≠2
    let s := (fieldReady ok).run countingSwitch ok [.addEntry (protocolEntry 6 1 3)]
    s.groupUsed 2=1 ∧ s.sdk.groups 3≠none ∧ s.outside=false := by
  intro ok s
  have hreached : Reached countingSwitch ok s := fieldReady_reached _ rfl
  have hm := groupUsed_mirrors hreached
  have hused : s.groupUsed 2=1 := by decide
  exact ⟨hused,(hm.1 3 (by decide) (by decide)).mp hused,hm.2.2⟩

end StudyCode.FieldProcessor
