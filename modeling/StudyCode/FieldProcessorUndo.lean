import StudyCode.FieldProcessorMirror

/-!
# Adding a field entry and taking it back

set_field_add_entry returns at the first SDK call that fails and undoes nothing.
So a failed call leaves the state as it was exactly when nothing was created
before the failure, and removing the entry restores the state unless the group
was there and empty.
-/

namespace StudyCode.FieldProcessor

variable {w : Switch} {ok : ℕ → Bool} {s s1 : State} {old : List (ℤ × Entry)} {eid : ℤ} {e : Entry}

/-! ## Calls on the new entry -/

/-- The calls from a number on, for some calls, succeed. -/
def Succeed (ok : ℕ → Bool) (start n : ℕ) : Prop := ∀ i < n,ok (start+i)=true

/-- No calls succeed. -/
theorem succeed_zero (start : ℕ) : Succeed ok start 0 := fun _ hi => absurd hi (Nat.not_lt_zero _)

/-- The first call and the others succeed. -/
theorem succeed_succ {start n : ℕ} :
    Succeed ok start (n+1) ↔ ok start=true ∧ Succeed ok (start+1) n := by
  constructor
  · intro h
    refine ⟨h 0 (Nat.succ_pos n),fun i hi => ?_⟩
    have h2 := h (i+1) (Nat.succ_lt_succ hi)
    rwa [Nat.add_comm i 1,←Nat.add_assoc] at h2
  · rintro ⟨h0,h⟩ i hi
    cases i with
    | zero => exact h0
    | succ i =>
      have h2 := h i (Nat.lt_of_succ_lt_succ hi)
      rwa [Nat.add_assoc,Nat.add_comm 1 i] at h2

/-- Calls one behind the other succeed. -/
theorem succeed_add {start m n : ℕ} :
    Succeed ok start (m+n) ↔ Succeed ok start m ∧ Succeed ok (start+m) n := by
  induction m generalizing start with
  | zero =>
    rw [Nat.zero_add,Nat.add_zero]
    exact (and_iff_right (succeed_zero start)).symm
  | succ m ih =>
    rw [Nat.add_right_comm,succeed_succ,ih,succeed_succ,and_assoc,Nat.add_assoc start 1 m,
      Nat.add_comm 1 m]

/-- The state with a new entry behind the old ones, some calls after another
state. -/
structure Holds (s s1 : State) (old : List (ℤ × Entry)) (eid : ℤ) (e : Entry) (n : ℕ) : Prop where
  /-- The groups are the same. -/
  groups : s1.sdk.groups=s.sdk.groups
  /-- The entries. -/
  entries : s1.sdk.entries=old++[(eid,e)]
  /-- The array is the same. -/
  used : s1.groupUsed=s.groupUsed
  /-- The calls. -/
  calls : s1.calls=s.calls+n

/-- Calls add up. -/
theorem Holds.trans {s2 : State} {e2 : Entry} {m n : ℕ} (h : Holds s s1 old eid e m)
    (h2 : Holds s1 s2 old eid e2 n) : Holds s s2 old eid e2 (m+n) :=
  ⟨h2.groups.trans h.groups,h2.entries,h2.used.trans h.used,by rw [h2.calls,h.calls,Nat.add_assoc]⟩

/-- The last entry is found. -/
theorem any_eid : (old++[(eid,e)]).any (fun p => p.1=eid)=true := by
  rw [List.any_append,List.any_cons,decide_eq_true rfl,Bool.true_or,Bool.or_true]

/-- A sequence of calls on the new entry of a group: all of them succeed, or the
sequence is left at the first that fails, and the new entry stays. -/
def Fills (ok : ℕ → Bool) (s : State) (old : List (ℤ × Entry)) (eid gid : ℤ) (n : ℕ)
    (done failed : State → Prop) : Prop :=
  (Succeed ok s.calls n ∧ ∃ s1 e1,done s1 ∧ Holds s s1 old eid e1 n ∧ e1.gid=gid) ∨
    (¬Succeed ok s.calls n ∧ ∃ s1 e1 k,failed s1 ∧ Holds s s1 old eid e1 k)

/-- A call that changes the new entry. -/
theorem updateEntry_fills (ok : ℕ → Bool) (f : Entry → Entry) (hf : ∀ e,(f e).gid=e.gid)
    (hold : ∀ p ∈ old,p.1≠eid) (he : s.sdk.entries=old++[(eid,e)]) :
    Fills ok s old eid e.gid 1 (fun s1 => s.call ok (Sdk.updateEntry eid f)=(some (),s1))
      (fun s1 => s.call ok (Sdk.updateEntry eid f)=(none,s1)) := by
  have hmap : (old++[(eid,e)]).map (fun p => if p.1=eid then (p.1,f p.2) else p)=
      old++[(eid,f e)] := by
    rw [List.map_append,List.map_cons,if_pos rfl,List.map_nil]
    refine congrArg (· ++ [(eid,f e)]) ?_
    exact (List.map_congr_left fun p hp => if_neg (hold p hp)).trans (List.map_id _)
  unfold Fills State.call Sdk.updateEntry
  rw [he,any_eid,if_pos rfl,hmap,succeed_succ]
  cases hk : ok s.calls with
  | true =>
    left
    refine ⟨⟨rfl,succeed_zero _⟩,_,f e,rfl,?_,hf e⟩
    exact ⟨rfl,rfl,rfl,rfl⟩
  | false =>
    right
    refine ⟨fun h => absurd h.1 Bool.false_ne_true,_,e,1,rfl,?_⟩
    exact ⟨rfl,he,rfl,rfl⟩

/-- Two sequences of calls one after the other. -/
theorem Fills.append {gid : ℤ} {m n : ℕ} {done1 failed1 done failed : State → Prop}
    (h : Fills ok s old eid gid m done1 failed1)
    (h2 : ∀ s1 e1,done1 s1 → s1.sdk.entries=old++[(eid,e1)] → e1.gid=gid →
      Fills ok s1 old eid gid n done failed)
    (h3 : ∀ s1,failed1 s1 → failed s1) : Fills ok s old eid gid (m+n) done failed := by
  rcases h with ⟨hk,s1,e1,hd,hh,hg⟩|⟨hk,s1,e1,k,hf,hh⟩
  · rcases h2 s1 e1 hd hh.entries hg with ⟨hk2,s2,e2,hd2,hh2,hg2⟩|⟨hk2,s2,e2,k,hf,hh2⟩
    · rw [hh.calls] at hk2
      exact Or.inl ⟨succeed_add.mpr ⟨hk,hk2⟩,s2,e2,hd2,hh.trans hh2,hg2⟩
    · rw [hh.calls] at hk2
      exact Or.inr ⟨fun h => hk2 (succeed_add.mp h).2,s2,e2,_,hf,hh.trans hh2⟩
  · exact Or.inr ⟨fun h => hk (succeed_add.mp h).1,s1,e1,k,h3 s1 hf,hh⟩

/-- Qualifying fills the entry, or fails at the first call that does. -/
theorem qualifyAll_fills (ok : ℕ → Bool) (hold : ∀ p ∈ old,p.1≠eid)
    (he : s.sdk.entries=old++[(eid,e)]) (qs : List Qualify) :
    Fills ok s old eid e.gid qs.length (fun s1 => qualifyAll ok eid qs s=(0,s1))
      (fun s1 => qualifyAll ok eid qs s=(-1,s1)) := by
  induction qs generalizing s e with
  | nil => exact Or.inl ⟨succeed_zero _,s,e,rfl,⟨rfl,he,rfl,rfl⟩,rfl⟩
  | cons q qs ih =>
    have hcall := updateEntry_fills ok (fun e => {e with qualifiers := e.qualifiers++[q]})
      (fun _ => rfl) hold he
    rw [List.length_cons,Nat.add_comm]
    refine hcall.append (fun s1 e1 hc h1 hg => ?_) (fun s1 hc => ?_)
    · have hnext : qualifyAll ok eid (q::qs) s=qualifyAll ok eid qs s1 := by
        rw [qualifyAll,Sdk.qualify,hc]
      rw [hnext,←hg]
      exact ih h1
    · rw [qualifyAll,Sdk.qualify,hc]

/-- The number of SDK calls behind the creation of an entry. -/
def FpEntry.fillCalls (fp : FpEntry) : ℕ := 1+(fp.fields.length+((if fp.gid≠0 then 1 else 0)+1))

/-- What set_field_add_entry does behind the creation of the entry. -/
theorem fillEntry_fills (ok : ℕ → Bool) (hold : ∀ p ∈ old,p.1≠eid)
    (he : s.sdk.entries=old++[(eid,e)]) (fp : FpEntry) (prio gid : ℤ) :
    Fills ok s old eid e.gid fp.fillCalls
      (fun s1 => fillEntry ok fp prio gid eid s=(0,{fp with
        eid := eid
        gid := gid},s1))
      (fun s1 => fillEntry ok fp prio gid eid s=(-1,fp,s1)) := by
  unfold fillEntry FpEntry.fillCalls
  have hprio := updateEntry_fills ok (fun e => {e with prio := prio}) (fun _ => rfl) hold he
  refine hprio.append (fun s1 e1 hc1 h1 hg1 => ?_) (fun s1 hc1 => ?_)
  · rw [Sdk.entryPrioSet,hc1]
    dsimp only
    unfold addFpEntryField
    rw [←hg1]
    refine (qualifyAll_fills ok hold h1 fp.fields).append (fun s2 e2 hc2 h2 hg2 => ?_)
      (fun s2 hc2 => ?_)
    · rw [hc2]
      dsimp only
      rw [if_neg (lt_irrefl (0 : ℤ)),←hg2]
      have hact : Fills ok s2 old eid e2.gid (if fp.gid≠0 then 1 else 0)
          (fun s3 => (if fp.gid≠0 then s2.call ok (Sdk.actionAdd eid .addClassTag fp.gid 0)
            else (some (),s2))=(some (),s3))
          (fun s3 => (if fp.gid≠0 then s2.call ok (Sdk.actionAdd eid .addClassTag fp.gid 0)
            else (some (),s2))=(none,s3)) := by
        by_cases hz : fp.gid≠0
        · simp only [if_pos hz]
          exact updateEntry_fills ok _ (fun _ => rfl) hold h2
        · simp only [if_neg hz]
          exact Or.inl ⟨succeed_zero _,s2,e2,rfl,⟨rfl,h2,rfl,rfl⟩,rfl⟩
      refine hact.append (fun s3 e3 hc3 h3 hg3 => ?_) (fun s3 hc3 => ?_)
      · rw [hc3]
        dsimp only
        rw [←hg3]
        have hinst := updateEntry_fills ok (fun e => {e with installed := true}) (fun _ => rfl) hold h3
        refine hinst.append (n:=0) (fun s4 e4 hc4 h4 hg4 => ?_) (fun s4 hc4 => ?_)
        · rw [Sdk.entryInstall,hc4]
          exact Or.inl ⟨succeed_zero _,s4,e4,rfl,⟨rfl,h4,rfl,rfl⟩,hg4⟩
        · rw [Sdk.entryInstall,hc4]
      · rw [hc3]
    · rw [hc2]
      rfl
  · rw [Sdk.entryPrioSet,hc1]

/-! ## The creation of the group and of the entry -/

/-- A group outside of the range has no priority. -/
theorem getGidPrio_eq_neg {g : ℤ} : getGidPrio g=-1 ↔ g < 1 ∨ groupNum < g := by
  unfold getGidPrio
  split
  · rename_i h
    exact iff_of_true rfl h
  · rename_i h
    refine iff_of_false (fun h2 => h ?_) h
    exact Or.inr (by linarith)

/-- The group of an entry is used already, or its creation fails, or it is
created. -/
theorem createFpGroupId_cases {g : ℤ} (hm : Mirrors s) (hg : 1 ≤ g ∧ g ≤ groupNum) (ok : ℕ → Bool)
    (keyMode : ℤ) :
    (s.groupUsed (g-1)≠0 ∧ s.sdk.groups g≠none ∧ createFpGroupId ok g keyMode s=(g,s)) ∨
      (s.groupUsed (g-1)=0 ∧ s.sdk.groups g=none ∧
        ((ok s.calls=false ∧ createFpGroupId ok g keyMode s=(-1,{s with calls := s.calls+1})) ∨
          (ok s.calls=true ∧ ∃ group s1,createFpGroupId ok g keyMode s=(g,s1) ∧
            s1.sdk=⟨Function.update s.sdk.groups g (some group),s.sdk.entries⟩ ∧
            s1.groupUsed=Function.update s.groupUsed (g-1) 1 ∧ s1.calls=s.calls+1))) := by
  have hprio : getGidPrio g≠-1 := by
    rw [Ne,getGidPrio_eq_neg,not_or,not_lt,not_lt]
    exact hg
  have hin : 0 ≤ g-1 ∧ g-1 < groupNum := ⟨by linarith [hg.1],by linarith [hg.2]⟩
  have hused := hm.used g hg.1 hg.2
  unfold createFpGroupId
  rw [if_neg hprio,touch_inside hin]
  by_cases hn : s.sdk.groups g=none
  · rw [if_pos hn] at hused
    right
    refine ⟨hused,hn,?_⟩
    rw [if_pos hused]
    unfold State.call Sdk.groupCreateId
    rw [if_pos hn]
    cases hk : ok s.calls with
    | false => exact Or.inl ⟨rfl,rfl⟩
    | true =>
      right
      refine ⟨rfl,_,_,rfl,rfl,rfl,rfl⟩
  · rw [if_neg hn] at hused
    left
    have hne : s.groupUsed (g-1)≠0 := by
      rw [hused]
      exact one_ne_zero
    rw [if_neg hne]
    exact ⟨hne,hn,rfl⟩

/-- set_field_add_entry behind the creation of the group. -/
def enterEntry (w : Switch) (ok : ℕ → Bool) (fp : FpEntry) (prio gid : ℤ) (s : State) :
    ℤ × FpEntry × State :=
  match s.call ok (w.entryCreate gid) with
  | (none,s) => (-1,fp,s)
  | (some eid,s) => fillEntry ok fp prio gid eid s

/-- The creation of the entry fails, or a later call does and the entry stays,
or all calls succeed. -/
theorem enterEntry_cases {gid : ℤ} (w : Switch) (ok : ℕ → Bool) (fp : FpEntry) (prio : ℤ)
    (hg : s.sdk.groups gid≠none) :
    (ok s.calls=false ∧ enterEntry w ok fp prio gid s=(-1,fp,{s with calls := s.calls+1})) ∨
      (ok s.calls=true ∧ ¬Succeed ok s.calls (1+fp.fillCalls) ∧
        ∃ s1,enterEntry w ok fp prio gid s=(-1,fp,s1) ∧ s1.sdk.entries≠s.sdk.entries) ∨
      (Succeed ok s.calls (1+fp.fillCalls) ∧
        ∃ s1 e,enterEntry w ok fp prio gid s=(0,{fp with
          eid := w.newEid s.sdk
          gid := gid},s1) ∧
          Holds s s1 s.sdk.entries (w.newEid s.sdk) e (1+fp.fillCalls) ∧ e.gid=gid) := by
  unfold enterEntry State.call Switch.entryCreate
  rw [if_neg hg]
  cases hk : ok s.calls with
  | false => exact Or.inl ⟨rfl,rfl⟩
  | true =>
    right
    have hone : Succeed ok s.calls 1 := succeed_succ.mpr ⟨hk,succeed_zero _⟩
    have hfill := fillEntry_fills ok (w.fresh s.sdk) (s:=⟨⟨s.sdk.groups,s.sdk.entries++
      [(w.newEid s.sdk,⟨gid,0,[],[],false⟩)]⟩,s.groupUsed,s.outside,s.calls+1⟩) rfl fp prio gid
    rcases hfill with ⟨hs,s1,e1,hd,hh,hgid⟩|⟨hs,s1,e1,k,hd,hh⟩
    · right
      refine ⟨succeed_add.mpr ⟨hone,hs⟩,s1,e1,hd,?_,hgid⟩
      exact ⟨hh.groups,hh.entries,hh.used,hh.calls.trans (Nat.add_assoc _ _ _)⟩
    · left
      refine ⟨rfl,fun h => hs (succeed_add.mp h).2,s1,hd,?_⟩
      rw [hh.entries]
      intro h
      have hlen := congrArg List.length h
      rw [List.length_append] at hlen
      simp at hlen

/-- The steps of adding an entry. -/
theorem addEntry_eq (w : Switch) (ok : ℕ → Bool) (arg : FpEntry) (s : State) :
    setFieldAddEntry w ok arg s=
      if getFpKeyMode arg.grouped.keyMask < 0 then (-1,arg.grouped,s)
      else if (createFpGroupId ok arg.grouped.gid (getFpKeyMode arg.grouped.keyMask) s).1 < 0 then
        (-1,arg.grouped,(createFpGroupId ok arg.grouped.gid (getFpKeyMode arg.grouped.keyMask) s).2)
      else enterEntry w ok arg.grouped arg.entryPrio
        (createFpGroupId ok arg.grouped.gid (getFpKeyMode arg.grouped.keyMask) s).1
        (createFpGroupId ok arg.grouped.gid (getFpKeyMode arg.grouped.keyMask) s).2 := rfl

/-! ## The removal of the new entry -/

/-- The number of the entries of a group among some entries. -/
def countGid (entries : List (ℤ × Entry)) (gid : ℤ) : ℕ :=
  entries.countP fun p => decide (p.2.gid=gid)

/-- The number of SDK calls of a removal from a group. -/
def removeCalls (old : List (ℤ × Entry)) (gid : ℤ) : ℕ :=
  1+(1+(1+if countGid old gid=0 then 1 else 0))

/-- Destroying the entry takes it out. -/
theorem entryDestroy_call (ok : ℕ → Bool) (hold : ∀ p ∈ old,p.1≠eid)
    (he : s.sdk.entries=old++[(eid,e)]) :
    s.call ok (Sdk.entryDestroy eid)=
      if ok s.calls then (some (),⟨⟨s.sdk.groups,old⟩,s.groupUsed,s.outside,s.calls+1⟩)
      else (none,{s with calls := s.calls+1}) := by
  have hfilter : (old++[(eid,e)]).filter (fun p => decide (p.1≠eid))=old := by
    rw [List.filter_append,List.filter_eq_self.mpr fun p hp => decide_eq_true (hold p hp),
      List.filter_singleton,decide_eq_false (not_not_intro rfl)]
    exact List.append_nil old
  unfold State.call Sdk.entryDestroy
  rw [he,any_eid,if_pos rfl,hfilter]
  cases ok s.calls with
  | true => rfl
  | false => rfl

/-- The status of a group counts its entries. -/
theorem groupStatusGet_call {gid : ℤ} (w : Switch) (ok : ℕ → Bool) (hg : s.sdk.groups gid≠none) :
    s.call ok (w.groupStatusGet gid)=
      (if ok s.calls then some ⟨w.entriesTotal gid,w.entriesTotal gid-s.sdk.count gid⟩ else none,
        {s with calls := s.calls+1}) := by
  unfold State.call Switch.groupStatusGet
  rw [if_neg hg]
  cases ok s.calls with
  | true => rfl
  | false => rfl

/-- Destroying the group takes it out. -/
theorem groupDestroy_call {gid : ℤ} (ok : ℕ → Bool) (hg : s.sdk.groups gid≠none) :
    s.call ok (Sdk.groupDestroy gid)=
      if ok s.calls then
        (some (),⟨⟨Function.update s.sdk.groups gid none,s.sdk.entries⟩,s.groupUsed,s.outside,
          s.calls+1⟩)
      else (none,{s with calls := s.calls+1}) := by
  unfold State.call Sdk.groupDestroy
  rw [if_neg hg]
  cases ok s.calls with
  | true => rfl
  | false => rfl

/-- The removal behind the removal of the entry from the hardware. -/
def takeEntry (w : Switch) (ok : ℕ → Bool) (eid gid : ℤ) (s : State) : ℤ × State :=
  match s.call ok (Sdk.entryDestroy eid) with
  | (none,s) => (-1,s)
  | (some _,s) =>
    match s.call ok (w.groupStatusGet gid) with
    | (none,s) => (-1,s)
    | (some status,s) =>
      if status.entriesFree=status.entriesTotal then
        match s.call ok (Sdk.groupDestroy gid) with
        | (none,s) => (-1,s)
        | (some _,s) => (0,s.setUsed (gid-1) 0)
      else (0,s)

/-- One call. -/
theorem succeed_one {start : ℕ} : Succeed ok start 1 ↔ ok start=true := by
  rw [succeed_succ]
  exact and_iff_left (succeed_zero _)

/-- One call before others. -/
theorem succeed_one_add {start n : ℕ} :
    Succeed ok start (1+n) ↔ ok start=true ∧ Succeed ok (start+1) n := by
  rw [succeed_add,succeed_one]

/-- The store and the array after a group was taken out when it is empty. -/
structure Taken (s s1 : State) (old : List (ℤ × Entry)) (gid : ℤ) : Prop where
  /-- The store. -/
  sdk : s1.sdk=⟨if countGid old gid=0 then Function.update s.sdk.groups gid none
    else s.sdk.groups,old⟩
  /-- The array. -/
  used : s1.groupUsed=if countGid old gid=0 then Function.update s.groupUsed (gid-1) 0
    else s.groupUsed

/-- Taking the entry back fails at a call or leaves what was there. -/
theorem takeEntry_cases {gid : ℤ} (w : Switch) (ok : ℕ → Bool) (hold : ∀ p ∈ old,p.1≠eid)
    (he : s.sdk.entries=old++[(eid,e)]) (hg : s.sdk.groups gid≠none) :
    (¬Succeed ok s.calls (1+(1+if countGid old gid=0 then 1 else 0)) ∧
        (takeEntry w ok eid gid s).1=-1) ∨
      (Succeed ok s.calls (1+(1+if countGid old gid=0 then 1 else 0)) ∧
        (takeEntry w ok eid gid s).1=0 ∧ Taken s (takeEntry w ok eid gid s).2 old gid) := by
  rw [succeed_one_add,succeed_one_add]
  unfold takeEntry
  rw [entryDestroy_call ok hold he]
  cases h1 : ok s.calls with
  | false => exact Or.inl ⟨fun h => absurd h.1 Bool.false_ne_true,rfl⟩
  | true =>
    rw [if_pos rfl]
    dsimp only
    rw [groupStatusGet_call w ok (by exact hg)]
    dsimp only
    cases h2 : ok (s.calls+1) with
    | false => exact Or.inl ⟨fun h => absurd h.2.1 Bool.false_ne_true,rfl⟩
    | true =>
      rw [if_pos rfl]
      dsimp only
      have hcount : Sdk.count ⟨s.sdk.groups,old⟩ gid=countGid old gid := rfl
      rw [hcount]
      by_cases hz : countGid old gid=0
      · have hfree : w.entriesTotal gid-((countGid old gid : ℕ) : ℤ)=w.entriesTotal gid := by
          rw [hz]
          exact sub_zero _
        rw [if_pos hfree,if_pos hz,succeed_one,groupDestroy_call ok (by exact hg)]
        dsimp only
        cases h3 : ok (s.calls+1+1) with
        | false => exact Or.inl ⟨fun h => absurd h.2.2 Bool.false_ne_true,rfl⟩
        | true =>
          refine Or.inr ⟨⟨rfl,rfl,rfl⟩,rfl,?_⟩
          constructor
          · rw [if_pos hz]
            rfl
          · rw [if_pos hz]
            rfl
      · have hfree : ¬w.entriesTotal gid-((countGid old gid : ℕ) : ℤ)=w.entriesTotal gid := by
          intro h
          exact hz (by omega)
        rw [if_neg hfree,if_neg hz]
        refine Or.inr ⟨⟨rfl,rfl,succeed_zero _⟩,rfl,?_⟩
        constructor
        · rw [if_neg hz]
        · rw [if_neg hz]

/-- The removal of the new entry fails, or it takes the entry out, and the group
when it is empty then. -/
theorem removeEntry_cases (w : Switch) (ok : ℕ → Bool) (fp : FpEntry)
    (hold : ∀ p ∈ old,p.1≠fp.eid) (he : s.sdk.entries=old++[(fp.eid,e)])
    (hg : s.sdk.groups fp.gid≠none) :
    (¬Succeed ok s.calls (removeCalls old fp.gid) ∧ (setFieldRemoveEntry w ok fp s).1=-1) ∨
      (Succeed ok s.calls (removeCalls old fp.gid) ∧ (setFieldRemoveEntry w ok fp s).1=0 ∧
        Taken s (setFieldRemoveEntry w ok fp s).2 old fp.gid) := by
  have hrm := updateEntry_fills ok (fun e => {e with installed := false}) (fun _ => rfl) hold he
  unfold removeCalls
  rw [succeed_one_add]
  rcases hrm with ⟨hk,s1,e1,hc,hh,-⟩|⟨hk,s1,e1,k,hc,-⟩
  · have hnext : setFieldRemoveEntry w ok fp s=takeEntry w ok fp.eid fp.gid s1 := by
      unfold setFieldRemoveEntry Sdk.entryRemove
      rw [hc]
      rfl
    have hg1 : s1.sdk.groups fp.gid≠none := by
      rw [hh.groups]
      exact hg
    have htake := takeEntry_cases w ok hold hh.entries hg1
    rw [hnext]
    rw [hh.calls] at htake
    rcases htake with ⟨h2,h3⟩|⟨h2,h3,h4⟩
    · exact Or.inl ⟨fun h => h2 h.2,h3⟩
    · refine Or.inr ⟨⟨succeed_one.mp hk,h2⟩,h3,?_⟩
      constructor
      · rw [h4.sdk,hh.groups]
      · rw [h4.used,hh.used]
  · left
    refine ⟨fun h => hk (succeed_one.mpr h.1),?_⟩
    unfold setFieldRemoveEntry Sdk.entryRemove
    rw [hc]

/-! ## All or nothing -/

/-- The groups, the entries and the array are the same. -/
def Same (s s1 : State) : Prop := s1.sdk=s.sdk ∧ s1.groupUsed=s.groupUsed

/-- A failed set_field_add_entry leaves everything as it was, and so does a
successful one that is followed by a successful set_field_remove_entry. -/
def AllOrNothing (w : Switch) (ok : ℕ → Bool) (fp : FpEntry) (s : State) : Prop :=
  ((setFieldAddEntry w ok fp s).1=-1 → Same s (setFieldAddEntry w ok fp s).2.2) ∧
    ((setFieldAddEntry w ok fp s).1=0 →
      (setFieldRemoveEntry w ok (setFieldAddEntry w ok fp s).2.1 (setFieldAddEntry w ok fp s).2.2).1=0 →
        Same s (setFieldRemoveEntry w ok (setFieldAddEntry w ok fp s).2.1
          (setFieldAddEntry w ok fp s).2.2).2)

/-- The number of SDK calls of set_field_add_entry. -/
def FpEntry.addCalls (fp : FpEntry) (s : State) : ℕ :=
  (if s.groupUsed (fp.grouped.gid-1)=0 then 1 else 0)+(1+fp.grouped.fillCalls)

/-- The arguments are refused, or the first SDK call fails, or all SDK calls of
the addition succeed and the removal does not find a group that was there and
empty before. -/
def Clear (ok : ℕ → Bool) (fp : FpEntry) (s : State) : Prop :=
  getFpKeyMode fp.grouped.keyMask < 0 ∨ fp.grouped.gid < 1 ∨ groupNum < fp.grouped.gid ∨
    ok s.calls=false ∨
      (Succeed ok s.calls (fp.addCalls s) ∧
        ¬(s.groupUsed (fp.grouped.gid-1)≠0 ∧ s.sdk.count fp.grouped.gid=0 ∧
          Succeed ok (s.calls+fp.addCalls s) 4))

/-- A request that fails is to leave all as it was. -/
theorem allOrNothing_of_fail {fp fp1 : FpEntry} (h : setFieldAddEntry w ok fp s=(-1,fp1,s1)) :
    AllOrNothing w ok fp s ↔ Same s s1 := by
  unfold AllOrNothing
  rw [h]
  refine ⟨fun h2 => h2.1 rfl,fun h2 => ⟨fun _ => h2,fun h3 => ?_⟩⟩
  exact absurd h3 (show (-1 : ℤ)≠0 by decide)

/-- A request that succeeds is to be undone by its removal. -/
theorem allOrNothing_of_done {fp fp1 : FpEntry} (h : setFieldAddEntry w ok fp s=(0,fp1,s1)) :
    AllOrNothing w ok fp s ↔
      ((setFieldRemoveEntry w ok fp1 s1).1=0 → Same s (setFieldRemoveEntry w ok fp1 s1).2) := by
  unfold AllOrNothing
  rw [h]
  refine ⟨fun h2 => h2.2 rfl,fun h2 => ⟨fun h3 => ?_,fun _ => h2⟩⟩
  exact absurd h3 (show (0 : ℤ)≠-1 by decide)

/-- An addition to a group that is in use. -/
theorem allOrNothing_used {fp : FpEntry} (hk : ¬getFpKeyMode fp.grouped.keyMask < 0)
    (hg : 1 ≤ fp.grouped.gid ∧ fp.grouped.gid ≤ groupNum)
    (hu : s.groupUsed (fp.grouped.gid-1)≠0) (hn : s.sdk.groups fp.grouped.gid≠none)
    (hc : createFpGroupId ok fp.grouped.gid (getFpKeyMode fp.grouped.keyMask) s=(fp.grouped.gid,s)) :
    AllOrNothing w ok fp s ↔ Clear ok fp s := by
  have hadd : setFieldAddEntry w ok fp s=
      enterEntry w ok fp.grouped fp.entryPrio fp.grouped.gid s := by
    rw [addEntry_eq,if_neg hk,hc]
    exact if_neg (by linarith [hg.1])
  have hcalls : fp.addCalls s=1+fp.grouped.fillCalls := by
    unfold FpEntry.addCalls
    rw [if_neg hu,Nat.zero_add]
  have hclear : Clear ok fp s ↔ ok s.calls=false ∨
      (Succeed ok s.calls (1+fp.grouped.fillCalls) ∧ ¬(s.sdk.count fp.grouped.gid=0 ∧
        Succeed ok (s.calls+(1+fp.grouped.fillCalls)) 4)) := by
    unfold Clear
    rw [hcalls]
    simp only [hk,not_lt.mpr hg.1,not_lt.mpr hg.2,hu,false_or,ne_eq,not_false_eq_true,true_and]
  rw [hclear]
  rcases enterEntry_cases w ok fp.grouped fp.entryPrio hn with ⟨h1,h2⟩|⟨h1,h2,s1,h3,h4⟩|⟨h1,s1,e,h2,h3,h4⟩
  · rw [allOrNothing_of_fail (hadd.trans h2)]
    exact iff_of_true ⟨rfl,rfl⟩ (Or.inl h1)
  · rw [allOrNothing_of_fail (hadd.trans h3)]
    refine iff_of_false (fun h => h4 (congrArg Sdk.entries h.1)) ?_
    rintro (h|h)
    · rw [h1] at h
      cases h
    · exact h2 h.1
  · rw [allOrNothing_of_done (hadd.trans h2)]
    have hk1 : ok s.calls≠false := by
      rw [(succeed_one_add.mp h1).1]
      decide
    have hn1 : s1.sdk.groups fp.grouped.gid≠none := by
      rw [h3.groups]
      exact hn
    have hrem := removeEntry_cases w ok {fp.grouped with
      eid := w.newEid s.sdk
      gid := fp.grouped.gid} (w.fresh s.sdk) h3.entries hn1
    rw [h3.calls] at hrem
    unfold removeCalls at hrem
    rcases hrem with ⟨hf,hr⟩|⟨hs,hr,ht⟩
    · refine iff_of_true (fun h => ?_) (Or.inr ⟨h1,fun h => hf ?_⟩)
      · rw [hr] at h
        exact absurd h (by decide)
      · have hz : countGid s.sdk.entries fp.grouped.gid=0 := h.1
        rw [if_pos hz]
        exact h.2
    · by_cases hz : countGid s.sdk.entries fp.grouped.gid=0
      · rw [if_pos hz] at hs
        refine iff_of_false (fun h => hn ?_) ?_
        · have hgroups := congrArg (fun sdk => Sdk.groups sdk fp.grouped.gid) (h hr).1
          rw [ht.sdk,if_pos hz] at hgroups
          exact hgroups.symm.trans (Function.update_self ..)
        · rintro (h|h)
          · exact hk1 h
          · exact h.2 ⟨hz,hs⟩
      · refine iff_of_true (fun _ => ⟨?_,?_⟩) (Or.inr ⟨h1,fun h => hz h.1⟩)
        · rw [ht.sdk,if_neg hz,h3.groups]
        · rw [ht.used,if_neg hz,h3.used]

/-- An addition that created its group. -/
theorem allOrNothing_unused {fp : FpEntry} {s0 : State} {group : Group} (hm : Mirrors s)
    (hk : ¬getFpKeyMode fp.grouped.keyMask < 0)
    (hg : 1 ≤ fp.grouped.gid ∧ fp.grouped.gid ≤ groupNum)
    (hu : s.groupUsed (fp.grouped.gid-1)=0) (hn : s.sdk.groups fp.grouped.gid=none)
    (hok : ok s.calls=true)
    (hc : createFpGroupId ok fp.grouped.gid (getFpKeyMode fp.grouped.keyMask) s=(fp.grouped.gid,s0))
    (hsdk : s0.sdk=⟨Function.update s.sdk.groups fp.grouped.gid (some group),s.sdk.entries⟩)
    (hused : s0.groupUsed=Function.update s.groupUsed (fp.grouped.gid-1) 1)
    (hcalls0 : s0.calls=s.calls+1) :
    AllOrNothing w ok fp s ↔ Clear ok fp s := by
  have hadd : setFieldAddEntry w ok fp s=
      enterEntry w ok fp.grouped fp.entryPrio fp.grouped.gid s0 := by
    rw [addEntry_eq,if_neg hk,hc]
    exact if_neg (by linarith [hg.1])
  have hcalls : fp.addCalls s=1+(1+fp.grouped.fillCalls) := by
    unfold FpEntry.addCalls
    rw [if_pos hu]
  have hclear : Clear ok fp s ↔ Succeed ok s0.calls (1+fp.grouped.fillCalls) := by
    unfold Clear
    rw [hcalls,succeed_one_add,hcalls0]
    simp only [hk,not_lt.mpr hg.1,not_lt.mpr hg.2,hu,hok,false_or,ne_eq,not_true_eq_false,
      false_and,not_false_eq_true,and_true,true_and,Bool.true_eq_false]
  have hn0 : s0.sdk.groups fp.grouped.gid≠none := by
    rw [hsdk]
    show Function.update s.sdk.groups fp.grouped.gid (some group) fp.grouped.gid≠none
    rw [Function.update_self]
    exact Option.some_ne_none _
  have hz : countGid s0.sdk.entries fp.grouped.gid=0 := by
    rw [hsdk]
    refine List.countP_eq_zero.mpr fun p hp h => hm.housed p hp ?_
    rw [of_decide_eq_true h]
    exact hn
  rw [hclear]
  rcases enterEntry_cases w ok fp.grouped fp.entryPrio hn0 with
    ⟨h1,h2⟩|⟨h1,h2,s1,h3,h4⟩|⟨h1,s1,e,h2,h3,h4⟩
  · rw [allOrNothing_of_fail (hadd.trans h2)]
    refine iff_of_false (fun h => hn0 ?_) (fun h => ?_)
    · have hgroups := congrArg (fun sdk => Sdk.groups sdk fp.grouped.gid) h.1
      exact hgroups.trans hn
    · rw [(succeed_one_add.mp h).1] at h1
      cases h1
  · rw [allOrNothing_of_fail (hadd.trans h3)]
    refine iff_of_false (fun h => h4 ?_) h2
    rw [congrArg Sdk.entries h.1,hsdk]
  · rw [allOrNothing_of_done (hadd.trans h2)]
    have hn1 : s1.sdk.groups fp.grouped.gid≠none := by
      rw [h3.groups]
      exact hn0
    have hrem := removeEntry_cases w ok {fp.grouped with
      eid := w.newEid s0.sdk
      gid := fp.grouped.gid} (w.fresh s0.sdk) h3.entries hn1
    refine iff_of_true (fun hr0 => ?_) h1
    rcases hrem with ⟨hf,hr⟩|⟨hs,hr,ht⟩
    · rw [hr] at hr0
      exact absurd hr0 (by decide)
    · have hsame : Function.update s.sdk.groups fp.grouped.gid none=s.sdk.groups := by
        rw [←hn]
        exact Function.update_eq_self _ _
      have hsame2 : Function.update s.groupUsed (fp.grouped.gid-1) 0=s.groupUsed := by
        rw [←hu]
        exact Function.update_eq_self _ _
      constructor
      · rw [ht.sdk,if_pos hz,h3.groups,hsdk]
        show (⟨Function.update (Function.update _ _ _) _ _,_⟩ : Sdk)=_
        rw [Function.update_idem,hsame]
      · rw [ht.used,if_pos hz,h3.used,hused,Function.update_idem,hsame2]

/-- In every reached state, an addition is all or nothing exactly when its
arguments are refused, its first SDK call fails, or all of its SDK calls succeed
and its group was not there and empty before. -/
theorem allOrNothing_iff (h : Reached w ok s) (fp : FpEntry) :
    AllOrNothing w ok fp s ↔ Clear ok fp s := by
  have hm := h.mirrors
  by_cases hk : getFpKeyMode fp.grouped.keyMask < 0
  · have hadd : setFieldAddEntry w ok fp s=(-1,fp.grouped,s) := by
      rw [addEntry_eq,if_pos hk]
    rw [allOrNothing_of_fail hadd]
    exact iff_of_true ⟨rfl,rfl⟩ (Or.inl hk)
  · by_cases hg : 1 ≤ fp.grouped.gid ∧ fp.grouped.gid ≤ groupNum
    · rcases createFpGroupId_cases hm hg ok (getFpKeyMode fp.grouped.keyMask) with
        ⟨hu,hn,hc⟩|⟨hu,hn,⟨hok,hc⟩|⟨hok,group,s0,hc,hsdk,hused,hcalls⟩⟩
      · exact allOrNothing_used hk hg hu hn hc
      · have hadd : setFieldAddEntry w ok fp s=(-1,fp.grouped,{s with calls := s.calls+1}) := by
          rw [addEntry_eq,if_neg hk,hc]
          exact if_pos (show (-1 : ℤ) < 0 by decide)
        rw [allOrNothing_of_fail hadd]
        exact iff_of_true ⟨rfl,rfl⟩ (Or.inr (Or.inr (Or.inr (Or.inl hok))))
      · exact allOrNothing_unused hm hk hg hu hn hok hc hsdk hused hcalls
    · have hno : fp.grouped.gid < 1 ∨ groupNum < fp.grouped.gid := by
        rw [not_and_or,not_le,not_le] at hg
        exact hg
      have hc : createFpGroupId ok fp.grouped.gid (getFpKeyMode fp.grouped.keyMask) s=(-1,s) := by
        unfold createFpGroupId
        exact if_pos (getGidPrio_eq_neg.mpr hno)
      have hadd : setFieldAddEntry w ok fp s=(-1,fp.grouped,s) := by
        rw [addEntry_eq,if_neg hk,hc]
        exact if_pos (show (-1 : ℤ) < 0 by decide)
      rw [allOrNothing_of_fail hadd]
      refine iff_of_true ⟨rfl,rfl⟩ (Or.inr ?_)
      rcases hno with hno|hno
      · exact Or.inl hno
      · exact Or.inr (Or.inl hno)

/-- An addition to an unused group and its removal when every SDK call succeeds. -/
theorem allOrNothing_succeeding :
    let ok : ℕ → Bool := fun _ => true
    Clear ok (protocolEntry 6 1 3) (fieldReady ok) ∧
      AllOrNothing countingSwitch ok (protocolEntry 6 1 3) (fieldReady ok) := by
  intro ok
  have hclear : Clear ok (protocolEntry 6 1 3) (fieldReady ok) := by
    have hunused : (fieldReady ok).groupUsed ((protocolEntry 6 1 3).grouped.gid-1)=0 := by decide
    refine Or.inr (Or.inr (Or.inr (Or.inr ⟨fun _ _ => rfl,fun h => h.1 hunused⟩)))
  exact ⟨hclear,(allOrNothing_iff (fieldReady_reached [] rfl) _).mpr hclear⟩

/-- The group is left behind when the entry is refused. -/
theorem addEntry_leaves_group :
    let ok : ℕ → Bool := fun n => n≠2
    Reached countingSwitch ok (fieldReady ok) ∧
      (setFieldAddEntry countingSwitch ok (protocolEntry 6 1 3) (fieldReady ok)).1=-1 ∧
      (fieldReady ok).groupUsed 2=0 ∧
      (setFieldAddEntry countingSwitch ok (protocolEntry 6 1 3) (fieldReady ok)).2.2.groupUsed 2=1 ∧
      ¬AllOrNothing countingSwitch ok (protocolEntry 6 1 3) (fieldReady ok) := by
  intro ok
  have hfail : (setFieldAddEntry countingSwitch ok (protocolEntry 6 1 3) (fieldReady ok)).1=-1 := by
    decide
  have hbefore : (fieldReady ok).groupUsed 2=0 := by decide
  have hafter : (setFieldAddEntry countingSwitch ok (protocolEntry 6 1 3)
      (fieldReady ok)).2.2.groupUsed 2=1 := by decide
  refine ⟨fieldReady_reached [] rfl,hfail,hbefore,hafter,fun h => ?_⟩
  have hsame := congrFun (h.1 hfail).2 2
  rw [hafter,hbefore] at hsame
  exact absurd hsame (by decide)

end StudyCode.FieldProcessor
