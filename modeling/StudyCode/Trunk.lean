import Mathlib.Tactic

/-!
# Trunk membership

The switch keeps a record for each trunk, whose first num_ports entries of the
array tp are its members. Adding ports appends them to the array; removing ports
rebuilds the array from a bitmap. The members are a set as long as no port is
added that the trunk has already.
-/

namespace StudyCode.Trunk

/-! ## trunk_add and trunk_remove -/

/-- The member record of a trunk. -/
structure TrunkAddInfo where
  /-- The number of the members. -/
  numPorts : ℕ
  /-- The members. -/
  tp : ℕ → ℕ
  /-- The modules of the members. -/
  tm : ℕ → ℕ
  /-- The selection criterion. -/
  psc : ℤ
  /-- The port for unknown unicast. -/
  dlfIndex : ℤ
  /-- The port for multicast. -/
  mcIndex : ℤ
  /-- The port for IP multicast. -/
  ipmcIndex : ℤ

/-- The argument of both calls. -/
structure IoctlTrunk where
  /-- The trunk. -/
  tid : ℤ
  /-- The selection criterion. -/
  rtag : ℤ
  /-- The bitmap of ports. -/
  pbmp : BitVec 32

/-- The records of the switch. -/
abbrev Store := ℤ → Option TrunkAddInfo

/-- BCM_TRUNK_UNSPEC_INDEX. -/
def trunkUnspecIndex : ℤ := -1

/-- The ports of a bitmap, in the order of SOC_PBMP_ITER. -/
def pbmpIter (pbmp : BitVec 32) : List ℕ := (List.range 32).filter fun i => pbmp.getLsbD i

/-- SOC_PBMP_PORT_ADD. -/
def pbmpPortAdd (pbmp : BitVec 32) (port : ℕ) : BitVec 32 := pbmp ||| 1#32 <<< port

/-- SOC_PBMP_REMOVE. -/
def pbmpRemove (pbmp rbmp : BitVec 32) : BitVec 32 := pbmp &&& ~~~rbmp

/-- The loop that writes some ports to an array from an index on: the index
after it and the array. -/
def putPorts : List ℕ → ℕ → (ℕ → ℕ) → ℕ × (ℕ → ℕ)
  | [],j,tp => (j,tp)
  | i::is,j,tp => putPorts is (j+1) (Function.update tp j i)

/-- The record that sal_memset clears. -/
def clearInfo : TrunkAddInfo := ⟨0,fun _ => 0,fun _ => 0,0,0,0,0⟩

/-- trunk_add: the records after it. -/
def trunkAdd (fp : IoctlTrunk) (store : Store) : Store :=
  match store fp.tid with
  | some info =>
    let r := putPorts (pbmpIter fp.pbmp) info.numPorts info.tp
    Function.update store fp.tid (some {info with
      tp := r.2
      numPorts := r.1})
  | none =>
    let r := putPorts (pbmpIter fp.pbmp) 0 clearInfo.tp
    Function.update store fp.tid (some {clearInfo with
      tp := r.2
      numPorts := r.1
      psc := fp.rtag
      dlfIndex := trunkUnspecIndex
      mcIndex := trunkUnspecIndex
      ipmcIndex := trunkUnspecIndex})

/-- The members of a record. -/
def TrunkAddInfo.members (info : TrunkAddInfo) : List ℕ := (List.range info.numPorts).map info.tp

/-- trunk_remove: the records after it. -/
def trunkRemove (fp : IoctlTrunk) (store : Store) : Store :=
  match store fp.tid with
  | none => store
  | some info =>
    let pbmp := pbmpRemove (info.members.foldl pbmpPortAdd 0#32) fp.pbmp
    let r := putPorts (pbmpIter pbmp) 0 info.tp
    let m := putPorts ((pbmpIter pbmp).map fun _ => 0) 0 info.tm
    if r.1≠0 then Function.update store fp.tid (some {info with
      tm := m.2
      tp := r.2
      numPorts := r.1})
    else Function.update store fp.tid none

/-- The calls. -/
inductive Call where
  /-- trunk_add. -/
  | add (fp : IoctlTrunk)
  /-- trunk_remove. -/
  | remove (fp : IoctlTrunk)

/-- The records after a call. -/
def Store.call (store : Store) : Call → Store
  | .add fp => trunkAdd fp store
  | .remove fp => trunkRemove fp store

/-- The records after some calls on a switch without trunks. -/
def storeAfter (calls : List Call) : Store := calls.foldl Store.call fun _ => none

/-! ## Sets of ports -/

/-- The set of each trunk that there is. -/
abbrev Members := ℤ → Option (Finset ℕ)

/-- The ports of a bitmap. -/
def ports (pbmp : BitVec 32) : Finset ℕ := (Finset.range 32).filter fun i => pbmp.getLsbD i=true

/-- The sets after a call: adding is union, removing is difference, and a trunk
goes away when a removal has emptied it. -/
def Members.call (m : Members) : Call → Members
  | .add fp => Function.update m fp.tid (some ((m fp.tid).getD ∅ ∪ ports fp.pbmp))
  | .remove fp =>
    match m fp.tid with
    | none => m
    | some s =>
      if s \ ports fp.pbmp=∅ then Function.update m fp.tid none
      else Function.update m fp.tid (some (s \ ports fp.pbmp))

/-- The sets after some calls. -/
def membersAfter (calls : List Call) : Members := calls.foldl Members.call fun _ => none

/-- The members of a record are a set. -/
def Agree (o : Option TrunkAddInfo) (s : Option (Finset ℕ)) : Prop :=
  match o,s with
  | none,none => True
  | some info,some s => info.members.Nodup ∧ info.members.toFinset=s
  | _,_ => False

/-- The records are the sets. -/
def Agrees (store : Store) (m : Members) : Prop := ∀ tid,Agree (store tid) (m tid)

/-- No port is added that the trunk has already. -/
def Clear (m : Members) : Call → Prop
  | .add fp => Disjoint ((m fp.tid).getD ∅) (ports fp.pbmp)
  | .remove _ => True

/-! ## The loops -/

/-- The ports are counted. -/
theorem putPorts_fst (is : List ℕ) (j : ℕ) (tp : ℕ → ℕ) : (putPorts is j tp).1=j+is.length := by
  induction is generalizing j tp with
  | nil => rfl
  | cons i is ih => rw [putPorts,ih,List.length_cons,Nat.add_assoc,Nat.add_comm 1]

/-- The loop appends the ports. -/
theorem putPorts_members (is : List ℕ) (j : ℕ) (tp : ℕ → ℕ) :
    (List.range (putPorts is j tp).1).map (putPorts is j tp).2=(List.range j).map tp++is := by
  induction is generalizing j tp with
  | nil => exact (List.append_nil _).symm
  | cons i is ih =>
    rw [putPorts,ih (j+1),List.range_succ,List.map_append,List.map_singleton,Function.update_self,
      List.append_assoc,List.singleton_append]
    refine congrArg (· ++ i::is) (List.map_congr_left fun k hk => ?_)
    exact Function.update_of_ne (List.mem_range.mp hk).ne _ _

/-- No port comes twice. -/
theorem nodup_pbmpIter (pbmp : BitVec 32) : (pbmpIter pbmp).Nodup := List.nodup_range.filter _

/-- The loop visits the ports of the bitmap. -/
theorem toFinset_pbmpIter (pbmp : BitVec 32) : (pbmpIter pbmp).toFinset=ports pbmp := by
  ext i
  simp [pbmpIter,ports]

/-- Adding a port sets its bit. -/
theorem getLsbD_portAdd {i port : ℕ} (pbmp : BitVec 32) (hi : i < 32) :
    (pbmpPortAdd pbmp port).getLsbD i=(pbmp.getLsbD i || decide (i=port)) := by
  unfold pbmpPortAdd
  rw [BitVec.getLsbD_or,BitVec.getLsbD_shiftLeft,BitVec.getLsbD_one]
  refine congrArg (pbmp.getLsbD i || ·) ?_
  rw [Bool.eq_iff_iff]
  simp only [Bool.and_eq_true,Bool.not_eq_true',decide_eq_true_iff,decide_eq_false_iff_not]
  omega

/-- Adding some ports sets their bits. -/
theorem getLsbD_foldl {i : ℕ} (is : List ℕ) (pbmp : BitVec 32) (hi : i < 32) :
    (is.foldl pbmpPortAdd pbmp).getLsbD i=true ↔ pbmp.getLsbD i=true ∨ i ∈ is := by
  induction is generalizing pbmp with
  | nil => simp
  | cons port is ih =>
    rw [List.foldl_cons,ih,getLsbD_portAdd pbmp hi,Bool.or_eq_true,decide_eq_true_iff,List.mem_cons,
      or_assoc]

/-- The bitmap that is left of the members. -/
theorem ports_left {is : List ℕ} (h : ∀ i ∈ is,i < 32) (pbmp : BitVec 32) :
    ports (pbmpRemove (is.foldl pbmpPortAdd 0#32) pbmp)=is.toFinset \ ports pbmp := by
  ext i
  simp only [ports,pbmpRemove,Finset.mem_filter,Finset.mem_range,Finset.mem_sdiff,List.mem_toFinset,
    BitVec.getLsbD_and,BitVec.getLsbD_not,Bool.and_eq_true,decide_eq_true_iff,Bool.not_eq_true']
  constructor
  · rintro ⟨hi,h1,-,h2⟩
    rw [getLsbD_foldl is _ hi,BitVec.getLsbD_zero] at h1
    refine ⟨h1.resolve_left Bool.false_ne_true,fun h3 => ?_⟩
    rw [h2] at h3
    exact Bool.false_ne_true h3.2
  · rintro ⟨h1,h2⟩
    have hi := h i h1
    refine ⟨hi,(getLsbD_foldl is _ hi).mpr (Or.inr h1),hi,?_⟩
    exact Bool.eq_false_iff.mpr fun h3 => h2 ⟨hi,h3⟩

/-! ## Calls -/

/-- A new trunk gets the ports. -/
theorem trunkAdd_none {fp : IoctlTrunk} {store : Store} (h : store fp.tid=none) :
    ∃ info,trunkAdd fp store=Function.update store fp.tid (some info) ∧
      info.members=pbmpIter fp.pbmp := by
  unfold trunkAdd
  rw [h]
  exact ⟨_,rfl,putPorts_members _ _ _⟩

/-- A trunk gets the ports behind its own. -/
theorem trunkAdd_some {fp : IoctlTrunk} {store : Store} {info : TrunkAddInfo}
    (h : store fp.tid=some info) :
    ∃ info1,trunkAdd fp store=Function.update store fp.tid (some info1) ∧
      info1.members=info.members++pbmpIter fp.pbmp := by
  unfold trunkAdd
  rw [h]
  exact ⟨_,rfl,putPorts_members _ _ _⟩

/-- Removing from a trunk that is not there. -/
theorem trunkRemove_none {fp : IoctlTrunk} {store : Store} (h : store fp.tid=none) :
    trunkRemove fp store=store := by
  unfold trunkRemove
  rw [h]

/-- The bitmap that trunk_remove leaves. -/
def leftover (info : TrunkAddInfo) (rbmp : BitVec 32) : BitVec 32 :=
  pbmpRemove (info.members.foldl pbmpPortAdd 0#32) rbmp

/-- Removing leaves the other ports, or no trunk. -/
theorem trunkRemove_some {fp : IoctlTrunk} {store : Store} {info : TrunkAddInfo}
    (h : store fp.tid=some info) :
    ∃ info1,trunkRemove fp store=
        (if (pbmpIter (leftover info fp.pbmp)).length≠0 then
          Function.update store fp.tid (some info1) else Function.update store fp.tid none) ∧
      info1.members=pbmpIter (leftover info fp.pbmp) := by
  unfold trunkRemove
  rw [h]
  dsimp only
  have hlen : (putPorts (pbmpIter (leftover info fp.pbmp)) 0 info.tp).1=
      (pbmpIter (leftover info fp.pbmp)).length := by
    rw [putPorts_fst,Nat.zero_add]
  rw [←hlen]
  exact ⟨_,rfl,putPorts_members _ _ _⟩

/-- Nothing is removed from no trunk. -/
theorem remove_none {fp : IoctlTrunk} {m : Members} (h : m fp.tid=none) :
    m.call (.remove fp)=m := by
  simp only [Members.call,h]

/-- A trunk without ports is gone. -/
theorem remove_some {fp : IoctlTrunk} {m : Members} {s : Finset ℕ} (h : m fp.tid=some s) :
    m.call (.remove fp)=if s \ ports fp.pbmp=∅ then Function.update m fp.tid none
      else Function.update m fp.tid (some (s \ ports fp.pbmp)) := by
  simp only [Members.call,h]

/-- The ports of a trunk fit into a bitmap. -/
def Bounded (m : Members) : Prop := ∀ tid s,m tid=some s → ∀ i ∈ s,i < 32

/-- Every call keeps the ports below 32. -/
theorem Bounded.call {m : Members} (h : Bounded m) (c : Call) : Bounded (m.call c) := by
  have hports : ∀ pbmp,∀ i ∈ ports pbmp,i < 32 := fun pbmp i hi =>
    Finset.mem_range.mp (Finset.mem_filter.mp hi).1
  intro tid s hs i hi
  cases c with
  | add fp =>
    by_cases ht : tid=fp.tid
    · rw [Members.call,ht,Function.update_self] at hs
      cases hs
      rcases Finset.mem_union.mp hi with hi|hi
      · cases hm : m fp.tid with
        | none =>
          rw [hm] at hi
          exact absurd hi (Finset.notMem_empty i)
        | some s =>
          rw [hm] at hi
          exact h fp.tid s hm i hi
      · exact hports _ i hi
    · rw [Members.call,Function.update_of_ne ht] at hs
      exact h tid s hs i hi
  | remove fp =>
    cases hm : m fp.tid with
    | none =>
      rw [remove_none hm] at hs
      exact h tid s hs i hi
    | some s0 =>
      rw [remove_some hm] at hs
      by_cases ht : tid=fp.tid
      · subst ht
        split at hs
        · rw [Function.update_self] at hs
          cases hs
        · rw [Function.update_self] at hs
          cases hs
          exact h fp.tid s0 hm i (Finset.mem_sdiff.mp hi).1
      · split at hs
        · rw [Function.update_of_ne ht] at hs
          exact h tid s hs i hi
        · rw [Function.update_of_ne ht] at hs
          exact h tid s hs i hi

/-- Agreement is kept trunk by trunk. -/
theorem Agrees.update {store : Store} {m : Members} (h : Agrees store m) (tid : ℤ)
    {o : Option TrunkAddInfo} {s : Option (Finset ℕ)} :
    Agrees (Function.update store tid o) (Function.update m tid s) ↔ Agree o s := by
  constructor
  · intro h2
    have h3 := h2 tid
    rwa [Function.update_self,Function.update_self] at h3
  · intro h2 k
    by_cases hk : k=tid
    · rw [hk,Function.update_self,Function.update_self]
      exact h2
    · rw [Function.update_of_ne hk,Function.update_of_ne hk]
      exact h k

/-- The members after ports were appended are a set exactly when none of them
was there. -/
theorem append_agree {is : List ℕ} {s : Finset ℕ} (hn : is.Nodup) (hs : is.toFinset=s)
    (pbmp : BitVec 32) :
    ((is++pbmpIter pbmp).Nodup ∧ (is++pbmpIter pbmp).toFinset=s ∪ ports pbmp) ↔
      Disjoint s (ports pbmp) := by
  rw [List.toFinset_append,hs,toFinset_pbmpIter,List.nodup_append',←hs,←toFinset_pbmpIter,
    List.disjoint_toFinset_iff_disjoint]
  constructor
  · exact fun h => h.1.2.2
  · exact fun h => ⟨⟨hn,nodup_pbmpIter pbmp,h⟩,rfl⟩

/-- The members agree when they are the set, each once. -/
theorem Agree.members {info : TrunkAddInfo} {s : Finset ℕ} {is : List ℕ} (h : info.members=is) :
    Agree (some info) (some s) ↔ is.Nodup ∧ is.toFinset=s := by
  rw [←h]
  rfl

/-- Adding keeps the agreement exactly when the ports are new. -/
theorem Agrees.add_iff {store : Store} {m : Members} (h : Agrees store m) (fp : IoctlTrunk) :
    Agrees (trunkAdd fp store) (m.call (.add fp)) ↔
      Disjoint ((m fp.tid).getD ∅) (ports fp.pbmp) := by
  have hat := h fp.tid
  have hcall : m.call (.add fp)=
      Function.update m fp.tid (some ((m fp.tid).getD ∅ ∪ ports fp.pbmp)) := rfl
  rw [hcall]
  cases ho : store fp.tid with
  | none =>
    cases hm : m fp.tid with
    | some s =>
      rw [ho,hm] at hat
      exact absurd hat id
    | none =>
      obtain ⟨info,hadd,hmem⟩ := trunkAdd_none ho
      rw [hadd,h.update,Agree.members hmem]
      exact append_agree List.nodup_nil rfl fp.pbmp
  | some info =>
    cases hm : m fp.tid with
    | none =>
      rw [ho,hm] at hat
      exact absurd hat id
    | some s =>
      rw [ho,hm] at hat
      obtain ⟨info1,hadd,hmem⟩ := trunkAdd_some ho
      rw [hadd,h.update,Agree.members hmem]
      exact append_agree hat.1 hat.2 fp.pbmp

/-- Removing keeps the agreement. -/
theorem Agrees.remove {store : Store} {m : Members} (h : Agrees store m) (hb : Bounded m)
    (fp : IoctlTrunk) : Agrees (trunkRemove fp store) (m.call (.remove fp)) := by
  have hat := h fp.tid
  cases ho : store fp.tid with
  | none =>
    cases hm : m fp.tid with
    | none =>
      rw [trunkRemove_none ho,remove_none hm]
      exact h
    | some s =>
      rw [ho,hm] at hat
      exact absurd hat id
  | some info =>
    cases hm : m fp.tid with
    | none =>
      rw [ho,hm] at hat
      exact absurd hat id
    | some s =>
      rw [ho,hm] at hat
      have hlt : ∀ i ∈ info.members,i < 32 := fun i hi =>
        hb fp.tid s hm i (hat.2 ▸ List.mem_toFinset.mpr hi)
      have hleft : ports (leftover info fp.pbmp)=s \ ports fp.pbmp := by
        rw [←hat.2]
        exact ports_left hlt fp.pbmp
      obtain ⟨info1,hrem,hmem⟩ := trunkRemove_some ho
      rw [hrem,remove_some hm,←hleft]
      by_cases hz : ports (leftover info fp.pbmp)=∅
      · have hnil : pbmpIter (leftover info fp.pbmp)=[] := by
          rw [←toFinset_pbmpIter,List.toFinset_eq_empty_iff] at hz
          exact hz
        have hlen : ¬(pbmpIter (leftover info fp.pbmp)).length≠0 := by
          rw [hnil]
          decide
        rw [if_pos hz,if_neg hlen,h.update]
        trivial
      · have hlen : (pbmpIter (leftover info fp.pbmp)).length≠0 := by
          intro hlen
          rw [←toFinset_pbmpIter,List.length_eq_zero_iff.mp hlen] at hz
          exact hz rfl
        rw [if_neg hz,if_pos hlen,h.update,Agree.members hmem]
        exact ⟨nodup_pbmpIter _,toFinset_pbmpIter _⟩

/-- One call keeps the members a set exactly when no port is added that the
trunk has already. -/
theorem Agrees.call_iff {store : Store} {m : Members} (h : Agrees store m) (hb : Bounded m)
    (c : Call) : Agrees (store.call c) (m.call c) ↔ Clear m c := by
  cases c with
  | add fp => exact h.add_iff fp
  | remove fp => exact iff_of_true (h.remove hb fp) trivial

/-! ## Runs -/

/-- The calls of a run are clear, each in the sets before it. -/
def ClearRun : Members → List Call → Prop
  | _,[] => True
  | m,c::calls => Clear m c ∧ ClearRun (m.call c) calls

/-- A run keeps the agreement exactly when it is clear. -/
theorem agrees_run_iff {store : Store} {m : Members} (h : Agrees store m) (hb : Bounded m)
    (calls : List Call) :
    (∀ p,p <+: calls → Agrees (p.foldl Store.call store) (p.foldl Members.call m)) ↔
      ClearRun m calls := by
  induction calls generalizing store m with
  | nil =>
    refine iff_of_true (fun p hp => ?_) trivial
    rw [List.prefix_nil.mp hp]
    exact h
  | cons c calls ih =>
    constructor
    · intro hall
      have h1 : Agrees (store.call c) (m.call c) := hall [c] ⟨calls,rfl⟩
      refine ⟨(h.call_iff hb c).mp h1,(ih h1 (hb.call c)).mp fun p hp => ?_⟩
      exact hall (c::p) (List.prefix_cons_inj c |>.mpr hp)
    · rintro ⟨hc,hrest⟩ p hp
      have h1 := (h.call_iff hb c).mpr hc
      rcases List.prefix_cons_iff.mp hp with rfl|⟨q,rfl,hq⟩
      · exact h
      · exact (ih h1 (hb.call c)).mpr hrest q hq

/-- After every call of a run the members of each trunk are the set that union
and difference give, exactly when no call adds a port that the trunk has
already. -/
theorem membership_iff (calls : List Call) :
    (∀ p,p <+: calls → Agrees (storeAfter p) (membersAfter p)) ↔
      ClearRun (fun _ => none) calls := by
  have hagree : Agrees (fun _ => none) (fun _ => none) := fun _ => trivial
  have hbounded : Bounded (fun _ => none) := fun _ _ hs => absurd hs (by simp)
  exact agrees_run_iff hagree hbounded calls

/-- The port 1 is added twice. -/
theorem membership_repeated :
    ¬∀ p,p <+: [.add ⟨0,0,0b10#32⟩,.add ⟨0,0,0b10#32⟩] → Agrees (storeAfter p) (membersAfter p) := by
  intro h
  have hlast := h _ List.prefix_rfl 0
  have hnodup : ¬([1,1] : List ℕ).Nodup := by decide
  exact hnodup hlast.1

end StudyCode.Trunk
