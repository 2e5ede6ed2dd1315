import Mathlib.Tactic

/-!
# The re-entrant lock

A lock is an owner, a reference count and a plain mutex. Threads run the calls
of the lock by steps: each read and each write of the owner or of the count, and
each call on the mutex, is one step, and the steps of the threads are
interleaved in any order. A call begins with its first step, the read of the
owner.
-/

namespace StudyCode.Locker

/-- The return values. -/
inductive CommValue where
  | ok
  | nomem
  | stop
  | invalidParams
  | fail
  deriving DecidableEq

/-- Where a thread is inside of a call. -/
inductive Pc where
  /-- Outside of the calls. -/
  | idle
  /-- locker_loop_lock before real_lock. -/
  | lockWait
  /-- locker_loop_lock before the count is set to one. -/
  | lockCount
  /-- locker_loop_lock before the owner is set. -/
  | lockOwner
  /-- locker_loop_lock of the owner before the count is read. -/
  | lockRead
  /-- locker_loop_lock of the owner before the count is written. -/
  | lockWrite (refcount : ℤ)
  /-- locker_loop_unlock before the count is read. -/
  | unlockRead
  /-- locker_loop_unlock before the count is written. -/
  | unlockWrite (refcount : ℤ)
  /-- locker_loop_unlock before the count is compared. -/
  | unlockTest
  /-- locker_loop_unlock before the owner is cleared. -/
  | unlockOwner
  /-- locker_loop_unlock before real_unlock. -/
  | unlockReal
  deriving DecidableEq

/-- A thread. -/
structure Thread where
  /-- Where it is. -/
  pc : Pc
  /-- The number of its lock calls that have returned. -/
  returned : ℕ
  /-- The number of its successful unlock calls that have begun. -/
  begun : ℕ
  /-- What its last call returned. -/
  ret : Option CommValue

/-- The lock calls that have returned and whose unlock calls have not begun. -/
def Thread.nesting (th : Thread) : ℤ := th.returned-th.begun

/-- A value of the type int. -/
def int32 (x : ℤ) : ℤ := x.bmod (2^32)

/-- The lock and its threads. -/
structure State (T : Type) where
  /-- The owner. -/
  owner : ℤ
  /-- The reference count. -/
  refcount : ℤ
  /-- The thread that has the mutex. -/
  mutex : Option T
  /-- The threads. -/
  threads : T → Thread

/-- locker_loop_create. -/
def State.create (T : Type) : State T := ⟨0,0,none,fun _ => ⟨.idle,0,0,none⟩⟩

section Steps

variable {T : Type} [DecidableEq T] (taskSelf : T → ℤ)

/-- A thread goes on to another place. -/
def State.goto (s : State T) (t : T) (pc : Pc) : State T :=
  {s with threads := Function.update s.threads t {s.threads t with pc := pc}}

/-- A call returns. -/
def State.return (s : State T) (t : T) (v : CommValue) : State T :=
  {s with threads := Function.update s.threads t {s.threads t with
    pc := .idle
    ret := some v}}

/-- A lock call returns. -/
def State.returnLock (s : State T) (t : T) : State T :=
  {s with threads := Function.update s.threads t {s.threads t with
    pc := .idle
    returned := (s.threads t).returned+1
    ret := some .ok}}

/-- The first step of locker_loop_lock. -/
def State.lock (s : State T) (t : T) : State T :=
  if s.owner=taskSelf t then s.goto t .lockRead else s.goto t .lockWait

/-- The first step of locker_loop_unlock. -/
def State.unlock (s : State T) (t : T) : State T :=
  if s.owner=taskSelf t then
    {s with threads := Function.update s.threads t {s.threads t with
      pc := .unlockRead
      begun := (s.threads t).begun+1}}
  else s.return t .fail

/-- The next step of a thread inside of a call. -/
def State.proceed (s : State T) (t : T) : Option (State T) :=
  match (s.threads t).pc with
  | .idle => none
  | .lockWait =>
    if s.mutex=none then some (State.goto {s with mutex := some t} t .lockCount) else none
  | .lockCount => some (State.goto {s with refcount := 1} t .lockOwner)
  | .lockOwner => some (State.returnLock {s with owner := taskSelf t} t)
  | .lockRead => some (s.goto t (.lockWrite s.refcount))
  | .lockWrite r => some (State.returnLock {s with refcount := int32 (r+1)} t)
  | .unlockRead => some (s.goto t (.unlockWrite s.refcount))
  | .unlockWrite r => some (State.goto {s with refcount := int32 (r-1)} t .unlockTest)
  | .unlockTest => if s.refcount=0 then some (s.goto t .unlockOwner) else some (s.return t .ok)
  | .unlockOwner => some (State.goto {s with owner := 0} t .unlockReal)
  | .unlockReal => some (State.return {s with mutex := none} t .ok)

/-- The steps of all threads. A thread nests its lock calls less than 2^31
times. -/
inductive Step : State T → State T → Prop
  /-- A lock call begins. -/
  | lock (s : State T) (t : T) (h : (s.threads t).pc=.idle)
      (hn : (s.threads t).nesting+1 < 2^31) : Step s (s.lock taskSelf t)
  /-- An unlock call begins. -/
  | unlock (s : State T) (t : T) (h : (s.threads t).pc=.idle) : Step s (s.unlock taskSelf t)
  /-- A call goes on. -/
  | proceed (s s1 : State T) (t : T) (h : s.proceed taskSelf t=some s1) : Step s s1

/-- The states that are reached from locker_loop_create. -/
def Reached (s : State T) : Prop := Relation.ReflTransGen (Step taskSelf) (State.create T) s

end Steps

/-! ## The invariant -/

section Invariant

variable {T : Type} [DecidableEq T] {taskSelf : T → ℤ} {s : State T} {t : T}

/-- What holds of the thread that has the mutex. -/
def Holding (owner refcount self : ℤ) (th : Thread) : Prop :=
  match th.pc with
  | .idle => 0 < th.nesting ∧ owner=self ∧ refcount=th.nesting
  | .lockWait => False
  | .lockCount => th.nesting=0 ∧ owner=0
  | .lockOwner => th.nesting=0 ∧ owner=0 ∧ refcount=1
  | .lockRead => 0 < th.nesting ∧ owner=self ∧ refcount=th.nesting ∧ th.nesting+1 < 2^31
  | .lockWrite r =>
    0 < th.nesting ∧ owner=self ∧ refcount=th.nesting ∧ r=th.nesting ∧ th.nesting+1 < 2^31
  | .unlockRead => 0 ≤ th.nesting ∧ owner=self ∧ refcount=th.nesting+1
  | .unlockWrite r => 0 ≤ th.nesting ∧ owner=self ∧ refcount=th.nesting+1 ∧ r=th.nesting+1
  | .unlockTest => 0 ≤ th.nesting ∧ owner=self ∧ refcount=th.nesting
  | .unlockOwner => th.nesting=0 ∧ owner=self ∧ refcount=0
  | .unlockReal => th.nesting=0 ∧ owner=0 ∧ refcount=0

/-- What holds of the other threads. -/
def Outside (th : Thread) : Prop := (th.pc=.idle ∨ th.pc=.lockWait) ∧ th.nesting=0

/-- The invariant of the lock. -/
structure Inv (taskSelf : T → ℤ) (s : State T) : Prop where
  /-- A free lock. -/
  free : s.mutex=none → s.owner=0 ∧ s.refcount=0
  /-- The thread that has the mutex. -/
  holder : ∀ t,s.mutex=some t → Holding s.owner s.refcount (taskSelf t) (s.threads t)
  /-- The other threads. -/
  other : ∀ t,s.mutex≠some t → Outside (s.threads t)
  /-- The nesting. -/
  bound : ∀ t,(s.threads t).nesting < 2^31

omit [DecidableEq T] in
/-- A new lock keeps the invariant. -/
theorem inv_create : Inv taskSelf (State.create T) := by
  constructor
  · exact fun _ => ⟨rfl,rfl⟩
  · intro t h
    cases h
  · exact fun _ _ => ⟨Or.inl rfl,rfl⟩
  · intro t
    show (0 : ℤ)-0 < 2^31
    norm_num

/-- A small number is an int. -/
theorem int32_eq {x : ℤ} (h1 : 0 ≤ x) (h2 : x < 2^31) : int32 x=x := by
  unfold int32
  rw [Int.bmod_def]
  omega

/-- Counts stay ints. -/
theorem Inv.bound_update (h : Inv taskSelf s) {th : Thread} (hb : th.nesting < 2^31) (u : T) :
    (Function.update s.threads t th u).nesting < 2^31 :=
  (Function.forall_update_iff s.threads fun _ th => th.nesting < 2^31).mpr
    ⟨hb,fun u _ => h.bound u⟩ u

omit [DecidableEq T] in
/-- A thread outside has locked nothing. -/
theorem Outside.bound {th : Thread} (ho : Outside th) : th.nesting < 2^31 := by
  rw [ho.2]
  norm_num

/-- The thread that has the mutex, or takes it, does a step. -/
theorem Inv.hold (h : Inv taskSelf s) (hm : s.mutex=none ∨ s.mutex=some t) {owner refcount : ℤ}
    {th : Thread} (hh : Holding owner refcount (taskSelf t) th) (hb : th.nesting < 2^31) :
    Inv taskSelf ⟨owner,refcount,some t,Function.update s.threads t th⟩ := by
  constructor
  · intro h2
    cases h2
  · intro u hu
    obtain rfl : t=u := Option.some.inj hu
    show Holding owner refcount (taskSelf t) (Function.update s.threads t th t)
    rw [Function.update_self]
    exact hh
  · intro u hu
    have hne : u≠t := fun hut => hu (congrArg some hut.symm)
    show Outside (Function.update s.threads t th u)
    rw [Function.update_of_ne hne]
    refine h.other u ?_
    rcases hm with hm|hm
    · rw [hm]
      exact (Option.some_ne_none u).symm
    · rw [hm]
      exact hu
  · exact h.bound_update hb

/-- The thread that has the mutex gives it back. -/
theorem Inv.release (h : Inv taskSelf s) (hm : s.mutex=some t) {th : Thread} (ho : Outside th)
    (hown : s.owner=0) (href : s.refcount=0) :
    Inv taskSelf ⟨s.owner,s.refcount,none,Function.update s.threads t th⟩ := by
  have hothers : ∀ u,u≠t → Outside (s.threads u) := by
    intro u hut
    refine h.other u ?_
    rw [hm]
    exact fun h2 => hut (Option.some.inj h2).symm
  constructor
  · exact fun _ => ⟨hown,href⟩
  · intro u hu
    cases hu
  · exact fun u _ => (Function.forall_update_iff s.threads fun _ th => Outside th).mpr ⟨ho,hothers⟩ u
  · exact h.bound_update ho.bound

/-- A thread that does not have the mutex does a step. -/
theorem Inv.wait (h : Inv taskSelf s) (hm : s.mutex≠some t) {th : Thread} (ho : Outside th) :
    Inv taskSelf {s with threads := Function.update s.threads t th} := by
  constructor
  · exact h.free
  · intro u hu
    have hne : u≠t := by
      rintro rfl
      exact hm hu
    show Holding s.owner s.refcount (taskSelf u) (Function.update s.threads t th u)
    rw [Function.update_of_ne hne]
    exact h.holder u hu
  · exact (Function.forall_update_iff s.threads fun u th => s.mutex≠some u → Outside th).mpr
      ⟨fun _ => ho,fun u _ => h.other u⟩
  · exact h.bound_update ho.bound

omit [DecidableEq T] in
/-- A thread that holds the mutex is the owner, or there is none. -/
theorem Holding.owner {owner refcount self : ℤ} {th : Thread} (h : Holding owner refcount self th) :
    owner=0 ∨ owner=self := by
  unfold Holding at h
  split at h
  · exact Or.inr h.2.1
  · exact h.elim
  · exact Or.inl h.2
  · exact Or.inl h.2.1
  · exact Or.inr h.2.1
  · exact Or.inr h.2.1
  · exact Or.inr h.2.1
  · exact Or.inr h.2.1
  · exact Or.inr h.2.1
  · exact Or.inr h.2.1
  · exact Or.inl h.2.1

omit [DecidableEq T] in
/-- Only the thread that has the mutex finds itself as the owner. -/
theorem Inv.owner_ne (h : Inv taskSelf s) (hinj : Function.Injective taskSelf)
    (hzero : ∀ t,taskSelf t≠0) (hm : s.mutex≠some t) : s.owner≠taskSelf t := by
  intro ho
  cases hu : s.mutex with
  | none => exact hzero t (ho.symm.trans (h.free hu).1)
  | some u =>
    rcases (h.holder u hu).owner with h2|h2
    · exact hzero t (ho.symm.trans h2)
    · have htu : t=u := hinj (ho.symm.trans h2)
      exact hm (htu ▸ hu)

/-! ## Steps -/

/-- A call of lock keeps the invariant. -/
theorem Inv.lock (h : Inv taskSelf s) (hinj : Function.Injective taskSelf)
    (hzero : ∀ t,taskSelf t≠0) (hpc : (s.threads t).pc=.idle)
    (hn : (s.threads t).nesting+1 < 2^31) : Inv taskSelf (s.lock taskSelf t) := by
  unfold State.lock
  by_cases hm : s.mutex=some t
  · have hh := h.holder t hm
    unfold Holding at hh
    rw [hpc] at hh
    obtain ⟨h1,h2,h3⟩ := hh
    rw [if_pos h2]
    unfold State.goto
    rw [hm]
    exact h.hold (Or.inr hm) ⟨h1,h2,h3,hn⟩ (h.bound t)
  · rw [if_neg (h.owner_ne hinj hzero hm)]
    exact h.wait hm ⟨Or.inr rfl,(h.other t hm).2⟩

/-- A call of unlock keeps the invariant. -/
theorem Inv.unlock (h : Inv taskSelf s) (hinj : Function.Injective taskSelf)
    (hzero : ∀ t,taskSelf t≠0) (hpc : (s.threads t).pc=.idle) :
    Inv taskSelf (s.unlock taskSelf t) := by
  unfold State.unlock
  by_cases hm : s.mutex=some t
  · have hh := h.holder t hm
    have hb := h.bound t
    unfold Holding at hh
    rw [hpc] at hh
    obtain ⟨h1,h2,h3⟩ := hh
    rw [if_pos h2,hm]
    unfold Thread.nesting at h1 h3 hb
    refine h.hold (Or.inr hm) ⟨?_,h2,?_⟩ ?_
    · unfold Thread.nesting
      push_cast
      omega
    · unfold Thread.nesting
      push_cast
      omega
    · unfold Thread.nesting
      push_cast
      omega
  · rw [if_neg (h.owner_ne hinj hzero hm)]
    exact h.wait hm ⟨Or.inl rfl,(h.other t hm).2⟩

/-- A step of a thread that does not have the mutex: it takes it. -/
theorem Inv.proceed_outside {s1 : State T} (h : Inv taskSelf s) (hm : s.mutex≠some t)
    (hs : s.proceed taskSelf t=some s1) : Inv taskSelf s1 := by
  obtain ⟨hpc,hn⟩ := h.other t hm
  unfold State.proceed at hs
  rcases hpc with hpc|hpc
  · rw [hpc] at hs
    cases hs
  · rw [hpc] at hs
    dsimp only at hs
    split at hs
    · rename_i hfree
      cases hs
      exact h.hold (Or.inl hfree) ⟨hn,(h.free hfree).1⟩ (h.bound t)
    · cases hs

/-- A lock call that returns is one more. -/
theorem Thread.nesting_returned (th : Thread) :
    Thread.nesting ⟨.idle,th.returned+1,th.begun,some .ok⟩=th.nesting+1 := by
  unfold Thread.nesting
  push_cast
  ring

/-- A step of the thread that has the mutex. -/
theorem Inv.proceed_holder {s1 : State T} (h : Inv taskSelf s) (hm : s.mutex=some t)
    (hs : s.proceed taskSelf t=some s1) : Inv taskSelf s1 := by
  have hh := h.holder t hm
  have hb := h.bound t
  unfold State.proceed at hs
  unfold Holding at hh
  cases hpc : (s.threads t).pc with
  | idle =>
    rw [hpc] at hs
    cases hs
  | lockWait =>
    rw [hpc] at hh
    exact hh.elim
  | lockCount =>
    rw [hpc] at hs hh
    cases hs
    unfold State.goto
    rw [hm]
    exact h.hold (Or.inr hm) ⟨hh.1,hh.2,rfl⟩ hb
  | lockOwner =>
    rw [hpc] at hs hh
    cases hs
    unfold State.returnLock
    rw [hm]
    obtain ⟨h1,h2,h3⟩ := hh
    have hn := (s.threads t).nesting_returned
    refine h.hold (Or.inr hm) ⟨?_,rfl,?_⟩ ?_
    · rw [hn,h1]
      norm_num
    · rw [hn,h1,h3]
      norm_num
    · rw [hn,h1]
      norm_num
  | lockRead =>
    rw [hpc] at hs hh
    cases hs
    unfold State.goto
    rw [hm]
    obtain ⟨h1,h2,h3,h4⟩ := hh
    exact h.hold (Or.inr hm) ⟨h1,h2,h3,h3,h4⟩ hb
  | lockWrite r =>
    rw [hpc] at hs hh
    cases hs
    unfold State.returnLock
    rw [hm]
    obtain ⟨h1,h2,h3,h4,h5⟩ := hh
    have hn := (s.threads t).nesting_returned
    refine h.hold (Or.inr hm) ⟨?_,h2,?_⟩ ?_
    · rw [hn]
      omega
    · rw [hn,h4]
      exact int32_eq (by omega) h5
    · rw [hn]
      exact h5
  | unlockRead =>
    rw [hpc] at hs hh
    cases hs
    unfold State.goto
    rw [hm]
    obtain ⟨h1,h2,h3⟩ := hh
    exact h.hold (Or.inr hm) ⟨h1,h2,h3,h3⟩ hb
  | unlockWrite r =>
    rw [hpc] at hs hh
    cases hs
    unfold State.goto
    rw [hm]
    obtain ⟨h1,h2,h3,h4⟩ := hh
    refine h.hold (Or.inr hm) ⟨h1,h2,?_⟩ hb
    rw [h4,add_sub_cancel_right]
    exact int32_eq h1 hb
  | unlockTest =>
    rw [hpc] at hs hh
    obtain ⟨h1,h2,h3⟩ := hh
    dsimp only at hs
    split at hs
    · rename_i hz
      cases hs
      unfold State.goto
      rw [hm]
      exact h.hold (Or.inr hm) ⟨h3.symm.trans hz,h2,hz⟩ hb
    · rename_i hz
      cases hs
      unfold State.return
      rw [hm]
      refine h.hold (Or.inr hm) ⟨?_,h2,h3⟩ hb
      show 0 < (s.threads t).nesting
      omega
  | unlockOwner =>
    rw [hpc] at hs hh
    cases hs
    unfold State.goto
    rw [hm]
    exact h.hold (Or.inr hm) ⟨hh.1,rfl,hh.2.2⟩ hb
  | unlockReal =>
    rw [hpc] at hs hh
    cases hs
    exact h.release hm ⟨Or.inl rfl,hh.1⟩ hh.2.1 hh.2.2

/-- Every step keeps the invariant when the threads are told apart and none is
taken for nobody. -/
theorem Inv.step {s1 : State T} (h : Inv taskSelf s) (hinj : Function.Injective taskSelf)
    (hzero : ∀ t,taskSelf t≠0) (hs : Step taskSelf s s1) : Inv taskSelf s1 := by
  cases hs with
  | lock t hpc hn => exact h.lock hinj hzero hpc hn
  | unlock t hpc => exact h.unlock hinj hzero hpc
  | proceed _ t hp =>
    by_cases hm : s.mutex=some t
    · exact h.proceed_holder hm hp
    · exact h.proceed_outside hm hp

/-- The invariant holds in every state that is reached. -/
theorem Reached.inv (hinj : Function.Injective taskSelf) (hzero : ∀ t,taskSelf t≠0)
    (h : Reached taskSelf s) : Inv taskSelf s := by
  induction h with
  | refl => exact inv_create
  | tail _ hstep ih => exact ih.step hinj hzero hstep

/-! ## Mutual exclusion -/

/-- A thread is between a lock call that has returned and the unlock call that
belongs to it. -/
def Thread.Inside (th : Thread) : Prop := th.begun < th.returned

omit [DecidableEq T] in
/-- A thread is inside when it has locked more often than unlocked. -/
theorem inside_iff {th : Thread} : th.Inside ↔ 0 < th.nesting := by
  unfold Thread.Inside Thread.nesting
  omega

omit [DecidableEq T] in
/-- A thread inside holds the mutex. -/
theorem Inv.mutex_of_inside (h : Inv taskSelf s) (hi : (s.threads t).Inside) : s.mutex=some t := by
  by_contra hm
  have hz := (h.other t hm).2
  rw [inside_iff,hz] at hi
  exact lt_irrefl _ hi

omit [DecidableEq T] in
/-- An idle thread outside does not. -/
theorem Inv.not_holder (h : Inv taskSelf s) (hpc : (s.threads t).pc=.idle)
    (hi : ¬(s.threads t).Inside) : s.mutex≠some t := by
  intro hm
  have hh := h.holder t hm
  unfold Holding at hh
  rw [hpc] at hh
  exact hi (inside_iff.mpr hh.1)

/-- In every reached state of threads that are told apart, at most one thread is
inside; outside of its calls it is the owner, has the count and the mutex; an
unlock call of a thread that is not inside fails and changes nothing; only the
thread that has the mutex gives it back; and without a thread inside or in a
call the lock is free. -/
theorem lock_exclusive (hinj : Function.Injective taskSelf) (hzero : ∀ t,taskSelf t≠0)
    (h : Reached taskSelf s) :
    (∀ t u,(s.threads t).Inside → (s.threads u).Inside → t=u) ∧
      (∀ t,(s.threads t).Inside → (s.threads t).pc=.idle →
        s.owner=taskSelf t ∧ s.refcount=(s.threads t).returned-(s.threads t).begun ∧
          s.mutex=some t) ∧
      (∀ t,(s.threads t).pc=.idle → ¬(s.threads t).Inside →
        s.unlock taskSelf t=⟨s.owner,s.refcount,s.mutex,
          Function.update s.threads t {s.threads t with ret := some .fail}⟩) ∧
      (∀ t,(s.threads t).pc=.unlockReal → s.mutex=some t) ∧
      ((∀ t,(s.threads t).pc=.idle ∧ ¬(s.threads t).Inside) →
        s.owner=0 ∧ s.refcount=0 ∧ s.mutex=none) := by
  have hinv := h.inv hinj hzero
  refine ⟨?_,?_,?_,?_,?_⟩
  · intro t u ht hu
    have h1 := hinv.mutex_of_inside ht
    rw [hinv.mutex_of_inside hu] at h1
    exact (Option.some.inj h1).symm
  · intro t ht hpc
    have hm := hinv.mutex_of_inside ht
    have hh := hinv.holder t hm
    unfold Holding at hh
    rw [hpc] at hh
    exact ⟨hh.2.1,hh.2.2,hm⟩
  · intro t hpc hi
    unfold State.unlock State.return
    rw [if_neg (hinv.owner_ne hinj hzero (hinv.not_holder hpc hi)),←hpc]
  · intro t hpc
    by_contra hm
    rcases (hinv.other t hm).1 with h2|h2
    · rw [hpc] at h2
      cases h2
    · rw [hpc] at h2
      cases h2
  · intro hall
    have hm : s.mutex=none := by
      cases hu : s.mutex with
      | none => rfl
      | some u => exact absurd hu (hinv.not_holder (hall u).1 (hall u).2)
    exact ⟨(hinv.free hm).1,(hinv.free hm).2,hm⟩

end Invariant

/-! ## Whole lock calls -/

section Calls

variable {T : Type} [DecidableEq T] {taskSelf : T → ℤ} {s : State T} {t : T}

/-- Where the thread is then. -/
theorem goto_pc (s : State T) (t : T) (pc : Pc) : ((s.goto t pc).threads t).pc=pc := by
  unfold State.goto
  dsimp only
  rw [Function.update_self]

/-- A step of a thread inside of a call. -/
theorem step_proceed {s1 : State T} (h : s.proceed taskSelf t=some s1) :
    Relation.ReflTransGen (Step taskSelf) s s1 := .single (.proceed s s1 t h)

/-- A lock call that runs alone has returned. -/
structure Locked (s s1 : State T) (t : T) (owner1 : ℤ) : Prop where
  /-- The owner. -/
  owner : s1.owner=owner1
  /-- The call has returned. -/
  returned : (s1.threads t).returned=(s.threads t).returned+1
  /-- No unlock call has begun. -/
  begun : (s1.threads t).begun=(s.threads t).begun
  /-- The other threads. -/
  others : ∀ u,u≠t → s1.threads u=s.threads u

/-- A lock call of a thread that does not find itself as the owner, while the
mutex is free. -/
theorem lock_free (taskSelf : T → ℤ) (hpc : (s.threads t).pc=.idle) (hn : (s.threads t).nesting+1 < 2^31)
    (hm : s.mutex=none) (ho : s.owner≠taskSelf t) :
    ∃ s1,Relation.ReflTransGen (Step taskSelf) s s1 ∧ Locked s s1 t (taskSelf t) := by
  have h1 : Relation.ReflTransGen (Step taskSelf) s (s.goto t .lockWait) := by
    have hstep : Step taskSelf s (s.lock taskSelf t) := .lock s t hpc hn
    rw [State.lock,if_neg ho] at hstep
    exact .single hstep
  let s2 : State T := State.goto {s.goto t .lockWait with mutex := some t} t .lockCount
  have h2 : (s.goto t .lockWait).proceed taskSelf t=some s2 := by
    unfold State.proceed
    rw [goto_pc]
    exact if_pos hm
  let s3 : State T := State.goto {s2 with refcount := 1} t .lockOwner
  have h3 : s2.proceed taskSelf t=some s3 := by
    unfold State.proceed
    rw [goto_pc]
  let s4 : State T := State.returnLock {s3 with owner := taskSelf t} t
  have h4 : s3.proceed taskSelf t=some s4 := by
    unfold State.proceed
    rw [goto_pc]
  refine ⟨s4,((h1.trans (step_proceed h2)).trans (step_proceed h3)).trans (step_proceed h4),?_⟩
  constructor
  · rfl
  · simp [s4,s3,s2,State.returnLock,State.goto]
  · simp [s4,s3,s2,State.returnLock,State.goto]
  · intro u hu
    simp [s4,s3,s2,State.returnLock,State.goto,Function.update_of_ne hu]

/-- A lock call of a thread that finds itself as the owner. -/
theorem lock_owner (taskSelf : T → ℤ) (hpc : (s.threads t).pc=.idle) (hn : (s.threads t).nesting+1 < 2^31)
    (ho : s.owner=taskSelf t) :
    ∃ s1,Relation.ReflTransGen (Step taskSelf) s s1 ∧ s1.mutex=s.mutex ∧
      Locked s s1 t (taskSelf t) := by
  have h1 : Relation.ReflTransGen (Step taskSelf) s (s.goto t .lockRead) := by
    have hstep : Step taskSelf s (s.lock taskSelf t) := .lock s t hpc hn
    rw [State.lock,if_pos ho] at hstep
    exact .single hstep
  let s2 : State T := (s.goto t .lockRead).goto t (.lockWrite s.refcount)
  have h2 : (s.goto t .lockRead).proceed taskSelf t=some s2 := by
    unfold State.proceed
    rw [goto_pc]
    rfl
  let s3 : State T := State.returnLock {s2 with refcount := int32 (s.refcount+1)} t
  have h3 : s2.proceed taskSelf t=some s3 := by
    unfold State.proceed
    rw [goto_pc]
  refine ⟨s3,(h1.trans (step_proceed h2)).trans (step_proceed h3),rfl,?_⟩
  constructor
  · exact ho
  · simp [s3,s2,State.returnLock,State.goto]
  · simp [s3,s2,State.returnLock,State.goto]
  · intro u hu
    simp [s3,s2,State.returnLock,State.goto,Function.update_of_ne hu]

end Calls

/-- Two threads, told apart by 1 and 2. -/
def twoSelves (t : Bool) : ℤ := if t then 2 else 1

/-- One of two threads has taken the lock; the other one is not inside. -/
theorem lock_exclusive_two :
    ∃ s : State Bool,Reached twoSelves s ∧ (s.threads true).Inside ∧
      ∀ u,(s.threads u).Inside → u=true := by
  have hinj : Function.Injective twoSelves := by decide
  have hzero : ∀ t,twoSelves t≠0 := by decide
  have hidle : ((State.create Bool).threads true).pc=.idle := rfl
  obtain ⟨s,hs,hl⟩ := lock_free twoSelves hidle (by decide) rfl (by decide)
  have hi : (s.threads true).Inside := by
    unfold Thread.Inside
    rw [hl.returned,hl.begun]
    decide
  exact ⟨s,hs,hi,fun u hu => (lock_exclusive hinj hzero hs).1 u true hu hi⟩

end StudyCode.Locker
