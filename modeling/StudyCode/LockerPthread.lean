import StudyCode.Locker

/-!
# The lock on pthreads

The function locket_pthread_self returns the 64 bits of pthread_self as an int,
so the lock tells threads apart by the low 32 bits only, and a thread whose low
32 bits are zero is taken for the owner of a free lock.
-/

namespace StudyCode.Locker

/-- locket_pthread_self. -/
def locketPthreadSelf (pthreadSelf : BitVec 64) : ℤ := (pthreadSelf.setWidth 32).toInt

/-- The number of a thread is zero when its low 32 bits are. -/
theorem locketPthreadSelf_eq_zero {a : BitVec 64} : locketPthreadSelf a=0 ↔ a.setWidth 32=0 := by
  unfold locketPthreadSelf
  constructor
  · intro h
    exact BitVec.eq_of_toInt_eq (h.trans BitVec.toInt_zero.symm)
  · intro h
    rw [h]
    rfl

/-- Two threads have the same number when their low 32 bits agree. -/
theorem locketPthreadSelf_inj {a b : BitVec 64} :
    locketPthreadSelf a=locketPthreadSelf b ↔ a.setWidth 32=b.setWidth 32 :=
  BitVec.toInt_inj

section Binding

variable {T : Type} [DecidableEq T]

/-- The values that the lock gets for its threads. -/
def selves (pthreadSelf : T → BitVec 64) (t : T) : ℤ := locketPthreadSelf (pthreadSelf t)

/-- Two threads are inside. -/
def BothInside (s : State T) (t u : T) : Prop :=
  t≠u ∧ (s.threads t).Inside ∧ (s.threads u).Inside

omit [DecidableEq T] in
/-- Two lock calls one after the other. -/
theorem both_inside {s s1 : State T} {t u : T} {a b : ℤ} (hne : t≠u)
    (h1 : Locked (State.create T) s t a) (h2 : Locked s s1 u b) : BothInside s1 t u := by
  refine ⟨hne,?_,?_⟩
  · rw [h2.others t hne]
    unfold Thread.Inside
    rw [h1.returned,h1.begun]
    exact Nat.succ_pos 0
  · unfold Thread.Inside
    rw [h2.returned,h2.begun,h1.others u hne.symm]
    exact Nat.succ_pos 0

omit [DecidableEq T] in
/-- A new lock may be locked. -/
theorem create_nesting (t : T) : ((State.create T).threads t).nesting+1 < 2^31 := by
  show (0 : ℤ)-0+1 < 2^31
  norm_num

/-- Two threads with the same low 32 bits are inside together. -/
theorem both_of_same (pthreadSelf : T → BitVec 64) {t u : T} (hne : t≠u) (hz : selves pthreadSelf t≠0)
    (hsame : selves pthreadSelf t=selves pthreadSelf u) :
    ∃ s,Reached (selves pthreadSelf) s ∧ BothInside s t u := by
  obtain ⟨s,hs,h1⟩ := lock_free (selves pthreadSelf) (s:=State.create T) (t:=t) rfl
    (create_nesting t) rfl hz.symm
  have hidle : (s.threads u).pc=.idle := by
    rw [h1.others u hne.symm]
    rfl
  have hn : (s.threads u).nesting+1 < 2^31 := by
    rw [h1.others u hne.symm]
    exact create_nesting u
  obtain ⟨s1,hs1,-,h2⟩ := lock_owner (selves pthreadSelf) hidle hn (h1.owner.trans hsame)
  exact ⟨s1,hs.trans hs1,both_inside hne h1 h2⟩

/-- A thread whose low 32 bits are zero is inside together with any other one. -/
theorem both_of_zero (pthreadSelf : T → BitVec 64) {t u : T} (hne : t≠u) (hz : selves pthreadSelf t=0) :
    ∃ s,Reached (selves pthreadSelf) s ∧ BothInside s t u := by
  obtain ⟨s,hs,hm,h1⟩ := lock_owner (selves pthreadSelf) (s:=State.create T) (t:=t) rfl
    (create_nesting t) hz.symm
  have hidle : (s.threads u).pc=.idle := by
    rw [h1.others u hne.symm]
    rfl
  have hn : (s.threads u).nesting+1 < 2^31 := by
    rw [h1.others u hne.symm]
    exact create_nesting u
  by_cases hu : s.owner=selves pthreadSelf u
  · obtain ⟨s1,hs1,-,h2⟩ := lock_owner (selves pthreadSelf) hidle hn hu
    exact ⟨s1,hs.trans hs1,both_inside hne h1 h2⟩
  · obtain ⟨s1,hs1,h2⟩ := lock_free (selves pthreadSelf) hidle hn hm hu
    exact ⟨s1,hs.trans hs1,both_inside hne h1 h2⟩

/-- Two different threads are never inside together, in any interleaving, exactly
when the low 32 bits of every two threads differ and are not zero. -/
theorem pthread_exclusive_iff (pthreadSelf : T → BitVec 64) :
    (∀ s,Reached (selves pthreadSelf) s →
        ∀ t u,(s.threads t).Inside → (s.threads u).Inside → t=u) ↔
      ∀ t u,t≠u → (pthreadSelf t).setWidth 32≠(pthreadSelf u).setWidth 32 ∧
        (pthreadSelf t).setWidth 32≠0 := by
  constructor
  · intro hex t u hne
    have hzero : selves pthreadSelf t≠0 := by
      intro hz
      obtain ⟨s,hs,-,ht,hu⟩ := both_of_zero pthreadSelf hne hz
      exact hne (hex s hs t u ht hu)
    refine ⟨fun hsame => ?_,fun hz => hzero (locketPthreadSelf_eq_zero.mpr hz)⟩
    obtain ⟨s,hs,-,ht,hu⟩ := both_of_same pthreadSelf hne hzero (locketPthreadSelf_inj.mpr hsame)
    exact hne (hex s hs t u ht hu)
  · intro hsep s hs t u ht hu
    by_contra hne
    have hinj : Function.Injective (selves pthreadSelf) := by
      intro a b hab
      by_contra hab2
      exact (hsep a b hab2).1 (locketPthreadSelf_inj.mp hab)
    have hzero : ∀ a,selves pthreadSelf a≠0 := by
      intro a ha
      have hlow := locketPthreadSelf_eq_zero.mp ha
      by_cases hat : a=t
      · exact (hsep a u (hat ▸ hne)).2 hlow
      · exact (hsep a t hat).2 hlow
    have hinv := hs.inv hinj hzero
    have h1 := hinv.mutex_of_inside ht
    rw [hinv.mutex_of_inside hu] at h1
    exact hne (Option.some.inj h1).symm

end Binding

/-- Two threads whose values differ above the low 32 bits only. -/
def farThreads (t : Bool) : BitVec 64 := if t then 0x7f0100000700#64 else 0x7f0200000700#64

/-- Both threads are inside. -/
theorem pthread_not_exclusive :
    (∀ t,farThreads t≠0) ∧ Function.Injective farThreads ∧
      ∃ s,Reached (selves farThreads) s ∧ (s.threads true).Inside ∧ (s.threads false).Inside := by
  refine ⟨by decide,by decide,?_⟩
  have hne : true≠false := by decide
  obtain ⟨s,hs,-,ht,hu⟩ := both_of_same farThreads hne (by decide) (by decide)
  exact ⟨s,hs,ht,hu⟩

end StudyCode.Locker
