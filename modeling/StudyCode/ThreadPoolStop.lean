import Mathlib.Algebra.Order.BigOperators.Group.Finset
import StudyCode.ThreadPoolHistory

/-!
# The end of the thread pool

Once stop_flag is set, a worker that has a task finishes it, and the others
leave without a further turn. So the workers and the thread that stops the pool
can move only a bounded number of times, whatever the clients do meanwhile.
-/

namespace StudyCode.ThreadPool

open ThreadQueue

/-- The moves that a worker can still make once the pool is to stop. -/
def Pc.rank : Pc → ℕ
  | .got none => 1
  | .unlock none => 2
  | .check => 3
  | .loop => 4
  | .lock | .woken => 5
  | .waiting => 6
  | .enter => 7
  | .test => 8
  | .giveUnlock _ => 9
  | .give _ => 10
  | .giveLock _ => 11
  | .clear _ => 12
  | .running _ => 13
  | .got (some _) => 14
  | .unlock (some _) => 15
  | .fetch => 16
  | _ => 0

/-- The moves that the thread that stops n workers can still make. -/
def Pc.stopRank (n : ℕ) : Pc → ℕ
  | .stopLock => n+4
  | .broadcast => n+3
  | .stopUnlock => n+2
  | .join k => n-k+1
  | _ => 0

/-- The moves that are left for all of them. -/
def State.rank (n : ℕ) (s : State) : ℕ :=
  ∑ i ∈ Finset.range n,(s.pc (.worker i)).rank+(s.pc .stopper).stopRank n

/-- The moves of the workers, with the ends of their routines, and of the thread
that stops them. -/
def Act.ofPool (n : ℕ) : Act → Bool
  | .move (.worker i) | .wake (.worker i) | .finish i => i < n
  | .move .stopper => true
  | _ => false

/-- A number of steps. -/
inductive Steps (n : ℕ) : State → List Act → State → Prop
  /-- None. -/
  | nil (s : State) : Steps n s [] s
  /-- A first one. -/
  | cons {s s1 s2 : State} {act : Act} {acts : List Act} {ev : List Event}
      (hs : next n s act=some (s1,ev)) (h : Steps n s1 acts s2) : Steps n s (act::acts) s2

section Rank

variable {n : ℕ} {s s1 : State} {lost : List ℕ} {tr ev : List Event} {t : Thread} {p : Pc}
  {f : Pc → Pc}

/-- No place is further than 16 from the end. -/
theorem rank_le (p : Pc) : p.rank ≤ 16 := by
  unfold Pc.rank
  split <;> omega

/-- The way of the thread that stops the pool. -/
theorem stopRank_le (n : ℕ) (p : Pc) : p.stopRank n ≤ n+4 := by
  cases p <;> simp only [Pc.stopRank] <;> omega

/-- Waking does not lengthen the way. -/
theorem Harmless.rank_le (hf : Harmless f) (p : Pc) : (f p).rank ≤ p.rank := by
  obtain h|⟨h,h1⟩|⟨c,h,h1⟩ := hf.moved p
  · rw [h]
  · rw [h1,h]
    decide
  · rw [h1]
    exact Nat.zero_le _

/-- Waking leaves the way of that thread. -/
theorem Harmless.stopRank_eq (hf : Harmless f) (p : Pc) : (f p).stopRank n=p.stopRank n := by
  obtain h|⟨h,h1⟩|⟨c,h,h1⟩ := hf.moved p
  · rw [h]
  · rw [h1,h]
    rfl
  · rw [h1,h]
    rfl

/-- How the rank of the state follows from that of the thread that moves. -/
theorem rank_update (hf : Harmless f) (hpc : s1.pc=fun u => f (Function.update s.pc t p u)) :
    (p.rank ≤ (s.pc t).rank → (t=.stopper → p.stopRank n ≤ (s.pc t).stopRank n) →
      s1.rank n ≤ s.rank n) ∧
    (∀ i < n,t=.worker i → p.rank < (s.pc t).rank → s1.rank n < s.rank n) ∧
    (t=.stopper → p.stopRank n < (s.pc t).stopRank n → s1.rank n < s.rank n) := by
  have hworker : ∀ j,(Thread.worker j=t → p.rank ≤ (s.pc t).rank) →
      (s1.pc (.worker j)).rank ≤ (s.pc (.worker j)).rank := fun j hj => by
    rw [hpc]
    refine (hf.rank_le _).trans ?_
    by_cases hjt : Thread.worker j=t
    · rw [hjt,Function.update_self]
      exact hj hjt
    · rw [Function.update_of_ne hjt]
  have hstopper : (Thread.stopper=t → p.stopRank n ≤ (s.pc t).stopRank n) →
      (s1.pc .stopper).stopRank n ≤ (s.pc .stopper).stopRank n := fun hj => by
    rw [hpc]
    refine (hf.stopRank_eq _).le.trans ?_
    by_cases hjt : Thread.stopper=t
    · rw [hjt,Function.update_self]
      exact hj hjt
    · rw [Function.update_of_ne hjt]
  refine ⟨fun hr hs => ?_,?_,?_⟩
  · exact Nat.add_le_add (Finset.sum_le_sum fun j _ => hworker j fun _ => hr) (hstopper fun h => hs h.symm)
  · rintro i hin rfl hlt
    refine Nat.add_lt_add_of_lt_of_le (Finset.sum_lt_sum (fun j _ => hworker j fun _ => hlt.le)
      ⟨i,Finset.mem_range.2 hin,?_⟩) (hstopper (by rintro ⟨⟩))
    rw [hpc]
    refine (hf.rank_le _).trans_lt ?_
    rwa [Function.update_self]
  · rintro rfl hlt
    refine Nat.add_lt_add_of_le_of_lt (Finset.sum_le_sum fun j _ => hworker j (by rintro ⟨⟩)) ?_
    rw [hpc]
    refine (hf.stopRank_eq _).trans_lt ?_
    rwa [Function.update_self]

/-- Where a worker goes once the pool is to stop. -/
theorem worker_rank {i : ℕ} (hs : s.stop_flag=true) (h : workerMove s i=some (s1,ev)) :
    s1.stop_flag=true ∧ ∃ f p,Harmless f ∧
      (s1.pc=fun u => f (Function.update s.pc (.worker i) p u)) ∧
      p.rank < (s.pc (.worker i)).rank := by
  unfold workerMove at h
  cases hp : s.pc (.worker i) with
  | test =>
    simp only [hp,hs,if_true] at h
    cases h
    exact ⟨hs,id,_,harmless_id,rfl,by decide⟩
  | lock =>
    simp only [hp] at h
    split at h
    · cases h
      exact ⟨hs,id,_,harmless_id,rfl,by decide⟩
    · cases h
  | loop =>
    simp only [hp,hs] at h
    cases h
    refine ⟨hs,id,_,harmless_id,rfl,?_⟩
    rw [if_neg (by simp)]
    decide
  | enter =>
    simp only [hp] at h
    cases h
    exact ⟨hs,id,_,harmless_id,rfl,by decide⟩
  | woken =>
    simp only [hp] at h
    split at h
    · cases h
      exact ⟨hs,id,_,harmless_id,rfl,by decide⟩
    · cases h
  | check =>
    simp only [hp,hs,if_true] at h
    cases h
    exact ⟨hs,id,_,harmless_id,rfl,by decide⟩
  | fetch =>
    simp only [hp] at h
    split at h
    · next hr =>
      cases h
      exact ⟨hs,id,_,harmless_id,rfl,by rw [hr]; decide⟩
    · next hr =>
      cases h
      exact ⟨hs,id,_,harmless_id,rfl,by rw [hr]; exact Nat.lt_succ_self 15⟩
  | unlock r =>
    simp only [hp] at h
    cases h
    exact ⟨hs,id,_,harmless_id,rfl,by cases r <;> exact Nat.lt_succ_self _⟩
  | got r =>
    cases r with
    | none =>
      simp only [hp] at h
      cases h
      exact ⟨hs,id,_,harmless_id,rfl,Nat.zero_lt_one⟩
    | some a =>
      simp only [hp] at h
      split at h
      · cases h
        exact ⟨hs,id,_,harmless_id,rfl,Nat.lt_succ_self 13⟩
      · cases h
        exact ⟨hs,id,_,harmless_id,rfl,show 8 < 14 by decide⟩
  | clear a =>
    simp only [hp] at h
    cases h
    exact ⟨hs,id,_,harmless_id,rfl,Nat.lt_succ_self 11⟩
  | giveLock a =>
    simp only [hp] at h
    split at h
    · cases h
      exact ⟨hs,id,_,harmless_id,rfl,Nat.lt_succ_self 10⟩
    · cases h
  | give a =>
    simp only [hp] at h
    split at h
    · cases h
      exact ⟨hs,id,_,harmless_id,rfl,Nat.lt_succ_self 9⟩
    · cases h
      split
      · exact ⟨hs,_,_,harmless_rouse,rfl,Nat.lt_succ_self 9⟩
      · exact ⟨hs,id,_,harmless_id,rfl,Nat.lt_succ_self 9⟩
  | giveUnlock ok =>
    simp only [hp] at h
    cases h
    exact ⟨hs,id,_,harmless_id,rfl,by cases ok <;> decide⟩
  | _ => simp [hp] at h

/-- A client neither stops the pool nor keeps a worker from stopping. -/
theorem client_rank {i : ℕ} (hs : s.stop_flag=true) (h : clientMove s i=some (s1,ev)) :
    s1.stop_flag=true ∧ ∃ f p,Harmless f ∧
      (s1.pc=fun u => f (Function.update s.pc (.client i) p u)) ∧ p.rank=0 := by
  unfold clientMove at h
  cases hp : s.pc (.client i) with
  | takeLoop c =>
    simp only [hp] at h
    split at h
    · cases h
      refine ⟨hs,id,_,harmless_id,rfl,?_⟩
      split <;> rfl
    · cases h
      exact ⟨hs,id,_,harmless_id,rfl,rfl⟩
  | put c a =>
    simp only [hp] at h
    split at h
    · cases h
      exact ⟨hs,id,_,harmless_id,rfl,rfl⟩
    · cases h
      split
      · exact ⟨hs,_,_,harmless_wake,rfl,rfl⟩
      · exact ⟨hs,id,_,harmless_id,rfl,rfl⟩
  | takeEnter c =>
    simp only [hp] at h
    cases h
    exact ⟨hs,id,_,harmless_id,rfl,rfl⟩
  | refuse c code =>
    simp only [hp] at h
    cases h
    exact ⟨hs,id,_,harmless_id,rfl,rfl⟩
  | taken c a =>
    simp only [hp] at h
    cases h
    exact ⟨hs,id,_,harmless_id,rfl,rfl⟩
  | store c a =>
    simp only [hp] at h
    cases h
    exact ⟨hs,id,_,harmless_id,rfl,rfl⟩
  | putUnlock c code =>
    simp only [hp] at h
    cases h
    exact ⟨hs,id,_,harmless_id,rfl,rfl⟩
  | takeLock c =>
    simp only [hp] at h
    split at h
    · cases h
      exact ⟨hs,id,_,harmless_id,rfl,rfl⟩
    · cases h
  | roused c =>
    simp only [hp] at h
    split at h
    · cases h
      exact ⟨hs,id,_,harmless_id,rfl,rfl⟩
    · cases h
  | putLock c a =>
    simp only [hp] at h
    split at h
    · cases h
      exact ⟨hs,id,_,harmless_id,rfl,rfl⟩
    · cases h
  | take c =>
    simp only [hp] at h
    split at h <;> cases h <;> exact ⟨hs,id,_,harmless_id,rfl,rfl⟩
  | _ => simp [hp] at h

/-- The thread that stops the pool goes on. -/
theorem stopper_rank (hs : s.stop_flag=true) (hflag : s.pc .stopper ≠ .flag)
    (h : stopperMove n s=some (s1,ev)) :
    s1.stop_flag=true ∧ ∃ f p,Harmless f ∧
      (s1.pc=fun u => f (Function.update s.pc .stopper p u)) ∧
      p.stopRank n < (s.pc .stopper).stopRank n := by
  unfold stopperMove at h
  cases hp : s.pc .stopper with
  | flag => exact absurd hp hflag
  | stopLock =>
    simp only [hp] at h
    split at h
    · cases h
      exact ⟨hs,id,_,harmless_id,rfl,Nat.lt_succ_self _⟩
    · cases h
  | broadcast =>
    simp only [hp] at h
    cases h
    exact ⟨hs,_,_,harmless_wake,rfl,Nat.lt_succ_self _⟩
  | stopUnlock =>
    simp only [hp] at h
    cases h
    exact ⟨hs,id,_,harmless_id,rfl,Nat.lt_succ_self _⟩
  | join k =>
    simp only [hp] at h
    split at h
    · next hk =>
      split at h
      · cases h
        refine ⟨hs,id,_,harmless_id,rfl,?_⟩
        show n-(k+1)+1 < n-k+1
        omega
      · cases h
    · cases h
      exact ⟨hs,id,_,harmless_id,rfl,Nat.succ_pos _⟩
  | _ => simp [hp] at h

/-- The way of all threads. -/
theorem rank_bound (n : ℕ) (s : State) : s.rank n ≤ 17*n+4 := by
  have hsum : ∑ i ∈ Finset.range n,(s.pc (.worker i)).rank ≤ n*16 := by
    have hle := Finset.sum_le_card_nsmul (Finset.range n) (fun i => (s.pc (.worker i)).rank) 16
      fun i _ => rank_le _
    rwa [Finset.card_range,smul_eq_mul] at hle
  have hst := stopRank_le n (s.pc .stopper)
  rw [State.rank]
  omega

/-- A thread that wakes up lowers the rank of a pool that stops, if it is one of
its workers. -/
theorem wake_rank (hi : Inv n s lost) {t : Thread} {p : Pc} (hp : s.pc t=.waiting ∧ p=.woken ∨
    ∃ c,s.pc t=.blocked c ∧ p=.roused c) :
    (s.goto t p).rank n+(if (Act.wake t).ofPool n then 1 else 0) ≤ s.rank n := by
  have hfit := hi.fits t
  obtain ⟨hle,hlt,-⟩ := rank_update (n := n) (t := t) (p := p) harmless_id
    (rfl : (s.goto t p).pc=_)
  obtain ⟨hp,rfl⟩|⟨c,hp,rfl⟩ := hp
  · have hle1 := hle (by rw [hp]; decide) fun ht => by rw [hp,ht] at hfit; cases hfit
    by_cases hpool : (Act.wake t).ofPool n=true
    · rw [if_pos hpool]
      obtain i|i|_ := t
      · exact hlt i (of_decide_eq_true hpool) rfl (by rw [hp]; decide)
      · cases hpool
      · cases hpool
    · rwa [if_neg hpool]
  · have hle1 := hle (Nat.zero_le _) fun ht => by rw [hp,ht] at hfit; cases hfit
    obtain i|i|_ := t
    · rw [hp] at hfit
      cases hfit
    · exact hle1
    · exact hle1

/-- A routine that returns lowers the rank. -/
theorem finish_rank {i a : ℕ} (hp : s.pc (.worker i)=.running a) :
    (s.goto (.worker i) (.clear a)).rank n+(if (Act.finish i).ofPool n then 1 else 0) ≤
      s.rank n := by
  obtain ⟨hle,hlt,-⟩ := rank_update (n := n) (t := .worker i) (p := .clear a) harmless_id
    (rfl : (s.goto (.worker i) (.clear a)).pc=_)
  by_cases hin : i < n
  · have := hlt i hin rfl (by rw [hp]; exact Nat.lt_succ_self 12)
    simp only [Act.ofPool,hin,decide_true,if_true]
    omega
  · have := hle (by rw [hp]; exact Nat.le_succ 12) (by rintro ⟨⟩)
    simpa [Act.ofPool,hin] using this

/-- A step once the pool is to stop. -/
theorem next_rank (hi : Inv n s lost) (hs : s.stop_flag=true) {act : Act}
    (h : next n s act=some (s1,ev)) :
    s1.stop_flag=true ∧ s1.rank n+(if act.ofPool n then 1 else 0) ≤ s.rank n := by
  have hstop := hi.holds .stopper
  rw [next.eq_def] at h
  split at h
  · cases act with
    | move t =>
      cases t with
      | worker i =>
        obtain ⟨hs1,f,p,hf,hpc,hlt⟩ := worker_rank hs h
        obtain ⟨hle,hltr,-⟩ := rank_update (n := n) hf hpc
        refine ⟨hs1,?_⟩
        by_cases hin : i < n
        · have := hltr i hin rfl hlt
          simp only [Act.ofPool,hin,decide_true,if_true]
          omega
        · have := hle hlt.le ?_
          · simpa [Act.ofPool,hin] using this
          · rintro ⟨⟩
      | client i =>
        obtain ⟨hs1,f,p,hf,hpc,h0⟩ := client_rank hs h
        exact ⟨hs1,(rank_update (n := n) hf hpc).1 (h0 ▸ Nat.zero_le _) (by rintro ⟨⟩)⟩
      | stopper =>
        have hne : s.pc .stopper ≠ .flag := fun hp => by
          rw [hp] at hstop
          have hf : s.stop_flag=false := hstop rfl
          rw [hs] at hf
          cases hf
        obtain ⟨hs1,f,p,hf,hpc,hlt⟩ := stopper_rank hs hne h
        exact ⟨hs1,(rank_update (n := n) hf hpc).2.2 rfl hlt⟩
    | add i c =>
      simp only at h
      split at h
      · cases h
        exact ⟨hs,(rank_update (n := n) harmless_id rfl).1 (Nat.zero_le _) (by rintro ⟨⟩)⟩
      · cases h
    | free =>
      simp only at h
      split at h
      · next hp =>
        rw [hp] at hstop
        have hf : s.stop_flag=false := hstop rfl
        rw [hs] at hf
        cases hf
      · cases h
    | wake t =>
      cases hp : s.pc t with
      | waiting =>
        simp only [hp] at h
        cases h
        exact ⟨hs,wake_rank hi (.inl ⟨hp,rfl⟩)⟩
      | blocked c =>
        simp only [hp] at h
        cases h
        exact ⟨hs,wake_rank hi (.inr ⟨c,hp,rfl⟩)⟩
      | _ => simp [hp] at h
    | finish i =>
      cases hp : s.pc (.worker i) with
      | running a =>
        simp only [hp] at h
        cases h
        exact ⟨hs,finish_rank hp⟩
      | _ => simp [hp] at h
  · cases h

/-- Once stop_flag is set, the workers and the thread that stops them make no
more than a bounded number of moves, in any order and with any calls of the
clients in between; and when the routines have returned and no thread can move,
the pool is freed. -/
theorem stop_bounded {s2 : State} {acts : List Act} (h : Run n s tr) (hs : s.stop_flag=true)
    (hsteps : Steps n s acts s2) : acts.countP (Act.ofPool n) ≤ 17*n+4 ∧
      (s2.Returned → Stuck n s2 → s2.pc .stopper=.freed ∧ ∀ i < n,s2.pc (.worker i)=.exited) := by
  have hinv : ∀ {s s2 acts tr},Run n s tr → s.stop_flag=true → Steps n s acts s2 →
      acts.countP (Act.ofPool n)+s2.rank n ≤ s.rank n ∧ s2.stop_flag=true ∧ ∃ tr2,Run n s2 tr2 := by
    intro s s2 acts tr h hs hsteps
    induction hsteps generalizing tr with
    | nil s => exact ⟨by simp,hs,tr,h⟩
    | cons hstep _ ih =>
      obtain ⟨lost,hi,-,-⟩ := h.inv
      obtain ⟨hs1,hr⟩ := next_rank hi hs hstep
      obtain ⟨hle,hs2,hrun⟩ := ih (h.step hstep) hs1
      refine ⟨?_,hs2,hrun⟩
      rw [List.countP_cons]
      omega
  obtain ⟨hle,hs2,tr2,hrun⟩ := hinv h hs hsteps
  have hb := rank_bound n s
  refine ⟨by omega,fun hret hstuck => ?_⟩
  obtain ⟨lost,hi,-,-⟩ := hrun.inv
  have hl := hi.holds .stopper
  by_cases hfreed : s2.pc .stopper=.freed
  · rw [hfreed] at hl
    exact ⟨hfreed,hl.2⟩
  · rw [hi.stopper_rests (decide_eq_true hfreed) hret hstuck] at hl
    have hf : s2.stop_flag=false := hl rfl
    rw [hs2] at hf
    cases hf

/-- A pool with one worker is freed in seven moves, before the worker has moved
for a task. -/
theorem stop_bounded_one : ∃ s s2 acts,Run 1 s [] ∧ Steps 1 s acts s2 ∧
    acts.countP (Act.ofPool 1)=7 ∧ 7 ≤ 17*1+4 ∧ s2.pc .stopper=.freed ∧
    s2.pc (.worker 0)=.exited := by
  obtain ⟨free,hfree,-⟩ := initFree_spec (le_refl queueSize)
  let s0 : State := ⟨.init,free,fun _ => .init,false,none,none,start 1⟩
  let s1 : State := {(s0.goto .stopper .flag).goto .stopper .stopLock with stop_flag := true}
  have h0 : init 1=some s0 := by
    rw [init,hfree]
    rfl
  have hrun : Run 1 s1 [] :=
    ((Run.init h0).then .free [] rfl).then (.move .stopper) [] rfl
  obtain ⟨s2,hsteps,hfreed,hexited,hret⟩ : ∃ s2,Steps 1 s1 [.move .stopper,.move (.worker 0),
      .move .stopper,.move .stopper,.move (.worker 0),.move .stopper,.move .stopper] s2 ∧
      s2.pc .stopper=.freed ∧ s2.pc (.worker 0)=.exited ∧ s2.Returned := by
    refine ⟨_,.cons rfl (.cons rfl (.cons rfl (.cons rfl (.cons rfl (.cons rfl (.cons rfl
      (.nil _))))))),rfl,rfl,?_⟩
    rintro (_|i) a ⟨⟩
  have hstuck : Stuck 1 s2 := fun t => if_neg (by rw [State.alive,hfreed]; decide)
  obtain ⟨hcount,hend⟩ := stop_bounded hrun rfl hsteps
  obtain ⟨hfreed1,hexited1⟩ := hend hret hstuck
  exact ⟨s1,s2,_,hrun,hsteps,rfl,hcount,hfreed1,hexited1 0 Nat.zero_lt_one⟩

end Rank

end StudyCode.ThreadPool
