import StudyCode.Custody
import StudyCode.ThreadPool

/-!
# The invariant of the thread pool

A task of the array is in one of the two queues, or a thread has it, or it was
skipped by a worker and never comes back. No thread waits for a condition that
holds already, except while the thread that stops the pool is about to wake it.
-/

namespace StudyCode.ThreadPool

open ThreadQueue Custody

/-! ## Places -/

/-- The thread holds mutex. -/
def Pc.inMutex : Pc → Bool
  | .loop | .enter | .check | .fetch | .unlock _ | .put _ _ | .putUnlock _ _ | .broadcast
  | .stopUnlock => true
  | _ => false

/-- The thread holds free_tasks_mutex. -/
def Pc.inFree : Pc → Bool
  | .give _ | .giveUnlock _ | .takeLoop _ | .takeEnter _ | .take _ | .refuse _ _ | .taken _ _ => true
  | _ => false

/-- The task of the array that the thread has. -/
def Pc.slot : Pc → Option ℕ
  | .unlock r | .got r => r
  | .running a | .clear a | .giveLock a | .give a | .taken _ a | .store _ a | .putLock _ a
  | .put _ a => some a
  | _ => none

/-- The task that a worker has fetched and not yet looked at. -/
def Pc.hand : Pc → Option ℕ
  | .unlock r | .got r => r
  | _ => none

/-- The task whose call is about to return 0. -/
def Pc.debt : Pc → Option Task
  | .putUnlock c code => if code=0 then some c.task else none
  | _ => none

/-- The places of a thread. -/
def Pc.fits : Thread → Pc → Bool
  | .worker _,.test | .worker _,.lock | .worker _,.loop | .worker _,.enter | .worker _,.waiting
  | .worker _,.woken | .worker _,.check | .worker _,.fetch | .worker _,.unlock _
  | .worker _,.got _ | .worker _,.running _ | .worker _,.clear _ | .worker _,.giveLock _
  | .worker _,.give _ | .worker _,.giveUnlock _ | .worker _,.exited => true
  | .client _,.idle | .client _,.takeLock _ | .client _,.takeLoop _ | .client _,.takeEnter _
  | .client _,.blocked _ | .client _,.roused _ | .client _,.take _ | .client _,.refuse _ _
  | .client _,.taken _ _ | .client _,.store _ _ | .client _,.putLock _ _ | .client _,.put _ _
  | .client _,.putUnlock _ _ => true
  | .stopper,.idle | .stopper,.flag | .stopper,.stopLock | .stopper,.broadcast
  | .stopper,.stopUnlock | .stopper,.join _ | .stopper,.freed => true
  | _,_ => false

/-- What is known where a thread is. -/
def Local (n : ℕ) (s : State) (t : Thread) : Pc → Prop
  | .enter => s.tasks_queue.num=0 ∧ (s.stop_flag=true → s.pc .stopper=.stopLock)
  | .waiting => s.tasks_queue.num=0 ∧
      (s.stop_flag=true → s.pc .stopper=.stopLock ∨ s.pc .stopper=.broadcast)
  | .check => s.tasks_queue.num=0 → s.stop_flag=true
  | .fetch => s.tasks_queue.num ≠ 0
  | .unlock r | .got r => r=none → s.stop_flag=true
  | .giveUnlock ok => ok=true
  | .exited => (∃ i < n,t=.worker i) → s.stop_flag=true
  | .idle | .flag => t=.stopper → s.stop_flag=false
  | .takeEnter c | .blocked c => s.free_tasks_queue.num=0 ∧ c.blocking=true
  | .take _ => s.free_tasks_queue.num ≠ 0
  | .refuse _ code => code=-2
  | .putLock c a | .put c a => s.tasks a=c.task
  | .putUnlock _ code => code=0
  | .stopLock | .broadcast | .stopUnlock => s.stop_flag=true
  | .join k => s.stop_flag=true ∧ ∀ i < n,i < k → s.pc (.worker i)=.exited
  | .freed => s.stop_flag=true ∧ ∀ i < n,s.pc (.worker i)=.exited
  | _ => True

/-- The tasks of the array that no thread has. -/
def State.kept (s : State) (lost : List ℕ) : List ℕ :=
  s.tasks_queue.list++(s.free_tasks_queue.list++lost)

/-- The invariant, with the tasks of the array that were skipped. -/
structure Inv (n : ℕ) (s : State) (lost : List ℕ) : Prop where
  /-- The queue of the tasks to run. -/
  tasks : s.tasks_queue.Ok
  /-- The queue of the free tasks. -/
  free : s.free_tasks_queue.Ok
  /-- The threads are at places of theirs. -/
  fits : ∀ t,(s.pc t).fits t=true
  /-- The owner of mutex. -/
  mutex : Owner s.mutex Pc.inMutex s.pc
  /-- The owner of free_tasks_mutex. -/
  freeMutex : Owner s.free_tasks_mutex Pc.inFree s.pc
  /-- Where the tasks of the array are. -/
  placed : Placed (· < queueSize) (s.kept lost) fun t => (s.pc t).slot
  /-- What is known where the threads are. -/
  holds : ∀ t,Local n s t (s.pc t)

/-! ## Moves -/

/-- The steps of a pool that keeps the invariant. A plain one changes no more
than the place of a thread and the mutexes. -/
inductive Move (n : ℕ) (s : State) : State → List Event → Prop
  /-- A thread goes on. -/
  | plain {t : Thread} {p : Pc} {m f : Option Thread} (ht : t ≠ .stopper) (hfit : p.fits t=true)
      (hold : s.pc t ≠ .exited)
      (hm : Passes t s.mutex m (s.pc t).inMutex p.inMutex)
      (hf : Passes t s.free_tasks_mutex f (s.pc t).inFree p.inFree)
      (hslot : p.slot=(s.pc t).slot) (hhand : p.hand=(s.pc t).hand) (hdebt : p.debt=(s.pc t).debt)
      (hl : Local n {s with pc := Function.update s.pc t p} t p) :
      Move n s {s with pc := Function.update s.pc t p,mutex := m,free_tasks_mutex := f} []
  /-- A worker takes a task. -/
  | fetch {i a : ℕ} {q : Queue} (hp : s.pc (.worker i)=.fetch) (hq : q.Ok)
      (hn : s.tasks_queue.num=q.num+1) (hl : s.tasks_queue.list=a::q.list) :
      Move n s {s with tasks_queue := q,pc := Function.update s.pc (.worker i) (.unlock (some a))}
        [.fetched i (s.tasks a)]
  /-- A worker calls the routine. -/
  | call {i a : ℕ} (hp : s.pc (.worker i)=.got (some a)) (hr : (s.tasks a).routine_cb ≠ none) :
      Move n s (s.goto (.worker i) (.running a)) [.called i (s.tasks a)]
  /-- A worker finds no routine. -/
  | skip {i a : ℕ} (hp : s.pc (.worker i)=.got (some a)) (hr : (s.tasks a).routine_cb=none) :
      Move n s (s.goto (.worker i) .test) [.skipped i (s.tasks a)]
  /-- A worker clears its task. -/
  | clear {i a : ℕ} (hp : s.pc (.worker i)=.clear a) :
      Move n s {s with tasks := Function.update s.tasks a .init
                       pc := Function.update s.pc (.worker i) (.giveLock a)} []
  /-- A worker gives its task back. -/
  | give {i a : ℕ} {q : Queue} {pc : Thread → Pc} (hp : s.pc (.worker i)=.give a) (hq : q.Ok)
      (hn : q.num=s.free_tasks_queue.num+1) (hl : q.list=s.free_tasks_queue.list++[a])
      (hpc : pc=(if q.num=1 then
          (fun t => (Function.update s.pc (.worker i) (.giveUnlock true) t).rouse)
        else Function.update s.pc (.worker i) (.giveUnlock true))) :
      Move n s {s with free_tasks_queue := q,pc := pc} []
  /-- A caller takes a free task. -/
  | take {i a : ℕ} {c : Call} {q : Queue} (hp : s.pc (.client i)=.take c) (hq : q.Ok)
      (hn : s.free_tasks_queue.num=q.num+1) (hl : s.free_tasks_queue.list=a::q.list) :
      Move n s {s with free_tasks_queue := q
                       pc := Function.update s.pc (.client i) (.taken c a)} []
  /-- A caller writes its task. -/
  | store {i a : ℕ} {c : Call} (hp : s.pc (.client i)=.store c a) :
      Move n s {s with tasks := Function.update s.tasks a c.task
                       pc := Function.update s.pc (.client i) (.putLock c a)} []
  /-- A caller adds its task. -/
  | put {i a : ℕ} {c : Call} {q : Queue} {pc : Thread → Pc} (hp : s.pc (.client i)=.put c a)
      (hq : q.Ok) (hn : q.num=s.tasks_queue.num+1) (hl : q.list=s.tasks_queue.list++[a])
      (hpc : pc=(if q.num=1 then
          (fun t => (Function.update s.pc (.client i) (.putUnlock c 0) t).wake)
        else Function.update s.pc (.client i) (.putUnlock c 0))) :
      Move n s {s with tasks_queue := q,pc := pc} [.queued i (s.tasks a)]
  /-- A call returns 0. -/
  | accept {i : ℕ} {c : Call} (hp : s.pc (.client i)=.putUnlock c 0) :
      Move n s {s with pc := Function.update s.pc (.client i) .idle,mutex := none}
        [.returned i c.task 0]
  /-- A call returns -2. -/
  | refuse {i : ℕ} {c : Call} (hp : s.pc (.client i)=.refuse c (-2)) :
      Move n s {s with pc := Function.update s.pc (.client i) .idle,free_tasks_mutex := none}
        [.returned i c.task (-2)]
  /-- The pool is to be freed. -/
  | free (hp : s.pc .stopper=.idle) : Move n s (s.goto .stopper .flag) []
  /-- The flag is set. -/
  | flag (hp : s.pc .stopper=.flag) : Move n s {s.goto .stopper .stopLock with stop_flag := true} []
  /-- The thread that stops the pool takes mutex. -/
  | stopLock (hp : s.pc .stopper=.stopLock) (hm : s.mutex=none) :
      Move n s {s.goto .stopper .broadcast with mutex := some .stopper} []
  /-- It wakes the workers. -/
  | broadcast (hp : s.pc .stopper=.broadcast) : Move n s (s.goto .stopper .stopUnlock).wakeWorkers []
  /-- It gives mutex back. -/
  | stopUnlock (hp : s.pc .stopper=.stopUnlock) :
      Move n s {s.goto .stopper (.join 0) with mutex := none} []
  /-- It joins a worker. -/
  | join {k : ℕ} (hp : s.pc .stopper=.join k) (hk : k < n) (he : s.pc (.worker k)=.exited) :
      Move n s (s.goto .stopper (.join (k+1))) []
  /-- It frees the pool. -/
  | freed {k : ℕ} (hp : s.pc .stopper=.join k) (hk : n ≤ k) : Move n s (s.goto .stopper .freed) []

section Moves

variable {n : ℕ} {s s1 : State} {lost : List ℕ} {ev : List Event} {t : Thread} {p q : Pc}

/-- A plain move from a known place. -/
theorem Move.from {m f : Option Thread} (hp : s.pc t=q) (ht : t ≠ .stopper)
    (hfit : p.fits t=true) (hold : q ≠ .exited)
    (hm : Passes t s.mutex m q.inMutex p.inMutex)
    (hf : Passes t s.free_tasks_mutex f q.inFree p.inFree)
    (hslot : p.slot=q.slot) (hhand : p.hand=q.hand) (hdebt : p.debt=q.debt)
    (hl : Local n {s with pc := Function.update s.pc t p} t p) :
    Move n s {s with pc := Function.update s.pc t p,mutex := m,free_tasks_mutex := f} [] := by
  subst hp
  exact .plain ht hfit hold hm hf hslot hhand hdebt hl

/-- While a thread has a task of the array, neither queue is full. -/
theorem Inv.room (hi : Inv n s lost) {a : ℕ} (ha : (s.pc t).slot=some a) :
    s.tasks_queue.num < queueSize ∧ s.free_tasks_queue.num < queueSize := by
  have hlt := hi.placed.length_lt ha
  rw [State.kept,List.length_append,List.length_append,Queue.length_list,Queue.length_list] at hlt
  omega

/-! ## Moves of a worker -/

/-- A worker goes to sleep only when there is nothing to run and no stop. -/
theorem loop_move {i : ℕ} (hp : s.pc (.worker i)=.loop) :
    Move n s (s.goto (.worker i) (if s.tasks_queue.num=0 ∧ !s.stop_flag then .enter else .check))
      [] := by
  split
  · next hc =>
    refine .from hp nofun rfl nofun (.keep _ _) (.keep _ _) rfl rfl rfl ⟨hc.1,fun hs => ?_⟩
    have hc2 := hc.2
    rw [show s.stop_flag=true from hs] at hc2
    cases hc2
  · next hc =>
    refine .from hp nofun rfl nofun (.keep _ _) (.keep _ _) rfl rfl rfl fun h0 => ?_
    by_contra hs
    exact hc ⟨h0,by rw [Bool.eq_false_iff.2 hs]; rfl⟩

/-- A worker waits and gives mutex back. -/
theorem enter_move {i : ℕ} (hl : Local n s (.worker i) (s.pc (.worker i)))
    (hp : s.pc (.worker i)=.enter) :
    Move n s {s.goto (.worker i) .waiting with mutex := none} [] := by
  rw [hp] at hl
  refine .from hp nofun rfl nofun (.release _) (.keep _ _) rfl rfl rfl ⟨hl.1,fun hs => .inl ?_⟩
  have hne : Thread.stopper ≠ .worker i := nofun
  have hst : Function.update s.pc (.worker i) .waiting .stopper=s.pc .stopper :=
    Function.update_of_ne hne _ _
  exact hst.trans (hl.2 hs)

/-- A worker fetches a task unless the pool is to stop. -/
theorem check_move {i : ℕ} (hl : Local n s (.worker i) (s.pc (.worker i)))
    (hp : s.pc (.worker i)=.check) :
    Move n s (s.goto (.worker i) (if s.stop_flag then .unlock none else .fetch)) [] := by
  rw [hp] at hl
  cases hs : s.stop_flag with
  | true => exact .from hp nofun rfl nofun (.keep _ _) (.keep _ _) rfl rfl rfl (fun _ => hs)
  | false =>
    refine .from hp nofun rfl nofun (.keep _ _) (.keep _ _) rfl rfl rfl fun h0 => ?_
    have hs1 := hl h0
    rw [hs] at hs1
    cases hs1

/-- A worker without a task leaves, which it has only when the pool is to stop. -/
theorem exit_move {i : ℕ} (hl : Local n s (.worker i) (s.pc (.worker i)))
    (hp : s.pc (.worker i)=.got none) :
    Move n s (s.goto (.worker i) .exited) (if s.stop_flag then [] else [.report]) := by
  rw [hp] at hl
  have hs : s.stop_flag=true := hl rfl
  rw [if_pos hs]
  exact .from hp nofun rfl nofun (.keep _ _) (.keep _ _) rfl rfl rfl (fun _ => hs)

/-- A worker gives its task back, for which there is room. -/
theorem give_move (hi : Inv n s lost) {i a : ℕ} (hp : s.pc (.worker i)=.give a) :
    ∃ q,s.free_tasks_queue.enqueue a=some q ∧
      Move n s (if q.num=1 then
          ({s.goto (.worker i) (.giveUnlock true) with free_tasks_queue := q} : State).wakeClients
        else {s.goto (.worker i) (.giveUnlock true) with free_tasks_queue := q}) [] := by
  obtain ⟨q,henq,hq,hn,hlist⟩ := hi.free.enqueue (hi.room (t := .worker i) (by rw [hp]; rfl)).2 a
  refine ⟨q,henq,?_⟩
  have hmove := Move.give (n := n) hp hq hn hlist rfl
  split
  · next h1 =>
    rw [if_pos h1] at hmove
    exact hmove
  · next h1 =>
    rw [if_neg h1] at hmove
    exact hmove

/-- What a worker can do. -/
theorem worker_move (hi : Inv n s lost) {i : ℕ} (h : workerMove s i=some (s1,ev)) :
    Move n s s1 ev := by
  have hl := hi.holds (.worker i)
  have hne : Thread.worker i ≠ .stopper := nofun
  unfold workerMove at h
  cases hp : s.pc (.worker i) with
  | test =>
    simp only [hp] at h
    cases h
    cases hs : s.stop_flag with
    | true => exact .from hp hne rfl nofun (.keep _ _) (.keep _ _) rfl rfl rfl (fun _ => hs)
    | false => exact .from hp hne rfl nofun (.keep _ _) (.keep _ _) rfl rfl rfl trivial
  | lock =>
    simp only [hp] at h
    split at h
    · next hm =>
      cases h
      exact .from hp hne rfl nofun (hm ▸ .acquire _) (.keep _ _) rfl rfl rfl trivial
    · cases h
  | loop =>
    simp only [hp] at h
    cases h
    exact loop_move hp
  | enter =>
    simp only [hp] at h
    cases h
    exact enter_move hl hp
  | woken =>
    simp only [hp] at h
    split at h
    · next hm =>
      cases h
      exact .from hp hne rfl nofun (hm ▸ .acquire _) (.keep _ _) rfl rfl rfl trivial
    · cases h
  | check =>
    simp only [hp] at h
    cases h
    exact check_move hl hp
  | fetch =>
    simp only [hp] at h
    rw [hp] at hl
    obtain ⟨a,q,hdeq,hq,hn,hlist⟩ := hi.tasks.dequeue hl
    simp only [hdeq] at h
    cases h
    exact .fetch hp hq hn hlist
  | unlock r =>
    simp only [hp] at h
    rw [hp] at hl
    cases h
    exact .from hp hne rfl nofun (.release _) (.keep _ _) rfl rfl rfl hl
  | got r =>
    cases r with
    | none =>
      simp only [hp] at h
      cases h
      exact exit_move hl hp
    | some a =>
      simp only [hp] at h
      split at h
      · next hr =>
        cases h
        exact .call hp hr
      · next hr =>
        cases h
        exact .skip hp (not_not.1 hr)
  | clear a =>
    simp only [hp] at h
    cases h
    exact .clear hp
  | giveLock a =>
    simp only [hp] at h
    split at h
    · next hm =>
      cases h
      exact .from hp hne rfl nofun (.keep _ _) (hm ▸ .acquire _) rfl rfl rfl trivial
    · cases h
  | give a =>
    obtain ⟨q,henq,hmove⟩ := give_move hi hp
    simp only [hp,henq] at h
    cases h
    exact hmove
  | giveUnlock ok =>
    simp only [hp] at h
    rw [hp] at hl
    obtain rfl : ok=true := hl
    cases h
    exact .from hp hne rfl nofun (.keep _ _) (.release _) rfl rfl rfl trivial
  | _ => simp [hp] at h

/-! ## Moves of the other threads -/

/-- A caller puts its task in, for which there is room. -/
theorem put_move (hi : Inv n s lost) {i a : ℕ} {c : Call} (hp : s.pc (.client i)=.put c a) :
    ∃ q,s.tasks_queue.enqueue a=some q ∧
      Move n s (if q.num=1 then
          ({s.goto (.client i) (.putUnlock c 0) with tasks_queue := q} : State).wakeWorkers
        else {s.goto (.client i) (.putUnlock c 0) with tasks_queue := q})
        [.queued i (s.tasks a)] := by
  obtain ⟨q,henq,hq,hn,hlist⟩ := hi.tasks.enqueue (hi.room (t := .client i) (by rw [hp]; rfl)).1 a
  refine ⟨q,henq,?_⟩
  have hmove := Move.put (n := n) hp hq hn hlist rfl
  split
  · next h1 =>
    rw [if_pos h1] at hmove
    exact hmove
  · next h1 =>
    rw [if_neg h1] at hmove
    exact hmove

/-- What a caller can do. -/
theorem client_move (hi : Inv n s lost) {i : ℕ} (h : clientMove s i=some (s1,ev)) :
    Move n s s1 ev := by
  have hl := hi.holds (.client i)
  have hne : Thread.client i ≠ .stopper := nofun
  unfold clientMove at h
  cases hp : s.pc (.client i) with
  | takeLock c =>
    simp only [hp] at h
    split at h
    · next hm =>
      cases h
      exact .from hp hne rfl nofun (.keep _ _) (hm ▸ .acquire _) rfl rfl rfl trivial
    · cases h
  | takeLoop c =>
    simp only [hp] at h
    split at h
    · next h0 =>
      cases h
      cases hb : c.blocking with
      | true => exact .from hp hne rfl nofun (.keep _ _) (.keep _ _) rfl rfl rfl ⟨h0,hb⟩
      | false => exact .from hp hne rfl nofun (.keep _ _) (.keep _ _) rfl rfl rfl rfl
    · next h0 =>
      cases h
      exact .from hp hne rfl nofun (.keep _ _) (.keep _ _) rfl rfl rfl h0
  | takeEnter c =>
    simp only [hp] at h
    rw [hp] at hl
    cases h
    exact .from hp hne rfl nofun (.keep _ _) (.release _) rfl rfl rfl hl
  | roused c =>
    simp only [hp] at h
    split at h
    · next hm =>
      cases h
      exact .from hp hne rfl nofun (.keep _ _) (hm ▸ .acquire _) rfl rfl rfl trivial
    · cases h
  | take c =>
    simp only [hp] at h
    rw [hp] at hl
    obtain ⟨a,q,hdeq,hq,hn,hlist⟩ := hi.free.dequeue hl
    simp only [hdeq] at h
    cases h
    exact .take hp hq hn hlist
  | refuse c code =>
    simp only [hp] at h
    rw [hp] at hl
    obtain rfl : code=-2 := hl
    cases h
    exact .refuse hp
  | taken c a =>
    simp only [hp] at h
    cases h
    exact .from hp hne rfl nofun (.keep _ _) (.release _) rfl rfl rfl trivial
  | store c a =>
    simp only [hp] at h
    cases h
    exact .store hp
  | putLock c a =>
    simp only [hp] at h
    rw [hp] at hl
    split at h
    · next hm =>
      cases h
      exact .from hp hne rfl nofun (hm ▸ .acquire _) (.keep _ _) rfl rfl rfl hl
    · cases h
  | put c a =>
    obtain ⟨q,henq,hmove⟩ := put_move hi hp
    simp only [hp,henq] at h
    cases h
    exact hmove
  | putUnlock c code =>
    simp only [hp] at h
    rw [hp] at hl
    obtain rfl : code=0 := hl
    cases h
    exact .accept hp
  | _ => simp [hp] at h

/-- What the thread that stops the pool can do. -/
theorem stopper_move (h : stopperMove n s=some (s1,ev)) : Move n s s1 ev := by
  unfold stopperMove at h
  cases hp : s.pc .stopper with
  | flag =>
    simp only [hp] at h
    cases h
    exact .flag hp
  | stopLock =>
    simp only [hp] at h
    split at h
    · next hm =>
      cases h
      exact .stopLock hp hm
    · cases h
  | broadcast =>
    simp only [hp] at h
    cases h
    exact .broadcast hp
  | stopUnlock =>
    simp only [hp] at h
    cases h
    exact .stopUnlock hp
  | join k =>
    simp only [hp] at h
    split at h
    · next hk =>
      split at h
      · next he =>
        cases h
        exact .join hp hk he
      · cases h
    · next hk =>
      cases h
      exact .freed hp (not_lt.1 hk)
  | _ => simp [hp] at h

/-- What a step of a pool can do that keeps the invariant. -/
theorem next_move (hi : Inv n s lost) {act : Act} (h : next n s act=some (s1,ev)) :
    Move n s s1 ev := by
  unfold next at h
  split at h
  · cases act with
    | move t =>
      cases t with
      | worker i => exact worker_move hi h
      | client i => exact client_move hi h
      | stopper => exact stopper_move h
    | add i c =>
      simp only at h
      split at h
      · next hp =>
        cases h
        exact .from hp nofun rfl nofun (.keep _ _) (.keep _ _) rfl rfl rfl trivial
      · cases h
    | free =>
      simp only at h
      split at h
      · next hp =>
        cases h
        exact .free hp
      · cases h
    | wake t =>
      have hfit := hi.fits t
      cases hp : s.pc t with
      | waiting =>
        simp only [hp] at h
        cases h
        cases t with
        | worker i => exact .from hp nofun rfl nofun (.keep _ _) (.keep _ _) rfl rfl rfl trivial
        | client i => rw [hp] at hfit; cases hfit
        | stopper => rw [hp] at hfit; cases hfit
      | blocked c =>
        simp only [hp] at h
        cases h
        cases t with
        | worker i => rw [hp] at hfit; cases hfit
        | client i => exact .from hp nofun rfl nofun (.keep _ _) (.keep _ _) rfl rfl rfl trivial
        | stopper => rw [hp] at hfit; cases hfit
      | _ => simp [hp] at h
    | finish i =>
      cases hp : s.pc (.worker i) with
      | running a =>
        simp only [hp] at h
        cases h
        exact .from hp nofun rfl nofun (.keep _ _) (.keep _ _) rfl rfl rfl trivial
      | _ => simp [hp] at h
  · cases h

end Moves

end StudyCode.ThreadPool
