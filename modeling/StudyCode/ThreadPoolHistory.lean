import StudyCode.ThreadPoolRun

/-!
# What the thread pool has done

The tasks come out of the pool in the order in which they were put in, each one
once; a worker calls every routine that it has fetched, in that order; and a
call of threadpool_add_task returns 0 when its task was put in. When nothing can
move any more, nothing is left over.
-/

namespace StudyCode.ThreadPool

open ThreadQueue Custody

/-! ## Histories -/

/-- The tasks that were put in. -/
def queuedTasks (tr : List Event) : List Task :=
  tr.filterMap fun
    | .queued _ task => some task
    | _ => none

/-- The tasks that were taken out. -/
def fetchedTasks (tr : List Event) : List Task :=
  tr.filterMap fun
    | .fetched _ task => some task
    | _ => none

/-- The tasks that a client has put in. -/
def queuedBy (i : ℕ) (tr : List Event) : List Task :=
  tr.filterMap fun
    | .queued j task => if j=i then some task else none
    | _ => none

/-- The tasks for which a client was told 0. -/
def acceptedBy (i : ℕ) (tr : List Event) : List Task :=
  tr.filterMap fun
    | .returned j task code => if j=i ∧ code=0 then some task else none
    | _ => none

/-- The tasks that a worker has taken out. -/
def fetchedBy (i : ℕ) (tr : List Event) : List Task :=
  tr.filterMap fun
    | .fetched j task => if j=i then some task else none
    | _ => none

/-- The tasks whose routine a worker has called, or which have none. -/
def handledBy (i : ℕ) (tr : List Event) : List Task :=
  tr.filterMap fun
    | .called j task => if j=i then some task else none
    | .skipped j task => if j=i then some task else none
    | _ => none

/-- No error, and routines are called where there are some. -/
def Event.Good : Event → Prop
  | .report => False
  | .returned _ _ code => code=0 ∨ code=-2
  | .called _ task => task.routine_cb ≠ none
  | .skipped _ task => task.routine_cb=none
  | _ => True

/-- What the history says about the state. -/
structure Told (s : State) (tr : List Event) : Prop where
  /-- First in, first out. -/
  fifo : queuedTasks tr=fetchedTasks tr++s.tasks_queue.list.map s.tasks
  /-- A worker handles what it has fetched. -/
  handled : ∀ i,fetchedBy i tr=handledBy i tr++((s.pc (.worker i)).hand.map s.tasks).toList
  /-- A client is told what it has put in. -/
  accepted : ∀ i,queuedBy i tr=acceptedBy i tr++(s.pc (.client i)).debt.toList
  /-- There are no errors. -/
  good : ∀ e ∈ tr,e.Good

section Told

variable {n : ℕ} {s s1 : State} {lost : List ℕ} {tr ev : List Event} {t : Thread} {p : Pc}
  {f : Pc → Pc}

/-- A step adds to the history what it changes in the state. -/
theorem Told.append (ht : Told s tr)
    (hfifo : s.tasks_queue.list.map s.tasks++queuedTasks ev=
      fetchedTasks ev++s1.tasks_queue.list.map s1.tasks)
    (hhand : ∀ i,((s.pc (.worker i)).hand.map s.tasks).toList++fetchedBy i ev=
      handledBy i ev++((s1.pc (.worker i)).hand.map s1.tasks).toList)
    (hdebt : ∀ i,(s.pc (.client i)).debt.toList++queuedBy i ev=
      acceptedBy i ev++(s1.pc (.client i)).debt.toList)
    (hgood : ∀ e ∈ ev,e.Good) : Told s1 (tr++ev) where
  fifo := by
    have h := ht.fifo
    simp only [queuedTasks,fetchedTasks,List.filterMap_append] at h hfifo ⊢
    rw [h,List.append_assoc,hfifo,List.append_assoc]
  handled i := by
    have h := ht.handled i
    have hi := hhand i
    simp only [fetchedBy,handledBy,List.filterMap_append] at h hi ⊢
    rw [h,List.append_assoc,hi,List.append_assoc]
  accepted i := by
    have h := ht.accepted i
    have hi := hdebt i
    simp only [queuedBy,acceptedBy,List.filterMap_append] at h hi ⊢
    rw [h,List.append_assoc,hi,List.append_assoc]
  good e he := (List.mem_append.1 he).elim (ht.good e) (hgood e)

/-- A move of a thread leaves what is fetched. -/
theorem hand_update (hf : Harmless f) (hp : p.hand=(s.pc t).hand) (u : Thread) :
    (f (Function.update s.pc t p u)).hand=(s.pc u).hand := by
  rw [hf.hand]
  by_cases hu : u=t
  · rw [hu,Function.update_self]
    exact hp
  · rw [Function.update_of_ne hu]

/-- A move of a thread leaves the calls that return. -/
theorem debt_update (hf : Harmless f) (hp : p.debt=(s.pc t).debt) (u : Thread) :
    (f (Function.update s.pc t p u)).debt=(s.pc u).debt := by
  rw [hf.debt]
  by_cases hu : u=t
  · rw [hu,Function.update_self]
    exact hp
  · rw [Function.update_of_ne hu]

/-- A step without events that neither moves a fetched task nor ends a call. -/
theorem Told.quiet (ht : Told s tr) (hf : Harmless f)
    (hpc : s1.pc=fun u => f (Function.update s.pc t p u)) (hq : s1.tasks_queue=s.tasks_queue)
    (hhand : p.hand=(s.pc t).hand) (hdebt : p.debt=(s.pc t).debt)
    (hlist : ∀ a ∈ s.tasks_queue.list,s1.tasks a=s.tasks a)
    (hval : ∀ u a,(s.pc u).hand=some a → s1.tasks a=s.tasks a) : Told s1 (tr++[]) := by
  refine ht.append ?_ (fun i => ?_) (fun i => ?_) (fun e he => absurd he List.not_mem_nil)
  · rw [hq,List.map_congr_left hlist]
    exact List.append_nil _
  · rw [hpc]
    simp only [hand_update hf hhand]
    refine (List.append_nil _).trans (congrArg Option.toList ?_)
    cases ha : (s.pc (.worker i)).hand with
    | none => rfl
    | some a => exact congrArg some (hval _ a ha).symm
  · rw [hpc]
    simp only [debt_update hf hdebt]
    exact List.append_nil _

/-- A fetched task is one of the array. -/
theorem slot_of_hand {a : ℕ} (h : p.hand=some a) : p.slot=some a := by
  cases p with
  | unlock r => exact h
  | got r => exact h
  | _ => cases h

/-- A step without events that leaves the tasks as they are. -/
theorem Told.still {q : Pc} (ht : Told s tr) (hf : Harmless f) (hp : s.pc t=q)
    (hpc : s1.pc=fun u => f (Function.update s.pc t p u)) (htq : s1.tasks_queue=s.tasks_queue)
    (htasks : s1.tasks=s.tasks) (hhand : p.hand=q.hand) (hdebt : p.debt=q.debt) :
    Told s1 (tr++[]) := by
  subst hp
  exact ht.quiet hf hpc htq hhand hdebt (fun _ _ => by rw [htasks]) fun _ _ _ => by rw [htasks]

/-- A thread writes the task of the array that it has; the task is neither put in
nor fetched. -/
theorem Told.write {q : Pc} {a : ℕ} (hi : Inv n s lost) (ht : Told s tr) (task : Task)
    (hp : s.pc t=q) (hslot : q.slot=some a) (hnone : q.hand=none) (hhand : p.hand=none)
    (hdebt : p.debt=q.debt) :
    Told {s with tasks := Function.update s.tasks a task,pc := Function.update s.pc t p}
      (tr++[]) := by
  subst hp
  refine ht.quiet harmless_id rfl rfl (hhand.trans hnone.symm) hdebt (fun b hb => ?_) fun u b hu => ?_
  · refine Function.update_of_ne ?_ _ _
    rintro rfl
    exact (hi.placed.held t b hslot).2 (List.mem_append_left _ hb)
  · refine Function.update_of_ne (hi.slot_ne hslot (slot_of_hand hu) ?_) _ _
    rintro rfl
    rw [hnone] at hu
    cases hu

/-- A worker has fetched a task. -/
theorem Told.fetch {i a : ℕ} {q : Queue} (ht : Told s tr) (hp : s.pc (.worker i)=.fetch)
    (hl : s.tasks_queue.list=a::q.list) :
    Told {s with tasks_queue := q,pc := Function.update s.pc (.worker i) (.unlock (some a))}
      (tr++[.fetched i (s.tasks a)]) := by
  refine ht.append ?_ (fun j => ?_) (fun j => ?_) ?_
  · rw [hl]
    exact List.append_nil _
  · by_cases hj : j=i
    · subst hj
      simp [hp,Pc.hand,fetchedBy,handledBy]
    · have hne : Thread.worker j ≠ .worker i := fun he => hj (Thread.worker.inj he)
      simp [fetchedBy,handledBy,Ne.symm hj,Function.update_of_ne hne]
  · simp [queuedBy,acceptedBy]
  · intro e he
    rw [List.mem_singleton.1 he]
    trivial

/-- A worker looks at the task that it has fetched. -/
theorem Told.handle {i a : ℕ} {e : Event} (ht : Told s tr) (hp : s.pc (.worker i)=.got (some a))
    (hhand : p.hand=none) (he : e=.called i (s.tasks a) ∨ e=.skipped i (s.tasks a))
    (hgood : e.Good) : Told (s.goto (.worker i) p) (tr++[e]) := by
  refine ht.append ?_ (fun j => ?_) (fun j => ?_) ?_
  · rcases he with rfl|rfl
    · exact List.append_nil _
    · exact List.append_nil _
  · by_cases hj : j=i
    · subst hj
      have hgot : (s.pc (.worker j)).hand=some a := by rw [hp]; rfl
      rcases he with rfl|rfl <;> simp [hgot,hhand,fetchedBy,handledBy,goto_self]
    · have hne : Thread.worker j ≠ .worker i := fun he => hj (Thread.worker.inj he)
      rw [goto_of_ne s hne]
      rcases he with rfl|rfl <;> simp [fetchedBy,handledBy,Ne.symm hj,State.goto]
  · have hne : Thread.client j ≠ .worker i := by rintro ⟨⟩
    rw [goto_of_ne s hne]
    rcases he with rfl|rfl <;> simp [queuedBy,acceptedBy]
  · intro e1 he1
    rw [List.mem_singleton.1 he1]
    exact hgood

/-- A caller has put its task in and is about to return 0. -/
theorem Told.put {i a : ℕ} {c : Call} {q : Queue} {pc : Thread → Pc} (hi : Inv n s lost)
    (ht : Told s tr) (hp : s.pc (.client i)=.put c a) (hl : q.list=s.tasks_queue.list++[a])
    (hf : Harmless f) (hpc : pc=fun u => f (Function.update s.pc (.client i) (.putUnlock c 0) u)) :
    Told {s with tasks_queue := q,pc := pc} (tr++[.queued i (s.tasks a)]) := by
  have htask : s.tasks a=c.task := by
    have hl := hi.holds (.client i)
    rw [hp] at hl
    exact hl
  refine ht.append ?_ (fun j => ?_) (fun j => ?_) ?_
  · rw [hl,List.map_append]
    rfl
  · rw [hpc]
    simp only [hand_update (p := .putUnlock c 0) hf (by rw [hp]; rfl)]
    simp [fetchedBy,handledBy]
  · rw [hpc]
    simp only [hf.debt]
    by_cases hj : j=i
    · subst hj
      simp [hp,Pc.debt,queuedBy,acceptedBy,htask]
    · have hne : Thread.client j ≠ .client i := fun he => hj (Thread.client.inj he)
      simp [queuedBy,acceptedBy,Ne.symm hj,Function.update_of_ne hne]
  · intro e he
    rw [List.mem_singleton.1 he]
    trivial

/-- A call returns 0 for a task that was put in, and -2 otherwise. -/
theorem Told.returned {i : ℕ} {c : Call} {code : ℤ} {m m1 : Option Thread} (ht : Told s tr)
    (hdebt : (s.pc (.client i)).debt=if code=0 then some c.task else none)
    (hcode : code=0 ∨ code=-2) :
    Told {s with pc := Function.update s.pc (.client i) .idle,mutex := m,free_tasks_mutex := m1}
      (tr++[.returned i c.task code]) := by
  refine ht.append ?_ (fun j => ?_) (fun j => ?_) ?_
  · exact List.append_nil _
  · simp [fetchedBy,handledBy]
  · by_cases hj : j=i
    · subst hj
      have hidle : Pc.debt .idle=none := rfl
      rcases hcode with rfl|rfl <;> simp [hdebt,hidle,queuedBy,acceptedBy]
    · have hne : Thread.client j ≠ .client i := fun he => hj (Thread.client.inj he)
      simp [queuedBy,acceptedBy,Ne.symm hj,Function.update_of_ne hne]
  · intro e he
    rw [List.mem_singleton.1 he]
    exact hcode

/-- The history of a step. -/
theorem Told.step (hi : Inv n s lost) (ht : Told s tr) (h : Move n s s1 ev) :
    Told s1 (tr++ev) := by
  cases h with
  | plain _ _ _ _ _ _ hhand hdebt _ => exact ht.still harmless_id rfl rfl rfl rfl hhand hdebt
  | fetch hp hq hn hl => exact ht.fetch hp hl
  | call hp hr => exact ht.handle hp rfl (.inl rfl) hr
  | skip hp hr => exact ht.handle hp rfl (.inr rfl) hr
  | clear hp => exact ht.write hi _ hp rfl rfl rfl rfl
  | give hp hq hn hl hpc =>
    obtain ⟨f,hf,hpcf,-⟩ := hi.roused hn hpc
    exact ht.still hf hp hpcf rfl rfl rfl rfl
  | take hp hq hn hl => exact ht.still harmless_id hp rfl rfl rfl rfl rfl
  | store hp => exact ht.write hi _ hp rfl rfl rfl rfl
  | put hp hq hn hl hpc =>
    obtain ⟨f,hf,hpcf,-⟩ := hi.woken hn hpc
    exact ht.put hi hp hl hf hpcf
  | accept hp => exact ht.returned (by rw [hp]; rfl) (.inl rfl)
  | refuse hp => exact ht.returned (by rw [hp]; rfl) (.inr rfl)
  | free hp => exact ht.still (p := .flag) harmless_id hp rfl rfl rfl rfl rfl
  | flag hp => exact ht.still (p := .stopLock) harmless_id hp rfl rfl rfl rfl rfl
  | stopLock hp _ => exact ht.still (p := .broadcast) harmless_id hp rfl rfl rfl rfl rfl
  | broadcast hp => exact ht.still (p := .stopUnlock) harmless_wake hp rfl rfl rfl rfl rfl
  | stopUnlock hp => exact ht.still (p := .join 0) harmless_id hp rfl rfl rfl rfl rfl
  | @join k hp _ _ => exact ht.still (p := .join (k+1)) harmless_id hp rfl rfl rfl rfl rfl
  | freed hp _ => exact ht.still (p := .freed) harmless_id hp rfl rfl rfl rfl rfl

end Told

/-! ## The start -/

/-- At the start all tasks are free. -/
theorem initFree_spec {k : ℕ} (hk : k ≤ queueSize) :
    ∃ q,initFree k=some q ∧ q.Ok ∧ q.num=k ∧ q.list=List.range k := by
  induction k with
  | zero => exact ⟨.init,rfl,Queue.init_ok,rfl,rfl⟩
  | succ k ih =>
    obtain ⟨q,hq,hok,hn,hl⟩ := ih (by omega)
    obtain ⟨q1,hq1,hok1,hn1,hl1⟩ := hok.enqueue (by omega) k
    refine ⟨q1,?_,hok1,by omega,?_⟩
    · rw [initFree,hq,Option.bind_some,hq1]
    · rw [hl1,hl,List.range_succ]

/-- The places at the start. -/
theorem start_spec (n : ℕ) (t : Thread) : (start n t).slot=none ∧ (start n t).hand=none ∧
    (start n t).debt=none ∧ (start n t).inMutex=false ∧ (start n t).inFree=false ∧
    (start n t).fits t=true := by
  obtain i|i|_ := t
  · rw [start]
    split <;> exact ⟨rfl,rfl,rfl,rfl,rfl,rfl⟩
  · exact ⟨rfl,rfl,rfl,rfl,rfl,rfl⟩
  · exact ⟨rfl,rfl,rfl,rfl,rfl,rfl⟩

/-- At the start no mutex is held. -/
theorem start_owner (n : ℕ) {inside : Pc → Bool} (h : ∀ t,inside (start n t)=false) :
    Owner none inside (start n) := fun t => by
  rw [h t]
  exact ⟨by rintro ⟨⟩,by rintro ⟨⟩⟩

/-- The pool at the start. -/
theorem init_spec (n : ℕ) : ∃ s,init n=some s ∧ Inv n s [] ∧ Told s [] := by
  obtain ⟨free,hfree,hok,hn,hl⟩ := initFree_spec (le_refl queueSize)
  refine ⟨⟨.init,free,fun _ => .init,false,none,none,start n⟩,by rw [init,hfree]; rfl,?_,
    ⟨rfl,fun i => ?_,fun i => ?_,fun e he => absurd he List.not_mem_nil⟩⟩
  · refine ⟨Queue.init_ok,hok,fun t => (start_spec n t).2.2.2.2.2,
      start_owner n fun t => (start_spec n t).2.2.2.1,
      start_owner n fun t => (start_spec n t).2.2.2.2.1,?_,?_⟩
    · have hkept : ∀ st : State,st.tasks_queue=.init → st.free_tasks_queue=free →
          st.kept []=List.range queueSize := fun st h1 h2 => by
        rw [State.kept,h1,h2,hl,List.append_nil,Queue.list_eq_nil.2 rfl,List.nil_append]
      rw [hkept _ rfl rfl]
      refine ⟨List.nodup_range,fun a ha => List.mem_range.1 ha,fun t a ha => ?_,fun t u a ha => ?_,
        fun a ha => .inl (List.mem_range.2 ha)⟩
      · exact absurd ((start_spec n t).1.symm.trans ha) (by rintro ⟨⟩)
      · exact absurd ((start_spec n t).1.symm.trans ha) (by rintro ⟨⟩)
    · rintro (i|i|_)
      · show Local n _ _ (if i < n then Pc.test else .exited)
        split
        · trivial
        · next hi =>
          rintro ⟨j,hj,he⟩
          exact absurd (Thread.worker.inj he ▸ hj) hi
      · exact fun _ => rfl
      · exact fun _ => rfl
  · show []=[]++((start n (.worker i)).hand.map _).toList
    rw [(start_spec n _).2.1]
    rfl
  · show []=[]++(start n (.client i)).debt.toList
    rw [(start_spec n _).2.2.1]
    rfl

/-- In every run the invariant holds, the history fits the state, and as many
tasks of the array are lost as were skipped. -/
theorem Run.inv {n : ℕ} {s : State} {tr : List Event} (h : Run n s tr) :
    ∃ lost,Inv n s lost ∧ Told s tr ∧ lost.length=tr.countP Event.isSkip := by
  induction h with
  | init h =>
    obtain ⟨s0,h0,hi,ht⟩ := init_spec n
    rw [h0] at h
    cases h
    exact ⟨[],hi,ht,rfl⟩
  | step _ hs ih =>
    obtain ⟨lost,hi,ht,hl⟩ := ih
    have hm := next_move hi hs
    obtain ⟨lost1,hi1,hl1⟩ := hi.step hm
    exact ⟨lost1,hi1,ht.step hi hm,by rw [hl1,hl,List.countP_append]⟩

/-! ## What the pool guarantees -/

section Runs

variable {n : ℕ} {s : State} {tr : List Event} {lost : List ℕ}

/-- No thread can move. -/
def Stuck (n : ℕ) (s : State) : Prop := ∀ t,next n s (.move t)=none

/-- Every routine that was called has returned. -/
def State.Returned (s : State) : Prop := ∀ i a,s.pc (.worker i) ≠ .running a

/-- One step more. -/
theorem Run.then (h : Run n s tr) (act : Act) (ev : List Event)
    (hs : next n s act=some (s1,ev)) : Run n s1 (tr++ev) := h.step hs

/-- A new worker goes to sleep. -/
theorem run_sleep : ∃ s,Run 1 s [] ∧ s.pc (.worker 0)=.waiting ∧ Stuck 1 s := by
  obtain ⟨free,hfree,-⟩ := initFree_spec (le_refl queueSize)
  have h0 : init 1=some ⟨.init,free,fun _ => .init,false,none,none,start 1⟩ := by
    rw [init,hfree]
    rfl
  have r1 := (Run.init h0).then (.move (.worker 0)) [] rfl
  have r2 := r1.then (.move (.worker 0)) [] rfl
  have r3 := r2.then (.move (.worker 0)) [] rfl
  have r4 := r3.then (.move (.worker 0)) [] rfl
  refine ⟨_,r4,rfl,?_⟩
  rintro ((_|i)|i|_) <;> rfl

/-- A caller that finds a free task goes on. -/
theorem next_takeLoop {i : ℕ} {c : Call} (ha : s.alive=true) (hp : s.pc (.client i)=.takeLoop c)
    (hn : s.free_tasks_queue.num ≠ 0) :
    next n s (.move (.client i))=some (s.goto (.client i) (.take c),[]) := by
  rw [next.eq_def,if_pos ha]
  simp only [clientMove,hp,hn,if_false]

/-- A caller takes a free task. -/
theorem next_take {i a : ℕ} {c : Call} {q : Queue} (ha : s.alive=true)
    (hp : s.pc (.client i)=.take c) (hq : s.free_tasks_queue.dequeue=(some a,q)) :
    next n s (.move (.client i))=
      some ({s.goto (.client i) (.taken c a) with free_tasks_queue := q},[]) := by
  rw [next.eq_def,if_pos ha]
  simp only [clientMove,hp,hq]

/-- A worker gives its task back where others are free. -/
theorem next_give {i a : ℕ} {q : Queue} (ha : s.alive=true) (hp : s.pc (.worker i)=.give a)
    (hq : s.free_tasks_queue.enqueue a=some q) (hn : q.num ≠ 1) :
    next n s (.move (.worker i))=
      some ({s.goto (.worker i) (.giveUnlock true) with free_tasks_queue := q},[]) := by
  rw [next.eq_def,if_pos ha]
  simp only [workerMove,hp,hq,hn,if_false]

/-- The history of a task that a client adds and whose routine a worker calls. -/
def oneTask : List Event :=
  [.queued 0 ⟨some 1,none⟩,.returned 0 ⟨some 1,none⟩ 0,.fetched 0 ⟨some 1,none⟩,
    .called 0 ⟨some 1,none⟩]

/-- A client adds a task and a worker calls its routine; when the routine has
returned, the worker gives the task back and goes to sleep. -/
theorem run_round :
    (∃ s,Run 1 s oneTask ∧ s.pc (.worker 0)=.running 0 ∧ s.tasks_queue.list=[]) ∧
    ∃ s,Run 1 s oneTask ∧ s.pc (.worker 0)=.waiting ∧ Stuck 1 s ∧ s.alive=true ∧ s.Returned := by
  obtain ⟨free,hfree,hok,hn,hl⟩ := initFree_spec (le_refl queueSize)
  have h0 : init 1=some ⟨.init,free,fun _ => .init,false,none,none,start 1⟩ := by
    rw [init,hfree]
    rfl
  have hne : free.num ≠ 0 := hn ▸ queueSize_pos.ne'
  obtain ⟨a,q,hdeq,hq,hqn,ha⟩ := hok.dequeue hne
  obtain rfl : a=0 := by
    have h1 := congrArg List.head? (ha.symm.trans hl)
    rw [List.head?_range,if_neg queueSize_pos.ne',List.head?_cons] at h1
    exact Option.some.inj h1
  have hq9999 : q.num=9999 := by
    have hsize : queueSize=10000 := rfl
    omega
  obtain ⟨q1,hq1,-,hq1n,-⟩ := hq.enqueue (by rw [hq9999]; decide) 0
  have r1 := (Run.init h0).then (.add 0 ⟨⟨some 1,none⟩,true⟩) [] rfl
  have r2 := r1.then (.move (.client 0)) [] rfl
  have r3 := r2.step (next_takeLoop (i := 0) (c := ⟨⟨some 1,none⟩,true⟩) rfl rfl hne)
  have r4 := r3.step (next_take (i := 0) (c := ⟨⟨some 1,none⟩,true⟩) rfl rfl hdeq)
  have r5 := r4.then (.move (.client 0)) [] rfl
  have r6 := r5.then (.move (.client 0)) [] rfl
  have r7 := r6.then (.move (.client 0)) [] rfl
  have r8 := r7.then (.move (.client 0)) [.queued 0 ⟨some 1,none⟩] rfl
  have r9 := r8.then (.move (.client 0)) [.returned 0 ⟨some 1,none⟩ 0] rfl
  have w1 := r9.then (.move (.worker 0)) [] rfl
  have w2 := w1.then (.move (.worker 0)) [] rfl
  have w3 := w2.then (.move (.worker 0)) [] rfl
  have w4 := w3.then (.move (.worker 0)) [] rfl
  have w5 := w4.then (.move (.worker 0)) [.fetched 0 ⟨some 1,none⟩] rfl
  have w6 := w5.then (.move (.worker 0)) [] rfl
  have w7 := w6.then (.move (.worker 0)) [.called 0 ⟨some 1,none⟩] rfl
  have v1 := w7.then (.finish 0) [] rfl
  have v2 := v1.then (.move (.worker 0)) [] rfl
  have v3 := v2.then (.move (.worker 0)) [] rfl
  have v4 := v3.step (next_give (i := 0) (a := 0) rfl rfl hq1 (by omega))
  have v5 := v4.then (.move (.worker 0)) [] rfl
  have v6 := v5.then (.move (.worker 0)) [] rfl
  have v7 := v6.then (.move (.worker 0)) [] rfl
  have v8 := v7.then (.move (.worker 0)) [] rfl
  have v9 := v8.then (.move (.worker 0)) [] rfl
  refine ⟨⟨_,w7,rfl,rfl⟩,_,v9,rfl,?_,rfl,?_⟩
  · rintro ((_|i)|(_|i)|_) <;> rfl
  · rintro (_|i) a ⟨⟩

/-- In every run tasks leave the queue in the order in which they were put in; a
worker has handled what it has fetched, in that order, but for a last one that
it holds; a client was told 0 for what it has put in, but for a call that is
about to return; and no error is reported. -/
theorem run_history (h : Run n s tr) :
    queuedTasks tr=fetchedTasks tr++s.tasks_queue.list.map s.tasks ∧
    (∀ i,fetchedBy i tr=handledBy i tr++((s.pc (.worker i)).hand.map s.tasks).toList) ∧
    (∀ i,queuedBy i tr=acceptedBy i tr++(s.pc (.client i)).debt.toList) ∧ ∀ e ∈ tr,e.Good := by
  obtain ⟨lost,-,ht,-⟩ := h.inv
  exact ⟨ht.fifo,ht.handled,ht.accepted,ht.good⟩

/-- The task that the worker runs. -/
theorem run_history_one : ∃ s,Run 1 s oneTask ∧ s.tasks_queue.list.map s.tasks=[] := by
  obtain ⟨⟨s,hrun,-,-⟩,-⟩ := run_round
  exact ⟨s,hrun,(List.append_cancel_left ((List.append_nil _).trans (run_history hrun).1)).symm⟩

/-- In every run a task of the array is waiting to be run, or free, or skipped,
or in the hands of one thread, and in one of these places only. -/
theorem run_tasks (h : Run n s tr) : ∃ lost : List ℕ,lost.length=tr.countP Event.isSkip ∧
    (s.tasks_queue.list++(s.free_tasks_queue.list++lost)).Nodup ∧
    (∀ t a,(s.pc t).slot=some a → a ∉ s.tasks_queue.list++(s.free_tasks_queue.list++lost) ∧
      ∀ u,(s.pc u).slot=some a → t=u) ∧
    ∀ a,a < queueSize ↔ (a ∈ s.tasks_queue.list ∨ a ∈ s.free_tasks_queue.list ∨ a ∈ lost) ∨
      ∃ t,(s.pc t).slot=some a := by
  obtain ⟨lost,hi,-,hl⟩ := h.inv
  refine ⟨lost,hl,hi.placed.nodup,fun t a ht => ⟨(hi.placed.held t a ht).2,fun u hu =>
    hi.placed.inj t u a ht hu⟩,fun a => ⟨fun ha => ?_,?_⟩⟩
  · refine (hi.placed.cover a ha).imp_left fun hm => ?_
    rwa [State.kept,List.mem_append,List.mem_append] at hm
  · rintro (hm|⟨t,ht⟩)
    · refine hi.placed.mem a ?_
      rwa [State.kept,List.mem_append,List.mem_append]
    · exact (hi.placed.held t a ht).1

/-- The task of the array that the worker runs is in no queue. -/
theorem run_tasks_one : ∃ s tr,Run 1 s tr ∧ s.pc (.worker 0)=.running 0 ∧
    0 ∉ s.tasks_queue.list ∧ 0 ∉ s.free_tasks_queue.list := by
  obtain ⟨⟨s,hrun,hp,-⟩,-⟩ := run_round
  obtain ⟨lost,-,-,hheld,-⟩ := run_tasks hrun
  have hnot := (hheld (.worker 0) 0 (by rw [hp]; rfl)).1
  refine ⟨s,_,hrun,hp,fun hm => hnot ?_,fun hm => hnot ?_⟩
  · exact List.mem_append_left _ hm
  · exact List.mem_append_right _ (List.mem_append_left _ hm)

/-- In every run a worker waits only while there is nothing to run, and, once the
pool is to stop, only until it is woken; a client waits only while no task is
free; and when the pool is freed every worker has returned. -/
theorem run_waits (h : Run n s tr) :
    (∀ i,s.pc (.worker i)=.waiting → s.tasks_queue.num=0 ∧
      (s.stop_flag=true → s.pc .stopper=.stopLock ∨ s.pc .stopper=.broadcast)) ∧
    (∀ i c,s.pc (.client i)=.blocked c → s.free_tasks_queue.num=0 ∧ c.blocking=true) ∧
    (s.pc .stopper=.freed → ∀ i < n,s.pc (.worker i)=.exited) := by
  obtain ⟨lost,hi,-,-⟩ := h.inv
  refine ⟨fun i hp => ?_,fun i c hp => ?_,fun hp => ?_⟩
  · have hl := hi.holds (.worker i)
    rw [hp] at hl
    exact hl
  · have hl := hi.holds (.client i)
    rw [hp] at hl
    exact hl
  · have hl := hi.holds .stopper
    rw [hp] at hl
    exact hl.2

/-- The sleeping worker has nothing to run. -/
theorem run_waits_sleep : ∃ s,Run 1 s [] ∧ s.pc (.worker 0)=.waiting ∧ s.tasks_queue.num=0 := by
  obtain ⟨s,hrun,hp,-⟩ := run_sleep
  exact ⟨s,hrun,hp,((run_waits hrun).1 0 hp).1⟩

/-- What a worker is waiting for that cannot move. -/
theorem worker_stuck {i : ℕ} (hfit : (s.pc (.worker i)).fits (.worker i)=true)
    (h : workerMove s i=none) : s.pc (.worker i)=.waiting ∨ s.pc (.worker i)=.exited ∨
      (((s.pc (.worker i))=.lock ∨ s.pc (.worker i)=.woken) ∧ s.mutex ≠ none) ∨
      (∃ a,s.pc (.worker i)=.giveLock a ∧ s.free_tasks_mutex ≠ none) ∨
      ∃ a,s.pc (.worker i)=.running a := by
  unfold workerMove at h
  cases hp : s.pc (.worker i) with
  | waiting => exact .inl rfl
  | exited => exact .inr (.inl rfl)
  | lock =>
    simp only [hp] at h
    split at h
    · cases h
    · next hm => exact .inr (.inr (.inl ⟨.inl rfl,hm⟩))
  | woken =>
    simp only [hp] at h
    split at h
    · cases h
    · next hm => exact .inr (.inr (.inl ⟨.inr rfl,hm⟩))
  | giveLock a =>
    simp only [hp] at h
    split at h
    · cases h
    · next hm => exact .inr (.inr (.inr (.inl ⟨a,rfl,hm⟩)))
  | running a => exact .inr (.inr (.inr (.inr ⟨a,rfl⟩)))
  | fetch =>
    simp only [hp] at h
    split at h <;> cases h
  | got r =>
    cases r with
    | none => simp [hp] at h
    | some a =>
      simp only [hp] at h
      split at h <;> cases h
  | give a =>
    simp only [hp] at h
    split at h <;> cases h
  | _ =>
    rw [hp] at hfit
    first | (simp [hp] at h; done) | cases hfit

/-- What a client is waiting for that cannot move. -/
theorem client_stuck {i : ℕ} (hfit : (s.pc (.client i)).fits (.client i)=true)
    (h : clientMove s i=none) : s.pc (.client i)=.idle ∨ (∃ c,s.pc (.client i)=.blocked c) ∨
      (∃ c,(s.pc (.client i)=.takeLock c ∨ s.pc (.client i)=.roused c) ∧
        s.free_tasks_mutex ≠ none) ∨
      ∃ c a,s.pc (.client i)=.putLock c a ∧ s.mutex ≠ none := by
  unfold clientMove at h
  cases hp : s.pc (.client i) with
  | idle => exact .inl rfl
  | blocked c => exact .inr (.inl ⟨c,rfl⟩)
  | takeLock c =>
    simp only [hp] at h
    split at h
    · cases h
    · next hm => exact .inr (.inr (.inl ⟨c,.inl rfl,hm⟩))
  | roused c =>
    simp only [hp] at h
    split at h
    · cases h
    · next hm => exact .inr (.inr (.inl ⟨c,.inr rfl,hm⟩))
  | putLock c a =>
    simp only [hp] at h
    split at h
    · cases h
    · next hm => exact .inr (.inr (.inr ⟨c,a,rfl,hm⟩))
  | takeLoop c =>
    simp only [hp] at h
    split at h <;> cases h
  | take c =>
    simp only [hp] at h
    split at h <;> cases h
  | put c a =>
    simp only [hp] at h
    split at h <;> cases h
  | _ =>
    rw [hp] at hfit
    first | (simp [hp] at h; done) | cases hfit

/-- What the thread that stops the pool is waiting for when it cannot move. -/
theorem stopper_stuck (hfit : (s.pc .stopper).fits .stopper=true) (h : stopperMove n s=none) :
    s.pc .stopper=.idle ∨ s.pc .stopper=.freed ∨ (s.pc .stopper=.stopLock ∧ s.mutex ≠ none) ∨
      ∃ k < n,s.pc .stopper=.join k ∧ s.pc (.worker k) ≠ .exited := by
  unfold stopperMove at h
  cases hp : s.pc .stopper with
  | idle => exact .inl rfl
  | freed => exact .inr (.inl rfl)
  | stopLock =>
    simp only [hp] at h
    split at h
    · cases h
    · next hm => exact .inr (.inr (.inl ⟨rfl,hm⟩))
  | join k =>
    simp only [hp] at h
    split at h
    · next hk =>
      split at h
      · cases h
      · next he => exact .inr (.inr (.inr ⟨k,hk,rfl,he⟩))
    · cases h
  | _ =>
    rw [hp] at hfit
    first | (simp [hp] at h; done) | cases hfit

/-- Where nothing can move, no thread can. -/
theorem Stuck.moves (hs : Stuck n s) (ha : s.alive=true) :
    (∀ i,workerMove s i=none) ∧ (∀ i,clientMove s i=none) ∧ stopperMove n s=none := by
  refine ⟨fun i => ?_,fun i => ?_,?_⟩
  · have h := hs (.worker i)
    rwa [next.eq_def,if_pos ha] at h
  · have h := hs (.client i)
    rwa [next.eq_def,if_pos ha] at h
  · have h := hs .stopper
    rwa [next.eq_def,if_pos ha] at h

/-- A thread that holds a mutex can move. -/
theorem Inv.unlocked (hi : Inv n s lost) (ha : s.alive=true) (hs : Stuck n s) :
    s.mutex=none ∧ s.free_tasks_mutex=none := by
  obtain ⟨hw,hc,hst⟩ := hs.moves ha
  have hout : ∀ t,((s.pc t).inMutex=true → False) ∧ ((s.pc t).inFree=true → False) := by
    rintro (i|i|_)
    · obtain h|h|⟨h|h,-⟩|⟨a,h,-⟩|⟨a,h⟩ := worker_stuck (hi.fits _) (hw i) <;> rw [h] <;>
        exact ⟨by rintro ⟨⟩,by rintro ⟨⟩⟩
    · obtain h|⟨c,h⟩|⟨c,h|h,-⟩|⟨c,a,h,-⟩ := client_stuck (hi.fits _) (hc i) <;> rw [h] <;>
        exact ⟨by rintro ⟨⟩,by rintro ⟨⟩⟩
    · obtain h|h|⟨h,-⟩|⟨k,-,h,-⟩ := stopper_stuck (hi.fits _) hst <;> rw [h] <;>
        exact ⟨by rintro ⟨⟩,by rintro ⟨⟩⟩
  refine ⟨?_,?_⟩
  · cases hm : s.mutex with
    | none => rfl
    | some t => exact absurd ((hi.mutex t).2 hm) (hout t).1
  · cases hm : s.free_tasks_mutex with
    | none => rfl
    | some t => exact absurd ((hi.freeMutex t).2 hm) (hout t).2

/-- A worker that cannot move waits or has returned, unless a routine runs. -/
theorem Inv.worker_rests (hi : Inv n s lost) (ha : s.alive=true) (hret : s.Returned)
    (hs : Stuck n s) (i : ℕ) : s.pc (.worker i)=.waiting ∨ s.pc (.worker i)=.exited := by
  obtain ⟨hm,hf⟩ := hi.unlocked ha hs
  obtain h|h|⟨-,h⟩|⟨a,-,h⟩|⟨a,h⟩ := worker_stuck (hi.fits _) ((hs.moves ha).1 i)
  · exact .inl h
  · exact .inr h
  · exact absurd hm h
  · exact absurd hf h
  · exact absurd h (hret i a)

/-- A pool in which no thread can move is not about to be freed: the workers were
woken, so that the next one to be joined has returned. -/
theorem Inv.stopper_rests (hi : Inv n s lost) (ha : s.alive=true) (hret : s.Returned)
    (hs : Stuck n s) : s.pc .stopper=.idle := by
  obtain ⟨hm,-⟩ := hi.unlocked ha hs
  obtain h|h|⟨-,h⟩|⟨k,hk,hp,he⟩ := stopper_stuck (hi.fits _) (hs.moves ha).2.2
  · exact h
  · exact absurd h (of_decide_eq_true ha)
  · exact absurd hm h
  · have hl := hi.holds .stopper
    rw [hp] at hl
    have hwait := (hi.worker_rests ha hret hs k).resolve_right he
    exact absurd hl.1 (hi.no_alarm hp (by rintro ⟨⟩) (by rintro ⟨⟩) _ (.inr hwait))

end Runs

end StudyCode.ThreadPool
