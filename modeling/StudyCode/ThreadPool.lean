import StudyCode.ThreadQueue

/-!
# The thread pool

Workers, callers and the thread that stops the pool move one after the other in
any order. A move is one access to what the threads share, or several that the
mutex held meanwhile protects. The calls of the thread library succeed; a thread
that waits for a condition may wake up at any time.

The routines are code of the callers. Nothing is assumed of them in a run: a
routine that was called returns at some time or never, as it likes, and a call
of threadpool_add_task in it is that of a client. A run ends where the pool is
freed. A caller that is inside of threadpool_add_task then would go on in freed
memory.
-/

namespace StudyCode.ThreadPool

open ThreadQueue

/-! ## The source -/

/-- The struct threadpool_task. Functions and data are numbers, none is NULL. -/
structure Task where
  /-- The function. -/
  routine_cb : Option ℕ
  /-- Its argument. -/
  data : Option ℕ
  deriving DecidableEq

/-- threadpool_task_init. -/
def Task.init : Task := ⟨none,none⟩

/-- The arguments of threadpool_add_task besides the pool. -/
structure Call where
  /-- The routine with its data. -/
  task : Task
  /-- Whether to wait for a free task. -/
  blocking : Bool
  deriving DecidableEq

/-- The threads. -/
inductive Thread where
  /-- A worker. -/
  | worker (i : ℕ)
  /-- A thread that adds tasks. -/
  | client (i : ℕ)
  /-- The thread that frees the pool. -/
  | stopper
  deriving DecidableEq

/-- Where a thread is. A task is given by its index. -/
inductive Pc where
  /-- The first test of stop_flag in threadpool_task_get_task. -/
  | test
  /-- Waits for mutex. -/
  | lock
  /-- The condition of the loop. -/
  | loop
  /-- Calls pthread_cond_wait. -/
  | enter
  /-- Waits for cond. -/
  | waiting
  /-- Has been woken up and waits for mutex. -/
  | woken
  /-- The test of stop_flag behind the loop. -/
  | check
  /-- Takes a task out of tasks_queue. -/
  | fetch
  /-- Unlocks mutex and returns a task or NULL. -/
  | unlock (r : Option ℕ)
  /-- Looks at the task in worker_thr_routine. -/
  | got (r : Option ℕ)
  /-- The routine runs. Only its end brings the worker back. -/
  | running (a : ℕ)
  /-- Behind the routine. -/
  | clear (a : ℕ)
  /-- Waits for free_tasks_mutex. -/
  | giveLock (a : ℕ)
  /-- Puts the task into free_tasks_queue. -/
  | give (a : ℕ)
  /-- Unlocks free_tasks_mutex and goes on, or leaves after an error. -/
  | giveUnlock (ok : Bool)
  /-- The worker has returned. -/
  | exited
  /-- Outside of the pool. -/
  | idle
  /-- Waits for free_tasks_mutex. -/
  | takeLock (c : Call)
  /-- The condition of the loop in threadpool_add_task. -/
  | takeLoop (c : Call)
  /-- Calls pthread_cond_wait. -/
  | takeEnter (c : Call)
  /-- Waits for free_tasks_cond. -/
  | blocked (c : Call)
  /-- Has been woken up and waits for free_tasks_mutex. -/
  | roused (c : Call)
  /-- Takes a task out of free_tasks_queue. -/
  | take (c : Call)
  /-- Unlocks free_tasks_mutex and returns an error. -/
  | refuse (c : Call) (code : ℤ)
  /-- Unlocks free_tasks_mutex. -/
  | taken (c : Call) (a : ℕ)
  /-- Writes the task. -/
  | store (c : Call) (a : ℕ)
  /-- Waits for mutex. -/
  | putLock (c : Call) (a : ℕ)
  /-- Puts the task into tasks_queue. -/
  | put (c : Call) (a : ℕ)
  /-- Unlocks mutex and returns. -/
  | putUnlock (c : Call) (code : ℤ)
  /-- Sets stop_flag. -/
  | flag
  /-- Waits for mutex. -/
  | stopLock
  /-- Wakes up the workers. -/
  | broadcast
  /-- Unlocks mutex. -/
  | stopUnlock
  /-- Joins the worker with this number and those behind it. -/
  | join (i : ℕ)
  /-- The pool is freed. -/
  | freed
  deriving DecidableEq

/-- The struct threadpool and the threads. -/
structure State where
  /-- The tasks to run. -/
  tasks_queue : Queue
  /-- The tasks that are not in use. -/
  free_tasks_queue : Queue
  /-- The array of the tasks. -/
  tasks : ℕ → Task
  /-- The pool is to stop. -/
  stop_flag : Bool
  /-- The thread that holds mutex. -/
  mutex : Option Thread
  /-- The thread that holds free_tasks_mutex. -/
  free_tasks_mutex : Option Thread
  /-- Where the threads are. -/
  pc : Thread → Pc

/-- What can be seen of a move. -/
inductive Event where
  /-- A task was put into tasks_queue. -/
  | queued (i : ℕ) (task : Task)
  /-- threadpool_add_task returns. -/
  | returned (i : ℕ) (task : Task) (code : ℤ)
  /-- A worker took a task out of tasks_queue. -/
  | fetched (i : ℕ) (task : Task)
  /-- A worker calls a routine. -/
  | called (i : ℕ) (task : Task)
  /-- A worker finds no routine to call. -/
  | skipped (i : ℕ) (task : Task)
  /-- REPORT_ERROR. -/
  | report
  deriving DecidableEq

/-- A thread goes on somewhere else. -/
def State.goto (s : State) (t : Thread) (p : Pc) : State := {s with pc := Function.update s.pc t p}

/-- Where a thread is that was woken from cond. -/
def Pc.wake : Pc → Pc
  | .waiting => .woken
  | p => p

/-- pthread_cond_broadcast on cond. -/
def State.wakeWorkers (s : State) : State := {s with pc := fun t => (s.pc t).wake}

/-- Where a thread is that was woken from free_tasks_cond. -/
def Pc.rouse : Pc → Pc
  | .blocked c => .roused c
  | p => p

/-- pthread_cond_broadcast on free_tasks_cond. -/
def State.wakeClients (s : State) : State := {s with pc := fun t => (s.pc t).rouse}

/-- The loop of threadpool_init over the tasks. -/
def initFree : ℕ → Option Queue
  | 0 => some .init
  | i+1 => (initFree i).bind fun q => q.enqueue i

/-- The places of the threads before they move. -/
def start (n : ℕ) : Thread → Pc
  | .worker i => if i < n then .test else .exited
  | _ => .idle

/-- threadpool_init for a number of workers below 2^16, where num_of_threads
counts them; none when it reports an error. A worker that is not yet created has
not moved. -/
def init (n : ℕ) : Option State :=
  (initFree queueSize).map fun free => ⟨.init,free,fun _ => .init,false,none,none,start n⟩

/-- A move of worker i: threadpool_task_get_task and worker_thr_routine. None
while it has to wait, or while a routine runs. -/
def workerMove (s : State) (i : ℕ) : Option (State×List Event) :=
  let t := Thread.worker i
  match s.pc t with
  | .test => some (s.goto t (if s.stop_flag then .got none else .lock),[])
  | .lock => if s.mutex=none then some ({s.goto t .loop with mutex := some t},[]) else none
  | .loop => some (s.goto t (if s.tasks_queue.num=0 ∧ !s.stop_flag then .enter else .check),[])
  | .enter => some ({s.goto t .waiting with mutex := none},[])
  | .woken => if s.mutex=none then some ({s.goto t .loop with mutex := some t},[]) else none
  | .check => some (s.goto t (if s.stop_flag then .unlock none else .fetch),[])
  | .fetch =>
    let r := s.tasks_queue.dequeue
    let s := {s.goto t (.unlock r.1) with tasks_queue := r.2}
    match r.1 with
    | none => some (s,[.report])
    | some a => some (s,[.fetched i (s.tasks a)])
  | .unlock r => some ({s.goto t (.got r) with mutex := none},[])
  | .got none => some (s.goto t .exited,if s.stop_flag then [] else [.report])
  | .got (some a) =>
    if (s.tasks a).routine_cb ≠ none then some (s.goto t (.running a),[.called i (s.tasks a)])
    else some (s.goto t .test,[.skipped i (s.tasks a)])
  | .clear a =>
    some ({s.goto t (.giveLock a) with tasks := Function.update s.tasks a .init},[])
  | .giveLock a =>
    if s.free_tasks_mutex=none then
      some ({s.goto t (.give a) with free_tasks_mutex := some t},[])
    else none
  | .give a =>
    match s.free_tasks_queue.enqueue a with
    | none => some (s.goto t (.giveUnlock false),[.report])
    | some q =>
      let s := {s.goto t (.giveUnlock true) with free_tasks_queue := q}
      some (if q.num=1 then s.wakeClients else s,[])
  | .giveUnlock ok =>
    some ({s.goto t (if ok then .test else .exited) with free_tasks_mutex := none},
      if ok then [] else [.report])
  | _ => none

/-- A move of a thread inside threadpool_add_task. -/
def clientMove (s : State) (i : ℕ) : Option (State×List Event) :=
  let t := Thread.client i
  match s.pc t with
  | .takeLock c =>
    if s.free_tasks_mutex=none then
      some ({s.goto t (.takeLoop c) with free_tasks_mutex := some t},[])
    else none
  | .takeLoop c =>
    if s.free_tasks_queue.num=0 then
      some (s.goto t (if c.blocking then .takeEnter c else .refuse c (-2)),[])
    else some (s.goto t (.take c),[])
  | .takeEnter c => some ({s.goto t (.blocked c) with free_tasks_mutex := none},[])
  | .roused c =>
    if s.free_tasks_mutex=none then
      some ({s.goto t (.takeLoop c) with free_tasks_mutex := some t},[])
    else none
  | .take c =>
    let r := s.free_tasks_queue.dequeue
    match r.1 with
    | none => some ({s.goto t (.refuse c (-1)) with free_tasks_queue := r.2},[.report])
    | some a => some ({s.goto t (.taken c a) with free_tasks_queue := r.2},[])
  | .refuse c code =>
    some ({s.goto t .idle with free_tasks_mutex := none},[.returned i c.task code])
  | .taken c a => some ({s.goto t (.store c a) with free_tasks_mutex := none},[])
  | .store c a =>
    some ({s.goto t (.putLock c a) with tasks := Function.update s.tasks a c.task},[])
  | .putLock c a =>
    if s.mutex=none then some ({s.goto t (.put c a) with mutex := some t},[]) else none
  | .put c a =>
    match s.tasks_queue.enqueue a with
    | none => some (s.goto t (.putUnlock c (-1)),[.report])
    | some q =>
      let s := {s.goto t (.putUnlock c 0) with tasks_queue := q}
      some (if q.num=1 then s.wakeWorkers else s,[.queued i (s.tasks a)])
  | .putUnlock c code => some ({s.goto t .idle with mutex := none},[.returned i c.task code])
  | _ => none

/-- A move inside stop_worker_thr_routines_cb with n workers. -/
def stopperMove (n : ℕ) (s : State) : Option (State×List Event) :=
  let t := Thread.stopper
  match s.pc t with
  | .flag => some ({s.goto t .stopLock with stop_flag := true},[])
  | .stopLock => if s.mutex=none then some ({s.goto t .broadcast with mutex := some t},[]) else none
  | .broadcast => some ((s.goto t .stopUnlock).wakeWorkers,[])
  | .stopUnlock => some ({s.goto t (.join 0) with mutex := none},[])
  | .join i =>
    if i < n then if s.pc (.worker i)=.exited then some (s.goto t (.join (i+1)),[]) else none
    else some (s.goto t .freed,[])
  | _ => none

/-- What may happen next. -/
inductive Act where
  /-- A thread moves. -/
  | move (t : Thread)
  /-- A thread calls threadpool_add_task. -/
  | add (i : ℕ) (c : Call)
  /-- A thread calls threadpool_free, once. -/
  | free
  /-- A thread wakes up without having been woken. -/
  | wake (t : Thread)
  /-- The routine that worker i has called returns. -/
  | finish (i : ℕ)

/-- Whether the memory of the pool is still there. -/
def State.alive (s : State) : Bool := s.pc .stopper ≠ .freed

/-- One step, with what can be seen of it. There is none any more once the pool
is freed. -/
def next (n : ℕ) (s : State) (act : Act) : Option (State×List Event) :=
  if s.alive then
    match act with
    | .move (.worker i) => workerMove s i
    | .move (.client i) => clientMove s i
    | .move .stopper => stopperMove n s
    | .add i c => if s.pc (.client i)=.idle then some (s.goto (.client i) (.takeLock c),[]) else none
    | .free => if s.pc .stopper=.idle then some (s.goto .stopper .flag,[]) else none
    | .wake t =>
      match s.pc t with
      | .waiting => some (s.goto t .woken,[])
      | .blocked c => some (s.goto t (.roused c),[])
      | _ => none
    | .finish i =>
      match s.pc (.worker i) with
      | .running a => some (s.goto (.worker i) (.clear a),[])
      | _ => none
  else none

/-- The runs of a pool with n workers, up to the end of the pool. -/
inductive Run (n : ℕ) : State → List Event → Prop
  /-- threadpool_init. -/
  | init {s : State} (h : init n=some s) : Run n s []
  /-- A further step. -/
  | step {s s1 : State} {tr ev : List Event} {act : Act} (h : Run n s tr)
      (hs : next n s act=some (s1,ev)) : Run n s1 (tr++ev)

end StudyCode.ThreadPool
