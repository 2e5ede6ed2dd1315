import StudyCode.ThreadPoolInv

/-!
# Runs of the thread pool

Every move keeps the invariant. What a thread knows depends on the queue whose
mutex it holds, so that the moves of the others do not touch it; a thread that
waits holds no mutex and is woken when it matters.
-/

namespace StudyCode.ThreadPool

open ThreadQueue Custody

/-! ## What other moves leave -/

section Frame

variable {n : ℕ} {s s1 : State} {lost lost1 : List ℕ} {ev : List Event} {t u : Thread} {p q : Pc}
  {f : Pc → Pc}

/-- The thread is there. -/
theorem goto_self (s : State) : (s.goto t p).pc t=p := Function.update_self _ _ _

/-- The others stay. -/
theorem goto_of_ne (s : State) (hu : u ≠ t) : (s.goto t p).pc u=s.pc u :=
  Function.update_of_ne hu _ _

theorem worker_ne_stopper {i : ℕ} : Thread.worker i ≠ .stopper := by rintro ⟨⟩

theorem client_ne_stopper {i : ℕ} : Thread.client i ≠ .stopper := by rintro ⟨⟩

/-- A change of places that wakes threads up at most. -/
structure Harmless (f : Pc → Pc) : Prop where
  /-- The owners of mutex stay. -/
  inMutex : ∀ p,(f p).inMutex=p.inMutex
  /-- The owners of free_tasks_mutex stay. -/
  inFree : ∀ p,(f p).inFree=p.inFree
  /-- The tasks of the array stay. -/
  slot : ∀ p,(f p).slot=p.slot
  /-- The fetched tasks stay. -/
  hand : ∀ p,(f p).hand=p.hand
  /-- The calls that return stay. -/
  debt : ∀ p,(f p).debt=p.debt
  /-- The places stay those of the threads. -/
  fits : ∀ t p,(f p).fits t=p.fits t
  /-- A thread that is moved has been woken up. -/
  moved : ∀ p,f p=p ∨ (p=.waiting ∧ f p=.woken) ∨ ∃ c,p=.blocked c ∧ f p=.roused c

/-- Waking no one. -/
theorem harmless_id : Harmless id :=
  ⟨fun _ => rfl,fun _ => rfl,fun _ => rfl,fun _ => rfl,fun _ => rfl,fun _ _ => rfl,fun _ => .inl rfl⟩

/-- Waking the workers. -/
theorem harmless_wake : Harmless Pc.wake := by
  constructor <;> intro p
  · cases p <;> rfl
  · cases p <;> rfl
  · cases p <;> rfl
  · cases p <;> rfl
  · cases p <;> rfl
  · intro q
    cases p <;> cases q <;> rfl
  · cases p
    case waiting => exact .inr (.inl ⟨rfl,rfl⟩)
    all_goals exact .inl rfl

/-- Waking the callers. -/
theorem harmless_rouse : Harmless Pc.rouse := by
  constructor <;> intro p
  · cases p <;> rfl
  · cases p <;> rfl
  · cases p <;> rfl
  · cases p <;> rfl
  · cases p <;> rfl
  · intro q
    cases p <;> cases q <;> rfl
  · cases p
    case blocked c => exact .inr (.inr ⟨c,rfl,rfl⟩)
    all_goals exact .inl rfl

/-- What a thread knows stays true when its queues and its task stay, except
that it may wait for a condition. -/
theorem Local.frame (h : Local n s t p)
    (hwait : p=.enter ∨ p=.waiting → Local n s1 t p)
    (hblocked : (∃ c,p=.blocked c) → Local n s1 t p)
    (htq : p.inMutex=true → s1.tasks_queue.num=s.tasks_queue.num)
    (hfq : p.inFree=true → s1.free_tasks_queue.num=s.free_tasks_queue.num)
    (htasks : ∀ a,p.slot=some a → s1.tasks a=s.tasks a)
    (hstop : s.stop_flag=true → s1.stop_flag=true)
    (hown : t=.stopper → s1.stop_flag=s.stop_flag)
    (hex : ∀ i,s.pc (.worker i)=.exited → s1.pc (.worker i)=.exited) : Local n s1 t p := by
  cases p with
  | enter => exact hwait (.inl rfl)
  | waiting => exact hwait (.inr rfl)
  | blocked c => exact hblocked ⟨c,rfl⟩
  | check => exact fun h0 => hstop (h ((htq rfl).symm.trans h0))
  | fetch => exact fun h0 => h ((htq rfl).symm.trans h0)
  | unlock r => exact fun h0 => hstop (h h0)
  | got r => exact fun h0 => hstop (h h0)
  | giveUnlock ok => exact h
  | exited => exact fun h0 => hstop (h h0)
  | idle => exact fun h0 => (hown h0).trans (h h0)
  | flag => exact fun h0 => (hown h0).trans (h h0)
  | takeEnter c => exact ⟨(hfq rfl).trans h.1,h.2⟩
  | take c => exact fun h0 => h ((hfq rfl).symm.trans h0)
  | refuse c code => exact h
  | putLock c a => exact (htasks a rfl).trans h
  | put c a => exact (htasks a rfl).trans h
  | putUnlock c code => exact h
  | stopLock => exact hstop h
  | broadcast => exact hstop h
  | stopUnlock => exact hstop h
  | join k => exact ⟨hstop h.1,fun i hi hk => hex i (h.2 i hi hk)⟩
  | freed => exact ⟨hstop h.1,fun i hi => hex i (h.2 i hi)⟩
  | _ => trivial

/-- A thread that waits, or is about to, where nothing that concerns it has
changed. -/
theorem Local.wait (h : Local n s t p) (hp : p=.enter ∨ p=.waiting)
    (hn : s1.tasks_queue.num=s.tasks_queue.num) (hstop : s1.stop_flag=s.stop_flag)
    (hst : s1.pc .stopper=s.pc .stopper) : Local n s1 t p := by
  obtain rfl|rfl := hp
  · exact ⟨hn.trans h.1,fun hs => hst.trans (h.2 (hstop ▸ hs))⟩
  · exact ⟨hn.trans h.1,fun hs => (h.2 (hstop ▸ hs)).imp hst.trans hst.trans⟩

/-- A caller that waits, where no task was freed. -/
theorem Local.blocked (h : Local n s t p) (hp : ∃ c,p=.blocked c)
    (hn : s1.free_tasks_queue.num=s.free_tasks_queue.num) : Local n s1 t p := by
  obtain ⟨c,rfl⟩ := hp
  exact ⟨hn.trans h.1,h.2⟩

/-- The invariant behind a change of one place, with threads woken up. -/
theorem Inv.update (hi : Inv n s lost) (hf : Harmless f)
    (hpc : s1.pc=fun u => f (Function.update s.pc t p u)) (htasks : s1.tasks_queue.Ok)
    (hfree : s1.free_tasks_queue.Ok) (hfit : p.fits t=true)
    (hm : Passes t s.mutex s1.mutex (s.pc t).inMutex p.inMutex)
    (hfm : Passes t s.free_tasks_mutex s1.free_tasks_mutex (s.pc t).inFree p.inFree)
    (hplaced : Placed (· < queueSize) (s1.kept lost1)
      (Function.update (fun u => (s.pc u).slot) t p.slot))
    (hself : Local n s1 t p)
    (hother : ∀ u,u ≠ t → f (s.pc u)=s.pc u → Local n s1 u (s.pc u)) : Inv n s1 lost1 where
  tasks := htasks
  free := hfree
  fits u := by
    rw [hpc]
    refine (hf.fits u _).trans ?_
    by_cases hu : u=t
    · rw [hu,Function.update_self]
      exact hfit
    · rw [Function.update_of_ne hu]
      exact hi.fits u
  mutex := by
    rw [hpc]
    exact (hi.mutex.passes hm).congr fun u => hf.inMutex _
  freeMutex := by
    rw [hpc]
    exact (hi.freeMutex.passes hfm).congr fun u => hf.inFree _
  placed := by
    rw [hpc]
    have hhold : (fun u => (f (Function.update s.pc t p u)).slot)=
        Function.update (fun u => (s.pc u).slot) t p.slot := by
      funext u
      rw [hf.slot]
      by_cases hu : u=t
      · rw [hu,Function.update_self,Function.update_self]
      · rw [Function.update_of_ne hu,Function.update_of_ne hu]
    rw [hhold]
    exact hplaced
  holds u := by
    have hp : s1.pc u=f (Function.update s.pc t p u) := congrFun hpc u
    obtain hsame|⟨-,hwoken⟩|⟨c,-,hroused⟩ := hf.moved (Function.update s.pc t p u)
    · rw [hp,hsame]
      by_cases hu : u=t
      · rw [hu,Function.update_self]
        exact hself
      · rw [Function.update_of_ne hu] at hsame ⊢
        exact hother u hu hsame
    · rw [hp,hwoken]
      trivial
    · rw [hp,hroused]
      trivial

/-- The places of the other threads, when only one thread moves and none is
woken. -/
theorem update_slot (hslot : p.slot=(s.pc t).slot) :
    Function.update (fun u => (s.pc u).slot) t p.slot=fun u => (s.pc u).slot := by
  rw [hslot]
  exact Function.update_eq_self t _

/-- A thread that does not wait for a condition stays where it is. -/
theorem Harmless.same (hf : Harmless f) (hw : p ≠ .waiting) (hb : ∀ c,p ≠ .blocked c) : f p=p := by
  obtain h|⟨h,-⟩|⟨c,h,-⟩ := hf.moved p
  · exact h
  · exact absurd h hw
  · exact absurd h (hb c)

/-- The thread that stops the pool does not wait for a condition. -/
theorem Inv.stopper_same (hi : Inv n s lost) (hf : Harmless f) :
    f (s.pc .stopper)=s.pc .stopper := by
  have hfit := hi.fits .stopper
  refine hf.same (fun h => ?_) fun c h => ?_
  · rw [h] at hfit
    cases hfit
  · rw [h] at hfit
    cases hfit

/-- A move of a thread other than that which stops the pool. It may change the
length of a queue when it holds the mutex and leaves no one waiting. -/
theorem Inv.moved (hi : Inv n s lost) (hp : s.pc t=q) (hf : Harmless f) (ht : t ≠ .stopper)
    (hold : q ≠ .exited) (hpc : s1.pc=fun u => f (Function.update s.pc t p u))
    (htasks : s1.tasks_queue.Ok) (hfree : s1.free_tasks_queue.Ok) (hfit : p.fits t=true)
    (hm : Passes t s.mutex s1.mutex q.inMutex p.inMutex)
    (hfm : Passes t s.free_tasks_mutex s1.free_tasks_mutex q.inFree p.inFree)
    (hplaced : Placed (· < queueSize) (s1.kept lost1)
      (Function.update (fun u => (s.pc u).slot) t p.slot))
    (hself : Local n s1 t p) (hstop : s1.stop_flag=s.stop_flag)
    (hn : s1.tasks_queue.num=s.tasks_queue.num ∨ q.inMutex=true ∧
      ∀ u,s.pc u=.waiting → f .waiting ≠ .waiting)
    (hfn : s1.free_tasks_queue.num=s.free_tasks_queue.num ∨ q.inFree=true ∧
      ∀ u c,s.pc u=.blocked c → f (.blocked c) ≠ .blocked c)
    (hval : ∀ u,u ≠ t → ∀ a,(s.pc u).slot=some a → s1.tasks a=s.tasks a) : Inv n s1 lost1 := by
  subst hp
  have hst : s1.pc .stopper=s.pc .stopper := by
    rw [hpc]
    show f (Function.update s.pc t p .stopper)=_
    rw [Function.update_of_ne ht.symm]
    exact hi.stopper_same hf
  refine hi.update hf hpc htasks hfree hfit hm hfm hplaced hself fun u hut hsame => ?_
  have hnum : (s.pc u).inMutex=true → s1.tasks_queue.num=s.tasks_queue.num := fun hu =>
    hn.resolve_right fun h => hut (hi.mutex.unique hu h.1)
  have hfnum : (s.pc u).inFree=true → s1.free_tasks_queue.num=s.free_tasks_queue.num := fun hu =>
    hfn.resolve_right fun h => hut (hi.freeMutex.unique hu h.1)
  refine (hi.holds u).frame (fun hp => ?_) (fun hp => ?_) hnum hfnum (hval u hut)
    (fun h => hstop.trans h) (fun _ => hstop) (fun i hex => ?_)
  · refine (hi.holds u).wait hp ?_ hstop hst
    obtain hp|hp := hp
    · exact hnum (by rw [hp]; rfl)
    · exact hn.resolve_right fun h => h.2 u hp (by rw [hp] at hsame; exact hsame)
  · refine (hi.holds u).blocked hp ?_
    obtain ⟨c,hp⟩ := hp
    exact hfn.resolve_right fun h => h.2 u c hp (by rw [hp] at hsame; exact hsame)
  · rw [hpc]
    show f (Function.update s.pc t p (.worker i))=_
    have hne : Thread.worker i ≠ t := by
      rintro rfl
      exact hold hex
    rw [Function.update_of_ne hne,hex]
    exact hf.same (by rintro ⟨⟩) (by rintro _ ⟨⟩)

/-- It has no task. -/
theorem stopper_slot (h : p.fits .stopper=true) : p.slot=none ∧ p.inFree=false := by
  cases p <;> first | exact ⟨rfl,rfl⟩ | cases h

/-- A move of the thread that stops the pool. -/
theorem Inv.stopped (hi : Inv n s lost) (hp : s.pc .stopper=q) (hf : Harmless f)
    (hpc : s1.pc=fun u => f (Function.update s.pc .stopper p u))
    (htq : s1.tasks_queue=s.tasks_queue) (hfq : s1.free_tasks_queue=s.free_tasks_queue)
    (htasks : s1.tasks=s.tasks) (hfit : p.fits .stopper=true)
    (hm : Passes .stopper s.mutex s1.mutex q.inMutex p.inMutex)
    (hfm : s1.free_tasks_mutex=s.free_tasks_mutex) (hself : Local n s1 .stopper p)
    (hstop : s.stop_flag=true → s1.stop_flag=true)
    (hwait : ∀ u,s.pc u=.enter ∨ s.pc u=.waiting → f (s.pc u)=s.pc u → Local n s1 u (s.pc u)) :
    Inv n s1 lost := by
  subst hp
  have hslot := stopper_slot (hi.fits .stopper)
  have hslot1 := stopper_slot hfit
  refine hi.update hf hpc (htq ▸ hi.tasks) (hfq ▸ hi.free) hfit hm ?_ ?_ hself fun u hut hsame => ?_
  · rw [hfm,hslot.2,hslot1.2]
    exact .keep _ _
  · rw [update_slot (hslot1.1.trans hslot.1.symm),State.kept,htq,hfq]
    exact hi.placed
  · refine (hi.holds u).frame (fun hp => hwait u hp hsame) (fun hp => ?_) (fun _ => by rw [htq])
      (fun _ => by rw [hfq]) (fun a _ => by rw [htasks]) hstop (fun h => absurd h hut) fun i hex => ?_
    · exact (hi.holds u).blocked hp (by rw [hfq])
    · rw [hpc]
      show f (Function.update s.pc .stopper p (.worker i))=_
      rw [Function.update_of_ne worker_ne_stopper,hex]
      exact hf.same (by rintro ⟨⟩) (by rintro _ ⟨⟩)

end Frame

/-! ## The invariant of the runs -/

section Step

variable {n : ℕ} {s s1 : State} {lost : List ℕ} {ev : List Event}

/-- The events of skipped tasks. -/
def Event.isSkip : Event → Bool
  | .skipped _ _ => true
  | _ => false

/-- Two threads have different tasks. -/
theorem Inv.slot_ne (hi : Inv n s lost) {t u : Thread} {a b : ℕ} (ha : (s.pc t).slot=some a)
    (hb : (s.pc u).slot=some b) (hut : u ≠ t) : b ≠ a := by
  rintro rfl
  exact hut (hi.placed.inj u t b hb ha)

/-- A worker waits only while there is nothing to run. -/
theorem Inv.waiting_empty (hi : Inv n s lost) {u : Thread} (hu : s.pc u=.waiting) :
    s.tasks_queue.num=0 := by
  have hw := hi.holds u
  rw [hu] at hw
  exact hw.1

/-- A caller waits only while no task is free. -/
theorem Inv.blocked_empty (hi : Inv n s lost) {u : Thread} {c : Call} (hu : s.pc u=.blocked c) :
    s.free_tasks_queue.num=0 := by
  have hw := hi.holds u
  rw [hu] at hw
  exact hw.1

/-- Behind the broadcast of the thread that stops the pool, no thread waits. -/
theorem Inv.no_alarm (hi : Inv n s lost) {q : Pc} (hq : s.pc .stopper=q) (h1 : q ≠ .stopLock)
    (h2 : q ≠ .broadcast) (u : Thread) (hu : s.pc u=.enter ∨ s.pc u=.waiting) :
    ¬s.stop_flag=true := by
  intro hs
  have hl := hi.holds u
  obtain hu|hu := hu <;> rw [hu] at hl
  · exact h1 (hq.symm.trans (hl.2 hs))
  · obtain h|h := hl.2 hs
    · exact h1 (hq.symm.trans h)
    · exact h2 (hq.symm.trans h)

/-! ## Moves of workers and callers -/

/-- A move that changes no more than the place of a thread and the mutexes. -/
theorem Inv.turn (hi : Inv n s lost) {t : Thread} {p q : Pc} {m f : Option Thread}
    (hp : s.pc t=q) (ht : t ≠ .stopper) (hold : q ≠ .exited) (hfit : p.fits t=true)
    (hm : Passes t s.mutex m q.inMutex p.inMutex)
    (hf : Passes t s.free_tasks_mutex f q.inFree p.inFree) (hslot : p.slot=q.slot)
    (hl : Local n {s with pc := Function.update s.pc t p} t p) :
    Inv n {s with pc := Function.update s.pc t p,mutex := m,free_tasks_mutex := f} lost := by
  subst hp
  refine hi.moved rfl harmless_id ht hold rfl hi.tasks hi.free hfit hm hf ?_ ?_ rfl (.inl rfl)
    (.inl rfl) fun _ _ _ _ => rfl
  · rw [update_slot hslot]
    exact hi.placed
  · exact hl.frame (fun hp => hl.wait hp rfl rfl rfl) (fun hp => hl.blocked hp rfl) (fun _ => rfl)
      (fun _ => rfl) (fun _ _ => rfl) id (fun _ => rfl) (fun _ => id)

/-- A thread that has a task of the array writes it. -/
theorem Inv.write (hi : Inv n s lost) {t : Thread} {p q : Pc} {a : ℕ} (task : Task)
    (hp : s.pc t=q) (ht : t ≠ .stopper) (hold : q ≠ .exited) (hfit : p.fits t=true)
    (hm : p.inMutex=q.inMutex) (hf : p.inFree=q.inFree) (hq : q.slot=some a) (hslot : p.slot=some a)
    (hl : Local n {s with tasks := Function.update s.tasks a task,
                          pc := Function.update s.pc t p} t p) :
    Inv n {s with tasks := Function.update s.tasks a task,pc := Function.update s.pc t p} lost := by
  subst hp
  refine hi.moved rfl harmless_id ht hold rfl hi.tasks hi.free hfit (hm ▸ .keep _ _) (hf ▸ .keep _ _)
    ?_ hl rfl (.inl rfl) (.inl rfl) fun u hu b hb => ?_
  · rw [update_slot (hslot.trans hq.symm)]
    exact hi.placed
  · exact Function.update_of_ne (hi.slot_ne hq hb hu) _ _

/-- A worker takes a task out of tasks_queue. -/
theorem Inv.fetch (hi : Inv n s lost) {i a : ℕ} {q : Queue} (hp : s.pc (.worker i)=.fetch)
    (hq : q.Ok) (hn : s.tasks_queue.num=q.num+1) (hl : s.tasks_queue.list=a::q.list) :
    Inv n {s with tasks_queue := q,pc := Function.update s.pc (.worker i) (.unlock (some a))}
      lost := by
  refine hi.moved (p := .unlock (some a)) hp harmless_id worker_ne_stopper (by rintro ⟨⟩) rfl hq
    hi.free rfl (.keep _ _) (.keep _ _) ?_ (by rintro ⟨⟩) rfl (.inr ⟨rfl,fun u hu => ?_⟩) (.inl rfl)
    fun _ _ _ _ => rfl
  · refine Placed.take (a := a) ?_ (by rw [hp]; rfl)
    have hk := hi.placed
    rw [State.kept,hl] at hk
    exact hk
  · have h0 := hi.waiting_empty hu
    omega

/-- A worker lets a task of the array go that has no routine. -/
theorem Inv.skip (hi : Inv n s lost) {i a : ℕ} (hp : s.pc (.worker i)=.got (some a)) :
    Inv n (s.goto (.worker i) .test) (a::lost) := by
  refine hi.moved (p := .test) hp harmless_id worker_ne_stopper (by rintro ⟨⟩) rfl hi.tasks hi.free
    rfl (.keep _ _) (.keep _ _) ?_ trivial rfl (.inl rfl) (.inl rfl) fun _ _ _ _ => rfl
  refine (Placed.give (a := a) hi.placed (by rw [hp]; rfl)).perm ?_
  rw [State.kept,State.kept,←List.append_assoc,←List.append_assoc]
  exact List.perm_middle.symm

/-- When there is one free task behind its move, the thread wakes the callers; when
there are more, no caller waits. -/
theorem Inv.roused (hi : Inv n s lost) {m : ℕ} {pc pc1 : Thread → Pc}
    (hn : m=s.free_tasks_queue.num+1) (hpc : pc1=(if m=1 then fun u => (pc u).rouse else pc)) :
    ∃ f,Harmless f ∧ pc1=(fun u => f (pc u)) ∧
      ∀ u c,s.pc u=.blocked c → f (.blocked c) ≠ .blocked c := by
  by_cases h1 : m=1
  · rw [if_pos h1] at hpc
    exact ⟨_,harmless_rouse,hpc,by rintro _ _ _ ⟨⟩⟩
  · rw [if_neg h1] at hpc
    refine ⟨id,harmless_id,hpc,fun u c hu => ?_⟩
    have h0 := hi.blocked_empty hu
    omega

/-- When there is one task to run behind its move, the thread wakes the workers;
when there are more, no worker waits. -/
theorem Inv.woken (hi : Inv n s lost) {m : ℕ} {pc pc1 : Thread → Pc}
    (hn : m=s.tasks_queue.num+1) (hpc : pc1=(if m=1 then fun u => (pc u).wake else pc)) :
    ∃ f,Harmless f ∧ pc1=(fun u => f (pc u)) ∧ ∀ u,s.pc u=.waiting → f .waiting ≠ .waiting := by
  by_cases h1 : m=1
  · rw [if_pos h1] at hpc
    exact ⟨_,harmless_wake,hpc,by rintro _ _ ⟨⟩⟩
  · rw [if_neg h1] at hpc
    refine ⟨id,harmless_id,hpc,fun u hu => ?_⟩
    have h0 := hi.waiting_empty hu
    omega

/-- A worker puts its task into free_tasks_queue. -/
theorem Inv.give (hi : Inv n s lost) {i a : ℕ} {q : Queue} {pc : Thread → Pc}
    (hp : s.pc (.worker i)=.give a) (hq : q.Ok) (hn : q.num=s.free_tasks_queue.num+1)
    (hl : q.list=s.free_tasks_queue.list++[a])
    (hpc : pc=(if q.num=1 then
        (fun u => (Function.update s.pc (.worker i) (.giveUnlock true) u).rouse)
      else Function.update s.pc (.worker i) (.giveUnlock true))) :
    Inv n {s with free_tasks_queue := q,pc := pc} lost := by
  obtain ⟨f,hf,hpcf,hw⟩ := hi.roused hn hpc
  refine hi.moved (p := .giveUnlock true) hp hf worker_ne_stopper (by rintro ⟨⟩) hpcf hi.tasks hq rfl
    (.keep _ _) (.keep _ _) ?_ rfl rfl (.inl rfl) (.inr ⟨rfl,hw⟩) fun _ _ _ _ => rfl
  refine (Placed.give (a := a) hi.placed (by rw [hp]; rfl)).perm ?_
  rw [State.kept,State.kept,hl,List.append_assoc,List.singleton_append,←List.append_assoc,
    ←List.append_assoc]
  exact List.perm_middle.symm

/-- A caller takes a task out of free_tasks_queue. -/
theorem Inv.take (hi : Inv n s lost) {i a : ℕ} {c : Call} {q : Queue}
    (hp : s.pc (.client i)=.take c) (hq : q.Ok) (hn : s.free_tasks_queue.num=q.num+1)
    (hl : s.free_tasks_queue.list=a::q.list) :
    Inv n {s with free_tasks_queue := q,pc := Function.update s.pc (.client i) (.taken c a)}
      lost := by
  refine hi.moved (p := .taken c a) hp harmless_id client_ne_stopper (by rintro ⟨⟩) rfl hi.tasks hq
    rfl (.keep _ _) (.keep _ _) ?_ trivial rfl (.inl rfl) (.inr ⟨rfl,fun u c1 hu => ?_⟩)
    fun _ _ _ _ => rfl
  · refine Placed.take (a := a) (hi.placed.perm ?_) (by rw [hp]; rfl)
    rw [State.kept,State.kept,hl]
    exact List.perm_middle
  · have h0 := hi.blocked_empty hu
    omega

/-- A caller puts its task into tasks_queue. -/
theorem Inv.put (hi : Inv n s lost) {i a : ℕ} {c : Call} {q : Queue} {pc : Thread → Pc}
    (hp : s.pc (.client i)=.put c a) (hq : q.Ok) (hn : q.num=s.tasks_queue.num+1)
    (hl : q.list=s.tasks_queue.list++[a])
    (hpc : pc=(if q.num=1 then
        (fun u => (Function.update s.pc (.client i) (.putUnlock c 0) u).wake)
      else Function.update s.pc (.client i) (.putUnlock c 0))) :
    Inv n {s with tasks_queue := q,pc := pc} lost := by
  obtain ⟨f,hf,hpcf,hw⟩ := hi.woken hn hpc
  refine hi.moved (p := .putUnlock c 0) hp hf client_ne_stopper (by rintro ⟨⟩) hpcf hq hi.free rfl
    (.keep _ _) (.keep _ _) ?_ rfl rfl (.inr ⟨rfl,hw⟩) (.inl rfl) fun _ _ _ _ => rfl
  refine (Placed.give (a := a) hi.placed (by rw [hp]; rfl)).perm ?_
  rw [State.kept,State.kept,hl,List.append_assoc,List.singleton_append]
  exact List.perm_middle.symm

/-! ## Moves of the thread that stops the pool -/

/-- It is about to set the flag. -/
theorem Inv.stopFree (hi : Inv n s lost) (hp : s.pc .stopper=.idle) :
    Inv n (s.goto .stopper .flag) lost := by
  have hw := hi.holds .stopper
  rw [hp] at hw
  have hs : s.stop_flag=false := hw rfl
  refine hi.stopped (p := .flag) hp harmless_id rfl rfl rfl rfl rfl (.keep _ _) rfl (fun _ => hs) id
    fun u hu _ => ?_
  have hu1 := hi.holds u
  obtain hu|hu := hu <;> rw [hu] at hu1 ⊢ <;>
    exact ⟨hu1.1,fun h => by rw [show s.stop_flag=true from h] at hs; cases hs⟩

/-- It sets the flag; the workers that wait are still to be woken. -/
theorem Inv.stopFlag (hi : Inv n s lost) (hp : s.pc .stopper=.flag) :
    Inv n {s.goto .stopper .stopLock with stop_flag := true} lost := by
  refine hi.stopped (p := .stopLock) hp harmless_id rfl rfl rfl rfl rfl (.keep _ _) rfl rfl
    (fun _ => rfl) fun u hu _ => ?_
  have hu1 := hi.holds u
  have hst : (s.goto .stopper .stopLock).pc .stopper=.stopLock := goto_self s
  obtain hu|hu := hu <;> rw [hu] at hu1 ⊢
  · exact ⟨hu1.1,fun _ => hst⟩
  · exact ⟨hu1.1,fun _ => .inl hst⟩

/-- It takes mutex; no worker is then about to wait. -/
theorem Inv.stopLock (hi : Inv n s lost) (hp : s.pc .stopper=.stopLock) (hm : s.mutex=none) :
    Inv n {s.goto .stopper .broadcast with mutex := some .stopper} lost := by
  have hs : s.stop_flag=true := by
    have hw := hi.holds .stopper
    rw [hp] at hw
    exact hw
  refine hi.stopped (p := .broadcast) hp harmless_id rfl rfl rfl rfl rfl (hm ▸ .acquire _) rfl hs id
    fun u hu _ => ?_
  have hu1 := hi.holds u
  obtain hu|hu := hu
  · have hin := (hi.mutex u).1 (by rw [hu]; rfl)
    rw [hm] at hin
    cases hin
  · have hst : (s.goto .stopper .broadcast).pc .stopper=.broadcast := goto_self s
    rw [hu] at hu1 ⊢
    exact ⟨hu1.1,fun _ => .inr hst⟩

/-- It wakes the workers that wait. -/
theorem Inv.stopBroadcast (hi : Inv n s lost) (hp : s.pc .stopper=.broadcast) :
    Inv n (s.goto .stopper .stopUnlock).wakeWorkers lost := by
  have hs : s.stop_flag=true := by
    have hw := hi.holds .stopper
    rw [hp] at hw
    exact hw
  refine hi.stopped (p := .stopUnlock) hp harmless_wake rfl rfl rfl rfl rfl (.keep _ _) rfl hs id
    fun u hu hsame => ?_
  obtain hu|hu := hu
  · have hne : u ≠ .stopper := by
      rintro rfl
      rw [hp] at hu
      cases hu
    exact absurd (hi.mutex.unique (by rw [hu]; rfl) (by rw [hp]; rfl)) hne
  · rw [hu] at hsame
    cases hsame

/-- It gives mutex back and has joined no worker yet. -/
theorem Inv.stopUnlock (hi : Inv n s lost) (hp : s.pc .stopper=.stopUnlock) :
    Inv n {s.goto .stopper (.join 0) with mutex := none} lost := by
  have hs : s.stop_flag=true := by
    have hw := hi.holds .stopper
    rw [hp] at hw
    exact hw
  refine hi.stopped (p := .join 0) hp harmless_id rfl rfl rfl rfl rfl (.release _) rfl
    ⟨hs,fun i _ h0 => absurd h0 (Nat.not_lt_zero i)⟩ id fun u hu _ => ?_
  exact absurd hs (hi.no_alarm hp (by rintro ⟨⟩) (by rintro ⟨⟩) u hu)

/-- It has joined one worker more. -/
theorem Inv.stopJoin (hi : Inv n s lost) {k : ℕ} (hp : s.pc .stopper=.join k)
    (he : s.pc (.worker k)=.exited) : Inv n (s.goto .stopper (.join (k+1))) lost := by
  have hw := hi.holds .stopper
  rw [hp] at hw
  refine hi.stopped (p := .join (k+1)) hp harmless_id rfl rfl rfl rfl rfl (.keep _ _) rfl
    ⟨hw.1,fun i hin hik => ?_⟩ id fun u hu _ => ?_
  · refine (goto_of_ne s worker_ne_stopper).trans ?_
    obtain hlt|rfl := Nat.lt_succ_iff_lt_or_eq.1 hik
    · exact hw.2 i hin hlt
    · exact he
  · exact absurd hw.1 (hi.no_alarm hp (by rintro ⟨⟩) (by rintro ⟨⟩) u hu)

/-- It has joined every worker and frees the pool. -/
theorem Inv.stopFreed (hi : Inv n s lost) {k : ℕ} (hp : s.pc .stopper=.join k) (hk : n ≤ k) :
    Inv n (s.goto .stopper .freed) lost := by
  have hw := hi.holds .stopper
  rw [hp] at hw
  refine hi.stopped (p := .freed) hp harmless_id rfl rfl rfl rfl rfl (.keep _ _) rfl
    ⟨hw.1,fun i hin => ?_⟩ id fun u hu _ => ?_
  · exact (goto_of_ne s worker_ne_stopper).trans (hw.2 i hin (by omega))
  · exact absurd hw.1 (hi.no_alarm hp (by rintro ⟨⟩) (by rintro ⟨⟩) u hu)

/-! ## Every move -/

/-- Every move keeps the invariant; a skipped task is lost. -/
theorem Inv.step (hi : Inv n s lost) (h : Move n s s1 ev) :
    ∃ lost1,Inv n s1 lost1 ∧ lost1.length=lost.length+ev.countP Event.isSkip := by
  cases h with
  | plain ht hfit hold hm hf hslot hhand hdebt hl =>
    exact ⟨lost,hi.turn rfl ht hold hfit hm hf hslot hl,rfl⟩
  | fetch hp hq hn hl => exact ⟨lost,hi.fetch hp hq hn hl,rfl⟩
  | call hp hr =>
    exact ⟨lost,hi.turn hp worker_ne_stopper (by rintro ⟨⟩) rfl (.keep _ _) (.keep _ _) rfl trivial,
      rfl⟩
  | @skip i a hp hr => exact ⟨a::lost,hi.skip hp,rfl⟩
  | clear hp =>
    exact ⟨lost,hi.write .init hp worker_ne_stopper (by rintro ⟨⟩) rfl rfl rfl rfl rfl trivial,rfl⟩
  | give hp hq hn hl hpc => exact ⟨lost,hi.give hp hq hn hl hpc,rfl⟩
  | take hp hq hn hl => exact ⟨lost,hi.take hp hq hn hl,rfl⟩
  | store hp =>
    exact ⟨lost,hi.write _ hp client_ne_stopper (by rintro ⟨⟩) rfl rfl rfl rfl rfl
      (Function.update_self _ _ _),rfl⟩
  | put hp hq hn hl hpc => exact ⟨lost,hi.put hp hq hn hl hpc,rfl⟩
  | accept hp =>
    exact ⟨lost,hi.turn hp client_ne_stopper (by rintro ⟨⟩) rfl (.release _) (.keep _ _) rfl
      (by rintro ⟨⟩),rfl⟩
  | refuse hp =>
    exact ⟨lost,hi.turn hp client_ne_stopper (by rintro ⟨⟩) rfl (.keep _ _) (.release _) rfl
      (by rintro ⟨⟩),rfl⟩
  | free hp => exact ⟨lost,hi.stopFree hp,rfl⟩
  | flag hp => exact ⟨lost,hi.stopFlag hp,rfl⟩
  | stopLock hp hm => exact ⟨lost,hi.stopLock hp hm,rfl⟩
  | broadcast hp => exact ⟨lost,hi.stopBroadcast hp,rfl⟩
  | stopUnlock hp => exact ⟨lost,hi.stopUnlock hp,rfl⟩
  | join hp hk he => exact ⟨lost,hi.stopJoin hp he,rfl⟩
  | freed hp hk => exact ⟨lost,hi.stopFreed hp hk,rfl⟩

end Step

end StudyCode.ThreadPool
