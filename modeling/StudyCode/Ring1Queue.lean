import StudyCode.Ring1

/-!
# Runs of the lock-free queue

The invariant names the list behind the sentinel. It says where rear may be
while a swap of the other thread is due: behind the last node but one during
a push, or on a node that a pop has already unlinked. Clear steps keep it,
and between calls it is what the queue promises.
-/

namespace StudyCode.Ring1

section Paths

variable {next : ℕ → Option ℕ}

/-- Only the nodes of a path matter for it. -/
theorem Path.congr {next' : ℕ → Option ℕ} {a : ℕ} {c : List ℕ} (h : Path next a c)
    (he : ∀ x ∈ a::c,next' x=next x) : Path next' a c := by
  induction c generalizing a with
  | nil => exact (he a (by simp)).trans h
  | cons b c ih =>
    exact ⟨(he a (by simp)).trans h.1,ih h.2 fun x hx => he x (List.mem_cons_of_mem a hx)⟩

/-- The last node of a path has no successor. -/
theorem Path.last {a z : ℕ} {c l : List ℕ} (h : Path next a c) (hl : a::c=l++[z]) : next z=none := by
  induction c generalizing a l with
  | nil =>
    cases l with
    | nil =>
      obtain rfl := (List.cons.inj hl).1
      exact h
    | cons x l => simp at hl
  | cons b c ih =>
    cases l with
    | nil => simp at hl
    | cons x l => exact ih h.2 (List.cons.inj hl).2

/-- A node without successor is the last one. -/
theorem Path.last_of_none {a z : ℕ} {c : List ℕ} (h : Path next a c) (hz : z ∈ a::c)
    (hn : next z=none) : ∃ l,a::c=l++[z] := by
  induction c generalizing a with
  | nil =>
    rw [List.mem_singleton.mp hz]
    exact ⟨[],rfl⟩
  | cons b c ih =>
    rcases List.mem_cons.mp hz with rfl|hz
    · rw [h.1] at hn
      cases hn
    · obtain ⟨l,hl⟩ := ih h.2 hz
      exact ⟨a::l,by rw [hl];rfl⟩

/-- Linking a new node behind the last one extends the path. -/
theorem Path.snoc {a z t : ℕ} {c l : List ℕ} (h : Path next a c) (hl : a::c=l++[z])
    (hd : (a::c).Nodup) (ht : t ∉ a::c) (hn : next t=none) :
    Path (upd next z (some t)) a (c++[t]) := by
  induction c generalizing a l with
  | nil =>
    cases l with
    | nil =>
      obtain rfl := (List.cons.inj hl).1
      have hta : t≠a := fun he => ht (by simp [he])
      exact ⟨if_pos rfl,(if_neg hta).trans hn⟩
    | cons x l => simp at hl
  | cons b c ih =>
    cases l with
    | nil => simp at hl
    | cons x l =>
      have hl' : b::c=l++[z] := (List.cons.inj hl).2
      have haz : a≠z := by
        rintro rfl
        have hm : a ∈ b::c := by rw [hl'];simp
        exact (List.nodup_cons.mp hd).1 hm
      refine ⟨(if_neg haz).trans h.1,?_⟩
      exact ih h.2 hl' (List.nodup_cons.mp hd).2 fun hm => ht (List.mem_cons_of_mem a hm)

/-- Swinging the first pointer over the first node drops it from the path. -/
theorem Path.dropFirst {a t : ℕ} {c : List ℕ} (h : Path next a (t::c)) (hd : (a::t::c).Nodup) :
    Path (upd next a (next t)) a c := by
  have ha : a ∉ t::c := (List.nodup_cons.mp hd).1
  have hfar : ∀ x ∈ c,upd next a (next t) x=next x := fun x hx =>
    if_neg fun he => ha (by rw [←he];exact List.mem_cons_of_mem t hx)
  cases c with
  | nil => exact (if_pos rfl).trans h.2
  | cons b c => exact ⟨(if_pos rfl).trans h.2.1,h.2.2.congr hfar⟩

/-- Reachable nodes are the nodes of the path. -/
theorem Path.mem_of_reach {a p : ℕ} {c : List ℕ} (h : Path next a c)
    (hr : Relation.ReflTransGen (fun x y => next x=some y) a p) : p ∈ a::c := by
  induction hr using Relation.ReflTransGen.head_induction_on generalizing c with
  | refl => simp
  | head hab _ ih =>
    cases c with
    | nil =>
      rw [h] at hab
      cases hab
    | cons b c =>
      have hb := h.1.symm.trans hab
      obtain rfl := Option.some.inj hb
      exact List.mem_cons_of_mem _ (ih h.2)

end Paths

/-! ## The invariant -/

/-- The node a pop has unlinked and not returned yet. -/
def PopPc.held : PopPc → Option ℕ
  | .back t => t
  | .reset t _ => t
  | .finish t => t
  | _ => none

/-- The node a pop has unlinked while its swap on rear is due. -/
def PopPc.detached : PopPc → Option ℕ
  | .back t => t
  | .reset t _ => t
  | _ => none

/-- The new node of a push that is not linked yet. -/
def PushPc.waiting : PushPc → Option ℕ
  | .load t => some t
  | .link t _ => some t
  | _ => none

/-- What the popping thread has read is still so; past the test of QueEmpty
rear is not front. -/
def PopOk (f r : ℕ) (c : List ℕ) : PopPc → Prop
  | .idle => True
  | .arg1 => True
  | .arg2 a => a=f
  | .test a b => a=f ∧ b=f
  | .front => r≠f
  | .head a => r≠f ∧ a=f
  | .tail t => r≠f ∧ c.head?=some t
  | .site t _ => r≠f ∧ t≠none ∧ c.head?=t
  | .unlink t _ a => r≠f ∧ t≠none ∧ c.head?=t ∧ a=f
  | .back t => t≠none
  | .reset t g => t≠none ∧ g=f
  | .finish t => t≠none

/-- Where rear is. -/
def RearOk (s : State) (c : List ℕ) : Prop :=
  match s.push with
  | .swing t p => s.rear=p ∧ ((∃ l,s.front::c=l++[p,t]) ∨
      (s.pop.detached=some p ∧ c=[t] ∧ s.next p=some t))
  | _ => (∃ l,s.front::c=l++[s.rear]) ∨
      (s.pop.detached=some s.rear ∧ c=[] ∧ s.next s.rear=none)

/-- The state of the queue when c is the list behind the sentinel. -/
structure Inv (s : State) (c : List ℕ) : Prop where
  /-- The list. -/
  path : Path s.next s.front c
  /-- No node occurs twice. -/
  nodup : (s.front::c).Nodup
  /-- All nodes are allocated. -/
  below : ∀ a ∈ s.front::c,a < s.brk
  /-- Each pushed value is popped, on its way out, in the list, or on its way
  in. -/
  values : s.pushed=s.popped++(s.pop.held.toList.map s.data++
    (c.map s.data++s.push.waiting.toList.map s.data))
  /-- The unlinked node is not in the list. -/
  held_out : ∀ t,s.pop.held=some t → t ∉ s.front::c ∧ t < s.brk
  /-- The new node is not in the list. -/
  waiting_out : ∀ t,s.push.waiting=some t → t ∉ s.front::c ∧ t < s.brk ∧ s.next t=none ∧
    s.pop.held≠some t
  /-- The node a push links behind is rear or has left the list. -/
  link : ∀ t p,s.push=.link t p → p=s.rear ∨ p ∉ s.front::c
  /-- Rear. -/
  rear : RearOk s c
  /-- The popping thread. -/
  pop : PopOk s.front s.rear c s.pop

/-- A node that is detached is held. -/
theorem held_of_detached {pc : PopPc} {t : ℕ} (h : pc.detached=some t) : pc.held=some t := by
  cases pc <;> first | exact h | cases h

/-- A new queue is empty. -/
theorem inv_queInit : Inv queInit [] :=
  ⟨rfl,by simp,by decide,rfl,fun _ h => (by cases h),fun _ h => (by cases h),
    fun _ _ h => (by cases h),Or.inl ⟨[],rfl⟩,trivial⟩

variable {s s' : State} {c : List ℕ}

/-- A step of the popping thread that changes no memory. -/
theorem Inv.movePop (h : Inv s c) (pc : PopPc) (hh : pc.held=s.pop.held)
    (hd : pc.detached=s.pop.detached) (hok : PopOk s.front s.rear c pc) : Inv {s with pop := pc} c := by
  refine ⟨h.path,h.nodup,h.below,?_,?_,?_,h.link,?_,hok⟩
  · change s.pushed=s.popped++(pc.held.toList.map s.data++_)
    rw [hh]
    exact h.values
  · change ∀ t,pc.held=some t → _
    rw [hh]
    exact h.held_out
  · change ∀ t,s.push.waiting=some t → _ ∧ _ ∧ _ ∧ pc.held≠some t
    rw [hh]
    exact h.waiting_out
  · have hr := h.rear
    unfold RearOk at hr ⊢
    dsimp only
    rw [hd]
    exact hr

/-- A call of QuePop that finds the queue empty. -/
theorem Inv.returnEmpty (h : Inv s c) (hh : s.pop.held=none) (hd : s.pop.detached=none) :
    Inv {s with pop := .idle,rets := s.rets++[none]} c := by
  have h1 := h.movePop .idle hh.symm hd.symm trivial
  refine ⟨h1.path,h1.nodup,h1.below,?_,h1.held_out,h1.waiting_out,h1.link,h1.rear,trivial⟩
  have hv := h1.values
  unfold State.popped at hv ⊢
  rw [List.filterMap_append]
  simpa using hv

/-- Longer lists and a later rear do not disturb the popping thread. -/
theorem PopOk.mono {f r r' : ℕ} {pc : PopPc} (h : PopOk f r c pc) (hr : r≠f → r'≠f) (l : List ℕ) :
    PopOk f r' (c++l) pc := by
  have hhead : ∀ x,c.head?=some x → (c++l).head?=some x := by
    intro x hx
    cases c with
    | nil => cases hx
    | cons b c => exact hx
  cases pc with
  | idle => trivial
  | arg1 => trivial
  | arg2 a => exact h
  | test a b => exact h
  | front => exact hr h
  | head a => exact ⟨hr h.1,h.2⟩
  | tail x => exact ⟨hr h.1,hhead x h.2⟩
  | site x p =>
    cases x with
    | none => exact absurd rfl h.2.1
    | some x => exact ⟨hr h.1,h.2.1,hhead x h.2.2⟩
  | unlink x p a =>
    cases x with
    | none => exact absurd rfl h.2.1
    | some x => exact ⟨hr h.1,h.2.1,hhead x h.2.2.1,h.2.2.2⟩
  | back x => exact h
  | reset x g => exact h
  | finish x => exact h

/-- Outside of a swing the rear is the last node. -/
theorem RearOk.of_not_swing (h : RearOk s c) (hn : ∀ t p,s.push≠.swing t p) :
    (∃ l,s.front::c=l++[s.rear]) ∨ (s.pop.detached=some s.rear ∧ c=[] ∧ s.next s.rear=none) := by
  unfold RearOk at h
  split at h
  case h_1 t p hp => exact absurd hp (hn t p)
  case h_2 => exact h

/-- The last node may be the rear outside of a swing. -/
theorem rearOk_of_not_swing (hn : ∀ t p,s.push≠.swing t p)
    (h : (∃ l,s.front::c=l++[s.rear]) ∨ (s.pop.detached=some s.rear ∧ c=[] ∧ s.next s.rear=none)) :
    RearOk s c := by
  unfold RearOk
  split
  case h_1 t p hp => exact absurd hp (hn t p)
  case h_2 => exact h

/-- In a swing the rear is the node before the last. -/
theorem RearOk.of_swing {t p : ℕ} (h : RearOk s c) (hp : s.push=.swing t p) :
    s.rear=p ∧ ((∃ l,s.front::c=l++[p,t]) ∨ (s.pop.detached=some p ∧ c=[t] ∧ s.next p=some t)) := by
  unfold RearOk at h
  rw [hp] at h
  exact h

/-! ## The pushing thread -/

/-- Data of other nodes stay. -/
theorem map_upd {d : ℕ → ℤ} {a : ℕ} {v : ℤ} {l : List ℕ} (h : ∀ x ∈ l,x < a) :
    l.map (upd d a v)=l.map d :=
  List.map_congr_left fun x hx => if_neg (h x hx).ne

/-- A call of QuePush begins. -/
theorem Inv.callPush (h : Inv s c) (hp : s.push=.idle) (d : ℤ) :
    Inv {s with
      next := upd s.next s.brk none
      data := upd s.data s.brk d
      brk := s.brk+1
      push := .load s.brk
      pushed := s.pushed++[d]} c := by
  have hold : ∀ x < s.brk,upd s.next s.brk none x=s.next x := fun x hx => if_neg hx.ne
  refine ⟨?_,h.nodup,fun a ha => Nat.lt_succ_of_lt (h.below a ha),?_,?_,?_,?_,?_,h.pop⟩
  · exact h.path.congr fun x hx => hold x (h.below x hx)
  · have hv := h.values
    rw [hp] at hv
    have hheld : ∀ x ∈ s.pop.held.toList,x < s.brk := fun x hx =>
      (h.held_out x (Option.mem_toList.mp hx)).2
    have hc : ∀ x ∈ c,x < s.brk := fun x hx => h.below x (List.mem_cons_of_mem _ hx)
    change s.pushed++[d]=s.popped++(s.pop.held.toList.map (upd s.data s.brk d)++
      (c.map (upd s.data s.brk d)++[s.brk].map (upd s.data s.brk d)))
    rw [map_upd hheld,map_upd hc,hv]
    simp [PushPc.waiting,upd]
  · exact fun t ht => ⟨(h.held_out t ht).1,Nat.lt_succ_of_lt (h.held_out t ht).2⟩
  · intro t ht
    obtain rfl := Option.some.inj ht
    refine ⟨fun hm => lt_irrefl _ (h.below _ hm),Nat.lt_succ_self _,if_pos rfl,fun hh => ?_⟩
    exact lt_irrefl _ (h.held_out _ hh).2
  · intro t p hl
    cases hl
  · have hr := h.rear.of_not_swing (by simp [hp])
    refine rearOk_of_not_swing (by simp) (hr.imp_right fun hd => ⟨hd.1,hd.2.1,?_⟩)
    exact (hold _ (h.held_out _ (held_of_detached hd.1)).2).trans hd.2.2

/-- A step of the pushing thread that changes no memory, up to the link. -/
theorem Inv.movePush (h : Inv s c) (pc : PushPc) (hw : pc.waiting=s.push.waiting)
    (hn : ∀ t p,s.push≠.swing t p) (hn' : ∀ t p,pc≠.swing t p)
    (hl : ∀ t p,pc=.link t p → p=s.rear ∨ p ∉ s.front::c) : Inv {s with push := pc} c := by
  refine ⟨h.path,h.nodup,h.below,?_,h.held_out,?_,hl,?_,h.pop⟩
  · change s.pushed=s.popped++(_++(_++pc.waiting.toList.map s.data))
    rw [hw]
    exact h.values
  · change ∀ t,pc.waiting=some t → _
    rw [hw]
    exact h.waiting_out
  · exact rearOk_of_not_swing hn' (h.rear.of_not_swing hn)

/-- The new node is linked. -/
theorem Inv.linkPush {t p : ℕ} (h : Inv s c) (hp : s.push=.link t p) (hn : s.next p=none)
    (hc : Linked s p) :
    Inv {s with next := upd s.next p (some t),push := .swing t p} (c++[t]) := by
  have hmem := h.path.mem_of_reach hc
  obtain ⟨l,hl⟩ := h.path.last_of_none hmem hn
  have hrear : s.rear=p := by
    rcases h.link t p hp with he|hnot
    · exact he.symm
    · exact absurd hmem hnot
  have hwait : s.push.waiting=some t := by rw [hp];rfl
  obtain ⟨htout,htlt,htn,hth⟩ := h.waiting_out t hwait
  refine ⟨h.path.snoc hl h.nodup htout htn,?_,?_,?_,?_,?_,?_,?_,h.pop.mono id [t]⟩
  · have hd : (s.front::c++[t]).Nodup :=
      List.nodup_append.mpr ⟨h.nodup,List.nodup_singleton t,by
        intro a ha b hb
        rw [List.mem_singleton.mp hb]
        exact ne_of_mem_of_not_mem ha htout⟩
    exact hd
  · intro a ha
    rcases List.mem_append.mp (show a ∈ s.front::c++[t] from ha) with ha|ha
    · exact h.below a ha
    · rw [List.mem_singleton.mp ha]
      exact htlt
  · have hv := h.values
    rw [hwait] at hv
    change s.pushed=s.popped++(_++((c++[t]).map s.data++[]))
    rw [hv]
    simp
  · intro x hx
    obtain ⟨hxo,hxl⟩ := h.held_out x hx
    refine ⟨fun hm => ?_,hxl⟩
    rcases List.mem_append.mp (show x ∈ s.front::c++[t] from hm) with hm|hm
    · exact hxo hm
    · rw [List.mem_singleton.mp hm] at hx
      exact hth hx
  · intro x hx
    cases hx
  · intro x q hx
    cases hx
  · refine ⟨hrear,Or.inl ⟨l,?_⟩⟩
    change s.front::c++[t]=l++[p,t]
    rw [hl]
    simp

/-- The rear is moved. -/
theorem Inv.swingPush {t p : ℕ} (h : Inv s c) (hp : s.push=.swing t p) :
    Inv {s with rear := if s.rear=p then t else s.rear,push := .idle} c := by
  obtain ⟨hr,hcase⟩ := h.rear.of_swing hp
  have hlast : ∃ l,s.front::c=l++[t] := by
    rcases hcase with ⟨l,hl⟩|⟨-,hc,-⟩
    · exact ⟨l++[p],by rw [hl];simp⟩
    · exact ⟨[s.front],by rw [hc];rfl⟩
  have hne : t≠s.front := by
    have htc : t ∈ c := by
      rcases hcase with ⟨l,hl⟩|⟨-,hc,-⟩
      · cases l with
        | nil =>
          rw [(List.cons.inj hl).2]
          simp
        | cons x l =>
          rw [(List.cons.inj hl).2]
          simp
      · rw [hc]
        simp
    exact fun he => (List.nodup_cons.mp h.nodup).1 (he▸htc)
  have hv := h.values
  rw [hp] at hv
  rw [if_pos hr]
  refine ⟨h.path,h.nodup,h.below,hv,h.held_out,?_,?_,?_,?_⟩
  · intro x hx
    cases hx
  · intro x q hx
    cases hx
  · exact rearOk_of_not_swing (by simp) (Or.inl hlast)
  · have hpop := h.pop.mono (fun _ => hne) []
    rwa [List.append_nil] at hpop

/-! ## The popping thread -/

/-- Past the test of QueEmpty the list is not empty. -/
theorem Inv.ne_nil (h : Inv s c) (hd : s.pop.detached=none) (hr : s.rear≠s.front) : c≠[] := by
  rintro rfl
  have hre := h.rear
  unfold RearOk at hre
  rw [hd] at hre
  split at hre
  case h_1 =>
    rcases hre.2 with ⟨l,hl⟩|⟨hf,-⟩
    · have := congrArg List.length hl
      simp at this
    · cases hf
  case h_2 =>
    rcases hre with ⟨l,hl⟩|⟨hf,-⟩
    · cases l with
      | nil => exact hr (List.cons.inj hl).1.symm
      | cons x l => simp at hl
    · cases hf

/-- The popping thread unlinks the first node. -/
theorem Inv.unlinkPop {t : ℕ} {f : ℕ} (h : Inv s c) (hp : s.pop=.unlink (some t) (s.next t) f) :
    ∃ c',c=t::c' ∧ Inv {s with next := upd s.next s.front (s.next t),pop := .back (some t)} c' := by
  have hpop := h.pop
  rw [hp] at hpop
  obtain ⟨hrf,-,hhead,-⟩ := hpop
  cases c with
  | nil => cases hhead
  | cons b c' =>
    obtain rfl := Option.some.inj hhead
    obtain ⟨hf,hd⟩ := List.nodup_cons.mp h.nodup
    have hbf : b≠s.front := fun he => hf (by simp [he])
    have hupd : ∀ x,x≠s.front → upd s.next s.front (s.next b) x=s.next x := fun x hx => if_neg hx
    have hsub : ∀ x,x ∉ s.front::b::c' → x ∉ s.front::c' := by
      intro x hx hm
      refine hx ?_
      rcases List.mem_cons.mp hm with he|hm
      · simp [he]
      · simp [hm]
    refine ⟨c',rfl,h.path.dropFirst h.nodup,?_,?_,?_,?_,?_,?_,?_,?_⟩
    · exact List.nodup_cons.mpr
        ⟨fun hm => hf (List.mem_cons_of_mem b hm),(List.nodup_cons.mp hd).2⟩
    · intro a ha
      refine h.below a ?_
      by_contra hn
      exact hsub a hn ha
    · have hv := h.values
      rw [hp] at hv
      rw [hv]
      rfl
    · intro x hx
      obtain rfl := Option.some.inj hx
      refine ⟨fun hm => ?_,h.below b (by simp)⟩
      rcases List.mem_cons.mp hm with he|hm
      · exact hbf he
      · exact (List.nodup_cons.mp hd).1 hm
    · intro x hx
      obtain ⟨hxo,hxl,hxn,-⟩ := h.waiting_out x hx
      refine ⟨hsub x hxo,hxl,(hupd x fun he => hxo (by simp [he])).trans hxn,fun he => ?_⟩
      exact hxo (by simp [Option.some.inj he])
    · exact fun x q hx => (h.link x q hx).imp_right (hsub q)
    · have hre := h.rear
      unfold RearOk at hre ⊢
      rw [hp] at hre
      change match s.push with
        | .swing t p => s.rear=p ∧ ((∃ l,s.front::c'=l++[p,t]) ∨
            (some b=some p ∧ c'=[t] ∧ upd s.next s.front (s.next b) p=some t))
        | _ => (∃ l,s.front::c'=l++[s.rear]) ∨
            (some b=some s.rear ∧ c'=[] ∧ upd s.next s.front (s.next b) s.rear=none)
      split at hre
      case h_1 t p hs =>
        obtain ⟨hr,⟨l,hl⟩|⟨hdet,-⟩⟩ := hre
        · refine ⟨hr,?_⟩
          cases l with
          | nil => exact absurd (hr.trans (List.cons.inj hl).1.symm) hrf
          | cons x l =>
            have hl' : b::c'=l++[p,t] := (List.cons.inj hl).2
            cases l with
            | nil =>
              obtain ⟨rfl,hc⟩ := List.cons.inj hl'
              have hc' : c'=[t] := hc
              refine Or.inr ⟨rfl,hc',(hupd b hbf).trans ?_⟩
              have hpath := h.path.2
              rw [hc'] at hpath
              exact hpath.1
            | cons y l =>
              have hc' : c'=l++[p,t] := (List.cons.inj hl').2
              exact Or.inl ⟨s.front::l,by rw [hc'];rfl⟩
        · cases hdet
      case h_2 hs =>
        rcases hre with ⟨l,hl⟩|⟨hdet,-⟩
        · cases l with
          | nil => simp at hl
          | cons x l =>
            have hl' : b::c'=l++[s.rear] := (List.cons.inj hl).2
            cases l with
            | nil =>
              obtain ⟨hb,hc⟩ := List.cons.inj hl'
              refine Or.inr ⟨congrArg some hb,hc,?_⟩
              rw [←hb,hupd b hbf]
              exact h.path.2.last (l:=[]) (by rw [hc];rfl)
            | cons y l =>
              have hc' : c'=l++[s.rear] := (List.cons.inj hl').2
              exact Or.inl ⟨s.front::l,by rw [hc'];rfl⟩
        · cases hdet
    · exact Option.some_ne_none b

/-- The swap on rear of a pop: rear goes back to front when the unlinked node
was the last one. -/
theorem Inv.resetPop {t g : ℕ} (h : Inv s c) (hp : s.pop=.reset (some t) g)
    (hc : s.rear=t → s.next t=none) :
    Inv {s with rear := if some s.rear=some t then g else s.rear,pop := .finish (some t)} c := by
  have hpop := h.pop
  rw [hp] at hpop
  obtain ⟨-,rfl⟩ := hpop
  obtain ⟨hout,-⟩ := h.held_out t (by rw [hp];rfl)
  have hheld : (PopPc.finish (some t)).held=s.pop.held := by rw [hp];rfl
  have hv : s.pushed=s.popped++([t].map s.data++(c.map s.data++s.push.waiting.toList.map s.data)) := by
    have hv := h.values
    rw [hp] at hv
    exact hv
  have hwait : ∀ x,s.push.waiting=some x → x ∉ s.front::c ∧ x < s.brk ∧ s.next x=none ∧
      (PopPc.finish (some t)).held≠some x := by
    rw [hheld]
    exact h.waiting_out
  have hholds : ∀ x,(PopPc.finish (some t)).held=some x → x ∉ s.front::c ∧ x < s.brk := by
    rw [hheld]
    exact h.held_out
  have hre := h.rear
  unfold RearOk at hre
  rw [hp] at hre
  by_cases hr : s.rear=t
  · rw [if_pos (congrArg some hr)]
    have hnone := hc hr
    split at hre
    case h_1 t' p hs =>
      obtain ⟨hrp,⟨l,hl⟩|⟨-,-,hnx⟩⟩ := hre
      · refine absurd ?_ hout
        rw [←hr,hrp,hl]
        simp
      · rw [←hrp,hr,hnone] at hnx
        cases hnx
    case h_2 hs =>
      rcases hre with ⟨l,hl⟩|⟨-,hc,-⟩
      · refine absurd ?_ hout
        rw [hl,hr]
        simp
      · refine ⟨h.path,h.nodup,h.below,hv,hholds,hwait,?_,?_,Option.some_ne_none t⟩
        · intro x q hx
          rcases h.link x q hx with he|hn
          · exact Or.inr (by rw [he,hr];exact hout)
          · exact Or.inr hn
        · exact rearOk_of_not_swing hs (Or.inl ⟨[],by rw [hc];rfl⟩)
  · rw [if_neg fun he => hr (Option.some.inj he)]
    refine ⟨h.path,h.nodup,h.below,hv,hholds,hwait,h.link,?_,Option.some_ne_none t⟩
    unfold RearOk
    change match s.push with
      | .swing t p => s.rear=p ∧ ((∃ l,s.front::c=l++[p,t]) ∨ _)
      | _ => (∃ l,s.front::c=l++[s.rear]) ∨ _
    split at hre
    case h_1 t' p hs =>
      obtain ⟨hrp,hl|⟨hdet,-⟩⟩ := hre
      · exact ⟨hrp,Or.inl hl⟩
      · exact absurd (hrp.trans (Option.some.inj hdet).symm) hr
    case h_2 hs =>
      rcases hre with hl|⟨hdet,-⟩
      · exact Or.inl hl
      · exact absurd (Option.some.inj hdet).symm hr

/-- A call of QuePop that returns a value. -/
theorem Inv.finishPop {t : ℕ} (h : Inv s c) (hp : s.pop=.finish (some t)) :
    Inv {s with pop := .idle,rets := s.rets++[some (s.data t)]} c := by
  refine ⟨h.path,h.nodup,h.below,?_,fun x hx => (by cases hx),?_,h.link,?_,trivial⟩
  · have hv := h.values
    rw [hp] at hv
    change s.pushed=(s.rets++[some (s.data t)]).filterMap id++([]++_)
    rw [hv,List.filterMap_append]
    simp [State.popped,PopPc.held]
  · intro x hx
    obtain ⟨hxo,hxl,hxn,-⟩ := h.waiting_out x hx
    exact ⟨hxo,hxl,hxn,by simp [PopPc.held]⟩
  · have hre := h.rear
    unfold RearOk at hre ⊢
    rw [hp] at hre
    exact hre

/-! ## Runs -/

/-- A clear step of QuePush keeps the invariant. -/
theorem Inv.stepPush_ok (h : Inv s c) (hs : stepPush s=some s') (hc : Clear s .push) :
    ∃ c',Inv s' c' := by
  unfold stepPush at hs
  split at hs
  case h_1 => cases hs
  case h_2 t hp =>
    obtain rfl := Option.some.inj hs
    refine ⟨c,h.movePush _ (by rw [hp];rfl) (by simp [hp]) (by simp) ?_⟩
    intro x q hx
    cases hx
    exact Or.inl rfl
  case h_3 t p hp =>
    split at hs
    case isTrue hn =>
      obtain rfl := Option.some.inj hs
      exact ⟨_,h.linkPush hp hn (hc t p hp hn)⟩
    case isFalse =>
      obtain rfl := Option.some.inj hs
      exact ⟨c,h.movePush _ (by rw [hp];rfl) (by simp [hp]) (by simp) fun x q hx => by cases hx⟩
  case h_4 t p hp =>
    obtain rfl := Option.some.inj hs
    exact ⟨c,h.swingPush hp⟩

/-- While a pop holds no node its moves leave the memory alone. -/
theorem Inv.readPop {pc : PopPc} (h : Inv s c) (hh : s.pop.held=none) (hd : s.pop.detached=none)
    (hpc : pc.held=none) (hpd : pc.detached=none) (hok : PopOk s.front s.rear c pc) :
    Inv {s with pop := pc} c :=
  h.movePop pc (hpc.trans hh.symm) (hpd.trans hd.symm) hok

/-- A clear step of QuePop keeps the invariant. -/
theorem Inv.stepPop_ok (h : Inv s c) (hs : stepPop s=some s') (hc : Clear s .pop) :
    ∃ c',Inv s' c' := by
  have hpop := h.pop
  unfold stepPop at hs
  split at hs
  case h_1 => cases hs
  case h_2 hp =>
    obtain rfl := Option.some.inj hs
    exact ⟨c,h.readPop (by rw [hp];rfl) (by rw [hp];rfl) rfl rfl rfl⟩
  case h_3 a hp =>
    rw [hp] at hpop
    obtain rfl := Option.some.inj hs
    exact ⟨c,h.readPop (by rw [hp];rfl) (by rw [hp];rfl) rfl rfl ⟨hpop,rfl⟩⟩
  case h_4 a b hp =>
    rw [hp] at hpop
    obtain ⟨rfl,rfl⟩ := hpop
    split at hs
    case isTrue he =>
      obtain rfl := Option.some.inj hs
      have hsame : ({s with rear := s.front,pop := .idle,rets := s.rets++[none]} : State)=
          {s with pop := .idle,rets := s.rets++[none]} := congrArg
        (fun r => ({s with rear := r,pop := .idle,rets := s.rets++[none]} : State)) he.symm
      rw [hsame]
      exact ⟨c,h.returnEmpty (by rw [hp];rfl) (by rw [hp];rfl)⟩
    case isFalse he =>
      obtain rfl := Option.some.inj hs
      exact ⟨c,h.readPop (by rw [hp];rfl) (by rw [hp];rfl) rfl rfl he⟩
  case h_5 hp =>
    rw [hp] at hpop
    obtain rfl := Option.some.inj hs
    exact ⟨c,h.readPop (by rw [hp];rfl) (by rw [hp];rfl) rfl rfl ⟨hpop,rfl⟩⟩
  case h_6 f hp =>
    rw [hp] at hpop
    obtain ⟨hr,rfl⟩ := hpop
    have hne := h.ne_nil (by rw [hp];rfl) hr
    cases c with
    | nil => exact absurd rfl hne
    | cons t c =>
      rw [h.path.1] at hs
      obtain rfl := Option.some.inj hs
      exact ⟨t::c,h.readPop (by rw [hp];rfl) (by rw [hp];rfl) rfl rfl ⟨hr,rfl⟩⟩
  case h_7 t hp =>
    rw [hp] at hpop
    obtain rfl := Option.some.inj hs
    exact ⟨c,h.readPop (by rw [hp];rfl) (by rw [hp];rfl) rfl rfl
      ⟨hpop.1,Option.some_ne_none t,hpop.2⟩⟩
  case h_8 t p hp =>
    rw [hp] at hpop
    obtain rfl := Option.some.inj hs
    exact ⟨c,h.readPop (by rw [hp];rfl) (by rw [hp];rfl) rfl rfl
      ⟨hpop.1,hpop.2.1,hpop.2.2,rfl⟩⟩
  case h_9 t p f hp =>
    have hpop' := hpop
    rw [hp] at hpop'
    obtain ⟨-,ht,hhead,rfl⟩ := hpop'
    cases c with
    | nil => exact absurd hhead.symm ht
    | cons b c =>
      have hb : some b=t := hhead
      obtain rfl := hb
      rw [if_pos h.path.1] at hs
      obtain rfl := Option.some.inj hs
      obtain rfl := hc.1 b p _ hp h.path.1
      obtain ⟨c',-,hI⟩ := h.unlinkPop hp
      exact ⟨c',hI⟩
  case h_10 t hp =>
    rw [hp] at hpop
    obtain rfl := Option.some.inj hs
    exact ⟨c,h.movePop _ (by rw [hp];rfl) (by rw [hp];rfl) ⟨hpop,rfl⟩⟩
  case h_11 t g hp =>
    rw [hp] at hpop
    obtain rfl := Option.some.inj hs
    cases t with
    | none => exact absurd rfl hpop.1
    | some t => exact ⟨c,h.resetPop hp (hc.2 t g hp)⟩
  case h_12 t hp =>
    rw [hp] at hpop
    obtain rfl := Option.some.inj hs
    cases t with
    | none => exact absurd rfl hpop
    | some t => exact ⟨c,h.finishPop hp⟩

/-- A clear step keeps the invariant. -/
theorem Inv.step_ok {a : Act} (h : Inv s c) (hs : step s a=some s') (hc : Clear s a) :
    ∃ c',Inv s' c' := by
  cases a with
  | callPush d =>
    dsimp only [step] at hs
    split at hs
    case isTrue hp =>
      obtain rfl := Option.some.inj hs
      exact ⟨c,h.callPush hp d⟩
    case isFalse => cases hs
  | push => exact h.stepPush_ok hs hc
  | callPop =>
    dsimp only [step] at hs
    split at hs
    case isTrue hp =>
      obtain rfl := Option.some.inj hs
      exact ⟨c,h.readPop (by rw [hp];rfl) (by rw [hp];rfl) rfl rfl trivial⟩
    case isFalse => cases hs
  | pop => exact h.stepPop_ok hs hc

/-- A clear run keeps the invariant. -/
theorem Inv.run_ok {acts : List Act} (h : Inv s c) (hs : run s acts=some s')
    (hc : ClearRun s acts) : ∃ c',Inv s' c' := by
  induction acts generalizing s c with
  | nil =>
    obtain rfl := Option.some.inj hs
    exact ⟨c,h⟩
  | cons a acts ih =>
    rw [run] at hs
    split at hs
    case h_1 s1 hs1 =>
      obtain ⟨c1,h1⟩ := h.step_ok hs1 hc.1
      exact ih h1 hs (hc.2 s1 hs1)
    case h_2 => cases hs

/-- A QuePop that runs alone on an empty queue returns 0. -/
theorem run_empty (hp : s.pop=.idle) (hr : s.rear=s.front) :
    run s (.callPop::List.replicate 3 .pop)=
      some {s with rear := s.front,pop := .idle,rets := s.rets++[none]} := by
  simp [run,step,stepPop,hp,hr,List.replicate]

/-- A QuePop that runs alone on another queue returns 1. -/
theorem run_value {t : ℕ} (hp : s.pop=.idle) (hr : s.rear≠s.front) (ht : s.next s.front=some t) :
    ∃ s',run s (.callPop::List.replicate 11 .pop)=some s' ∧ s'.pop=.idle ∧
      s'.rets=s.rets++[some (s.data t)] := by
  refine ⟨{s with
    next := upd s.next s.front (s.next t)
    rear := if s.rear=t then s.front else s.rear
    pop := .idle
    rets := s.rets++[some (s.data t)]},?_,rfl,rfl⟩
  simp [run,step,stepPop,hp,hr,ht,List.replicate]

/-- The invariant is what the queue promises. -/
theorem Inv.queueOk (h : Inv s c) : QueueOk s := by
  refine ⟨⟨_,h.values.symm⟩,fun hpush hpop => ?_⟩
  have hv : s.pushed=s.popped++c.map s.data := by
    have hv := h.values
    rw [hpush,hpop] at hv
    simpa [PopPc.held,PushPc.waiting] using hv
  have hlast : ∃ l,s.front::c=l++[s.rear] := by
    rcases h.rear.of_not_swing (by simp [hpush]) with hl|⟨hd,-⟩
    · exact hl
    · rw [hpop] at hd
      cases hd
  have hlen : s.popped.length < s.pushed.length ↔ c≠[] := by
    rw [hv,List.length_append,List.length_map,Nat.lt_add_right_iff_pos,List.length_pos_iff]
  refine ⟨c,h.path,by rw [hv,List.drop_left],?_,?_⟩
  · obtain ⟨l,hl⟩ := hlast
    rw [hl]
    simp
  · obtain ⟨l,hl⟩ := hlast
    cases c with
    | nil =>
      have hr : s.rear=s.front := by
        cases l with
        | nil => exact (List.cons.inj hl).1.symm
        | cons x l => simp at hl
      refine ⟨3,_,none,run_empty hpop hr,rfl,rfl,?_⟩
      rw [hlen]
      simp
    | cons t c =>
      have hr : s.rear≠s.front := by
        cases l with
        | nil => simp at hl
        | cons x l =>
          have hm : s.rear ∈ t::c := by
            rw [(List.cons.inj hl).2]
            simp
          exact fun he => (List.nodup_cons.mp h.nodup).1 (he▸hm)
      obtain ⟨s',hs',hp',hr'⟩ := run_value hpop hr h.path.1
      refine ⟨11,s',_,hs',hp',hr',?_⟩
      rw [hlen]
      simp

/-- In every run from QueInit whose steps are all clear, every state keeps
what the queue promises. -/
theorem clearRun_queueOk (acts : List Act) (s : State) (hs : run queInit acts=some s)
    (hc : ClearRun queInit acts) : QueueOk s := by
  obtain ⟨c,h⟩ := inv_queInit.run_ok hs hc
  exact h.queueOk

/-- A clear step in front of a clear run. -/
theorem clearRun_cons {s1 : State} {a : Act} {rest : List Act} (hs : step s a=some s1)
    (ha : Clear s a) (hr : ClearRun s1 rest) : ClearRun s (a::rest) := by
  refine ⟨ha,fun s2 hs2 => ?_⟩
  rw [hs] at hs2
  obtain rfl := Option.some.inj hs2
  exact hr

/-- A pop and a push that overlap on the last node: the push links behind it
before the pop reads its successor, and moves rear before the pop does. -/
def overlapping : List Act :=
  [.callPush 5,.push,.push,.push,.callPush 6,.callPop,.push,.pop,.pop,.pop,.push,.pop,.pop,.pop,
    .pop,.pop,.push,.pop,.pop,.pop]

/-- The run in which both calls overlap is clear. -/
theorem overlapping_clear : ClearRun queInit overlapping := by
  refine clearRun_cons rfl trivial ?_
  refine clearRun_cons rfl (fun t p h => by cases h) ?_
  refine clearRun_cons rfl (fun t p h _ => by cases h;exact Relation.ReflTransGen.refl) ?_
  refine clearRun_cons rfl (fun t p h => by cases h) ?_
  refine clearRun_cons rfl trivial ?_
  refine clearRun_cons rfl trivial ?_
  refine clearRun_cons rfl (fun t p h => by cases h) ?_
  refine clearRun_cons rfl ⟨fun t p f h => (by cases h),fun t g h => (by cases h)⟩ ?_
  refine clearRun_cons rfl ⟨fun t p f h => (by cases h),fun t g h => (by cases h)⟩ ?_
  refine clearRun_cons rfl ⟨fun t p f h => (by cases h),fun t g h => (by cases h)⟩ ?_
  refine clearRun_cons rfl (fun t p h _ => by cases h;exact Relation.ReflTransGen.single rfl) ?_
  refine clearRun_cons rfl ⟨fun t p f h => (by cases h),fun t g h => (by cases h)⟩ ?_
  refine clearRun_cons rfl ⟨fun t p f h => (by cases h),fun t g h => (by cases h)⟩ ?_
  refine clearRun_cons rfl ⟨fun t p f h => (by cases h),fun t g h => (by cases h)⟩ ?_
  refine clearRun_cons rfl ⟨fun t p f h => (by cases h),fun t g h => (by cases h)⟩ ?_
  refine clearRun_cons rfl ⟨fun t p f h _ => (by cases h;rfl),fun t g h => (by cases h)⟩ ?_
  refine clearRun_cons rfl (fun t p h => by cases h) ?_
  refine clearRun_cons rfl ⟨fun t p f h => (by cases h),fun t g h => (by cases h)⟩ ?_
  refine clearRun_cons rfl ⟨fun t p f h => (by cases h),fun t g h he => (by cases h;cases he)⟩ ?_
  refine clearRun_cons rfl ⟨fun t p f h => (by cases h),fun t g h => (by cases h)⟩ ?_
  trivial

/-- After the overlapping calls one value is popped and one is left. -/
theorem clearRun_queueOk_overlapping :
    ∃ s,run queInit overlapping=some s ∧ s.popped=[5] ∧ s.pushed=[5,6] ∧ QueueOk s :=
  ⟨_,rfl,rfl,rfl,clearRun_queueOk overlapping _ rfl overlapping_clear⟩

/-- A pop reads that the only node has no successor, a push links behind that
node, and the pop unlinks both. A third value is then pushed and popped. -/
def losing : List Act :=
  [Act.callPush 1,Act.push,Act.push,Act.push]++Act.callPop::List.replicate 6 Act.pop++
    [Act.callPush 2,Act.push,Act.push]++List.replicate 5 Act.pop++[Act.push]++
    [Act.callPush 3,Act.push,Act.push,Act.push]++Act.callPop::List.replicate 11 Act.pop

/-- The second value is lost: the popped values are 1 and 3. -/
theorem losing_not_queueOk : ∃ s,run queInit losing=some s ∧ ¬QueueOk s := by
  have hrun : (run queInit losing).map (fun s => (s.popped,s.pushed))=some ([1,3],[1,2,3]) := rfl
  obtain ⟨s,hs,hlists⟩ := Option.map_eq_some_iff.mp hrun
  obtain ⟨hpopped,hpushed⟩ := Prod.mk.inj hlists
  refine ⟨s,hs,fun h => ?_⟩
  have hp := h.popped_prefix
  rw [hpopped,hpushed] at hp
  exact absurd hp (by decide)

end StudyCode.Ring1
