import StudyCode.EchoServer

/-!
# The events of the echo server

The event ev_write is pending once: it is cleared when on_write is dispatched.
The callback adds it again after a write that was refused or not complete, but
not after a complete write, and on_read deletes only ev_read when the client
goes away. So a client is forgotten when a complete write leaves buffers in the
queue, and freed with a pending event when it goes away before its queue is
empty.
-/

namespace StudyCode.EchoServer

variable {c : Client}

/-- The dispatch of a callback, which happens only while its event is pending.
The event ev_write is cleared by it. -/
def Client.dispatch (c : Client) : Callback → Client
  | .read r => if c.evRead then c.call (.read r) else c
  | .write r => if c.evWrite then Client.call {c with evWrite := false} (.write r) else c

/-- The client after some dispatches. -/
def Client.run (c : Client) (ks : List Callback) : Client := ks.foldl Client.dispatch c

/-- Between callbacks, data of a connected client has a pending event, and a
client that was freed has none. -/
structure Live (c : Client) : Prop where
  /-- A connected client. -/
  armed : c.exited=false → c.freed=false → c.writeq≠[] → c.evWrite=true
  /-- A client that was freed. -/
  quiet : c.freed=true → c.evRead=false ∧ c.evWrite=false

/-- A complete write finds no other buffer in the queue, and the client goes away
only when its queue is empty. -/
def Clear (c : Client) : Callback → Prop
  | .read (.bytes _ _ _) => True
  | .read .eof => c.writeq=[]
  | .read .error => c.writeq=[]
  | .write (.accepted n) => ∀ b q,c.writeq=b::q → b.len ≤ b.offset+n → q=[]
  | .write .again => True
  | .write .error => True

/-- A callback is dispatched. -/
def Happens (c : Client) : Callback → Prop
  | .read _ => c.freed=false ∧ c.exited=false ∧ c.evRead=true
  | .write _ => c.freed=false ∧ c.exited=false ∧ c.evWrite=true

/-- The callbacks of a run that are dispatched are clear. -/
def ClearRun : Client → List Callback → Prop
  | _,[] => True
  | c,k::ks => (Happens c k → Clear c k) ∧ ClearRun (c.dispatch k) ks

/-- The event ev_write is pending only while there is something to write. -/
def Sound (c : Client) : Prop := c.freed=false → c.exited=false → c.evWrite=true → c.writeq≠[]

/-! ## One dispatch -/

/-- A callback of a live client. -/
theorem call_open {k : Callback} (hf : c.freed=false) (he : c.exited=false) :
    c.call k=match k with
      | .read r => onRead r c
      | .write r => onWrite r c := by
  unfold Client.call
  rw [hf,he]
  rfl

/-- Behind its end nothing is called. -/
theorem call_closed {k : Callback} (h : c.freed=true ∨ c.exited=true) : c.call k=c := by
  have hor : (c.freed || c.exited)=true := Bool.or_eq_true_iff.mpr h
  unfold Client.call
  rw [if_pos hor]

/-- A read that happens. -/
theorem dispatch_read {r : ReadResult} (h : Happens c (.read r)) :
    c.dispatch (.read r)=onRead r c := by
  obtain ⟨hf,he,hr⟩ := h
  rw [Client.dispatch,if_pos hr,call_open hf he]

/-- A write that happens. -/
theorem dispatch_write {r : WriteResult} (h : Happens c (.write r)) :
    c.dispatch (.write r)=onWrite r {c with evWrite := false} := by
  obtain ⟨hf,he,hw⟩ := h
  rw [Client.dispatch,if_pos hw]
  exact call_open hf he

/-- What on_write leaves of a client whose event was cleared. -/
theorem onWrite_cases {b : Bufferq} {q : List Bufferq} (hw : c.writeq=b::q) (r : WriteResult) :
    (onWrite r {c with evWrite := false}).freed=c.freed ∧
      (((onWrite r {c with evWrite := false}).evWrite=true ∧
          (onWrite r {c with evWrite := false}).writeq≠[] ∧
          ∀ n,r=.accepted n → b.offset+n < b.len) ∨
        ((onWrite r {c with evWrite := false}).exited=true ∧ r=.error) ∨
        ((onWrite r {c with evWrite := false}).exited=c.exited ∧
          (onWrite r {c with evWrite := false}).evWrite=false ∧
          (onWrite r {c with evWrite := false}).writeq=q ∧
          ∃ n,r=.accepted n ∧ b.len ≤ b.offset+n)) := by
  unfold onWrite
  dsimp only
  rw [hw]
  cases r with
  | again =>
    refine ⟨rfl,Or.inl ⟨rfl,?_,?_⟩⟩
    · exact List.cons_ne_nil b q
    · intro n hn
      cases hn
  | error => exact ⟨rfl,Or.inr (Or.inl ⟨rfl,rfl⟩)⟩
  | accepted n =>
    dsimp only
    split
    · rename_i hlt
      refine ⟨rfl,Or.inl ⟨rfl,List.cons_ne_nil _ q,?_⟩⟩
      intro k hk
      cases hk
      omega
    · rename_i hge
      exact ⟨rfl,Or.inr (Or.inr ⟨rfl,rfl,rfl,n,rfl,by omega⟩)⟩

/-- A client goes on as before when nothing is dispatched. -/
theorem Live.not_happens {k : Callback} (h : Live c) (hn : ¬Happens c k) : Live (c.dispatch k) := by
  cases hf : c.freed with
  | true =>
    obtain ⟨h1,h2⟩ := h.quiet hf
    cases k with
    | read r =>
      rw [Client.dispatch,h1]
      exact h
    | write r =>
      rw [Client.dispatch,h2]
      exact h
  | false =>
    cases he : c.exited with
    | true =>
      cases k with
      | read r =>
        rw [Client.dispatch,call_closed (Or.inr he),ite_self]
        exact h
      | write r =>
        have hclosed : Client.call {c with evWrite := false} (.write r)={c with evWrite := false} :=
          call_closed (Or.inr he)
        rw [Client.dispatch,hclosed]
        split
        · constructor
          · intro h2
            exact absurd (h2.symm.trans he) Bool.false_ne_true
          · intro h2
            exact absurd (hf.symm.trans h2) Bool.false_ne_true
        · exact h
    | false =>
      cases k with
      | read r =>
        have hr : c.evRead=false := Bool.eq_false_iff.mpr fun hr => hn ⟨hf,he,hr⟩
        rw [Client.dispatch,hr]
        exact h
      | write r =>
        have hw : c.evWrite=false := Bool.eq_false_iff.mpr fun hw => hn ⟨hf,he,hw⟩
        rw [Client.dispatch,hw]
        exact h

/-- A read keeps the client alive exactly when it is clear. -/
theorem Live.read_iff {r : ReadResult} (h : Live c) (hs : Sound c) (hh : Happens c (.read r)) :
    Live (c.dispatch (.read r)) ↔ Clear c (.read r) := by
  obtain ⟨hf,he,hr⟩ := hh
  have hgone : ∀ d : Client,d.freed=true → d.evRead=false → d.evWrite=c.evWrite →
      (Live d ↔ c.writeq=[]) := by
    intro d h1 h2 h3
    constructor
    · intro hd
      by_contra hne
      have hw := h.armed he hf hne
      rw [←h3,(hd.quiet h1).2] at hw
      exact Bool.false_ne_true hw
    · intro hq
      refine ⟨fun _ h4 => absurd (h4.symm.trans h1) Bool.false_ne_true,fun _ => ⟨h2,?_⟩⟩
      rw [h3]
      exact Bool.eq_false_iff.mpr fun hw => hs hf he hw hq
  rw [dispatch_read ⟨hf,he,hr⟩]
  cases r with
  | eof => exact hgone _ rfl rfl rfl
  | error => exact hgone _ rfl rfl rfl
  | bytes bs pos fits =>
    refine iff_of_true ⟨fun _ _ _ => rfl,fun h2 => ?_⟩ trivial
    exact absurd (hf.symm.trans h2) Bool.false_ne_true

/-- A write keeps the client alive exactly when it is clear. -/
theorem Live.write_iff {r : WriteResult} (hs : Sound c) (hh : Happens c (.write r)) :
    Live (c.dispatch (.write r)) ↔ Clear c (.write r) := by
  rw [dispatch_write hh]
  obtain ⟨hf,he,hw⟩ := hh
  obtain ⟨b,q,hq⟩ := List.exists_cons_of_ne_nil (hs hf he hw)
  obtain ⟨hfreed,hcases⟩ := onWrite_cases hq r
  have hquiet : ∀ P : Prop,(onWrite r {c with evWrite := false}).freed=true → P := by
    intro P h2
    exact absurd ((hf.symm.trans hfreed.symm).trans h2) Bool.false_ne_true
  rcases hcases with ⟨h1,-,h3⟩|⟨h1,h2⟩|⟨h1,h2,h3,n,hn,hlen⟩
  · refine iff_of_true ⟨fun _ _ _ => h1,hquiet _⟩ ?_
    cases r with
    | again => trivial
    | error => trivial
    | accepted n =>
      intro b2 q2 hq2 hlen
      rw [hq] at hq2
      cases hq2
      have hlt := h3 n rfl
      omega
  · refine iff_of_true ⟨fun h3 => ?_,hquiet _⟩ ?_
    · exact absurd (h3.symm.trans h1) Bool.false_ne_true
    · rw [h2]
      trivial
  · rw [hn] at h1 h2 h3 hfreed hquiet ⊢
    constructor
    · intro hl b2 q2 hq2 _
      rw [hq] at hq2
      cases hq2
      by_contra hne
      have h4 := hl.armed (h1.trans he) (hfreed.trans hf) (by rw [h3]; exact hne)
      rw [h2] at h4
      exact Bool.false_ne_true h4
    · intro hclear
      have hnil := hclear b q hq hlen
      refine ⟨fun _ _ hne => ?_,hquiet _⟩
      rw [h3] at hne
      exact absurd hnil hne

/-- A dispatch leaves the client live exactly when it is clear. -/
theorem Live.dispatch_iff {k : Callback} (h : Live c) (hs : Sound c) :
    Live (c.dispatch k) ↔ (Happens c k → Clear c k) := by
  by_cases hh : Happens c k
  · rw [forall_prop_of_true hh]
    cases k with
    | read r => exact h.read_iff hs hh
    | write r => exact Live.write_iff hs hh
  · exact iff_of_true (h.not_happens hh) fun h2 => absurd h2 hh

/-- Every event keeps the client sound. -/
theorem Sound.dispatch (hs : Sound c) (k : Callback) : Sound (c.dispatch k) := by
  cases k with
  | read r =>
    rw [Client.dispatch]
    split
    · unfold Client.call
      split
      · exact hs
      · cases r with
        | eof => exact fun hf => absurd hf (by simp [onRead])
        | error => exact fun hf => absurd hf (by simp [onRead])
        | bytes bs pos fits => exact fun _ _ _ => List.append_ne_nil_of_right_ne_nil _ (by simp)
    · exact hs
  | write r =>
    rw [Client.dispatch]
    split
    · rename_i hw
      unfold Client.call
      split
      · exact fun _ _ h => absurd h Bool.false_ne_true
      · rename_i hopen
        rw [Bool.or_eq_true,not_or,Bool.not_eq_true,Bool.not_eq_true] at hopen
        obtain ⟨b,q,hq⟩ := List.exists_cons_of_ne_nil (hs hopen.1 hopen.2 hw)
        intro hf he h
        rcases (onWrite_cases hq r).2 with ⟨-,h2,-⟩|⟨h2,-⟩|⟨-,h2,-⟩
        · exact h2
        · exact absurd (he.symm.trans h2) Bool.false_ne_true
        · exact absurd (h2.symm.trans h) Bool.false_ne_true
    · exact hs

/-! ## Runs -/

/-- A client lives through a run exactly when the run is clear. -/
theorem live_run_iff (h : Live c) (hs : Sound c) (ks : List Callback) :
    (∀ p,p <+: ks → Live (c.run p)) ↔ ClearRun c ks := by
  induction ks generalizing c with
  | nil =>
    refine iff_of_true (fun p hp => ?_) trivial
    rw [List.prefix_nil.mp hp]
    exact h
  | cons k ks ih =>
    constructor
    · intro hall
      have h1 : Live (c.dispatch k) := hall [k] ⟨ks,rfl⟩
      refine ⟨(h.dispatch_iff hs).mp h1,(ih h1 (hs.dispatch k)).mp fun p hp => ?_⟩
      exact hall (k::p) ((List.prefix_cons_inj k).mpr hp)
    · rintro ⟨hk,hrest⟩ p hp
      have h1 := (h.dispatch_iff hs).mpr hk
      rcases List.prefix_cons_iff.mp hp with rfl|⟨p2,rfl,hp2⟩
      · exact h
      · exact (ih h1 (hs.dispatch k)).mpr hrest p2 hp2

/-- A new client lives. -/
theorem live_onAccept : Live onAccept := ⟨fun _ _ h => absurd rfl h,fun h => absurd h (by decide)⟩

/-- A new client is sound. -/
theorem sound_onAccept : Sound onAccept := fun _ _ h => absurd h (by decide)

/-- After every dispatch of a run the data of a connected client has a pending
event and a client that was freed has none, exactly when every complete write
finds no other buffer in the queue and the client goes away only when its queue
is empty. -/
theorem events_iff (ks : List Callback) :
    (∀ p,p <+: ks → Live (onAccept.run p)) ↔ ClearRun onAccept ks :=
  live_run_iff live_onAccept sound_onAccept ks

/-- Two messages of one byte are read before the first one is written: the
second one is forgotten. -/
theorem events_forgotten :
    ¬∀ p,p <+: [.read (.bytes [1] (by decide) (by decide)),.read (.bytes [2] (by decide) (by decide)),
      .write (.accepted 1)] → Live (onAccept.run p) := by
  intro h
  have hlast := (h _ List.prefix_rfl).armed rfl rfl (List.cons_ne_nil _ _)
  exact absurd hlast (by decide)

end StudyCode.EchoServer
