import StudyCode.RegexNfaBuild

/-!
# The simulation of the automaton

A list holds the states that a word leads to. A state is entered once into a
list: the number of the list is stored in the state. The lists have room for as
many states as have been allocated; the static state is not one of them.
-/

namespace StudyCode.RegexMatch

open SplitGraph RegexNfa
open Re2Post (Syn)

/-! ## The source -/

/-- The fields lastlist of the states, and the number of the list. -/
structure Marks where
  /-- The field of a state. -/
  lastlist : Ref → ℤ
  /-- The static variable. -/
  listid : ℤ

/-- The fields and the variable before the first match. -/
def Marks.init : Marks := ⟨fun _ => 0,0⟩

/-- The increment of listid. -/
def Marks.next (m : Marks) : Marks := {m with listid := (m.listid+1).bmod (2^32)}

/-- The field c. -/
def charOfRef (h : Heap) : Ref → ℤ
  | .matchstate => matchC
  | .node i => (h.mem i).c

/-- The field out; the static state has none. -/
def outOfRef (h : Heap) : Ref → Cell
  | .matchstate => .null
  | .node i => (h.mem i).out

/-- The field out1. -/
def out1OfRef (h : Heap) : Ref → Cell
  | .matchstate => .null
  | .node i => (h.mem i).out1

/-- addstate. None for a write behind the list, or when a pointer is no state. -/
def addstate (h : Heap) : ℕ → Marks → List Ref → Cell → Option (Marks×List Ref)
  | 0,_,_,_ => none
  | _+1,m,l,.null => some (m,l)
  | _+1,_,_,.slot _ => none
  | fuel+1,m,l,.state s =>
    if m.lastlist s=m.listid then some (m,l)
    else
      let m1 := {m with lastlist := Function.update m.lastlist s m.listid}
      if charOfRef h s=splitC then
        (addstate h fuel m1 l (outOfRef h s)).bind fun r =>
          addstate h fuel r.1 r.2 (out1OfRef h s)
      else if l.length < h.nstate then some (m1,l++[s]) else none

/-- The fuel of addstate: the recursion marks a state at each level. -/
def fuel (h : Heap) : ℕ := h.nstate+1

/-- startlist. -/
def startlist (h : Heap) (m : Marks) (start : Ref) : Option (Marks×List Ref) :=
  addstate h (fuel h) m.next [] (.state start)

/-- ismatch. -/
def ismatch (l : List Ref) : Bool := l.any (· = .matchstate)

/-- The loop of step. -/
def stepLoop (h : Heap) (c : UInt8) : Marks → List Ref → List Ref → Option (Marks×List Ref)
  | m,nlist,[] => some (m,nlist)
  | m,nlist,s::clist =>
    if charOfRef h s=c.toNat then
      (addstate h (fuel h) m nlist (outOfRef h s)).bind fun r => stepLoop h c r.1 r.2 clist
    else stepLoop h c m nlist clist

/-- The function step. -/
def step (h : Heap) (m : Marks) (clist : List Ref) (c : UInt8) : Option (Marks×List Ref) :=
  stepLoop h c m.next [] clist

/-- The loop of match. -/
def matchLoop (h : Heap) : Marks → List Ref → List UInt8 → Option (Marks×Bool)
  | m,clist,[] => some (m,ismatch clist)
  | m,clist,c::s => (step h m clist c).bind fun r => matchLoop h r.1 r.2 s

/-- The function match. -/
def matchNfa (h : Heap) (m : Marks) (start : Ref) (s : List UInt8) : Option (Marks×Bool) :=
  (startlist h m start).bind fun r => matchLoop h r.1 r.2 s

/-- The loop of main over the strings, with those that are printed. -/
def mainLoop (h : Heap) (start : Ref) : Marks → List (List UInt8) → Option (List (List UInt8))
  | _,[] => some []
  | m,s::args =>
    (matchNfa h m start s).bind fun r =>
      (mainLoop h start r.1 args).map fun out => if r.2 then s::out else out

/-- What the program prints. -/
inductive Output where
  /-- bad regexp -/
  | badRegexp
  /-- error in post2nfa -/
  | errorIn (post : List UInt8)
  /-- The strings that match. -/
  | printed (lines : List (List UInt8))
  deriving DecidableEq

/-- main with a regular expression and some strings. -/
def nfaMain (re : List UInt8) (args : List (List UInt8)) : Option Output :=
  match Re2Post.re2post re with
  | .outside => none
  | .null => some .badRegexp
  | .post p =>
    (post2nfa p).bind fun r =>
      match r with
      | none => some (.errorIn p)
      | some (h,start) => (mainLoop h start .init args).map .printed

/-! ## The search over the unlabeled arrows -/

section Search

variable {h : Heap} {m m1 : Marks} {l l1 : List Ref} {r s : Ref} {c : Cell}

/-- The static state or an allocated one. -/
def Allocated (h : Heap) (r : Ref) : Prop := r=.matchstate ∨ ∃ i < h.nstate,r=.node i

/-- Every pointer is NULL or leads to such a state. -/
def Sound (h : Heap) : Prop :=
  ∀ s : Slot,s.state < h.nstate → h.read s=.null ∨ ∃ r,h.read s=.state r ∧ Allocated h r

/-- The pointer is NULL or leads to such a state. -/
def Leads (h : Heap) (c : Cell) : Prop := c=.null ∨ ∃ r,c=.state r ∧ Allocated h r

/-- The pointer leads to a state that is in the current list, or was followed. -/
def Marked (m : Marks) : Cell → Prop
  | .state r => m.lastlist r=m.listid
  | _ => False

/-- A split has two ways on. -/
theorem kind_state (hr : charOfRef h r=splitC) :
    kind h (.state r)=.split (outOfRef h r) (out1OfRef h r) := by
  cases r with
  | matchstate => simp [charOfRef,matchC,splitC] at hr
  | node i => exact if_pos hr

/-- Any other state is plain. -/
theorem kind_plain (hr : charOfRef h r ≠ splitC) : Plain (kind h) (.state r) := by
  cases r with
  | matchstate => exact .inl rfl
  | node i => exact .inr ⟨_,_,if_neg hr⟩

/-- A plain state is no split. -/
theorem plain_char (hr : Plain (kind h) (.state r)) : charOfRef h r ≠ splitC := by
  intro hs
  rw [Plain,kind_state hs] at hr
  obtain hr|⟨test,q,hr⟩ := hr <;> cases hr

/-- The first way of an allocated state. -/
theorem Sound.out (hs : Sound h) (hr : Allocated h r) : Leads h (outOfRef h r) := by
  obtain rfl|⟨i,hi,rfl⟩ := hr
  · exact .inl rfl
  · exact hs ⟨i,false⟩ hi

/-- The second way of an allocated state. -/
theorem Sound.out1 (hs : Sound h) (hr : Allocated h r) : Leads h (out1OfRef h r) := by
  obtain rfl|⟨i,hi,rfl⟩ := hr
  · exact .inl rfl
  · exact hs ⟨i,true⟩ hi

/-- Some state has two unlabeled arrows. -/
def HasSplit (h : Heap) : Prop := ∃ i < h.nstate,(h.mem i).c=splitC

/-- A list that is being made. -/
structure Listing (h : Heap) (m : Marks) (l : List Ref) : Prop where
  /-- The states are allocated. -/
  alloc : ∀ r ∈ l,Allocated h r
  /-- They are marked. -/
  marked : ∀ r ∈ l,Marked m (.state r)
  /-- They have no unlabeled arrows. -/
  plain : ∀ r ∈ l,charOfRef h r ≠ splitC
  /-- A marked state without unlabeled arrows is in the list. -/
  listed : ∀ r,Marked m (.state r) → charOfRef h r ≠ splitC → r ∈ l
  /-- No state is in the list twice. -/
  nodup : l.Nodup
  /-- The fields hold no later number. -/
  le : ∀ r,m.lastlist r ≤ m.listid

/-- There is room for a further state, as the branching state is not in the
list. -/
theorem Listing.length_lt (hl : Listing h m l) (hs : HasSplit h) (hr : Allocated h r)
    (hp : charOfRef h r ≠ splitC) (hn : r ∉ l) : l.length < h.nstate := by
  obtain ⟨k,hk,hc⟩ := hs
  have hsub : (r::l).toFinset ⊆
      insert .matchstate (((Finset.range h.nstate).erase k).image Ref.node) := by
    intro q hq
    have halloc : Allocated h q ∧ charOfRef h q ≠ splitC := by
      rw [List.mem_toFinset,List.mem_cons] at hq
      obtain rfl|hq := hq
      · exact ⟨hr,hp⟩
      · exact ⟨hl.alloc q hq,hl.plain q hq⟩
    obtain ⟨rfl|⟨i,hi,rfl⟩,hqc⟩ := halloc
    · exact Finset.mem_insert_self _ _
    · refine Finset.mem_insert_of_mem (Finset.mem_image_of_mem _ ?_)
      refine Finset.mem_erase.2 ⟨?_,Finset.mem_range.2 hi⟩
      rintro rfl
      exact hqc hc
  have hcard := Finset.card_le_card hsub
  rw [List.toFinset_card_of_nodup (List.nodup_cons.2 ⟨hn,hl.nodup⟩),List.length_cons] at hcard
  have h1 := Finset.card_insert_le Ref.matchstate
    (((Finset.range h.nstate).erase k).image Ref.node)
  have h2 := Finset.card_image_le (s := (Finset.range h.nstate).erase k) (f := Ref.node)
  rw [Finset.card_erase_of_mem (Finset.mem_range.2 hk),Finset.card_range] at h2
  omega

/-- The number of the allocated states that are not marked. -/
def unmarked (h : Heap) (m : Marks) : ℕ :=
  ((Finset.range h.nstate).filter fun i => m.lastlist (.node i) ≠ m.listid).card

/-- The mark of a state. -/
def Marks.mark (m : Marks) (s : Ref) : Marks :=
  {m with lastlist := Function.update m.lastlist s m.listid}

/-- One state more is marked. -/
theorem marked_mark {q : Ref} : Marked (m.mark s) (.state q) ↔ q=s ∨ Marked m (.state q) := by
  by_cases hq : q=s
  · subst hq
    simp [Marked,Marks.mark]
  · simp [Marked,Marks.mark,hq]

/-- Marking leaves fewer states. -/
theorem unmarked_mark {i : ℕ} (hi : i < h.nstate) (hm : ¬Marked m (.state (.node i))) :
    unmarked h (m.mark (.node i)) < unmarked h m := by
  refine Finset.card_lt_card (Finset.ssubset_iff_of_subset ?_ |>.2 ⟨i,?_,?_⟩)
  · intro k hk
    simp only [Finset.mem_filter,Finset.mem_range] at hk ⊢
    exact ⟨hk.1,fun he => hk.2 (marked_mark.2 (.inr he))⟩
  · exact Finset.mem_filter.2 ⟨Finset.mem_range.2 hi,hm⟩
  · intro hmem
    exact (Finset.mem_filter.1 hmem).2 (marked_mark.2 (.inl rfl))

/-- What addstate does to a list. -/
structure Added (h : Heap) (m : Marks) (l : List Ref) (c : Cell) (m1 : Marks) (l1 : List Ref) :
    Prop where
  /-- It stays a list that is being made. -/
  listing : Listing h m1 l1
  /-- The number of the list is not changed. -/
  listid : m1.listid=m.listid
  /-- Marks stay. -/
  mono : ∀ q,Marked m q → Marked m1 q
  /-- The state is marked. -/
  root : Marked m1 c ∨ c=.null
  /-- A new state of the list is reached from the state. -/
  reach : ∀ r ∈ l1,r ∈ l ∨ Silent (kind h) c (.state r)
  /-- The arrows of a newly marked state have been followed. -/
  split : ∀ p q r,Marked m1 p → ¬Marked m p → kind h p=.split q r →
    (Marked m1 q ∨ q=.null) ∧ (Marked m1 r ∨ r=.null)
  /-- No state becomes unmarked. -/
  unmarked : unmarked h m1 ≤ unmarked h m
  /-- Without unlabeled arrows at most one state is added. -/
  small : HasSplit h ∨ l1.length ≤ l.length+1

/-- More marks leave fewer states. -/
theorem unmarked_mono (hm : ∀ q,Marked m q → Marked m1 q) :
    unmarked h m1 ≤ unmarked h m := by
  refine Finset.card_le_card fun k hk => ?_
  simp only [Finset.mem_filter,Finset.mem_range] at hk ⊢
  exact ⟨hk.1,fun he => hk.2 (hm (.state (.node k)) he)⟩

/-- A state that is marked already adds nothing. -/
theorem added_refl (hl : Listing h m l) (hroot : Marked m c ∨ c=.null) : Added h m l c m l where
  listing := hl
  listid := rfl
  mono _ hq := hq
  root := hroot
  reach _ hr := .inl hr
  split _ _ _ hp hn := absurd hp hn
  unmarked := le_refl _
  small := .inr (Nat.le_succ _)

/-- A split is marked and not listed. -/
theorem Listing.mark_split (hl : Listing h m l) (hs : charOfRef h s=splitC) :
    Listing h (m.mark s) l where
  alloc := hl.alloc
  marked r hr := marked_mark.2 (.inr (hl.marked r hr))
  plain := hl.plain
  listed r hr hp := by
    obtain rfl|hr := marked_mark.1 hr
    · exact absurd hs hp
    · exact hl.listed r hr hp
  nodup := hl.nodup
  le r := by
    by_cases hr : r=s
    · subst hr
      simp [Marks.mark]
    · simpa [Marks.mark,hr] using hl.le r

/-- Any other state is marked and listed. -/
theorem Listing.mark_plain (hl : Listing h m l) (ha : Allocated h s)
    (hs : charOfRef h s ≠ splitC) (hm : ¬Marked m (.state s)) :
    Listing h (m.mark s) (l++[s]) where
  alloc r hr := by
    obtain hr|hr := List.mem_append.1 hr
    · exact hl.alloc r hr
    · exact List.mem_singleton.1 hr ▸ ha
  marked r hr := by
    obtain hr|hr := List.mem_append.1 hr
    · exact marked_mark.2 (.inr (hl.marked r hr))
    · exact marked_mark.2 (.inl (List.mem_singleton.1 hr))
  plain r hr := by
    obtain hr|hr := List.mem_append.1 hr
    · exact hl.plain r hr
    · exact List.mem_singleton.1 hr ▸ hs
  listed r hr hp := by
    obtain rfl|hr := marked_mark.1 hr
    · exact List.mem_append_right l (List.mem_singleton_self r)
    · exact List.mem_append_left [s] (hl.listed r hr hp)
  nodup := hl.nodup.append (List.nodup_singleton s) fun r hr1 hr2 => by
    obtain rfl := List.mem_singleton.1 hr2
    exact hm (hl.marked r hr1)
  le r := by
    by_cases hr : r=s
    · subst hr
      simp [Marks.mark]
    · simpa [Marks.mark,hr] using hl.le r

/-- Marks that are there stay when a state is marked. -/
theorem marked_mono (q : Cell) (hq : Marked m q) : Marked (m.mark r) q := by
  cases q with
  | state q => exact marked_mark.2 (.inr hq)
  | null => exact hq
  | slot => exact hq

/-- What is newly marked with one state is that state. -/
theorem marked_new {p : Cell} (hp : Marked (m.mark r) p) (hn : ¬Marked m p) : p=.state r := by
  cases p with
  | state x =>
    obtain rfl|hx := marked_mark.1 hp
    · rfl
    · exact absurd hx hn
  | null => exact absurd hp id
  | slot => exact absurd hp id

/-- A branching state is added by adding what both of its arrows lead to. -/
theorem Added.both {i : ℕ} {m2 : Marks} {l2 : List Ref} (hi : i < h.nstate)
    (hsplit : charOfRef h (.node i)=splitC) (hm : m.lastlist (.node i)≠m.listid)
    (a1 : Added h (m.mark (.node i)) l (outOfRef h (.node i)) m1 l1)
    (a2 : Added h m1 l1 (out1OfRef h (.node i)) m2 l2) :
    Added h m l (.state (.node i)) m2 l2 := by
  have hk := kind_state hsplit
  exact
    { listing := a2.listing
      listid := a2.listid.trans a1.listid
      mono := fun q hq => a2.mono q (a1.mono q (marked_mono q hq))
      root := .inl (a2.mono _ (a1.mono (.state (.node i)) (marked_mark.2 (.inl rfl))))
      reach := by
        intro q hq
        obtain hq|hq := a2.reach q hq
        · obtain hq|hq := a1.reach q hq
          · exact .inl hq
          · exact .inr (Silent.trans (.left .refl hk) hq)
        · exact .inr (Silent.trans (.right .refl hk) hq)
      split := by
        intro p q t hp hnp hkp
        by_cases hp1 : Marked m1 p
        · by_cases hpi : Marked (m.mark (.node i)) p
          · obtain rfl := marked_new hpi hnp
            rw [hk] at hkp
            cases hkp
            exact ⟨a1.root.imp_left (a2.mono _),a2.root⟩
          · have h3 := a1.split p q t hp1 hpi hkp
            exact ⟨h3.1.imp_left (a2.mono q),h3.2.imp_left (a2.mono t)⟩
        · exact a2.split p q t hp hp1 hkp
      unmarked := by
        have hlt := unmarked_mark hi hm
        have hle := a1.unmarked
        have hle2 := a2.unmarked
        omega
      small := .inl ⟨i,hi,hsplit⟩ }

/-- A plain state is added as it is. -/
theorem Added.plain (hl : Listing h m l) (hr : Allocated h r) (hplain : charOfRef h r≠splitC)
    (hm : m.lastlist r≠m.listid) : Added h m l (.state r) (m.mark r) (l++[r]) where
  listing := hl.mark_plain hr hplain hm
  listid := rfl
  mono := marked_mono
  root := .inl (marked_mark.2 (.inl rfl))
  reach q hq := by
    obtain hq|hq := List.mem_append.1 hq
    · exact .inl hq
    · exact .inr (List.mem_singleton.1 hq ▸ .refl)
  split p q t hp hnp hkp := by
    obtain rfl := marked_new hp hnp
    have hpl := kind_plain hplain
    rw [Plain,hkp] at hpl
    obtain hpl|⟨test,y,hpl⟩ := hpl <;> cases hpl
  unmarked := unmarked_mono marked_mono
  small := .inr (by simp)

/-- The search from one pointer. -/
theorem addstate_spec (hs : Sound h) : ∀ (n : ℕ) (m : Marks) (l : List Ref) (c : Cell),
    Listing h m l → Leads h c → unmarked h m < n → (HasSplit h ∨ l=[]) → 0 < h.nstate →
    ∃ m1 l1,addstate h n m l c=some (m1,l1) ∧ Added h m l c m1 l1 := by
  intro n
  induction n with
  | zero => intro m l c _ _ hn; omega
  | succ n ih =>
    intro m l c hl hc hn hroom hpos
    obtain rfl|⟨r,rfl,hr⟩ := hc
    · exact ⟨m,l,rfl,added_refl hl (.inr rfl)⟩
    · by_cases hm : m.lastlist r=m.listid
      · exact ⟨m,l,by rw [addstate,if_pos hm],added_refl hl (.inl hm)⟩
      · by_cases hsplit : charOfRef h r=splitC
        · -- a branching state: both arrows are followed with one mark more
          obtain ⟨i,hi,rfl⟩ : ∃ i < h.nstate,r=.node i := by
            obtain rfl|hi := hr
            · simp [charOfRef,matchC,splitC] at hsplit
            · exact hi
          have hhas : HasSplit h := ⟨i,hi,hsplit⟩
          have hlt := unmarked_mark hi hm
          obtain ⟨m1,l1,h1,a1⟩ := ih (m.mark (.node i)) l _ (hl.mark_split hsplit)
            (hs.out (.inr ⟨i,hi,rfl⟩)) (by omega) (.inl hhas) hpos
          have hle := a1.unmarked
          obtain ⟨m2,l2,h2,a2⟩ := ih m1 l1 _ a1.listing (hs.out1 (.inr ⟨i,hi,rfl⟩))
            (by omega) (.inl hhas) hpos
          refine ⟨m2,l2,?_,a1.both hi hsplit hm a2⟩
          rw [addstate,if_neg hm]
          simp only [hsplit,if_true]
          rw [show addstate h n {m with lastlist := Function.update m.lastlist (.node i) m.listid}
            l (outOfRef h (.node i))=some (m1,l1) from h1,Option.bind_some]
          exact h2
        · have hnl : r ∉ l := fun hrl => hm (hl.marked r hrl)
          have hlen : l.length < h.nstate := by
            obtain hhas|rfl := hroom
            · exact hl.length_lt hhas hr hsplit hnl
            · exact hpos
          refine ⟨m.mark r,l++[r],?_,.plain hl hr hsplit hm⟩
          rw [addstate,if_neg hm]
          simp only [hsplit,if_false,hlen,if_true]
          rfl

/-! ## Lists from several pointers -/

/-- A list that the search from some pointers has made. -/
structure Done (h : Heap) (m : Marks) (l : List Ref) (roots : List Cell) : Prop where
  /-- It is a list that is being made. -/
  listing : Listing h m l
  /-- The pointers are marked. -/
  root : ∀ c ∈ roots,Marked m c ∨ c=.null
  /-- The states are reached from them. -/
  reach : ∀ r ∈ l,∃ c ∈ roots,Silent (kind h) c (.state r)
  /-- The arrows of the marked states have been followed. -/
  split : ∀ p q r,Marked m p → kind h p=.split q r →
    (Marked m q ∨ q=.null) ∧ (Marked m r ∨ r=.null)
  /-- Without unlabeled arrows there are no more states than pointers. -/
  small : HasSplit h ∨ l.length ≤ roots.length

/-- A new list is empty. -/
theorem done_nil (hn : ∀ r,m.lastlist r < m.listid) : Done h m [] [] where
  listing :=
    { alloc := fun r hr => absurd hr List.not_mem_nil
      marked := fun r hr => absurd hr List.not_mem_nil
      plain := fun r hr => absurd hr List.not_mem_nil
      listed := fun r hr _ => absurd hr (hn r).ne
      nodup := List.nodup_nil
      le := fun r => (hn r).le }
  root c hc := absurd hc List.not_mem_nil
  reach r hr := absurd hr List.not_mem_nil
  split p q r hp _ := by
    cases p with
    | state x => exact absurd hp (hn x).ne
    | null => exact absurd hp id
    | slot => exact absurd hp id
  small := .inr (le_refl 0)

/-- One root more. -/
theorem Done.add {roots : List Cell} (hd : Done h m l roots) (ha : Added h m l c m1 l1) :
    Done h m1 l1 (roots++[c]) where
  listing := ha.listing
  root x hx := by
    obtain hx|hx := List.mem_append.1 hx
    · exact (hd.root x hx).imp_left (ha.mono x)
    · exact List.mem_singleton.1 hx ▸ ha.root
  reach r hr := by
    obtain hr|hr := ha.reach r hr
    · obtain ⟨x,hx,hs⟩ := hd.reach r hr
      exact ⟨x,List.mem_append_left _ hx,hs⟩
    · exact ⟨c,List.mem_append_right _ (List.mem_singleton_self c),hr⟩
  split p q r hp hk := by
    by_cases hpm : Marked m p
    · have h1 := hd.split p q r hpm hk
      exact ⟨h1.1.imp_left (ha.mono q),h1.2.imp_left (ha.mono r)⟩
    · exact ha.split p q r hp hpm hk
  small := by
    obtain hs|hs := hd.small
    · exact .inl hs
    · obtain ha|ha := ha.small
      · exact .inl ha
      · refine .inr ?_
        rw [List.length_append,List.length_singleton]
        omega

/-- The list accepts what the pointers accept. -/
theorem Done.cover {roots : List Cell} (hd : Done h m l roots) (w : List UInt8) :
    Cover (kind h) (l.map .state) w ↔ Cover (kind h) roots w := by
  refine Closed.cover_iff (show Closed _ (Marked m) _ from ⟨?_,?_⟩) ?_ ?_ w
  · intro p hp hpl
    cases p with
    | state x => exact List.mem_map_of_mem (hd.listing.listed x hp (plain_char hpl))
    | null => exact absurd hp id
    | slot => exact absurd hp id
  · intro p q r hp hk
    have h1 := hd.split p q r hp hk
    exact ⟨h1.1.imp_right (congrArg (kind h)),h1.2.imp_right (congrArg (kind h))⟩
  · exact fun p hp => (hd.root p hp).imp_right (congrArg (kind h))
  · intro q hq
    obtain ⟨r,hr,rfl⟩ := List.mem_map.1 hq
    exact hd.reach r hr

/-- There is fuel for every state. -/
theorem unmarked_lt (h : Heap) (m : Marks) : unmarked h m < fuel h := by
  have hc := Finset.card_filter_le (Finset.range h.nstate) fun i => m.lastlist (.node i) ≠ m.listid
  rw [Finset.card_range] at hc
  exact Nat.lt_succ_of_le hc

/-- The search from one pointer more. -/
theorem Done.addstate {roots : List Cell} (hd : Done h m l roots) (hs : Sound h)
    (hpos : 0 < h.nstate) (hc : Leads h c) (hroom : HasSplit h ∨ roots=[]) :
    ∃ m1 l1,addstate h (fuel h) m l c=some (m1,l1) ∧ m1.listid=m.listid ∧
      Done h m1 l1 (roots++[c]) := by
  have hempty : HasSplit h ∨ l=[] := by
    obtain hroom|rfl := hroom
    · exact .inl hroom
    · exact hd.small.imp_right fun hl => List.length_eq_zero_iff.1 (Nat.le_zero.1 hl)
  obtain ⟨m1,l1,h1,ha⟩ := addstate_spec hs (fuel h) m l c hd.listing hc (unmarked_lt h m) hempty hpos
  exact ⟨m1,l1,h1,ha.listid,hd.add ha⟩

end Search

/-! ## One step -/

section Steps

variable {h : Heap} {m : Marks} {l : List Ref} {r : Ref}

/-- A finished list. -/
structure Finished (h : Heap) (l : List Ref) : Prop where
  /-- The states are allocated. -/
  alloc : ∀ r ∈ l,Allocated h r
  /-- They have no unlabeled arrows. -/
  plain : ∀ r ∈ l,charOfRef h r ≠ splitC
  /-- No state is in the list twice. -/
  nodup : l.Nodup
  /-- Without unlabeled arrows there is at most one. -/
  small : HasSplit h ∨ l.length ≤ 1

/-- The fields hold no number after that of the last list. -/
def Marks.Past (m : Marks) : Prop := ∀ r,m.lastlist r ≤ m.listid

/-- The next list has the next number. -/
theorem next_listid (h0 : 0 ≤ m.listid) (h1 : m.listid+1 < 2^31) : m.next.listid=m.listid+1 := by
  simp only [Marks.next,Int.bmod_def]
  omega

/-- The state behind a character. -/
theorem next_state (hr : charOfRef h r ≠ splitC) (c : UInt8) :
    next (kind h) c (.state r)=if charOfRef h r=c.toNat then some (outOfRef h r) else none := by
  cases r with
  | matchstate =>
    have hc : c.toNat < 256 := c.toNat_lt
    have hne : charOfRef h .matchstate ≠ c.toNat := by
      rw [charOfRef,matchC]
      omega
    rw [if_neg hne]
    rfl
  | node i =>
    have hk : kind h (.state (.node i))=
      .read (fun b => (h.mem i).c=b.toNat) (h.mem i).out := if_neg hr
    simp only [next,hk,decide_eq_true_eq]
    rfl

/-- The pointers that are followed with a character. -/
def targets (h : Heap) (c : UInt8) (l : List Ref) : List Cell :=
  (l.map Cell.state).filterMap (next (kind h) c)

/-- A state has one target at most. -/
theorem targets_length_le (c : UInt8) : (targets h c l).length ≤ l.length :=
  (List.length_filterMap_le _ _).trans (List.length_map _).le

/-- The loop over a list adds the targets of its states. -/
theorem stepLoop_spec (hs : Sound h) (hpos : 0 < h.nstate) (c : UInt8) :
    ∀ (clist : List Ref) (m : Marks) (nlist : List Ref) (roots : List Cell),
    Done h m nlist roots → (∀ r ∈ clist,Allocated h r ∧ charOfRef h r ≠ splitC) →
    (HasSplit h ∨ roots.length+clist.length ≤ 1) →
    ∃ m1 l1,stepLoop h c m nlist clist=some (m1,l1) ∧ m1.listid=m.listid ∧
      Done h m1 l1 (roots++targets h c clist) := by
  intro clist
  induction clist with
  | nil =>
    intro m nlist roots hd _ _
    exact ⟨m,nlist,rfl,rfl,by simpa [targets] using hd⟩
  | cons s clist ih =>
    intro m nlist roots hd hcl hroom
    have hcl1 : ∀ r ∈ clist,Allocated h r ∧ charOfRef h r ≠ splitC :=
      fun r hr => hcl r (List.mem_cons_of_mem s hr)
    obtain ⟨hsa,hsp⟩ := hcl s List.mem_cons_self
    have hn := next_state hsp c
    rw [List.length_cons] at hroom
    by_cases hc : charOfRef h s=c.toNat
    · rw [if_pos hc] at hn
      obtain ⟨m1,l1,h1,hid,hd1⟩ := hd.addstate hs hpos (hs.out hsa)
        (hroom.imp_right fun hle => List.length_eq_zero_iff.1 (by omega))
      obtain ⟨m2,l2,h2,hid2,hd2⟩ := ih m1 l1 _ hd1 hcl1
        (hroom.imp_right fun hle => by rw [List.length_append,List.length_singleton]; omega)
      refine ⟨m2,l2,?_,hid2.trans hid,?_⟩
      · rw [stepLoop,if_pos hc,h1,Option.bind_some]
        exact h2
      · rw [targets,List.map_cons,List.filterMap_cons_some hn]
        rwa [List.append_assoc] at hd2
    · rw [if_neg hc] at hn
      obtain ⟨m2,l2,h2,hid2,hd2⟩ := ih m nlist roots hd hcl1
        (hroom.imp_right fun hle => by omega)
      refine ⟨m2,l2,?_,hid2,?_⟩
      · rw [stepLoop,if_neg hc,h2]
      · rwa [targets,List.map_cons,List.filterMap_cons_none hn]

/-- A list whose roots are done is finished. -/
theorem Done.finished {roots : List Cell} (hd : Done h m l roots)
    (hroots : HasSplit h ∨ roots.length ≤ 1) : Finished h l where
  alloc := hd.listing.alloc
  plain := hd.listing.plain
  nodup := hd.listing.nodup
  small := by
    obtain hs|hs := hd.small
    · exact .inl hs
    · exact hroots.imp_right hs.trans

/-- A fresh list has no marks. -/
theorem Marks.Past.fresh (hm : m.Past) (h0 : 0 ≤ m.listid) (h1 : m.listid+1 < 2^31) :
    Done h m.next [] [] :=
  done_nil fun r => (next_listid h0 h1).symm ▸ Int.lt_add_one_of_le (hm r)

/-- The first list stands for the first state. -/
theorem startlist_spec {start : Ref} (hs : Sound h) (hpos : 0 < h.nstate)
    (hstart : Allocated h start) (hm : m.Past) (h0 : 0 ≤ m.listid) (h1 : m.listid+1 < 2^31) :
    ∃ m1 l1,startlist h m start=some (m1,l1) ∧ m1.listid=m.listid+1 ∧ m1.Past ∧ Finished h l1 ∧
      ∀ w,Cover (kind h) (l1.map .state) w ↔ Word (kind h) (.state start) w := by
  obtain ⟨m1,l1,hadd,hid,hd⟩ := (hm.fresh (h := h) h0 h1).addstate hs hpos
    (.inr ⟨start,rfl,hstart⟩) (.inr rfl)
  refine ⟨m1,l1,hadd,hid.trans (next_listid h0 h1),hd.listing.le,
    hd.finished (.inr (le_refl 1)),fun w => ?_⟩
  rw [hd.cover,Cover]
  simp

/-- The list behind a character accepts the rests of the words. -/
theorem step_spec (hs : Sound h) (hpos : 0 < h.nstate) (hl : Finished h l) (hm : m.Past)
    (h0 : 0 ≤ m.listid) (h1 : m.listid+1 < 2^31) (c : UInt8) :
    ∃ m1 l1,step h m l c=some (m1,l1) ∧ m1.listid=m.listid+1 ∧ m1.Past ∧ Finished h l1 ∧
      ∀ w,Cover (kind h) (l1.map .state) w ↔ Cover (kind h) (l.map .state) (c::w) := by
  obtain ⟨m1,l1,hstep,hid,hd⟩ := stepLoop_spec hs hpos c l m.next [] []
    (hm.fresh h0 h1) (fun r hr => ⟨hl.alloc r hr,hl.plain r hr⟩)
    (hl.small.imp_right fun hle => by rw [List.length_nil]; omega)
  rw [List.nil_append] at hd
  refine ⟨m1,l1,hstep,hid.trans (next_listid h0 h1),hd.listing.le,
    hd.finished (hl.small.imp_right (targets_length_le c).trans),fun w => ?_⟩
  rw [hd.cover,targets]
  refine cover_next (fun p hp => ?_) c w
  obtain ⟨r,hr,rfl⟩ := List.mem_map.1 hp
  exact kind_plain (hl.plain r hr)

/-- A list matches when it accepts the empty word. -/
theorem ismatch_iff (hl : Finished h l) :
    ismatch l=true ↔ Cover (kind h) (l.map .state) [] := by
  rw [cover_nil fun p hp => ?_]
  · simp only [ismatch,List.any_eq_true,decide_eq_true_eq]
    constructor
    · rintro ⟨r,hm,rfl⟩
      exact ⟨_,List.mem_map_of_mem hm,rfl⟩
    · rintro ⟨p,hp,hk⟩
      obtain ⟨r,hr,rfl⟩ := List.mem_map.1 hp
      refine ⟨r,hr,?_⟩
      cases r with
      | matchstate => rfl
      | node i =>
        simp only [kind] at hk
        split at hk <;> cases hk
  · obtain ⟨r,hr,rfl⟩ := List.mem_map.1 hp
    exact kind_plain (hl.plain r hr)

/-- The loop of match decides whether the list accepts the string. -/
theorem matchLoop_spec (hs : Sound h) (hpos : 0 < h.nstate) (s : List UInt8) :
    ∀ (m : Marks) (l : List Ref),Finished h l → m.Past → 0 ≤ m.listid →
    m.listid+s.length < 2^31 →
    ∃ m1 b,matchLoop h m l s=some (m1,b) ∧ m1.listid=m.listid+s.length ∧ m1.Past ∧
      (b=true ↔ Cover (kind h) (l.map .state) s) := by
  induction s with
  | nil =>
    intro m l hl hm _ _
    exact ⟨m,ismatch l,rfl,by simp,hm,ismatch_iff hl⟩
  | cons c s ih =>
    intro m l hl hm h0 hlt
    rw [List.length_cons] at hlt
    push_cast at hlt
    obtain ⟨m1,l1,hstep,hid,hm1,hl1,hcover⟩ := step_spec hs hpos hl hm h0 (by omega) c
    obtain ⟨m2,b,hrest,hid2,hm2,hb⟩ := ih m1 l1 hl1 hm1 (by omega) (by omega)
    refine ⟨m2,b,?_,?_,hm2,hb.trans (hcover s)⟩
    · rw [matchLoop,hstep,Option.bind_some]
      exact hrest
    · rw [hid2,hid,List.length_cons]
      push_cast
      ring

end Steps

/-! ## The program -/

section Program

variable {h : Heap} {m : Marks} {start : Ref} {L : Language UInt8}

/-- The graph of an automaton is sound. -/
theorem Automaton.sound (ha : Automaton h start L) : Sound h := by
  intro s hs
  obtain hn|hm|⟨i,hi,hr⟩ := ha.cells s hs
  · exact .inl hn
  · exact .inr ⟨_,hm,.inl rfl⟩
  · exact .inr ⟨_,hr,.inr ⟨i,hi,rfl⟩⟩

/-- match decides the language, and the next match finds no mark of its
list. -/
theorem matchNfa_spec (ha : Automaton h start L) (hm : m.Past)
    (h0 : 0 ≤ m.listid) (s : List UInt8) (hlt : m.listid+(s.length+1) < 2^31) :
    ∃ m1 b,matchNfa h m start s=some (m1,b) ∧ m1.listid=m.listid+(s.length+1) ∧ m1.Past ∧
      (b=true ↔ s ∈ L) := by
  obtain ⟨i,hi,rfl⟩ := ha.first
  have hpos : 0 < h.nstate := by omega
  obtain ⟨m1,l1,hstart,hid,hm1,hl,hcover⟩ := startlist_spec (Automaton.sound ha) hpos
    (.inr ⟨i,hi,rfl⟩) hm h0 (by omega)
  obtain ⟨m2,b,hloop,hid2,hm2,hb⟩ := matchLoop_spec (Automaton.sound ha) hpos s m1 l1 hl hm1
    (by omega) (by omega)
  refine ⟨m2,b,?_,by omega,hm2,hb.trans ((hcover s).trans (ha.word s))⟩
  rw [matchNfa,hstart,Option.bind_some]
  exact hloop

/-- Number of the lists that are made for some strings. -/
def lists (args : List (List UInt8)) : ℕ := (args.map fun s => s.length+1).sum

/-- The loop over the arguments prints those that match. -/
theorem mainLoop_spec {re : RegularExpression UInt8} (ha : Automaton h start re.matches')
    (args : List (List UInt8)) : ∀ m : Marks,m.Past → 0 ≤ m.listid →
    m.listid+lists args < 2^31 → mainLoop h start m args=some (args.filter re.rmatch) := by
  induction args with
  | nil => exact fun m _ _ _ => rfl
  | cons s args ih =>
    intro m hm h0 hlt
    have hl : lists (s::args)=s.length+1+lists args := by simp [lists]
    rw [hl] at hlt
    push_cast at hlt
    obtain ⟨m1,b,hmatch,hid,hm1,hb⟩ := matchNfa_spec ha hm h0 s (by omega)
    rw [mainLoop,hmatch,Option.bind_some]
    simp only [ih m1 hm1 (by omega) (by omega),Option.map_some,List.filter_cons]
    have hre : b=re.rmatch s := Bool.eq_iff_iff.2 (hb.trans (re.rmatch_iff_matches' s).symm)
    rw [hre]

/-- A pattern without a dot has none in its pieces. -/
theorem noDot_of_print {l : Re2Post.Level} (x : Syn l) (hx : 46 ∉ x.print) : NoDot x := by
  induction x with
  | lit c hc => exact fun he => hx (he ▸ List.mem_singleton_self c)
  | group a ih => exact ih fun h => hx (by simp [Syn.print,h])
  | rep op a ih => exact ih fun h => hx (by simp [Syn.print,h])
  | one a ih => exact ih hx
  | more c a ihc iha =>
    exact ⟨ihc fun h => hx (by simp [Syn.print,h]),iha fun h => hx (by simp [Syn.print,h])⟩
  | single c ih => exact ih hx
  | bar c a ihc iha =>
    exact ⟨ihc fun h => hx (by simp [Syn.print,h]),iha fun h => hx (by simp [Syn.print,h])⟩

end Program

end StudyCode.RegexMatch
