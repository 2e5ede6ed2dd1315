import Mathlib.Order.Lex
import Mathlib.Data.Prod.Lex
import StudyCode.RegexMatch
import StudyCode.SearchTree

/-!
# The automaton with a bounded cache

The lists of states that the simulation comes to are kept as states of a
deterministic automaton, in a search tree. When there are too many, all of them
are freed; the next list reuses their memory, while the match goes on from it.
The pointers left and right are taken as a tree and a list, the pointers next
are numbers of memory blocks.

The function ptrcmp that is handed to qsort compares the places of two elements
and not the elements. So the order of a list behind qsort says nothing about its
states: qsort is a parameter, of which no more is assumed than that it permutes.
It may leave another order in each call; the calls are told apart by listid.
-/

namespace StudyCode.RegexCache

open SplitGraph RegexNfa RegexMatch SearchTree
open Re2Post (Syn)

/-! ## The source -/

/-- A DState without the pointers left and right. -/
structure DState where
  /-- The list of states. -/
  l : List Ref
  /-- The states behind the characters; none for NULL. -/
  next : UInt8 → Option ℕ

/-- The static variables with the memory. -/
structure Cache where
  /-- The blocks. -/
  mem : ℕ → DState
  /-- Number of the blocks that were allocated. -/
  blocks : ℕ
  /-- The blocks of the list, which are linked through left. -/
  freelist : List ℕ
  /-- The tree. -/
  alldstates : BinTree ℕ
  /-- Number of the states in the tree. -/
  nstates : ℕ

/-- The variables before the first match. -/
def Cache.init : Cache := ⟨fun _ => ⟨[],fun _ => none⟩,0,[],.nil,0⟩

/-- The loop of listcmp over two lists of the same length, given by addresses. -/
def membercmp : List ℕ → List ℕ → ℤ
  | a::l1,b::l2 => if a < b then -1 else if b < a then 1 else membercmp l1 l2
  | _,_ => 0

/-- listcmp: first by length, then by members. -/
def listcmp (addr : Ref → ℕ) (l1 l2 : List Ref) : ℤ :=
  if l1.length < l2.length then -1
  else if l2.length < l1.length then 1
  else membercmp (l1.map addr) (l2.map addr)

/-- allocdstate. -/
def allocdstate (c : Cache) : Cache×ℕ :=
  match c.freelist with
  | d::freelist =>
    ({c with freelist := freelist
             mem := Function.update c.mem d {c.mem d with next := fun _ => none}},d)
  | [] =>
    ({c with blocks := c.blocks+1
             mem := Function.update c.mem c.blocks ⟨[],fun _ => none⟩},c.blocks)

/-- freestates: the list after the states of the tree. -/
def freestates : BinTree ℕ → List ℕ → List ℕ
  | .nil,freelist => freelist
  | .node d left right,freelist => d::freestates right (freestates left freelist)

/-- freecache. -/
def freecache (c : Cache) : Cache :=
  {c with freelist := freestates c.alldstates c.freelist,alldstates := .nil,nstates := 0}

/-- The assignment through nextp, which is NULL or the address of a pointer
next. -/
def Cache.assign (c : Cache) (nextp : Option (ℕ×UInt8)) (d : ℕ) : Cache :=
  match nextp with
  | none => c
  | some (s,b) =>
    {c with mem := Function.update c.mem s
              {c.mem s with next := Function.update (c.mem s).next b (some d)}}

/-- The code of dstate behind the loop: a new state for a list. -/
def newdstate (addr : Ref → ℕ) (maxstates : ℕ) (c : Cache) (l : List Ref)
    (nextp : Option (ℕ×UInt8)) : Cache×ℕ :=
  let full := maxstates ≤ c.nstates
  let c1 := if full then freecache c else c
  let nextp := if full then none else nextp
  let place := c1.alldstates.insert (fun x => listcmp addr l (c1.mem x).l)
  let r := allocdstate c1
  let c2 := {r.1 with mem := Function.update r.1.mem r.2 {r.1.mem r.2 with l := l}
                      alldstates := place r.2
                      nstates := r.1.nstates+1}
  (c2.assign nextp r.2,r.2)

/-- dstate. -/
def dstate (qsort : List Ref → List Ref) (addr : Ref → ℕ) (maxstates : ℕ) (c : Cache)
    (l : List Ref) (nextp : Option (ℕ×UInt8)) : Cache×ℕ :=
  let l := qsort l
  match c.alldstates.search fun x => listcmp addr l (c.mem x).l with
  | some d => (c,d)
  | none => newdstate addr maxstates c l nextp

section Match

variable (qsort : ℤ → List Ref → List Ref) (h : Heap) (addr : Ref → ℕ) (maxstates : ℕ)

/-- startdstate. -/
def startdstate (m : Marks) (c : Cache) (start : Ref) : Option (Marks×Cache×ℕ) :=
  (startlist h m start).map fun r => (r.1,dstate (qsort r.1.listid) addr maxstates c r.2 none)

/-- nextstate. -/
def nextstate (m : Marks) (c : Cache) (d : ℕ) (b : UInt8) : Option (Marks×Cache×ℕ) :=
  (step h m (c.mem d).l b).map fun r =>
    (r.1,dstate (qsort r.1.listid) addr maxstates c r.2 (some (d,b)))

/-- match. -/
def matchDfa : Marks → Cache → ℕ → List UInt8 → Option (Marks×Cache×Bool)
  | m,c,d,[] => some (m,c,ismatch (c.mem d).l)
  | m,c,d,b::s =>
    match (c.mem d).next b with
    | some next => matchDfa m c next s
    | none => (nextstate qsort h addr maxstates m c d b).bind fun r => matchDfa r.1 r.2.1 r.2.2 s

/-- The loop of main over the strings: the cache at its end and the strings that
are printed. -/
def mainLoop (start : Ref) : Marks → Cache → List (List UInt8) →
    Option (Cache×List (List UInt8))
  | _,c,[] => some (c,[])
  | m,c,s::args =>
    (startdstate qsort h addr maxstates m c start).bind fun r =>
      (matchDfa qsort h addr maxstates r.1 r.2.1 r.2.2 s).bind fun r =>
        (mainLoop start r.1 r.2.1 args).map fun out =>
          (out.1,if r.2.2 then s::out.2 else out.2)

end Match

/-- main with a regular expression and some strings; the addresses are those
that malloc gives to the states. -/
def dfaMain (qsort : ℤ → List Ref → List Ref) (addr : Ref → ℕ) (maxstates : ℕ) (re : List UInt8)
    (args : List (List UInt8)) : Option Output :=
  match Re2Post.re2post re with
  | .outside => none
  | .null => some .badRegexp
  | .post p =>
    (post2nfa p).bind fun r =>
      match r with
      | none => some (.errorIn p)
      | some (h,start) =>
        (mainLoop qsort h addr maxstates start .init .init args).map fun r => .printed r.2

/-! ## The order of the lists -/

section Order

variable {addr : Ref → ℕ} {l1 l2 : List Ref}

/-- The key of a list: its length and its addresses. -/
def key (addr : Ref → ℕ) (l : List Ref) : ℕ ×ₗ List ℕ := toLex (l.length,l.map addr)

/-- The members are compared in the order of lists. -/
theorem membercmp_lt : ∀ {x y : List ℕ},x.length=y.length →
    (membercmp x y < 0 ↔ x < y) ∧ (0 < membercmp x y ↔ y < x) := by
  intro x
  induction x with
  | nil =>
    intro y hl
    obtain rfl := List.length_eq_zero_iff.1 hl.symm
    simp [membercmp]
  | cons a x ih =>
    intro y hl
    cases y with
    | nil => simp at hl
    | cons b y =>
      have hrest := ih (y := y) (by simpa using hl)
      rw [membercmp,List.cons_lt_cons_iff,List.cons_lt_cons_iff]
      obtain hab|rfl|hab := lt_trichotomy a b
      · simp [hab,hab.not_gt,hab.ne,hab.ne']
      · simpa using hrest
      · simp [hab,hab.not_gt,hab.ne,hab.ne']

/-- The comparison is that of the keys. -/
theorem listcmp_compares (l1 l2 : List Ref) :
    (listcmp addr l1 l2 < 0 ↔ key addr l1 < key addr l2) ∧
      (0 < listcmp addr l1 l2 ↔ key addr l2 < key addr l1) := by
  rw [key,key,Prod.Lex.toLex_lt_toLex,Prod.Lex.toLex_lt_toLex,listcmp]
  obtain hl|hl|hl := lt_trichotomy l1.length l2.length
  · simp [hl,hl.not_gt,hl.ne,hl.ne']
  · have hm := membercmp_lt (x := l1.map addr) (y := l2.map addr) (by simpa using hl)
    simpa [hl] using hm
  · simp [hl,hl.not_gt,hl.ne,hl.ne']

/-- Lists with the same key are equal. -/
theorem key_inj (ha : Function.Injective addr) (hk : key addr l1=key addr l2) : l1=l2 :=
  List.map_injective_iff.2 ha (congrArg Prod.snd (toLex.injective hk))

end Order

/-! ## The invariant -/

section Invariant

variable {qsort : List Ref → List Ref} {h : Heap} {addr : Ref → ℕ} {maxstates : ℕ} {c : Cache}
  {l : List Ref} {d : ℕ}
  {nextp : Option (ℕ×UInt8)}

/-- The words of a list. -/
abbrev Words (h : Heap) (l : List Ref) (w : List UInt8) : Prop :=
  Cover (kind h) (l.map .state) w

/-- The words of a list do not depend on its order. -/
theorem words_perm {l1 : List Ref} (hp : l.Perm l1) (w : List UInt8) :
    Words h l w ↔ Words h l1 w :=
  cover_congr (fun _ => (hp.map Cell.state).mem_iff) w

/-- Neither does being finished. -/
theorem finished_perm {l1 : List Ref} (hl : Finished h l) (hp : l1.Perm l) : Finished h l1 where
  alloc r hr := hl.alloc r (hp.mem_iff.1 hr)
  plain r hr := hl.plain r (hp.mem_iff.1 hr)
  nodup := hp.nodup_iff.2 hl.nodup
  small := hp.length_eq ▸ hl.small

/-- The cache between two calls of dstate. -/
structure Cache.Ok (h : Heap) (addr : Ref → ℕ) (maxstates : ℕ) (c : Cache) : Prop where
  /-- Every block is in the tree or in the list of the free ones, and once. -/
  blocks : (c.alldstates.ids++c.freelist).Perm (List.range c.blocks)
  /-- The states of the tree are counted. -/
  count : c.nstates=c.alldstates.ids.length
  /-- There are no more blocks than states are allowed, one at least. -/
  bound : c.blocks ≤ max 1 maxstates
  /-- It is a search tree. -/
  ordered : c.alldstates.Ordered fun d => key addr (c.mem d).l
  /-- They are lists of the simulation. -/
  finished : ∀ d ∈ c.alldstates.ids,Finished h (c.mem d).l
  /-- A pointer next leads into the tree, to the list behind the character. -/
  next : ∀ d ∈ c.alldstates.ids,∀ b d1,(c.mem d).next b=some d1 → d1 ∈ c.alldstates.ids ∧
    ∀ w,Words h (c.mem d1).l w ↔ Words h (c.mem d).l (b::w)

variable (maxstates) in
/-- The empty cache is sound. -/
theorem init_ok : Cache.init.Ok h addr maxstates where
  blocks := List.Perm.refl _
  count := rfl
  bound := Nat.zero_le _
  ordered := trivial
  finished _ hd := absurd hd List.not_mem_nil
  next _ hd := absurd hd List.not_mem_nil

/-- Every state of the tree is put on the free list. -/
theorem freestates_perm (t : BinTree ℕ) : ∀ freelist : List ℕ,
    (freestates t freelist).Perm (t.ids++freelist) := by
  induction t with
  | nil => exact fun freelist => List.Perm.refl _
  | node d left right ihl ihr =>
    intro freelist
    rw [freestates,BinTree.ids,List.cons_append,List.append_assoc]
    refine ((ihr _).trans ((ihl freelist).append_left right.ids)).cons d |>.trans ?_
    rw [←List.append_assoc,←List.append_assoc]
    exact ((List.perm_append_comm).append_right freelist).cons d

/-- The cache stays sound when it is freed. -/
theorem Cache.Ok.freecache (hc : c.Ok h addr maxstates) : (freecache c).Ok h addr maxstates where
  blocks := (freestates_perm c.alldstates c.freelist).trans hc.blocks
  count := rfl
  bound := hc.bound
  ordered := trivial
  finished _ hd := absurd hd List.not_mem_nil
  next _ hd := absurd hd List.not_mem_nil

/-- A state is taken from the free list or is new. -/
theorem allocdstate_spec (hc : c.Ok h addr maxstates) (hlt : c.nstates < max 1 maxstates) :
    ((allocdstate c).2::(c.alldstates.ids++(allocdstate c).1.freelist)).Perm
      (List.range (allocdstate c).1.blocks) ∧
    (allocdstate c).1.blocks ≤ max 1 maxstates ∧
    (allocdstate c).1.nstates=c.nstates ∧
    ((allocdstate c).1.mem (allocdstate c).2).next=(fun _ => none) ∧
    ∀ x,x ≠ (allocdstate c).2 → (allocdstate c).1.mem x=c.mem x := by
  have hp := hc.blocks
  cases hf : c.freelist with
  | nil =>
    rw [hf,List.append_nil] at hp
    simp only [allocdstate,hf,List.append_nil,Function.update_self]
    refine ⟨?_,?_,trivial,trivial,fun x hx => Function.update_of_ne hx _ _⟩
    · rw [List.range_succ]
      exact (hp.cons c.blocks).trans (List.perm_append_singleton _ _).symm
    · have hlen := hp.length_eq
      rw [List.length_range] at hlen
      have := hc.count
      omega
  | cons d freelist =>
    rw [hf] at hp
    simp only [allocdstate,hf,Function.update_self]
    exact ⟨List.perm_middle.symm.trans hp,hc.bound,trivial,trivial,
      fun x hx => Function.update_of_ne hx _ _⟩

/-- The pointer nextp may be set to a list. -/
def Valid (h : Heap) (c : Cache) (nextp : Option (ℕ×UInt8)) (l : List Ref) : Prop :=
  ∀ s b,nextp=some (s,b) → s ∈ c.alldstates.ids ∧
    ∀ w,Words h l w ↔ Words h (c.mem s).l (b::w)

/-- Setting a link leaves the tree. -/
@[simp] theorem assign_ids (x : ℕ) : (c.assign nextp x).alldstates=c.alldstates := by
  cases nextp <;> rfl

/-- Setting a link leaves the lists. -/
@[simp] theorem assign_l (x y : ℕ) : ((c.assign nextp x).mem y).l=(c.mem y).l := by
  obtain _|⟨s,b⟩ := nextp
  · rfl
  · by_cases hy : y=s
    · subst hy
      simp only [Cache.assign,Function.update_self]
    · simp only [Cache.assign,Function.update_of_ne hy]

/-- A valid link keeps the cache sound. -/
theorem Cache.Ok.assign (hc : c.Ok h addr maxstates) (hd : d ∈ c.alldstates.ids)
    (hv : Valid h c nextp (c.mem d).l) : (c.assign nextp d).Ok h addr maxstates := by
  obtain _|⟨s,b⟩ := nextp
  · exact hc
  · obtain ⟨hs,hw⟩ := hv s b rfl
    refine ⟨hc.blocks,hc.count,hc.bound,?_,?_,?_⟩
    · simpa only [assign_ids,assign_l] using hc.ordered
    · simpa only [assign_ids,assign_l] using hc.finished
    · intro x hx b1 d1 hn
      simp only [assign_ids,assign_l] at hx hn ⊢
      by_cases hxs : x=s
      · subst hxs
        simp only [Cache.assign,Function.update_self] at hn
        by_cases hb : b1=b
        · subst hb
          rw [Function.update_self] at hn
          cases hn
          exact ⟨hd,hw⟩
        · rw [Function.update_of_ne hb] at hn
          exact hc.next x hx b1 d1 hn
      · simp only [Cache.assign,Function.update_of_ne hxs] at hn
        exact hc.next x hx b1 d1 hn

variable (nextp) in
/-- A further state, for a list that is not in the tree. -/
theorem insert_spec (hc : c.Ok h addr maxstates) (hl : Finished h l)
    (hlt : c.nstates < max 1 maxstates)
    (hs : c.alldstates.search (fun x => listcmp addr l (c.mem x).l)=none)
    (hv : Valid h c nextp l) :
    let r := allocdstate c
    let c2 : Cache :=
      {r.1 with mem := Function.update r.1.mem r.2 {r.1.mem r.2 with l := l}
                alldstates := c.alldstates.insert (fun x => listcmp addr l (c.mem x).l) r.2
                nstates := r.1.nstates+1}
    (c2.assign nextp r.2).Ok h addr maxstates ∧ r.2 ∈ (c2.assign nextp r.2).alldstates.ids ∧
      ((c2.assign nextp r.2).mem r.2).l=l := by
  intro r c2
  obtain ⟨hperm,hbound,hn,hnone,hmem⟩ := allocdstate_spec hc hlt
  have hnew : r.2 ∉ c.alldstates.ids := fun hm =>
    (List.nodup_cons.1 (hperm.nodup_iff.2 List.nodup_range)).1 (List.mem_append_left _ hm)
  have hids : c2.alldstates.ids.Perm (r.2::c.alldstates.ids) := BinTree.ids_insert r.2 hs
  have hself : c2.mem r.2=⟨l,fun _ => none⟩ := by
    simp only [c2,Function.update_self,DState.mk.injEq,true_and]
    exact hnone
  have hold : ∀ x ∈ c.alldstates.ids,c2.mem x=c.mem x := fun x hx => by
    have hxr : x ≠ r.2 := fun he => hnew (he ▸ hx)
    simp only [c2,Function.update_of_ne hxr]
    exact hmem x hxr
  have hcases : ∀ x ∈ c2.alldstates.ids,x=r.2 ∨ x ∈ c.alldstates.ids :=
    fun x hx => List.mem_cons.1 (hids.mem_iff.1 hx)
  have hin : r.2 ∈ c2.alldstates.ids := hids.mem_iff.2 List.mem_cons_self
  have hok : c2.Ok h addr maxstates := by
    refine ⟨?_,?_,hbound,?_,?_,?_⟩
    · exact (hids.append_right _).trans hperm
    · rw [hids.length_eq,List.length_cons,←hc.count]
      exact congrArg Nat.succ hn
    · refine BinTree.Ordered.insert (hc.ordered.congr fun x hx => by rw [hold x hx]) (fun x hx => ?_) hs
      rw [Compares,hself,hold x hx]
      exact listcmp_compares l _
    · intro x hx
      obtain rfl|hx := hcases x hx
      · rw [hself]
        exact hl
      · rw [hold x hx]
        exact hc.finished x hx
    · intro x hx b d1 hnx
      obtain rfl|hx := hcases x hx
      · rw [hself] at hnx
        cases hnx
      · rw [hold x hx] at hnx ⊢
        obtain ⟨hd1,hw⟩ := hc.next x hx b d1 hnx
        refine ⟨hids.mem_iff.2 (List.mem_cons_of_mem _ hd1),fun w => ?_⟩
        rw [hold d1 hd1]
        exact hw w
  refine ⟨hok.assign hin fun s b hsb => ?_,?_,?_⟩
  · obtain ⟨hsm,hw⟩ := hv s b hsb
    refine ⟨hids.mem_iff.2 (List.mem_cons_of_mem _ hsm),fun w => ?_⟩
    rw [hself,hold s hsm]
    exact hw w
  · rw [assign_ids]
    exact hin
  · rw [assign_l,hself]

variable (nextp) in
/-- dstate keeps the invariant, and the state that it returns stands for the
list. -/
theorem dstate_spec (hq : ∀ l,(qsort l).Perm l) (ha : Function.Injective addr)
    (hc : c.Ok h addr maxstates) (hl : Finished h l) (hv : Valid h c nextp l) :
    (dstate qsort addr maxstates c l nextp).1.Ok h addr maxstates ∧
    (dstate qsort addr maxstates c l nextp).2 ∈ (dstate qsort addr maxstates c l nextp).1.alldstates.ids ∧
    ∀ w,Words h ((dstate qsort addr maxstates c l nextp).1.mem (dstate qsort addr maxstates c l nextp).2).l w ↔
      Words h l w := by
  have hp := hq l
  cases hs : c.alldstates.search (fun x => listcmp addr (qsort l) (c.mem x).l) with
  | some d =>
    have hcmp : ∀ x ∈ c.alldstates.ids,Compares
        (fun x => listcmp addr (qsort l) (c.mem x).l) (fun x => key addr (c.mem x).l)
        (key addr (qsort l)) x := fun x _ => listcmp_compares (qsort l) (c.mem x).l
    obtain ⟨hd,hk⟩ := BinTree.search_some hcmp hs
    simp only [dstate,hs]
    refine ⟨hc,hd,fun w => ?_⟩
    rw [key_inj ha hk]
    exact words_perm hp w
  | none =>
    simp only [dstate,hs,newdstate]
    by_cases hfull : maxstates ≤ c.nstates
    · simp only [hfull,if_true]
      obtain ⟨hok,hin,hlist⟩ := insert_spec none hc.freecache (finished_perm hl hp)
        (by simp [freecache]) rfl (fun s b hsb => by cases hsb)
      refine ⟨hok,hin,fun w => ?_⟩
      rw [hlist]
      exact words_perm hp w
    · simp only [hfull,if_false]
      obtain ⟨hok,hin,hlist⟩ := insert_spec nextp hc (finished_perm hl hp) (by omega) hs
        (fun s b hsb => ⟨(hv s b hsb).1,fun w => (words_perm hp w).trans ((hv s b hsb).2 w)⟩)
      refine ⟨hok,hin,fun w => ?_⟩
      rw [hlist]
      exact words_perm hp w

/-- Two states of the tree with the same list are one. -/
theorem Cache.Ok.unique (hc : c.Ok h addr maxstates) {d1 : ℕ} (hd : d ∈ c.alldstates.ids)
    (hd1 : d1 ∈ c.alldstates.ids) (hl : (c.mem d).l=(c.mem d1).l) : d=d1 :=
  List.inj_on_of_nodup_map hc.ordered.nodup hd hd1 (congrArg (key addr) hl)

end Invariant

/-! ## Matches -/

section Matches

variable {qsort : ℤ → List Ref → List Ref} {h : Heap} {addr : Ref → ℕ} {maxstates : ℕ} {start : Ref}

/-- match decides whether the list of the state accepts the string, with the
pointers of the cache and with the lists that it makes. -/
theorem matchDfa_spec (hq : ∀ i l,(qsort i l).Perm l) (ha : Function.Injective addr)
    (hs : Sound h) (hpos : 0 < h.nstate) (s : List UInt8) : ∀ (m : Marks) (c : Cache) (d : ℕ),c.Ok h addr maxstates →
    d ∈ c.alldstates.ids → m.Past → 0 ≤ m.listid → m.listid+s.length < 2^31 →
    ∃ m1 c1 b,matchDfa qsort h addr maxstates m c d s=some (m1,c1,b) ∧ m1.Past ∧
      m.listid ≤ m1.listid ∧ m1.listid ≤ m.listid+s.length ∧ c1.Ok h addr maxstates ∧
      (b=true ↔ Words h (c.mem d).l s) := by
  induction s with
  | nil =>
    intro m c d hc hd hm _ _
    exact ⟨m,c,_,rfl,hm,le_refl _,by simp,hc,ismatch_iff (hc.finished d hd)⟩
  | cons b s ih =>
    intro m c d hc hd hm h0 hlt
    rw [List.length_cons] at hlt ⊢
    push_cast at hlt ⊢
    cases hn : (c.mem d).next b with
    | some next =>
      obtain ⟨hin,hw⟩ := hc.next d hd b next hn
      obtain ⟨m1,c1,r,hrun,hm1,hle,hle1,hc1,hr⟩ := ih m c next hc hin hm h0 (by omega)
      refine ⟨m1,c1,r,?_,hm1,hle,by omega,hc1,hr.trans (hw s)⟩
      rw [matchDfa,hn]
      exact hrun
    | none =>
      obtain ⟨m1,l1,hstep,hid,hm1,hl1,hw⟩ := step_spec hs hpos (hc.finished d hd) hm h0
        (by omega) b
      obtain ⟨hc2,hin,hw2⟩ := dstate_spec (some (d,b)) (hq m1.listid) ha hc hl1 fun x y hxy => by
        cases hxy
        exact ⟨hd,hw⟩
      obtain ⟨m3,c3,r,hrun,hm3,hle,hle1,hc3,hr⟩ := ih m1 _ _ hc2 hin hm1 (by omega) (by omega)
      refine ⟨m3,c3,r,?_,hm3,by omega,by omega,hc3,hr.trans ((hw2 s).trans (hw s))⟩
      simp only [matchDfa,hn,nextstate,hstep,Option.map_some,Option.bind_some]
      exact hrun

/-- The loop over the arguments prints those that match. -/
theorem mainLoop_spec (hq : ∀ i l,(qsort i l).Perm l) (ha : Function.Injective addr)
    {re : RegularExpression UInt8} (hauto : Automaton h start re.matches') (args : List (List UInt8)) :
    ∀ (m : Marks) (c : Cache),c.Ok h addr maxstates → m.Past → 0 ≤ m.listid →
    m.listid+lists args < 2^31 →
    ∃ c1,mainLoop qsort h addr maxstates start m c args=some (c1,args.filter re.rmatch) ∧
      c1.Ok h addr maxstates := by
  obtain ⟨i,hi,rfl⟩ := hauto.first
  have hpos : 0 < h.nstate := by omega
  have hs := Automaton.sound hauto
  induction args with
  | nil => exact fun m c hc _ _ _ => ⟨c,rfl,hc⟩
  | cons s args ih =>
    intro m c hc hm h0 hlt
    have hl : lists (s::args)=s.length+1+lists args := by simp [lists]
    rw [hl] at hlt
    push_cast at hlt
    obtain ⟨m1,l1,hstart,hid,hm1,hl1,hw⟩ := startlist_spec hs hpos (.inr ⟨i,hi,rfl⟩) hm h0
      (by omega)
    obtain ⟨hc2,hin,hw2⟩ := dstate_spec none (hq m1.listid) ha hc hl1 fun x y hxy => by cases hxy
    obtain ⟨m3,c3,b,hrun,hm3,hle,hle1,hc3,hb⟩ := matchDfa_spec hq ha hs hpos s m1 _ _ hc2 hin hm1
      (by omega) (by omega)
    obtain ⟨c4,hrest,hc4⟩ := ih m3 c3 hc3 hm3 (by omega) (by omega)
    refine ⟨c4,?_,hc4⟩
    have hre : b=re.rmatch s := by
      refine Bool.eq_iff_iff.2 (hb.trans ((hw2 s).trans ((hw s).trans ?_)))
      exact (hauto.word s).trans (re.rmatch_iff_matches' s).symm
    simp only [mainLoop,startdstate,hstart,Option.map_some,Option.bind_some,hrun,hrest,hre,
      List.filter_cons]

/-- At the start no list was made. -/
theorem init_past : Marks.init.Past := fun _ => le_refl 0

/-- The cache behind any strings: each block is in use or free, and there are
not more than allowed; a list of states is stored once; and a pointer next leads
to the state whose words are the rests behind the character. -/
theorem cache_invariant (hq : ∀ i l,(qsort i l).Perm l) (ha : Function.Injective addr)
    (a : Syn .alt) (hdot : NoDot a) (hneed : need a ≤ stackSize) (args : List (List UInt8)) (hargs : lists args < 2^31) :
    ∃ h start c,post2nfa a.post=some (some (h,start)) ∧
      mainLoop qsort h addr maxstates start .init .init args=some (c,args.filter (regex a).rmatch) ∧
      (c.alldstates.ids++c.freelist).Perm (List.range c.blocks) ∧ c.blocks ≤ max 1 maxstates ∧
      (∀ d ∈ c.alldstates.ids,∀ d1 ∈ c.alldstates.ids,
        (c.mem d).l=(c.mem d1).l → d=d1) ∧
      ∀ d ∈ c.alldstates.ids,∀ b d1,(c.mem d).next b=some d1 → d1 ∈ c.alldstates.ids ∧
        ∀ w,Words h (c.mem d1).l w ↔ Words h (c.mem d).l (b::w) := by
  obtain ⟨h,start,hp,hauto⟩ := post2nfa_post a hdot hneed
  obtain ⟨c,hrun,hc⟩ := mainLoop_spec hq ha hauto args .init .init (init_ok maxstates)
    init_past (le_refl 0) (by simpa [Marks.init] using hargs)
  exact ⟨h,start,c,hp,hrun,hc.blocks,hc.bound,fun d hd d1 hd1 => hc.unique hd hd1,hc.next⟩

/-- Addresses in the order of the allocation. -/
def consecutive : Ref → ℕ
  | .matchstate => 0
  | .node i => i+1

/-- Different states have different addresses. -/
theorem consecutive_injective : Function.Injective consecutive := by
  intro r s hrs
  cases r <;> cases s <;> simp_all [consecutive]

/-- The expression a* with a cache of one state. -/
theorem cache_invariant_star : ∃ h start c,post2nfa [97,42]=some (some (h,start)) ∧
    mainLoop (fun _ => id) h consecutive 1 start .init .init [[97,98],[97]]=some (c,[[97]]) ∧ c.blocks ≤ 1 := by
  obtain ⟨h,start,c,hp,hrun,-,hb,-,-⟩ := @cache_invariant _ _ 1 (fun _ => List.Perm.refl) consecutive_injective
    (.single (.one (.rep .star (.lit 97 (by decide))))) (by simp [NoDot]) (by decide)
    [[97,98],[97]] (by decide)
  exact ⟨h,start,c,hp,hrun,hb⟩

/-- The expression a|a* on two characters: a list that is left in its order, as
with a comparison of the places, is kept beside another order of its states. -/
theorem cache_orders : ∃ h start c,post2nfa [97,97,42,124]=some (some (h,start)) ∧
    mainLoop (fun _ => id) h consecutive 32 start .init .init [[97,97]]=some (c,[[97,97]]) ∧
    c.alldstates.ids.Perm [0,1,2] ∧ (c.mem 1).l=[.matchstate,.node 1] ∧
      (c.mem 2).l=[.node 1,.matchstate] := by
  refine ⟨_,_,_,rfl,rfl,?_,rfl,rfl⟩
  decide

/-- The program with the cache prints what the simulation prints, for every
size of the cache, all addresses of the states and any orders that qsort leaves. -/
theorem dfaMain_eq_nfaMain (hq : ∀ i l,(qsort i l).Perm l) (ha : Function.Injective addr)
    (re : List UInt8) (hre : 46 ∉ re) (args : List (List UInt8)) (hargs : lists args < 2^31) :
    dfaMain qsort addr maxstates re args=nfaMain re args := by
  cases hpost : Re2Post.re2post re with
  | outside => simp only [dfaMain,nfaMain,hpost]
  | null => simp only [dfaMain,nfaMain,hpost]
  | post p =>
    simp only [dfaMain,nfaMain,hpost]
    obtain rfl|⟨a,⟨rfl,rfl⟩|⟨rfl,rfl⟩⟩ := Re2Post.shape_of_post hpost
    · obtain rfl : p=[] := (Re2Post.Outcome.post.inj hpost).symm
      rfl
    · have hdot := noDot_of_print a hre
      by_cases hneed : stackSize < need a
      · rw [post2nfa_overflow a hdot hneed,Option.bind_none,Option.bind_none]
      · obtain ⟨h,start,hp,hauto⟩ := post2nfa_post a hdot (not_lt.1 hneed)
        have hlt : (0 : ℤ)+lists args < 2^31 := by omega
        obtain ⟨c,hrun,-⟩ := mainLoop_spec hq ha hauto args .init .init
          (init_ok maxstates) init_past (le_refl 0) hlt
        rw [hp,Option.bind_some,Option.bind_some]
        simp only [hrun,RegexMatch.mainLoop_spec hauto args .init init_past (le_refl 0) hlt,
          Option.map_some]
    · have hdot := noDot_of_print a fun h => hre (List.mem_append_left [124] h)
      rw [post2nfa_trailing a hdot,Option.bind_none,Option.bind_none]

/-- The expression a*b with a cache of one state. -/
theorem dfaMain_eq_nfaMain_star : dfaMain (fun _ => id) consecutive 1 [97,42,98] [[97,97,98],[97]]=
    nfaMain [97,42,98] [[97,97,98],[97]] :=
  dfaMain_eq_nfaMain (fun _ => List.Perm.refl) consecutive_injective [97,42,98] (by decide)
    [[97,97,98],[97]] (by decide)

end Matches

end StudyCode.RegexCache
