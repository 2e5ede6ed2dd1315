import StudyCode.List01Sequence

/-!
# Queries on list_01

`get_element` and `prior_element` leave their cursor where it is, and
`next_element` gives the link of the node behind the one it has found instead of
its element. `locate_element` walks to the end. Each query is compared with the
abstract sequence, for every list that insertions and deletions have built.
-/

namespace StudyCode.List01

open Linked

variable {α : Type}

/-! ## The queries of list.c -/

/-- The loop of get_element, which counts but does not move. -/
def getLoop (p : Option ℕ) (i : ℤ) : ℕ → ℤ → Option ℤ
  | 0,_ => none
  | fuel+1,j => if p≠none ∧ j≠i then getLoop p i fuel (j+1) else some j

/-- get_element: the return value and the element if it is set. -/
def getElement (fuel : ℕ) (h : Heap α) (list : Option ℕ) (i : ℤ) : Option (Answer α) :=
  if list=none then some (-1,none)
  else (h.getNext list).bind fun p =>
    if p=none then some (-1,none)
    else (listLength h list).bind fun len =>
      if i < 1 ∨ len < i then some (-1,none)
      else (getLoop p i fuel 0).bind fun _ => (h.getData p).map fun e => (1,some e)

/-- The loop of locate_element. -/
def locateLoop (h : Heap α) (e : α) (compare : α → α → Bool) : ℕ → Option ℕ → ℤ → Option ℤ
  | 0,_,_ => none
  | _+1,none,_ => some 0
  | fuel+1,some p,i => (h.data p).bind fun x =>
    if compare x e then some (i+1)
    else (h.next p).bind fun q => locateLoop h e compare fuel q (i+1)

/-- locate_element. -/
def locateElement (fuel : ℕ) (h : Heap α) (list : Option ℕ) (e : α) (compare : α → α → Bool) :
    Option ℤ :=
  if list=none then some (-1)
  else (h.getNext list).bind fun p => locateLoop h e compare fuel p 0

section Elements

variable [DecidableEq α]

/-- The loop of prior_element, which stays at its node. -/
def priorLoop (h : Heap α) (cure : α) : ℕ → Option ℕ → Option (Answer α)
  | 0,_ => none
  | _+1,none => some (0,none)
  | fuel+1,some p => (h.data p).bind fun e =>
    if e=cure then ((h.prev p).bind h.getData).map fun d => (1,some d)
    else priorLoop h cure fuel (some p)

/-- prior_element. -/
def priorElement (fuel : ℕ) (h : Heap α) (list : Option ℕ) (cure : α) : Option (Answer α) :=
  if list=none then some (-1,none)
  else (h.getNext list).bind fun first =>
    if first=none then some (-1,none) else (h.getNext first).bind (priorLoop h cure fuel)

/-- The loop of next_element; `ptr` makes an element of a link. -/
def nextLoop (ptr : Option ℕ → α) (h : Heap α) (cure : α) : ℕ → Option ℕ → Option (Answer α)
  | 0,_ => none
  | _+1,none => some (0,none)
  | fuel+1,some p => ((h.prev p).bind h.getData).bind fun d =>
    if d=cure then (h.next p).map fun q => (1,some (ptr q))
    else (h.next p).bind (nextLoop ptr h cure fuel)

/-- next_element, which reads on behind the message for an empty list. -/
def nextElement (ptr : Option ℕ → α) (fuel : ℕ) (h : Heap α) (list : Option ℕ) (cure : α) :
    Option (Answer α) :=
  if list=none then some (-1,none)
  else (h.getNext list).bind fun first => (h.getNext first).bind (nextLoop ptr h cure fuel)

/-! ## Queries on the abstract sequence -/

/-- A query. -/
inductive Query (α : Type) where
  /-- get_element. -/
  | get (i : ℤ)
  /-- prior_element. -/
  | prior (x : α)
  /-- next_element. -/
  | next (x : α)
  /-- locate_element with equality. -/
  | locate (x : α)

/-- A query on the list in a heap. -/
def query (ptr : Option ℕ → α) (fuel : ℕ) (h : Heap α) (list : ℕ) : Query α → Option (Answer α)
  | .get i => getElement fuel h (some list) i
  | .prior x => priorElement fuel h (some list) x
  | .next x => nextElement ptr fuel h (some list) x
  | .locate x => (locateElement fuel h (some list) x fun a b => decide (a=b)).map fun i => (i,none)

/-- A query on a sequence. -/
def querySpec (es : List α) : Query α → Answer α
  | .get i => if 1 ≤ i ∧ i ≤ es.length then (1,es[i.toNat-1]?) else (-1,none)
  | .prior x => if x ∈ es ∧ es.head? ≠ some x then (1,es[es.idxOf x-1]?) else (0,none)
  | .next x => if x ∈ es ∧ es.getLast? ≠ some x then (1,es[es.idxOf x+1]?) else (0,none)
  | .locate x => if x ∈ es then (es.idxOf x+1,none) else (0,none)

/-- The query ends with an answer. -/
def Answers (ptr : Option ℕ → α) (h : Heap α) (list : ℕ) (q : Query α) (r : Answer α) : Prop :=
  ∃ n,∀ fuel ≥ n,query ptr fuel h list q=some r

/-- The query ends with the abstract answer, and get_element gives the element
that has been located. -/
def Correct (ptr : Option ℕ → α) (h : Heap α) (list : ℕ) (es : List α) (q : Query α) : Prop :=
  Answers ptr h list q (querySpec es q) ∧
    match q with
    | .locate x => x ∈ es → Answers ptr h list (.get (es.idxOf x+1)) (1,some x)
    | _ => True

/-- When a query is answered as on the sequence: get_element for the first
position and outside of the list, prior_element for one element or the second
one, next_element unless it has something to give that is not the link it
gives, locate_element for the first element and for others than those of the
list. -/
def Sound (ptr : Option ℕ → α) (h : Heap α) (list : ℕ) (es : List α) : Query α → Prop
  | .get i => ¬(2 ≤ i ∧ i ≤ es.length)
  | .prior x => es.length=1 ∨ es[1]?=some x
  | .next x => ∀ k,es[k]?=some x → k+1 < es.length →
      (walk h (k+3) (some list)).map ptr=es[k+1]?
  | .locate x => x ∈ es → es.head?=some x

end Elements

/-- The heap behind a run of calls. -/
def runCalls (malloc : Heap α → ℕ) (list : ℕ) : Heap α → List (Call α) → Option (Heap α)
  | h,[] => some h
  | h,c::cs => (call malloc h list c).bind fun r => runCalls malloc list r.1 cs

/-- The sequence behind a run of calls. -/
def sequence : List α → List (Call α) → List α
  | es,[] => es
  | es,c::cs => sequence (callSpec es c).1 cs

variable {malloc : Heap α → ℕ} {h k : Heap α} {list a b : ℕ} {as : List ℕ} {e : α} {es : List α}

/-- A run that ends leaves a chain with the abstract sequence. -/
theorem runCalls_chain (hm : Succeeds malloc) (hc : Chain h list as es) {calls : List (Call α)}
    (hrun : runCalls malloc list h calls=some k) :
    ∃ bs,Chain k list bs (sequence es calls) := by
  induction calls generalizing h as es with
  | nil =>
    obtain rfl : h=k := Option.some.inj hrun
    exact ⟨as,hc⟩
  | cons c cs ih =>
    by_cases hclear : ClearCall es c
    · obtain ⟨k',bs,hk,-,hchain⟩ := call_chain hm hc hclear
      rw [runCalls,hk,Option.bind_some] at hrun
      exact ih hchain hrun
    · rw [runCalls,call_behind hm hc hclear] at hrun
      cases hrun

/-! ## The first nodes -/

/-- The link of the first node. -/
theorem Chain.next_first (hc : Chain h list (a::as) es) : h.next a=some as.head? :=
  next_eq_head (List.isChain_cons_cons.mp hc.path).2 (last_tail hc.last)

/-- The data of the first node. -/
theorem Chain.data_first (hc : Chain h list (a::as) (e::es)) : h.data a=some e := by
  have hd := hc.data
  rw [List.map_cons,List.map_cons,List.cons_eq_cons] at hd
  exact hd.1

/-- A list with elements has a first node. -/
theorem Chain.exists_first (hc : Chain h list as es) (hne : es≠[]) :
    ∃ a bs e fs,as=a::bs ∧ es=e::fs := by
  have hlen := hc.length_eq
  cases as with
  | nil => exact absurd (List.length_eq_zero_iff.mp hlen.symm) hne
  | cons a bs =>
    cases es with
    | nil => exact absurd rfl hne
    | cons e fs => exact ⟨a,bs,e,fs,rfl,rfl⟩

/-- The address that a number of links lead to. -/
theorem walk_path (hp : Path h (a::as)) (hl : ∀ l b,a::as=l++[b] → h.next b=some none) {n : ℕ}
    (hn : n ≤ as.length+1) : walk h n (some a)=some (a::as)[n]? := by
  induction as generalizing a n with
  | nil =>
    rcases n with _|_|n
    · rfl
    · show (h.next a).bind (walk h 0)=_
      rw [hl [] a rfl]
      rfl
    · rw [List.length_nil] at hn
      omega
  | cons b as ih =>
    rcases n with _|n
    · rfl
    · have hlink := (List.isChain_cons_cons.mp hp).1
      rw [List.length_cons] at hn
      show (h.next a).bind (walk h n)=_
      rw [hlink.1,Option.bind_some,ih (List.isChain_cons_cons.mp hp).2 (last_tail hl) (by omega)]
      rfl

/-! ## get_element -/

/-- The loop does not leave its node and counts up to the index. -/
theorem getLoop_counts {i j : ℤ} {fuel : ℕ} (hle : j ≤ i) (hfuel : (i-j).toNat < fuel) :
    getLoop (some a) i fuel j=some i := by
  induction fuel generalizing j with
  | zero => omega
  | succ fuel ih =>
    by_cases hj : j=i
    · rw [getLoop,if_neg (by simp [hj]),hj]
    · rw [getLoop,if_pos ⟨Option.some_ne_none a,hj⟩]
      exact ih (by omega) (by omega)

/-- Inside of the list, get_element gives the first element. -/
theorem getElement_inside (hc : Chain h list (a::as) (e::es)) {i : ℤ} {fuel : ℕ} (h1 : 1 ≤ i)
    (hi : i ≤ (e::es).length) (hfuel : i.toNat < fuel) :
    getElement fuel h (some list) i=some (1,some e) := by
  rw [getElement,if_neg (Option.some_ne_none _),Heap.getNext_some,hc.next_list,Option.bind_some,
    List.head?_cons,if_neg (Option.some_ne_none _),hc.listLength,Option.bind_some,
    if_neg (by omega),getLoop_counts (by omega) (by omega),Option.bind_some,Heap.getData_some,
    hc.data_first,Option.map_some]

/-- An index outside of the list is refused. -/
theorem getElement_outside (hc : Chain h list (a::as) (e::es)) {i : ℤ}
    (hout : ¬(1 ≤ i ∧ i ≤ (e::es).length)) (fuel : ℕ) :
    getElement fuel h (some list) i=some (-1,none) := by
  rw [getElement,if_neg (Option.some_ne_none _),Heap.getNext_some,hc.next_list,Option.bind_some,
    List.head?_cons,if_neg (Option.some_ne_none _),hc.listLength,Option.bind_some,
    if_pos (by omega)]

/-! ## The other walks -/

section Walks

variable [DecidableEq α] {ptr : Option ℕ → α} {x : α}

/-- The loop finds the place of an element. -/
theorem locateLoop_eq {fuel : ℕ} {i : ℤ} (hp : Path h (a::as))
    (hl : ∀ l b,a::as=l++[b] → h.next b=some none) (hd : as.map h.data=es.map some)
    (hfuel : as.length < fuel) :
    locateLoop h x (fun a b => decide (a=b)) fuel as.head? i=
      some (if x ∈ es then i+es.idxOf x+1 else 0) := by
  induction as generalizing a es fuel i with
  | nil =>
    obtain ⟨n,rfl⟩ : ∃ n,fuel=n+1 := ⟨fuel-1,by have := hfuel; omega⟩
    obtain rfl : es=[] := List.map_eq_nil_iff.mp hd.symm
    rfl
  | cons b as ih =>
    rw [List.length_cons] at hfuel
    obtain ⟨n,rfl⟩ : ∃ n,fuel=n+1 := ⟨fuel-1,by omega⟩
    cases es with
    | nil => cases hd
    | cons e es =>
      rw [List.map_cons,List.map_cons,List.cons_eq_cons] at hd
      have hp2 := (List.isChain_cons_cons.mp hp).2
      rw [List.head?_cons,locateLoop,hd.1,Option.bind_some]
      by_cases hx : e=x
      · rw [if_pos (by simpa using hx),if_pos (by simp [hx]),List.idxOf_cons_eq _ hx,Nat.cast_zero,
          add_zero]
      · rw [if_neg (by simpa using hx),next_eq_head hp2 (last_tail hl),Option.bind_some,
          ih hp2 (last_tail hl) hd.2 (by omega),List.idxOf_cons_ne _ hx]
        have hmem : x ∈ e::es ↔ x ∈ es := by simp [Ne.symm hx]
        simp only [hmem,Nat.succ_eq_add_one,Nat.cast_add,Nat.cast_one]
        congr 2
        ring

/-- The loop does not leave a node with other data. -/
theorem priorLoop_stays {d : α} (hb : h.data b=some d) (hd : d≠x) (fuel : ℕ) :
    priorLoop h x fuel (some b)=none := by
  induction fuel with
  | zero => rfl
  | succ fuel ih => rw [priorLoop,hb,Option.bind_some,if_neg hd,ih]

/-- An element that is not in front of another one is not found. -/
theorem nextLoop_none {fuel : ℕ} (hp : Path h (a::as))
    (hl : ∀ l b,a::as=l++[b] → h.next b=some none) (hd : (a::as).map h.data=(e::es).map some)
    (hx : x ∉ (e::es).dropLast) (hfuel : as.length < fuel) :
    nextLoop ptr h x fuel as.head?=some (0,none) := by
  induction as generalizing a e es fuel with
  | nil =>
    obtain ⟨n,rfl⟩ : ∃ n,fuel=n+1 := ⟨fuel-1,by have := hfuel; omega⟩
    rfl
  | cons b as ih =>
    rw [List.length_cons] at hfuel
    obtain ⟨n,rfl⟩ : ∃ n,fuel=n+1 := ⟨fuel-1,by omega⟩
    obtain ⟨hlink,hp2⟩ := List.isChain_cons_cons.mp hp
    obtain ⟨hde,hdr⟩ := List.cons_eq_cons.mp hd
    cases es with
    | nil => cases hdr
    | cons f es =>
      rw [List.dropLast_cons_cons,List.mem_cons,not_or] at hx
      rw [List.head?_cons,nextLoop,hlink.2,Option.bind_some,Heap.getData_some,hde,
        Option.bind_some,if_neg (Ne.symm hx.1),next_eq_head hp2 (last_tail hl),Option.bind_some]
      exact ih hp2 (last_tail hl) hdr hx.2 (by omega)

/-- For an element in front of another one, the link of that other one is given. -/
theorem nextLoop_found {n fuel : ℕ} (hp : Path h (a::as))
    (hl : ∀ l b,a::as=l++[b] → h.next b=some none) (hd : (a::as).map h.data=(e::es).map some)
    (hnodup : (e::es).Nodup) (hx : (e::es)[n]?=some x) (hn : n < as.length)
    (hfuel : as.length < fuel) :
    nextLoop ptr h x fuel as.head?=some (1,some (ptr (a::as)[n+2]?)) := by
  induction n generalizing a as e es fuel with
  | zero =>
    obtain ⟨k,rfl⟩ : ∃ k,fuel=k+1 := ⟨fuel-1,by omega⟩
    cases as with
    | nil => cases hn
    | cons b as =>
      obtain ⟨hlink,hp2⟩ := List.isChain_cons_cons.mp hp
      obtain ⟨hde,hdr⟩ := List.cons_eq_cons.mp hd
      obtain rfl : e=x := Option.some.inj hx
      rw [List.head?_cons,nextLoop,hlink.2,Option.bind_some,Heap.getData_some,hde,
        Option.bind_some,if_pos rfl,next_eq_head hp2 (last_tail hl),Option.map_some,
        List.head?_eq_getElem?]
      rfl
  | succ n ih =>
    obtain ⟨k,rfl⟩ : ∃ k,fuel=k+1 := ⟨fuel-1,by omega⟩
    cases as with
    | nil => cases hn
    | cons b as =>
      obtain ⟨hlink,hp2⟩ := List.isChain_cons_cons.mp hp
      obtain ⟨hde,hdr⟩ := List.cons_eq_cons.mp hd
      rw [List.length_cons] at hn hfuel
      cases es with
      | nil => cases hdr
      | cons f es =>
        have hrest : (f::es)[n]?=some x := hx
        have hne : e≠x := by
          rintro rfl
          exact (List.nodup_cons.mp hnodup).1 (List.mem_of_getElem? hrest)
        rw [List.head?_cons,nextLoop,hlink.2,Option.bind_some,Heap.getData_some,hde,
          Option.bind_some,if_neg hne,next_eq_head hp2 (last_tail hl),Option.bind_some,
          ih hp2 (last_tail hl) hdr (List.nodup_cons.mp hnodup).2 hrest (by omega) (by omega)]
        rfl

/-! ## Each query against the sequence -/

/-- A query that ends has one answer. -/
theorem Answers.eq {q : Query α} {r t : Answer α} (hr : Answers ptr h list q r)
    (ht : Answers ptr h list q t) : r=t := by
  obtain ⟨m,hm⟩ := hr
  obtain ⟨n,hn⟩ := ht
  have hmax := hm (max m n) (le_max_left m n)
  rw [hn (max m n) (le_max_right m n)] at hmax
  exact (Option.some.inj hmax).symm

/-- A query has one right answer. -/
theorem answers_iff {q : Query α} {r t : Answer α} (hr : Answers ptr h list q r) :
    Answers ptr h list q t ↔ r=t := by
  constructor
  · exact hr.eq
  · rintro rfl
    exact hr

/-- What an element by its index is to be. -/
theorem get_answers (ptr : Option ℕ → α) (hc : Chain h list (a::as) (e::es)) (i : ℤ) :
    Answers ptr h list (.get i)
      (if 1 ≤ i ∧ i ≤ (e::es).length then (1,some e) else (-1,none)) := by
  refine ⟨i.toNat+1,fun fuel hfuel => ?_⟩
  by_cases hin : 1 ≤ i ∧ i ≤ (e::es).length
  · rw [if_pos hin]
    exact getElement_inside hc hin.1 hin.2 hfuel
  · rw [if_neg hin]
    exact getElement_outside hc hin fuel

/-- Getting an element is right exactly when it is sound. -/
theorem correct_get_iff (hc : Chain h list (a::as) (e::es)) (hnodup : (e::es).Nodup) (i : ℤ) :
    Correct ptr h list (e::es) (.get i) ↔ Sound ptr h list (e::es) (.get i) := by
  refine (and_iff_left trivial).trans ((answers_iff (get_answers ptr hc i)).trans ?_)
  show _=(if _ then _ else _) ↔ ¬(2 ≤ i ∧ i ≤ (e::es).length)
  by_cases hin : 1 ≤ i ∧ i ≤ (e::es).length
  · rw [if_pos hin,if_pos hin,Prod.mk.injEq,and_iff_right rfl]
    constructor
    · intro heq
      have hcells : (e::es)[0]?=(e::es)[i.toNat-1]? := heq
      have hzero := (List.getElem?_inj (by simp) hnodup).mp hcells
      omega
    · intro hsmall
      obtain rfl : i=1 := by omega
      rfl
  · rw [if_neg hin,if_neg hin]
    refine iff_of_true rfl fun h => hin ⟨by omega,h.2⟩

/-- Looking for the element before is right exactly when it is sound. -/
theorem correct_prior_iff (hc : Chain h list (a::as) (e::es)) (hnodup : (e::es).Nodup) (x : α) :
    Correct ptr h list (e::es) (.prior x) ↔ Sound ptr h list (e::es) (.prior x) := by
  have hlen := hc.length_eq
  have hstart : ∀ fuel,query ptr fuel h list (.prior x)=priorLoop h x fuel as.head? := by
    intro fuel
    rw [query,priorElement,if_neg (Option.some_ne_none _),Heap.getNext_some,hc.next_list,
      Option.bind_some,List.head?_cons,if_neg (Option.some_ne_none _),Heap.getNext_some,
      hc.next_first,Option.bind_some]
  refine (and_iff_left trivial).trans ?_
  cases as with
  | nil =>
    obtain rfl : es=[] := List.length_eq_zero_iff.mp (by simpa using hlen.symm)
    refine iff_of_true ⟨1,fun fuel hfuel => ?_⟩ (Or.inl rfl)
    obtain ⟨n,rfl⟩ : ∃ n,fuel=n+1 := ⟨fuel-1,by omega⟩
    have hspec : querySpec [e] (.prior x)=(0,none) := by
      refine if_neg fun hx => hx.2 ?_
      rw [List.mem_singleton.mp hx.1,List.head?_cons]
    rw [hstart,hspec,List.head?_nil,priorLoop]
  | cons b as =>
    cases es with
    | nil => cases hlen
    | cons f es =>
      obtain ⟨-,hdr⟩ := List.cons_eq_cons.mp hc.data
      obtain ⟨hb,-⟩ := List.cons_eq_cons.mp hdr
      have hback := (List.isChain_cons_cons.mp (List.isChain_cons_cons.mp hc.path).2).1.2
      by_cases hf : f=x
      · subst hf
        have hne : e≠f := fun h => (List.nodup_cons.mp hnodup).1 (h ▸ List.mem_cons_self)
        have hspec : querySpec (e::f::es) (.prior f)=(1,some e) := by
          have hidx : (e::f::es).idxOf f=1 := by
            rw [List.idxOf_cons_ne _ hne,List.idxOf_cons_self]
          refine (if_pos ⟨by simp,by simpa using hne⟩).trans ?_
          rw [hidx]
          rfl
        refine iff_of_true ⟨1,fun fuel hfuel => ?_⟩ (Or.inr rfl)
        obtain ⟨n,rfl⟩ : ∃ n,fuel=n+1 := ⟨fuel-1,by omega⟩
        rw [hstart,hspec,List.head?_cons,priorLoop,hb,Option.bind_some,if_pos rfl,hback,
          Option.bind_some,Heap.getData_some,hc.data_first,Option.map_some]
      · refine iff_of_false ?_ ?_
        · rintro ⟨n,hn⟩
          have hanswer := hn n le_rfl
          rw [hstart,List.head?_cons,priorLoop_stays hb hf] at hanswer
          cases hanswer
        · rintro (hone|hsecond)
          · simp at hone
          · exact hf (Option.some.inj hsecond)

/-- Where an element is to be. -/
theorem locate_answers (hc : Chain h list as es) (x : α) :
    Answers ptr h list (.locate x) (querySpec es (.locate x)) := by
  refine ⟨as.length+1,fun fuel hfuel => ?_⟩
  rw [query,locateElement,if_neg (Option.some_ne_none _),Heap.getNext_some,hc.next_list,
    Option.bind_some,locateLoop_eq hc.path hc.last hc.data hfuel,Option.map_some,querySpec]
  split <;> simp

/-- Looking for an element is right exactly when it is sound. -/
theorem correct_locate_iff (hc : Chain h list (a::as) (e::es)) (x : α) :
    Correct ptr h list (e::es) (.locate x) ↔ Sound ptr h list (e::es) (.locate x) := by
  refine (and_iff_right (locate_answers hc x)).trans (forall_congr' fun hx => ?_)
  have hlt := List.idxOf_lt_length_of_mem hx
  have hget := get_answers ptr hc (((e::es).idxOf x : ℤ)+1)
  rw [if_pos ⟨by omega,by omega⟩] at hget
  rw [answers_iff hget,Prod.mk.injEq,and_iff_right rfl,List.head?_cons]

/-- Looking for the element behind is right exactly when it is sound. -/
theorem correct_next_iff (hc : Chain h list (a::as) (e::es)) (hnodup : (e::es).Nodup) (x : α) :
    Correct ptr h list (e::es) (.next x) ↔ Sound ptr h list (e::es) (.next x) := by
  have hlen := hc.length_eq
  rw [List.length_cons,List.length_cons] at hlen
  have hpath := (List.isChain_cons_cons.mp hc.path).2
  have hlast := last_tail hc.last
  have hstart : ∀ fuel,query ptr fuel h list (.next x)=nextLoop ptr h x fuel as.head? := by
    intro fuel
    rw [query,nextElement,if_neg (Option.some_ne_none _),Heap.getNext_some,hc.next_list,
      Option.bind_some,List.head?_cons,Heap.getNext_some,hc.next_first,Option.bind_some]
  refine (and_iff_left trivial).trans ?_
  by_cases hx : x ∈ (e::es).dropLast
  · have hin : (e::es).idxOf x+1 < (e::es).length := List.succ_idxOf_lt_length_of_mem_dropLast hx
    have hcell : (e::es)[(e::es).idxOf x]?=some x := by
      rw [List.getElem?_eq_getElem (by omega),List.getElem_idxOf]
    have hspec : querySpec (e::es) (.next x)=(1,(e::es)[(e::es).idxOf x+1]?) := by
      refine if_pos ⟨List.mem_of_mem_dropLast hx,?_⟩
      rw [List.getLast?_eq_getElem?,←hcell]
      intro heq
      have hidx := (List.getElem?_inj (by omega) hnodup).mp heq
      omega
    have hanswer : Answers ptr h list (.next x)
        (1,some (ptr (a::as)[(e::es).idxOf x+2]?)) := by
      refine ⟨as.length+1,fun fuel hfuel => ?_⟩
      rw [List.length_cons] at hin
      rw [hstart,nextLoop_found hpath hlast hc.data hnodup hcell (by omega) hfuel]
    have hwalk : ∀ n,n+1 < (e::es).length →
        (walk h (n+3) (some list)).map ptr=some (ptr (a::as)[n+2]?) := by
      intro n hn
      rw [List.length_cons] at hn
      rw [walk_path hc.path hc.last (by rw [List.length_cons]; omega),Option.map_some]
      rfl
    rw [hspec,answers_iff hanswer,Prod.mk.injEq,and_iff_right rfl]
    constructor
    · intro heq n hn hlt
      have hidx := (List.getElem?_inj (by omega) hnodup).mp (hn.trans hcell.symm)
      rw [hwalk n hlt,hidx,heq]
    · intro hsound
      rw [←hwalk _ hin]
      exact hsound _ hcell hin
  · have hspec : querySpec (e::es) (.next x)=(0,none) := by
      refine if_neg fun hmem => hx ?_
      have hsplit := List.dropLast_append_getLast (List.cons_ne_nil e es)
      have hmem' := hmem.1
      rw [←hsplit,List.mem_append,List.mem_singleton] at hmem'
      refine hmem'.resolve_right fun hlastx => hmem.2 ?_
      rw [List.getLast?_eq_some_getLast (List.cons_ne_nil e es),hlastx]
    refine iff_of_true ⟨as.length+1,fun fuel hfuel => ?_⟩ ?_
    · rw [hstart,hspec,nextLoop_none hpath hlast hc.data hx hfuel]
    · intro n hn hlt
      refine absurd (List.mem_of_getElem? (i := n) ?_) hx
      rw [List.getElem?_dropLast,if_pos (by omega),hn]

/-- Every query is answered as on the sequence exactly when it is sound. -/
theorem correct_iff_sound (hc : Chain h list as es) (hnodup : es.Nodup) (hne : es≠[])
    (q : Query α) : Correct ptr h list es q ↔ Sound ptr h list es q := by
  obtain ⟨a,bs,e,fs,rfl,rfl⟩ := hc.exists_first hne
  cases q with
  | get i => exact correct_get_iff hc hnodup i
  | prior x => exact correct_prior_iff hc hnodup x
  | next x => exact correct_next_iff hc hnodup x
  | locate x => exact correct_locate_iff hc x

end Walks

/-! ## Lists built by calls -/

/-- On every list with distinct elements that insertions and deletions have
built, a query is answered as on the sequence exactly when it is sound. -/
theorem queries_correct_iff [DecidableEq α] (ptr : Option ℕ → α) (malloc : Heap α → ℕ)
    (hm : Succeeds malloc) (h : Heap α) (hb : h.Bounded) (junk : α) (calls : List (Call α))
    (k : Heap α) (hrun : runCalls malloc (malloc h) (initList h (malloc h) junk) calls=some k)
    (hnodup : (sequence [] calls).Nodup) (hne : sequence [] calls≠[]) (q : Query α) :
    Correct ptr k (malloc h) (sequence [] calls) q ↔ Sound ptr k (malloc h) (sequence [] calls) q := by
  obtain ⟨bs,hc⟩ := runCalls_chain hm (initList_chain hb junk) hrun
  exact correct_iff_sound hc hnodup hne q

/-- The address of a list made by init_list in a heap without nodes. -/
noncomputable def firstList : ℕ := behindAll (noNodes : Heap ℕ)

/-- The heap of that list. -/
noncomputable def firstHeap : Heap ℕ := initList noNodes firstList 0

/-- A new list is empty. -/
theorem firstHeap_chain : Chain firstHeap firstList [] [] := initList_chain noNodes_bounded 0

/-- Two elements in the order of the calls. -/
def twoCalls : List (Call ℕ) := [.insert 1 10,.insert 1 20]

/-- Two inserts at the end are clear. -/
theorem twoCalls_clear : Clear [] twoCalls := by
  simp [Clear,ClearCall,callSpec,twoCalls]

/-- They leave two elements. -/
theorem sequence_twoCalls : sequence [] twoCalls=[10,20] := by
  simp [sequence,callSpec,twoCalls]

/-- The two elements are different. -/
theorem twoCalls_nodup : (sequence [] twoCalls).Nodup := by
  rw [sequence_twoCalls]
  decide

/-- The list is not empty. -/
theorem twoCalls_ne_nil : sequence [] twoCalls≠[] := by
  rw [sequence_twoCalls]
  decide

/-- A clear run ends. -/
theorem runCalls_clear (hm : Succeeds malloc) (hc : Chain h list as es) {calls : List (Call α)}
    (hclear : Clear es calls) : ∃ k,runCalls malloc list h calls=some k := by
  induction calls generalizing h as es with
  | nil => exact ⟨h,rfl⟩
  | cons c cs ih =>
    obtain ⟨k,bs,hk,-,hchain⟩ := call_chain hm hc hclear.1
    obtain ⟨t,ht⟩ := ih hchain hclear.2
    exact ⟨t,by rw [runCalls,hk,Option.bind_some,ht]⟩

/-- The first of two elements is found at its position and by its value. -/
theorem queries_correct_first :
    ∃ k,runCalls behindAll firstList firstHeap twoCalls=some k ∧
      (sequence [] twoCalls).Nodup ∧ sequence [] twoCalls≠[] ∧
      Correct (fun _ => 0) k firstList (sequence [] twoCalls) (.get 1) ∧
      Correct (fun _ => 0) k firstList (sequence [] twoCalls) (.locate 10) := by
  obtain ⟨k,hk⟩ := runCalls_clear behindAll_succeeds firstHeap_chain twoCalls_clear
  have hiff := queries_correct_iff (fun _ => 0) behindAll behindAll_succeeds noNodes
    noNodes_bounded 0 twoCalls k hk twoCalls_nodup twoCalls_ne_nil
  refine ⟨k,hk,twoCalls_nodup,twoCalls_ne_nil,(hiff _).mpr ?_,(hiff _).mpr ?_⟩
  · intro hlarge
    omega
  · intro _
    rw [sequence_twoCalls]
    rfl

/-- Position 2 of two elements gives the first one. -/
theorem getSecond_not_correct :
    ∃ k,runCalls behindAll firstList firstHeap twoCalls=some k ∧
      (sequence [] twoCalls).Nodup ∧ sequence [] twoCalls≠[] ∧
      ¬Correct (fun _ => 0) k firstList (sequence [] twoCalls) (.get 2) := by
  obtain ⟨k,hk⟩ := runCalls_clear behindAll_succeeds firstHeap_chain twoCalls_clear
  obtain ⟨bs,hc⟩ := runCalls_chain behindAll_succeeds firstHeap_chain hk
  refine ⟨k,hk,twoCalls_nodup,twoCalls_ne_nil,?_⟩
  rw [correct_iff_sound hc twoCalls_nodup twoCalls_ne_nil]
  refine not_not.mpr ⟨le_rfl,?_⟩
  rw [sequence_twoCalls]
  decide

end StudyCode.List01
