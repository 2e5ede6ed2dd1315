import Mathlib.Computability.RegularExpressions
import StudyCode.Re2Post
import StudyCode.SplitGraph

/-!
# From postfix to the automaton

A state has a character and two pointers. While a fragment has no follower yet,
its open pointers are used as the links of a list of themselves. The language
of an expression takes a byte of 128 or more for a character that never occurs:
it is stored in an int through a signed char and compared with unsigned bytes.
-/

namespace StudyCode.RegexNfa

open SplitGraph Re2Post

/-! ## The source -/

/-- What a pointer to a state refers to. -/
inductive Ref where
  /-- The static state. -/
  | matchstate
  /-- The state that was allocated with a number. -/
  | node (i : ℕ)
  deriving DecidableEq

/-- The address of one of the two pointers of an allocated state. -/
structure Slot where
  /-- The state. -/
  state : ℕ
  /-- Whether it is out1. -/
  second : Bool
  deriving DecidableEq

/-- What is stored in such a pointer: it is a union. -/
inductive Cell where
  /-- NULL. -/
  | null
  /-- A state. -/
  | state (r : Ref)
  /-- The next pointer of a list of pointers. -/
  | slot (s : Slot)
  deriving DecidableEq

/-- The character of the static state. -/
def matchC : ℤ := 256

/-- The character of a state with two unlabeled arrows. -/
def splitC : ℤ := 257

/-- An allocated state. Its field lastlist is kept apart. -/
structure State where
  /-- The character. -/
  c : ℤ
  /-- The first arrow. -/
  out : Cell
  /-- The second arrow. -/
  out1 : Cell

/-- The allocated states. -/
structure Heap where
  /-- Their number. -/
  nstate : ℕ
  /-- The states, in the order of their allocation. -/
  mem : ℕ → State

/-- No state. -/
def Heap.init : Heap := ⟨0,fun _ => ⟨0,.null,.null⟩⟩

/-- The pointer at an address. -/
def Heap.read (h : Heap) (s : Slot) : Cell :=
  if s.second then (h.mem s.state).out1 else (h.mem s.state).out

/-- Assignment to one of the pointers of a state. -/
def State.set (x : State) (second : Bool) (v : Cell) : State :=
  if second then {x with out1 := v} else {x with out := v}

/-- Assignment to the pointer at an address. -/
def Heap.write (h : Heap) (s : Slot) (v : Cell) : Heap :=
  {h with mem := Function.update h.mem s.state ((h.mem s.state).set s.second v)}

/-- The function state; the new state has the number nstate. -/
def state (h : Heap) (c : ℤ) (out out1 : Cell) : Heap :=
  ⟨h.nstate+1,Function.update h.mem h.nstate ⟨c,out,out1⟩⟩

/-- A fragment. -/
structure Frag where
  /-- The first state. -/
  start : Ref
  /-- The list of its open pointers. -/
  out : Slot

/-- The function patch. The fuel is the number of the pointers; none when a
state is taken for a list. -/
def patch : ℕ → Heap → Option Slot → Ref → Option Heap
  | _,h,none,_ => some h
  | 0,_,some _,_ => none
  | fuel+1,h,some l,s =>
    match h.read l with
    | .null => patch fuel (h.write l (.state s)) none s
    | .slot next => patch fuel (h.write l (.state s)) (some next) s
    | .state _ => none

/-- The function append; its value is the first argument. -/
def append : ℕ → Heap → Slot → Slot → Option Heap
  | 0,_,_,_ => none
  | fuel+1,h,l1,l2 =>
    match h.read l1 with
    | .null => some (h.write l1 (.slot l2))
    | .slot next => append fuel h next l2
    | .state _ => none

/-- The fuel of the walks. -/
def Heap.fuel (h : Heap) : ℕ := 2*h.nstate+1

/-- Size of the stack. -/
def stackSize : ℕ := 1000

/-- The macro push; none for a write behind the stack. -/
def push (h : Heap) (st : List Frag) (e : Frag) : Option (Heap×List Frag) :=
  if st.length < stackSize then some (h,e::st) else none

/-- A byte as a signed char. -/
def charOf (b : UInt8) : ℤ := if b.toNat < 128 then b.toNat else b.toNat-256

/-- One character of the postfix form; none when a fragment is popped from the
empty stack. -/
def step (h : Heap) (st : List Frag) (p : UInt8) : Option (Heap×List Frag) :=
  let n := h.nstate
  if p=46 then
    match st with
    | e2::e1::st => (patch h.fuel h (some e1.out) e2.start).bind fun h =>
        push h st ⟨e1.start,e2.out⟩
    | _ => none
  else if p=124 then
    match st with
    | e2::e1::st =>
      let h := state h splitC (.state e1.start) (.state e2.start)
      (append h.fuel h e1.out e2.out).bind fun h => push h st ⟨.node n,e1.out⟩
    | _ => none
  else if p=63 then
    match st with
    | e::st =>
      let h := (state h splitC (.state e.start) .null).write ⟨n,true⟩ .null
      (append h.fuel h e.out ⟨n,true⟩).bind fun h => push h st ⟨.node n,e.out⟩
    | _ => none
  else if p=42 then
    match st with
    | e::st =>
      let h := state h splitC (.state e.start) .null
      (patch h.fuel h (some e.out) (.node n)).bind fun h =>
        push (h.write ⟨n,true⟩ .null) st ⟨.node n,⟨n,true⟩⟩
    | _ => none
  else if p=43 then
    match st with
    | e::st =>
      let h := state h splitC (.state e.start) .null
      (patch h.fuel h (some e.out) (.node n)).bind fun h =>
        push (h.write ⟨n,true⟩ .null) st ⟨e.start,⟨n,true⟩⟩
    | _ => none
  else push ((state h (charOf p) .null .null).write ⟨n,false⟩ .null) st ⟨.node n,⟨n,false⟩⟩

/-- The loop over the postfix form. -/
def run : Heap → List Frag → List UInt8 → Option (Heap×List Frag)
  | h,st,[] => some (h,st)
  | h,st,p::post => (step h st p).bind fun r => run r.1 r.2 post

/-- post2nfa: the states and the first of them, or NULL. None when the stack
is left. The fragment that is popped last is not used when it comes from below
the empty stack: then NULL is returned. -/
def post2nfa (post : List UInt8) : Option (Option (Heap×Ref)) :=
  (run .init [] post).bind fun r =>
    match r.2 with
    | [] => some none
    | [e] => (patch r.1.fuel r.1 (some e.out) .matchstate).map fun h => some (h,e.start)
    | _ => some none

/-! ## Reads and writes -/

section Memory

variable {h h1 : Heap} {s t : Slot} {v : Cell}

/-- Writing makes no state. -/
@[simp] theorem write_nstate : (h.write s v).nstate=h.nstate := rfl

/-- A new state is one more. -/
@[simp] theorem state_nstate (c : ℤ) (out out1 : Cell) :
    (state h c out out1).nstate=h.nstate+1 := rfl

/-- Writing leaves the other states. -/
theorem write_other {i : ℕ} (hi : i ≠ s.state) : (h.write s v).mem i=h.mem i := by
  simp only [Heap.write,Function.update_of_ne hi]

/-- A new state leaves the others. -/
theorem state_other {i : ℕ} (hi : i ≠ h.nstate) (c : ℤ) (out out1 : Cell) :
    (state h c out out1).mem i=h.mem i := by
  simp only [state,Function.update_of_ne hi]

/-- Writing a slot leaves the character. -/
@[simp] theorem write_c (i : ℕ) : ((h.write s v).mem i).c=(h.mem i).c := by
  by_cases hi : i=s.state
  · subst hi
    simp only [Heap.write,Function.update_self,State.set]
    split <;> rfl
  · rw [write_other hi]

/-- A slot that was written reads back. -/
theorem read_write_same : (h.write s v).read s=v := by
  simp only [Heap.read,Heap.write,Function.update_self,State.set]
  by_cases hs : s.second <;> simp only [hs,if_true,Bool.false_eq_true,if_false]

/-- The other slots stay. -/
theorem read_write_ne (ht : t ≠ s) : (h.write s v).read t=h.read t := by
  by_cases hi : t.state=s.state
  · have hb : t.second ≠ s.second := fun hb => ht (by cases t; cases s; simp_all)
    simp only [Heap.read,Heap.write,hi,Function.update_self,State.set]
    cases h1 : t.second <;> cases h2 : s.second <;> simp_all
  · simp only [Heap.read,write_other hi]

/-- A slot depends on its state only. -/
theorem read_congr (hm : h1.mem s.state=h.mem s.state) : h1.read s=h.read s := by
  simp only [Heap.read,hm]

/-- The links of a list of pointers. -/
def Links (h : Heap) : List Slot → Prop
  | [] => True
  | [s] => h.read s=.null
  | s::t::l => h.read s=.slot t ∧ Links h (t::l)

/-- A list of slots depends on these slots only. -/
theorem Links.congr {l : List Slot} (hl : Links h l) (hr : ∀ s ∈ l,h1.read s=h.read s) :
    Links h1 l := by
  induction l with
  | nil => exact hl
  | cons s l ih =>
    cases l with
    | nil => exact (hr s (List.mem_singleton_self s)).trans hl
    | cons t l =>
      exact ⟨(hr s List.mem_cons_self).trans hl.1,
        ih hl.2 fun u hu => hr u (List.mem_cons_of_mem s hu)⟩

/-- The rest of a list is a list. -/
theorem Links.tail {l : List Slot} (hl : Links h (s::l)) : Links h l := by
  cases l with
  | nil => exact trivial
  | cons t l => exact hl.2

/-- Two heaps that differ at some pointers only. -/
structure Differ (h h1 : Heap) (l : List Slot) : Prop where
  /-- The same states are allocated. -/
  nstate : h1.nstate=h.nstate
  /-- The characters are the same. -/
  c : ∀ i,(h1.mem i).c=(h.mem i).c
  /-- The other pointers are the same. -/
  read : ∀ s,s ∉ l → h1.read s=h.read s
  /-- The states without such a pointer are the same. -/
  mem : ∀ i,(∀ s ∈ l,s.state ≠ i) → h1.mem i=h.mem i

/-- Writing changes one slot. -/
theorem differ_write (h : Heap) (s : Slot) (v : Cell) : Differ h (h.write s v) [s] where
  nstate := rfl
  c := write_c
  read t ht := read_write_ne (by simpa using ht)
  mem i hi := write_other (hi s (List.mem_singleton_self s)).symm

/-- Changes one behind the other. -/
theorem Differ.trans {h2 : Heap} {l k : List Slot} (hl : Differ h h1 l) (hk : Differ h1 h2 k) :
    Differ h h2 (l++k) where
  nstate := hk.nstate.trans hl.nstate
  c i := (hk.c i).trans (hl.c i)
  read s hs := by
    rw [List.mem_append,not_or] at hs
    exact (hk.read s hs.2).trans (hl.read s hs.1)
  mem i hi := (hk.mem i fun s hs => hi s (List.mem_append_right l hs)).trans
    (hl.mem i fun s hs => hi s (List.mem_append_left k hs))

/-- Nothing changes. -/
theorem differ_refl (h : Heap) : Differ h h [] := ⟨rfl,fun _ => rfl,fun _ _ => rfl,fun _ _ => rfl⟩

/-- More slots may have changed. -/
theorem Differ.mono {l k : List Slot} (hl : Differ h h1 l) (hk : l ⊆ k) : Differ h h1 k :=
  ⟨hl.nstate,hl.c,fun s hs => hl.read s fun hm => hs (hk hm),
    fun i hi => hl.mem i fun s hs => hi s (hk hs)⟩

/-- Patching writes every slot of the list. -/
theorem patch_spec {l : List Slot} {fuel : ℕ} (r : Ref) (hl : Links h l) (hn : l.Nodup)
    (hf : l.length ≤ fuel) :
    ∃ h1,patch fuel h l.head? r=some h1 ∧ Differ h h1 l ∧ ∀ s ∈ l,h1.read s=.state r := by
  induction l generalizing h fuel with
  | nil =>
    refine ⟨h,?_,differ_refl h,by simp⟩
    rw [List.head?_nil,patch]
  | cons s l ih =>
    cases fuel with
    | zero => simp at hf
    | succ fuel =>
      obtain ⟨hs,hn1⟩ := List.nodup_cons.1 hn
      have hw : Links (h.write s (.state r)) l :=
        hl.tail.congr fun u hu => read_write_ne fun he => hs (he ▸ hu)
      obtain ⟨h1,hp,hd,hr⟩ := ih hw hn1 (by simpa using hf)
      refine ⟨h1,?_,?_,?_⟩
      · rw [List.head?_cons,patch]
        cases l with
        | nil => rw [show h.read s=.null from hl]; exact hp
        | cons t l => rw [hl.1]; exact hp
      · exact ((differ_write h s (.state r)).trans hd).mono (by simp)
      · intro u hu
        obtain rfl|hu := List.mem_cons.1 hu
        · exact (hd.read u hs).trans read_write_same
        · exact hr u hu

/-- Appending links both lists. -/
theorem append_spec {l k : List Slot} {fuel : ℕ} (hl : Links h (s::l)) (hk : Links h (t::k))
    (hn : (s::l++t::k).Nodup) (hf : (s::l).length ≤ fuel) :
    ∃ h1,append fuel h s t=some h1 ∧ Differ h h1 (s::l) ∧ Links h1 (s::l++t::k) := by
  induction l generalizing s fuel with
  | nil =>
    cases fuel with
    | zero => simp at hf
    | succ fuel =>
      refine ⟨h.write s (.slot t),?_,differ_write h s _,read_write_same,?_⟩
      · rw [append,show h.read s=.null from hl]
      · refine hk.congr fun u hu => read_write_ne ?_
        rintro rfl
        exact (List.nodup_cons.1 hn).1 (by simpa using hu)
  | cons u l ih =>
    cases fuel with
    | zero => simp at hf
    | succ fuel =>
      obtain ⟨hs,hn1⟩ := List.nodup_cons.1 hn
      obtain ⟨h1,ha,hd,hlinks⟩ := ih hl.2 hn1 (by simpa using hf)
      refine ⟨h1,?_,hd.mono (List.subset_cons_self s _),?_,hlinks⟩
      · rw [append,hl.1]
        exact ha
      · rw [hd.read s fun hm => hs (List.mem_append_left _ hm)]
        exact hl.1

/-- There are two pointers in each state. -/
theorem slots_length {l : List Slot} {n : ℕ} (hn : l.Nodup) (hl : ∀ s ∈ l,s.state < n) :
    l.length ≤ 2*n := by
  have hsub : l.toFinset ⊆ (Finset.range n ×ˢ Finset.univ).map
      ⟨fun p : ℕ×Bool => (⟨p.1,p.2⟩ : Slot),fun p q he => by cases p; cases q; simp_all⟩ := by
    intro s hs
    refine Finset.mem_map.2 ⟨(s.state,s.second),?_,rfl⟩
    simpa using hl s (List.mem_toFinset.1 hs)
  have hc := Finset.card_le_card hsub
  rw [List.toFinset_card_of_nodup hn] at hc
  simpa [Nat.mul_comm] using hc

end Memory

end StudyCode.RegexNfa
