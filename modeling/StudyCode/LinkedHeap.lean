import Mathlib.Data.List.Chain
import Mathlib.Data.List.Nodup
import Mathlib.Tactic

/-!
# Doubly linked nodes in a heap

A heap maps addresses to nodes with two links; an address without a node is
not allocated. An access through NULL or through an address without a node
gives none. A path is a list of addresses that are linked in both directions.
It is described by the next links of all but its last address and the prev
links of all but its first one, so a ring is a path that ends where it starts.
-/

namespace StudyCode.Linked

/-- A node. -/
structure Node (α : Type*) where
  /-- The content. -/
  data : α
  /-- The link backwards; none is NULL. -/
  prev : Option ℕ
  /-- The link forwards; none is NULL. -/
  next : Option ℕ

/-- A heap of nodes and the number of nodes in it. -/
structure Heap (α : Type*) where
  /-- The nodes. -/
  node : ℕ → Option (Node α)
  /-- How many are allocated. -/
  used : ℕ

variable {α : Type*}

namespace Heap

/-- The forward link at an address. -/
def next (h : Heap α) (a : ℕ) : Option (Option ℕ) := (h.node a).map Node.next

/-- The backward link at an address. -/
def prev (h : Heap α) (a : ℕ) : Option (Option ℕ) := (h.node a).map Node.prev

/-- The content at an address. -/
def data (h : Heap α) (a : ℕ) : Option α := (h.node a).map Node.data

/-- Read p->next. -/
def getNext (h : Heap α) (p : Option ℕ) : Option (Option ℕ) := p.bind h.next

/-- Read p->prev. -/
def getPrev (h : Heap α) (p : Option ℕ) : Option (Option ℕ) := p.bind h.prev

/-- Read the content of p. -/
def getData (h : Heap α) (p : Option ℕ) : Option α := p.bind h.data

/-- The heap with a changed node. -/
def modify (h : Heap α) (a : ℕ) (f : Node α → Node α) : Heap α :=
  ⟨Function.update h.node a ((h.node a).map f),h.used⟩

/-- The heap with another forward link. -/
def putNext (h : Heap α) (a : ℕ) (v : Option ℕ) : Heap α := h.modify a fun n => ⟨n.data,n.prev,v⟩

/-- The heap with another backward link. -/
def putPrev (h : Heap α) (a : ℕ) (v : Option ℕ) : Heap α := h.modify a fun n => ⟨n.data,v,n.next⟩

/-- Write p->next. -/
def setNext (h : Heap α) (p v : Option ℕ) : Option (Heap α) :=
  p.bind fun a => (h.node a).map fun _ => h.putNext a v

/-- Write p->prev. -/
def setPrev (h : Heap α) (p v : Option ℕ) : Option (Heap α) :=
  p.bind fun a => (h.node a).map fun _ => h.putPrev a v

/-- The heap with a new node. -/
def alloc (h : Heap α) (a : ℕ) (n : Node α) : Heap α :=
  ⟨Function.update h.node a (some n),h.used+1⟩

/-- The heap without a node. -/
def drop (h : Heap α) (a : ℕ) : Heap α := ⟨Function.update h.node a none,h.used-1⟩

/-- The library function free. -/
def free (h : Heap α) (p : Option ℕ) : Option (Heap α) :=
  p.bind fun a => (h.node a).map fun _ => h.drop a

/-- No node from some address on: the heap is not full. -/
def Bounded (h : Heap α) : Prop := ∃ b,∀ a,b ≤ a → h.node a=none

variable {h : Heap α} {a x : ℕ} {v w : Option ℕ} {n : Node α}

/-! ## Fields after a change -/

@[simp] theorem getNext_some : h.getNext (some a)=h.next a := rfl

@[simp] theorem getPrev_some : h.getPrev (some a)=h.prev a := rfl

@[simp] theorem getData_some : h.getData (some a)=h.data a := rfl

@[simp] theorem putNext_used : (h.putNext a v).used=h.used := rfl

@[simp] theorem putPrev_used : (h.putPrev a v).used=h.used := rfl

/-- The other nodes stay. -/
theorem node_modify_ne {f : Node α → Node α} (hx : x≠a) : (h.modify a f).node x=h.node x :=
  Function.update_of_ne hx _ _

/-- The node that is changed. -/
theorem node_modify_self {f : Node α → Node α} : (h.modify a f).node a=(h.node a).map f :=
  Function.update_self _ _ _

/-- A field that a change does not touch. -/
theorem field_modify {β : Type*} {f : Node α → Node α} (g : Node α → β) (hf : ∀ n,g (f n)=g n) :
    ((h.modify a f).node x).map g=(h.node x).map g := by
  by_cases hx : x=a
  · rw [hx,node_modify_self,Option.map_map]
    exact congrArg (fun k => (h.node a).map k) (funext hf)
  · rw [node_modify_ne hx]

/-- A new next leaves the prev links. -/
@[simp] theorem prev_putNext : (h.putNext a v).prev x=h.prev x := field_modify _ fun _ => rfl

/-- A new next leaves the data. -/
@[simp] theorem data_putNext : (h.putNext a v).data x=h.data x := field_modify _ fun _ => rfl

/-- A new prev leaves the next links. -/
@[simp] theorem next_putPrev : (h.putPrev a v).next x=h.next x := field_modify _ fun _ => rfl

/-- A new prev leaves the data. -/
@[simp] theorem data_putPrev : (h.putPrev a v).data x=h.data x := field_modify _ fun _ => rfl

/-- The other next links stay. -/
theorem next_putNext_ne (hx : x≠a) : (h.putNext a v).next x=h.next x :=
  congrArg (Option.map Node.next) (node_modify_ne hx)

/-- The other prev links stay. -/
theorem prev_putPrev_ne (hx : x≠a) : (h.putPrev a v).prev x=h.prev x :=
  congrArg (Option.map Node.prev) (node_modify_ne hx)

/-- A node with a next link is there. -/
theorem node_of_next (ha : h.next a=some w) : ∃ n,h.node a=some n ∧ n.next=w :=
  Option.map_eq_some_iff.mp ha

/-- A node with a prev link is there. -/
theorem node_of_prev (ha : h.prev a=some w) : ∃ n,h.node a=some n ∧ n.prev=w :=
  Option.map_eq_some_iff.mp ha

/-- The next link that was written. -/
theorem next_putNext_self (ha : h.next a=some w) : (h.putNext a v).next a=some v := by
  obtain ⟨n,hn,-⟩ := node_of_next ha
  unfold next putNext
  rw [node_modify_self,hn]
  rfl

/-- The prev link that was written. -/
theorem prev_putPrev_self (ha : h.prev a=some w) : (h.putPrev a v).prev a=some v := by
  obtain ⟨n,hn,-⟩ := node_of_prev ha
  unfold prev putPrev
  rw [node_modify_self,hn]
  rfl

/-- Writing the next link of a node. -/
theorem setNext_eq (ha : h.next a=some w) : h.setNext (some a) v=some (h.putNext a v) := by
  obtain ⟨n,hn,-⟩ := node_of_next ha
  unfold setNext
  rw [Option.bind_some,hn,Option.map_some]

/-- Writing the prev link of a node. -/
theorem setPrev_eq (ha : h.prev a=some w) : h.setPrev (some a) v=some (h.putPrev a v) := by
  obtain ⟨n,hn,-⟩ := node_of_prev ha
  unfold setPrev
  rw [Option.bind_some,hn,Option.map_some]

/-- Freeing a node. -/
theorem free_eq (ha : h.next a=some w) : h.free (some a)=some (h.drop a) := by
  obtain ⟨n,hn,-⟩ := node_of_next ha
  unfold free
  rw [Option.bind_some,hn,Option.map_some]

/-- Two changes of a node are one. -/
theorem modify_modify (f g : Node α → Node α) : (h.modify a f).modify a g=h.modify a (g ∘ f) := by
  unfold modify
  dsimp only
  rw [Function.update_idem,Function.update_self,Option.map_map]

/-- The two links of a node are set in any order. -/
theorem putPrev_putNext : (h.putPrev a v).putNext a w=(h.putNext a w).putPrev a v := by
  unfold putPrev putNext
  rw [modify_modify,modify_modify]
  rfl

/-- A new node leaves the others. -/
theorem node_alloc_ne (hx : x≠a) : (h.alloc a n).node x=h.node x := Function.update_of_ne hx _ _

/-- The new node. -/
theorem node_alloc_self : (h.alloc a n).node a=some n := Function.update_self _ _ _

/-- A free leaves the other nodes. -/
theorem node_drop_ne (hx : x≠a) : (h.drop a).node x=h.node x := Function.update_of_ne hx _ _

/-- A freed node is gone. -/
theorem node_drop_self : (h.drop a).node a=none := Function.update_self _ _ _

/-- A new node leaves the other next links. -/
theorem next_alloc_ne (hx : x≠a) : (h.alloc a n).next x=h.next x :=
  congrArg (Option.map Node.next) (node_alloc_ne hx)

/-- A new node leaves the other prev links. -/
theorem prev_alloc_ne (hx : x≠a) : (h.alloc a n).prev x=h.prev x :=
  congrArg (Option.map Node.prev) (node_alloc_ne hx)

/-- A new node leaves the other data. -/
theorem data_alloc_ne (hx : x≠a) : (h.alloc a n).data x=h.data x :=
  congrArg (Option.map Node.data) (node_alloc_ne hx)

/-- The next link of the new node. -/
theorem next_alloc_self : (h.alloc a n).next a=some n.next :=
  congrArg (Option.map Node.next) node_alloc_self

/-- The prev link of the new node. -/
theorem prev_alloc_self : (h.alloc a n).prev a=some n.prev :=
  congrArg (Option.map Node.prev) node_alloc_self

/-- The data of the new node. -/
theorem data_alloc_self : (h.alloc a n).data a=some n.data :=
  congrArg (Option.map Node.data) node_alloc_self

/-- A free leaves the other next links. -/
theorem next_drop_ne (hx : x≠a) : (h.drop a).next x=h.next x :=
  congrArg (Option.map Node.next) (node_drop_ne hx)

/-- A free leaves the other prev links. -/
theorem prev_drop_ne (hx : x≠a) : (h.drop a).prev x=h.prev x :=
  congrArg (Option.map Node.prev) (node_drop_ne hx)

/-- A free leaves the other data. -/
theorem data_drop_ne (hx : x≠a) : (h.drop a).data x=h.data x :=
  congrArg (Option.map Node.data) (node_drop_ne hx)

/-- Without a node there is no link. -/
theorem next_eq_none (ha : h.node a=none) : h.next a=none := congrArg (Option.map Node.next) ha

/-! ## Room in the heap -/

/-- A change makes no node. -/
theorem Bounded.modify {f : Node α → Node α} (hb : h.Bounded) : (h.modify a f).Bounded := by
  obtain ⟨b,hb⟩ := hb
  refine ⟨b,fun x hx => ?_⟩
  by_cases hxa : x=a
  · rw [hxa] at hx ⊢
    rw [node_modify_self,hb a hx]
    rfl
  · rw [node_modify_ne hxa]
    exact hb x hx

/-- One node more stays bounded. -/
theorem Bounded.alloc (hb : h.Bounded) : (h.alloc a n).Bounded := by
  obtain ⟨b,hb⟩ := hb
  refine ⟨b+a+1,fun x hx => ?_⟩
  rw [node_alloc_ne (by omega)]
  exact hb x (by omega)

/-- A free stays bounded. -/
theorem Bounded.drop (hb : h.Bounded) : (h.drop a).Bounded := by
  obtain ⟨b,hb⟩ := hb
  refine ⟨b,fun x hx => ?_⟩
  by_cases hxa : x=a
  · rw [hxa]
    exact node_drop_self
  · rw [node_drop_ne hxa]
    exact hb x hx

end Heap

/-- An allocator succeeds: it returns an address without a node while the heap
is not full. -/
def Succeeds (malloc : Heap α → ℕ) : Prop := ∀ h : Heap α,h.Bounded → h.node (malloc h)=none

/-- An allocator that takes an address behind all nodes. -/
noncomputable def behindAll (h : Heap α) : ℕ :=
  open Classical in if hb : h.Bounded then hb.choose else 0

/-- The address behind all others is free. -/
theorem behindAll_succeeds : Succeeds (behindAll : Heap α → ℕ) := by
  intro h hb
  unfold behindAll
  rw [dif_pos hb]
  exact hb.choose_spec _ le_rfl

/-- A heap without nodes. -/
def noNodes : Heap α := ⟨fun _ => none,0⟩

/-- The empty heap is bounded. -/
theorem noNodes_bounded : (noNodes : Heap α).Bounded := ⟨0,fun _ _ => rfl⟩

/-! ## Paths -/

/-- Two addresses that are linked in both directions. -/
def Link (h : Heap α) (a b : ℕ) : Prop := h.next a=some (some b) ∧ h.prev b=some (some a)

/-- Each address of the list is linked to the one behind it. -/
def Path (h : Heap α) (l : List ℕ) : Prop := l.IsChain (Link h)

section Paths

variable {h k : Heap α} {l m : List ℕ} {a b s : ℕ}

/-- A path depends only on the links between its addresses. -/
theorem Path.congr (hp : Path h l) (hn : ∀ x ∈ l.dropLast,k.next x=h.next x)
    (hv : ∀ x ∈ l.tail,k.prev x=h.prev x) : Path k l := by
  induction l with
  | nil => exact List.IsChain.nil
  | cons a l ih =>
    cases l with
    | nil => exact List.IsChain.singleton a
    | cons b l =>
      obtain ⟨hab,hrest⟩ := List.isChain_cons_cons.mp hp
      have ha : a ∈ (a::b::l).dropLast := List.mem_cons_self
      have hb : b ∈ (a::b::l).tail := List.mem_cons_self
      refine List.isChain_cons_cons.mpr ⟨⟨(hn a ha).trans hab.1,(hv b hb).trans hab.2⟩,?_⟩
      exact ih hrest (fun x hx => hn x (List.mem_cons_of_mem a hx))
        (fun x hx => hv x (List.mem_cons_of_mem b hx))

/-- The first of two neighbours stands nowhere else. -/
theorem not_mem_of_dropLast (hd : (l++a::b::m).dropLast.Nodup) : a ∉ l ∧ a ∉ (b::m).dropLast := by
  have he : (l++a::b::m).dropLast=l++a::(b::m).dropLast := by
    rw [List.dropLast_append_of_ne_nil (List.cons_ne_nil _ _)]
    rfl
  rw [he,List.nodup_append] at hd
  obtain ⟨-,hcons,hdis⟩ := hd
  exact ⟨fun hl => hdis a hl a List.mem_cons_self rfl,(List.nodup_cons.mp hcons).1⟩

/-- The second of two neighbours stands nowhere else. -/
theorem not_mem_of_tail (ht : (l++a::b::m).tail.Nodup) : b ∉ (l++[a]).tail ∧ b ∉ m := by
  have he : (l++a::b::m).tail=(l++[a]).tail++b::m := by
    cases l with
    | nil => rfl
    | cons c l => simp
  rw [he,List.nodup_append] at ht
  obtain ⟨-,hcons,hdis⟩ := ht
  exact ⟨fun hl => hdis b hl b List.mem_cons_self rfl,(List.nodup_cons.mp hcons).1⟩

/-- What a new node between two addresses, or a removed one, changes: the
links between them, and nothing but the links of the node itself. -/
structure Relinked (h k : Heap α) (a b s : ℕ) : Prop where
  /-- Forwards. -/
  next : ∀ x,x≠a → x≠s → k.next x=h.next x
  /-- Backwards. -/
  prev : ∀ x,x≠b → x≠s → k.prev x=h.prev x

/-- The parts of a path on both sides of a changed place. -/
theorem Relinked.sides (hr : Relinked h k a b s) (hl : Path h (l++[a])) (hm : Path h (b::m))
    (ha : a ∉ l ∧ a ∉ (b::m).dropLast) (hb : b ∉ (l++[a]).tail ∧ b ∉ m)
    (hsl : s ∉ l++[a]) (hsm : s ∉ b::m) : Path k (l++[a]) ∧ Path k (b::m) := by
  constructor
  · refine hl.congr (fun x hx => hr.next x ?_ ?_) (fun x hx => hr.prev x ?_ ?_)
    · rintro rfl
      rw [List.dropLast_concat] at hx
      exact ha.1 hx
    · rintro rfl
      exact hsl (List.mem_of_mem_dropLast hx)
    · rintro rfl
      exact hb.1 hx
    · rintro rfl
      exact hsl (List.mem_of_mem_tail hx)
  · refine hm.congr (fun x hx => hr.next x ?_ ?_) (fun x hx => hr.prev x ?_ ?_)
    · rintro rfl
      exact ha.2 hx
    · rintro rfl
      exact hsm (List.mem_of_mem_dropLast hx)
    · rintro rfl
      exact hb.2 hx
    · rintro rfl
      exact hsm (List.mem_of_mem_tail hx)

/-- A new node between two addresses of a path. -/
theorem Path.insert (hp : Path h (l++a::b::m)) (hd : (l++a::b::m).dropLast.Nodup)
    (ht : (l++a::b::m).tail.Nodup) (hs : s ∉ l++a::b::m) (hr : Relinked h k a b s)
    (has : Link k a s) (hsb : Link k s b) : Path k (l++a::s::b::m) := by
  obtain ⟨hl,-,hm⟩ := List.isChain_append_cons_cons.mp hp
  have hsl : s ∉ l++[a] := fun hx => hs (by
    simp only [List.mem_append,List.mem_cons] at hx ⊢
    tauto)
  have hsm : s ∉ b::m := fun hx => hs (List.mem_append_right _ (List.mem_cons_of_mem a hx))
  obtain ⟨hl,hm⟩ := hr.sides hl hm (not_mem_of_dropLast hd) (not_mem_of_tail ht) hsl hsm
  exact List.isChain_append_cons_cons.mpr ⟨hl,has,List.isChain_cons_cons.mpr ⟨hsb,hm⟩⟩

/-- A path without a node between two others. -/
theorem Path.remove (hp : Path h (l++a::s::b::m)) (hd : (l++a::s::b::m).dropLast.Nodup)
    (ht : (l++a::s::b::m).tail.Nodup) (hsl : s ∉ l++[a]) (hsm : s ∉ b::m)
    (hr : Relinked h k a b s) (hab : Link k a b) : Path k (l++a::b::m) := by
  obtain ⟨hl,-,hrest⟩ := List.isChain_append_cons_cons.mp hp
  obtain ⟨-,hm⟩ := List.isChain_cons_cons.mp hrest
  have hd2 : (l++a::b::m).dropLast.Nodup := by
    refine hd.sublist ?_
    rw [List.dropLast_append_of_ne_nil (List.cons_ne_nil _ _),
      List.dropLast_append_of_ne_nil (List.cons_ne_nil _ _)]
    exact (List.Sublist.refl l).append ((List.sublist_cons_self s _).cons_cons a)
  have ht2 : (l++a::b::m).tail.Nodup := by
    refine ht.sublist ?_
    cases l with
    | nil => exact List.sublist_cons_self s _
    | cons c l =>
      exact (List.Sublist.refl l).append ((List.sublist_cons_self s _).cons_cons a)
  obtain ⟨hl,hm⟩ := hr.sides hl hm (not_mem_of_dropLast hd2) (not_mem_of_tail ht2) hsl hsm
  exact List.isChain_append_cons_cons.mpr ⟨hl,hab,hm⟩

/-- A new node behind the last address of a path. -/
theorem Path.append_last (hp : Path h (l++[a])) (hd : (l++[a]).Nodup) (hs : s ∉ l++[a])
    (hn : ∀ x,x≠a → x≠s → k.next x=h.next x) (hv : ∀ x,x≠s → k.prev x=h.prev x)
    (has : Link k a s) : Path k (l++[a,s]) := by
  have ha : a ∉ l := by
    rw [List.nodup_append] at hd
    exact fun hx => hd.2.2 a hx a List.mem_cons_self rfl
  refine List.isChain_append_cons_cons.mpr ⟨?_,has,List.IsChain.singleton s⟩
  refine hp.congr (fun x hx => hn x ?_ ?_) (fun x hx => hv x ?_)
  · rintro rfl
    rw [List.dropLast_concat] at hx
    exact ha hx
  · rintro rfl
    exact hs (List.mem_of_mem_dropLast hx)
  · rintro rfl
    exact hs (List.mem_of_mem_tail hx)

/-- The data of a split list of addresses. -/
theorem data_split {es : List α} (hd : (l++m).map h.data=es.map some) :
    l.map h.data=(es.take l.length).map some ∧ m.map h.data=(es.drop l.length).map some := by
  rw [List.map_append] at hd
  have h1 := congrArg (List.take l.length) hd
  have h2 := congrArg (List.drop l.length) hd
  rw [List.take_left' (List.length_map _),←List.map_take] at h1
  rw [List.drop_left' (List.length_map _),←List.map_drop] at h2
  exact ⟨h1,h2⟩

/-- The data without one address. -/
theorem data_erase {es : List α} (hd : (l++s::m).map h.data=es.map some) :
    (l++m).map h.data=(es.eraseIdx l.length).map some := by
  have herase : (l++s::m).eraseIdx l.length=l++m := by
    rw [List.eraseIdx_append_of_length_le le_rfl,Nat.sub_self]
    rfl
  rw [←herase,←List.eraseIdx_map,hd,List.eraseIdx_map]

/-- The datum at an address. -/
theorem data_at {es : List α} (hd : (l++s::m).map h.data=es.map some) :
    ∃ e,es[l.length]?=some e ∧ h.data s=some e := by
  have hmap : ((l++s::m).map h.data)[l.length]?=(es.map some)[l.length]? := by rw [hd]
  rw [List.getElem?_map,List.getElem?_map,List.getElem?_append_right le_rfl,Nat.sub_self,
    List.getElem?_cons_zero,Option.map_some] at hmap
  obtain ⟨e,he,hse⟩ := Option.map_eq_some_iff.mp hmap.symm
  exact ⟨e,he,hse.symm⟩

end Paths

end StudyCode.Linked
