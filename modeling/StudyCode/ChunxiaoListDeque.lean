import StudyCode.ChunxiaoList

/-!
# chunxiao_list is a deque

A list with its head twice, at the start and at the end, is a path exactly
when its nodes form a ring. Insertion at either end and the removal of any
node are the insertion and the removal of an address inside that path, also
where the neighbours of the node are both the head.
-/

namespace StudyCode.ChunxiaoList

open Linked

variable {α : Type} {malloc : Heap α → ℕ} {h k : Heap α} {head a b s : ℕ} {list : ListT}
variable {σ : State α} {as p m l r : List ℕ} {ds : List α} {d : α}

/-- The invariant of a list that holds a deque. -/
structure Inv (h : Heap α) (head : ℕ) (as : List ℕ) (ds : List α) : Prop where
  /-- The ring. -/
  ring : Ring h head as
  /-- The data. -/
  data : as.map h.data=ds.map some
  /-- The heap counts the nodes. -/
  used : as.length < h.used
  /-- The heap is not full. -/
  bounded : h.Bounded

/-! ## Walks around the ring -/

/-- The link of the first node on a path. -/
theorem next_of_path (hp : Path h (a::as++[head])) : h.next a=some (as++[head]).head? := by
  cases as with
  | nil => exact (List.isChain_cons_cons.mp hp).1.1
  | cons c as => exact (List.isChain_cons_cons.mp hp).1.1

/-- Walking along the path shows the elements. -/
theorem elements_eq {n : ℕ} (hp : Path h (as++[head])) (hh : head ∉ as)
    (hd : as.map h.data=ds.map some) (hn : as.length < n) :
    elements h head n (as++[head]).head?=some ds := by
  induction as generalizing n ds with
  | nil =>
    obtain ⟨n,rfl⟩ : ∃ j,n=j+1 := ⟨n-1,by have := hn; omega⟩
    rw [List.map_eq_nil_iff.mp hd.symm]
    exact if_pos rfl
  | cons x as ih =>
    rw [List.length_cons] at hn
    obtain ⟨n,rfl⟩ : ∃ j,n=j+1 := ⟨n-1,by omega⟩
    cases ds with
    | nil => cases hd
    | cons d ds =>
      rw [List.map_cons,List.map_cons,List.cons_eq_cons] at hd
      have hx : some x≠some head := fun hx => hh (Option.some.inj hx ▸ List.mem_cons_self)
      have hne : head ∉ as := fun hx => hh (List.mem_cons_of_mem x hx)
      rw [List.cons_append,List.head?_cons,elements,if_neg hx,Heap.getData_some,hd.1,
        Option.bind_some,Heap.getNext_some,next_of_path hp,Option.bind_some,
        ih (List.IsChain.of_cons hp) hne hd.2 (by omega),Option.map_some]

/-- Walking along the path counts the nodes. -/
theorem lengthLoop_eq {n i : ℕ} (hp : Path h (a::as++[head])) (hh : head ∉ as)
    (hn : as.length < n) : lengthLoop h head n (some a) i=some (i+as.length) := by
  induction as generalizing a n i with
  | nil =>
    obtain ⟨n,rfl⟩ : ∃ j,n=j+1 := ⟨n-1,by have := hn; omega⟩
    rw [lengthLoop,Heap.getNext_some,next_of_path hp,Option.bind_some]
    exact if_pos rfl
  | cons x as ih =>
    rw [List.length_cons] at hn
    obtain ⟨n,rfl⟩ : ∃ j,n=j+1 := ⟨n-1,by omega⟩
    have hx : some x≠some head := fun hx => hh (Option.some.inj hx ▸ List.mem_cons_self)
    rw [lengthLoop,Heap.getNext_some,next_of_path hp,Option.bind_some,List.cons_append,
      List.head?_cons,if_neg hx,
      ih (List.IsChain.of_cons hp) (fun hy => hh (List.mem_cons_of_mem x hy)) (by omega),
      List.length_cons]
    congr 1
    omega

/-- Under the invariant the list holds its elements. -/
theorem Inv.holds (hi : Inv σ.heap list.head as ds) : Holds list σ as ds where
  ring := hi.ring
  data := hi.data
  elements := by
    have hu := hi.used
    rw [next_of_path hi.ring.path,Option.bind_some]
    exact elements_eq (List.IsChain.of_cons hi.ring.path) (List.nodup_cons.mp hi.ring.nodup).1
      hi.data (by omega)

/-- There is one node for each element. -/
theorem Inv.length_eq (hi : Inv h head as ds) : as.length=ds.length := by
  rw [←List.length_map (f:=h.data),hi.data,List.length_map]

/-- Locking leaves the nodes. -/
theorem dlistLock_heap (list : ListT) (σ : State α) : (dlistLock list σ).heap=σ.heap := by
  unfold dlistLock
  split <;> rfl

/-- Unlocking leaves the nodes. -/
theorem dlistUnlock_heap (list : ListT) (σ : State α) : (dlistUnlock list σ).heap=σ.heap := by
  unfold dlistUnlock
  split <;> rfl

/-- The length that is returned counts the elements. -/
theorem Inv.length (hi : Inv σ.heap list.head as ds) :
    listLength (some list) σ=some (dlistUnlock list (dlistLock list σ),ds.length) := by
  have hu := hi.used
  unfold listLength
  dsimp only
  rw [dlistLock_heap,lengthLoop_eq hi.ring.path (List.nodup_cons.mp hi.ring.nodup).1 (by omega),
    Option.map_some,Nat.zero_add,hi.length_eq]

/-! ## Insertion -/

/-- The four writes of __list_add, also when both neighbours are the head. -/
theorem listAddBetween_spec {u v : Option ℕ} (hab : Link h a b) (hs : h.next s=some u)
    (hv : h.prev s=some v) (hsa : s≠a) (hsb : s≠b) (hb : h.Bounded) :
    ∃ k,listAddBetween h (some s) (some a) (some b)=some k ∧ Link k a s ∧ Link k s b ∧
      Relinked h k a b s ∧ (∀ x,k.data x=h.data x) ∧ k.used=h.used ∧ k.Bounded := by
  have h1 : (h.putPrev b (some s)).next s=some u := Heap.next_putPrev.trans hs
  have h2 : ((h.putPrev b (some s)).putNext s (some b)).prev s=some v := by
    rw [Heap.prev_putNext,Heap.prev_putPrev_ne hsb]
    exact hv
  have h3 : (((h.putPrev b (some s)).putNext s (some b)).putPrev s (some a)).next a=
      some (some b) := by
    rw [Heap.next_putPrev,Heap.next_putNext_ne hsa.symm,Heap.next_putPrev]
    exact hab.1
  refine ⟨(((h.putPrev b (some s)).putNext s (some b)).putPrev s (some a)).putNext a (some s),
    ?_,⟨?_,?_⟩,⟨?_,?_⟩,⟨fun x hxa hxs => ?_,fun x hxb hxs => ?_⟩,fun x => ?_,rfl,
    hb.modify.modify.modify.modify⟩
  · unfold listAddBetween
    rw [Heap.setPrev_eq hab.2,Option.bind_eq_bind,Option.bind_some,Heap.setNext_eq h1,
      Option.bind_some,Heap.setPrev_eq h2,Option.bind_some,Heap.setNext_eq h3]
  · exact Heap.next_putNext_self h3
  · rw [Heap.prev_putNext]
    exact Heap.prev_putPrev_self h2
  · rw [Heap.next_putNext_ne hsa,Heap.next_putPrev]
    exact Heap.next_putNext_self h1
  · rw [Heap.prev_putNext,Heap.prev_putPrev_ne hsb.symm,Heap.prev_putNext]
    exact Heap.prev_putPrev_self hab.2
  · rw [Heap.next_putNext_ne hxa,Heap.next_putPrev,Heap.next_putNext_ne hxs,Heap.next_putPrev]
  · rw [Heap.prev_putNext,Heap.prev_putPrev_ne hxs,Heap.prev_putNext,Heap.prev_putPrev_ne hxb]
  · rw [Heap.data_putNext,Heap.data_putPrev,Heap.data_putNext,Heap.data_putPrev]

/-- The ring around a place between two of its nodes. -/
theorem ring_split (hl : head::p=l++[a]) (hr : m++[head]=b::r) :
    head::(p++m)++[head]=l++a::b::r := by
  rw [List.cons_append,List.append_assoc,hr,←List.cons_append,hl,List.append_assoc]
  rfl

/-- A node put between two nodes of a ring. -/
theorem ring_split_node (hl : head::p=l++[a]) (hr : m++[head]=b::r) :
    head::(p++s::m)++[head]=l++a::s::b::r := by
  rw [List.cons_append,List.append_assoc,List.cons_append,hr,←List.cons_append,hl,List.append_assoc]
  rfl

/-- The ring without its closing node. -/
theorem ring_dropLast (as : List ℕ) : (head::as++[head]).dropLast=head::as :=
  List.dropLast_concat

/-- The ring without its opening node has no node twice. -/
theorem ring_tail_nodup (hn : (head::as).Nodup) : (head::as++[head]).tail.Nodup := by
  rw [List.cons_append,List.tail_cons]
  exact (List.perm_append_singleton head as).nodup_iff.mpr hn

/-- The places before and behind a position exist: the head if nothing else. -/
theorem neighbours (head : ℕ) (p m : List ℕ) :
    ∃ l a b r,head::p=l++[a] ∧ m++[head]=b::r := by
  obtain ⟨b,r,hr⟩ : ∃ b r,m++[head]=b::r := by
    cases m with
    | nil => exact ⟨head,[],rfl⟩
    | cons b m => exact ⟨b,m++[head],rfl⟩
  exact ⟨_,_,b,r,(List.dropLast_append_getLast (List.cons_ne_nil head p)).symm,hr⟩

/-- Every address of the ring has a node. -/
theorem Ring.allocated (hr : Ring h head as) {x : ℕ} (hx : x ∈ head::as) : ∃ w,h.next x=some w := by
  obtain ⟨l,m,hsplit⟩ := List.append_of_mem hx
  have hpath := hr.path
  rw [hsplit,List.append_assoc,List.cons_append] at hpath
  cases m with
  | nil => exact ⟨_,(List.isChain_append_cons_cons.mp hpath).2.1.1⟩
  | cons c m => exact ⟨_,(List.isChain_append_cons_cons.mp hpath).2.1.1⟩

/-- A new node is not on the ring. -/
theorem Ring.fresh (hr : Ring h head as) (hs : h.node s=none) : s ∉ head::as := by
  intro hx
  obtain ⟨w,hw⟩ := hr.allocated hx
  rw [Heap.next_eq_none hs] at hw
  cases hw

/-- The nodes of the ring. -/
theorem mem_ring {x : ℕ} (hx : x ∈ head::as++[head]) : x ∈ head::as := by
  rcases List.mem_append.mp hx with hx|hx
  · exact hx
  · rw [List.mem_singleton.mp hx]
    exact List.mem_cons_self

/-- A node that is not linked changes nothing. -/
theorem Inv.alloc (hi : Inv h head as ds) (hs : h.node s=none) (n : Node α) :
    Inv (h.alloc s n) head as ds := by
  have hne : ∀ x ∈ head::as,x≠s := fun x hx hxs => hi.ring.fresh hs (hxs ▸ hx)
  refine ⟨⟨?_,hi.ring.nodup⟩,?_,hi.used.trans (Nat.lt_succ_self _),hi.bounded.alloc⟩
  · exact hi.ring.path.congr
      (fun x hx => Heap.next_alloc_ne (hne x (mem_ring (List.mem_of_mem_dropLast hx))))
      (fun x hx => Heap.prev_alloc_ne (hne x (mem_ring (List.mem_of_mem_tail hx))))
  · rw [←hi.data]
    exact List.map_congr_left fun x hx => Heap.data_alloc_ne (hne x (List.mem_cons_of_mem head hx))

/-- A node linked in between two neighbours in the ring. -/
theorem Inv.insert (hi : Inv h head (p++m) ds) (hl : head::p=l++[a]) (hr : m++[head]=b::r)
    (hs : s ∉ head::(p++m)) (has : Link k a s) (hsb : Link k s b) (hrel : Relinked h k a b s)
    (hdata : ∀ x,k.data x=h.data x) (hsd : h.data s=some d) (hused : (p++m).length+1 < k.used)
    (hb : k.Bounded) :
    Inv k head (p++s::m) (ds.take p.length++d::ds.drop p.length) := by
  have hpath := hi.ring.path
  have hd := hi.ring.nodup
  have ht := ring_tail_nodup hi.ring.nodup
  have hs2 : s ∉ head::(p++m)++[head] := fun hx => hs (mem_ring hx)
  rw [←ring_dropLast] at hd
  rw [ring_split hl hr] at hpath hd ht hs2
  refine ⟨⟨?_,?_⟩,?_,?_,hb⟩
  · rw [ring_split_node hl hr]
    exact hpath.insert hd ht hs2 hrel has hsb
  · rw [←List.cons_append,List.nodup_middle]
    exact List.nodup_cons.mpr ⟨hs,hi.ring.nodup⟩
  · obtain ⟨h1,h2⟩ := data_split hi.data
    rw [List.map_append,List.map_cons,List.map_append,List.map_cons,hdata,hsd,
      List.map_congr_left (fun x _ => hdata x),h1,List.map_congr_left (fun x _ => hdata x),h2]
  · rw [List.length_append,List.length_cons]
    rw [List.length_append] at hused
    omega

/-- A datum stored between two neighbours under the lock. -/
theorem addLocked_inv (place : Heap α → Option (Option ℕ × Option ℕ))
    (hi : Inv σ.heap list.head (p++m) ds) (hs : σ.heap.node s=none)
    (hl : list.head::p=l++[a]) (hr : m++[list.head]=b::r)
    (hplace : place (σ.heap.alloc s ⟨d,none,none⟩)=some (some a,some b)) :
    ∃ τ,addLocked list ⟨σ.heap.alloc s ⟨d,none,none⟩,σ.log⟩ s place=some (τ,.ok) ∧
      Inv τ.heap list.head (p++s::m) (ds.take p.length++d::ds.drop p.length) := by
  have hfresh := hi.ring.fresh hs
  have hi0 := hi.alloc hs ⟨d,none,none⟩
  have hpath := hi0.ring.path
  rw [ring_split hl hr] at hpath
  have hne : ∀ x ∈ l++a::b::r,s≠x := by
    intro x hx hsx
    rw [←ring_split hl hr,←hsx] at hx
    exact hfresh (mem_ring hx)
  have hsa : s≠a := hne a (List.mem_append_right _ List.mem_cons_self)
  have hsb : s≠b := hne b (List.mem_append_right _ (List.mem_cons_of_mem a List.mem_cons_self))
  have hab := (List.isChain_append_cons_cons.mp hpath).2.1
  have hsn : (σ.heap.alloc s ⟨d,none,none⟩).next s=some none := Heap.next_alloc_self
  have hsv : (σ.heap.alloc s ⟨d,none,none⟩).prev s=some none := Heap.prev_alloc_self
  obtain ⟨k,hk,has,hsb2,hrel,hdata,hused,hbound⟩ :=
    listAddBetween_spec hab hsn hsv hsa hsb hi0.bounded
  have hroom : (p++m).length+1 < k.used := by
    rw [hused]
    exact Nat.succ_lt_succ hi.used
  have hinv := hi0.insert hl hr hfresh has hsb2 hrel hdata Heap.data_alloc_self hroom hbound
  refine ⟨dlistUnlock list ⟨k,(dlistLock list ⟨σ.heap.alloc s ⟨d,none,none⟩,σ.log⟩).log⟩,?_,?_⟩
  · unfold addLocked
    dsimp only
    rw [dlistLock_heap,hplace,Option.bind_some]
    dsimp only
    rw [hk,Option.map_some]
  · rw [dlistUnlock_heap]
    exact hinv

/-- list_add stores at the front. -/
theorem listAdd_inv (hm : Succeeds malloc) (hi : Inv σ.heap list.head as ds) (d : α) :
    ∃ τ bs,listAdd malloc (some list) σ d=some (τ,.ok) ∧ Inv τ.heap list.head bs (d::ds) := by
  have hs := hm σ.heap hi.bounded
  obtain ⟨l,a,b,r,hl,hr⟩ := neighbours list.head [] as
  obtain ⟨rfl,rfl⟩ : l=[] ∧ a=list.head := by
    cases l with
    | nil => exact ⟨rfl,(List.head_eq_of_cons_eq hl).symm⟩
    | cons c l => simp at hl
  have hnext := next_of_path (hi.alloc hs ⟨d,none,none⟩).ring.path
  rw [hr,List.head?_cons] at hnext
  obtain ⟨τ,hτ,hinv⟩ := addLocked_inv
    (fun h => (h.getNext (some list.head)).map fun next => (some list.head,next)) (p:=[]) hi hs hl hr
    (by rw [Heap.getNext_some,hnext,Option.map_some])
  exact ⟨τ,_,hτ,hinv⟩

/-- list_add_tail stores at the back. -/
theorem listAddTail_inv (hm : Succeeds malloc) (hi : Inv σ.heap list.head as ds) (d : α) :
    ∃ τ bs,listAddTail malloc (some list) σ d=some (τ,.ok) ∧ Inv τ.heap list.head bs (ds++[d]) := by
  have hs := hm σ.heap hi.bounded
  obtain ⟨l,a,-,-,hl,-⟩ := neighbours list.head as []
  have hpath := (hi.alloc hs ⟨d,none,none⟩).ring.path
  rw [hl,List.append_assoc] at hpath
  have hprev := (List.isChain_append_cons_cons.mp hpath).2.1.2
  rw [←List.append_nil as] at hi
  obtain ⟨τ,hτ,hinv⟩ := addLocked_inv
    (fun h => (h.getPrev (some list.head)).map fun prev => (prev,some list.head)) hi hs hl
    (List.nil_append [list.head])
    (by rw [Heap.getPrev_some,hprev,Option.map_some])
  have hlen := hi.length_eq
  rw [List.append_nil] at hlen
  rw [hlen,List.take_length,List.drop_length] at hinv
  exact ⟨τ,_,hτ,hinv⟩

/-! ## Removal -/

/-- What the end of a node changes: nothing at other addresses. -/
structure Freed (h k : Heap α) (x : ℕ) : Prop where
  /-- The links forwards. -/
  next : ∀ y,y≠x → k.next y=h.next y
  /-- The links backwards. -/
  prev : ∀ y,y≠x → k.prev y=h.prev y
  /-- The data. -/
  data : ∀ y,y≠x → k.data y=h.data y
  /-- The number of nodes. -/
  used : k.used=h.used-1
  /-- Room in the heap. -/
  bounded : h.Bounded → k.Bounded

/-- Destroying the data is logged. -/
theorem listDestroyData_eq (list : ListT) (log : List (Event α)) (d : α) :
    listDestroyData list log d=log++destroyed list [d] := by
  unfold listDestroyData destroyed
  split
  · rfl
  · exact (List.append_nil log).symm

/-- Destroying a node frees it and logs its data. -/
theorem listDestroyNode_spec (list : ListT) (σ : State α) {x : ℕ} {u v : Option ℕ} (hn : σ.heap.next x=some u)
    (hv : σ.heap.prev x=some v) (hd : σ.heap.data x=some d) :
    ∃ k,listDestroyNode list σ (some x)=some ⟨k,σ.log++destroyed list [d]⟩ ∧
      Freed σ.heap k x := by
  have h1 : (σ.heap.putNext x none).prev x=some v := Heap.prev_putNext.trans hv
  have h2 : ((σ.heap.putNext x none).putPrev x none).data x=some d := by
    rw [Heap.data_putPrev,Heap.data_putNext]
    exact hd
  have h3 : ((σ.heap.putNext x none).putPrev x none).next x=some none := by
    rw [Heap.next_putPrev]
    exact Heap.next_putNext_self hn
  refine ⟨((σ.heap.putNext x none).putPrev x none).drop x,?_,fun y hy => ?_,fun y hy => ?_,
    fun y hy => ?_,rfl,fun hb => hb.modify.modify.drop⟩
  · unfold listDestroyNode
    rw [if_neg (Option.some_ne_none x),Heap.setNext_eq hn,Option.bind_eq_bind,Option.bind_some,
      Heap.setPrev_eq h1,Option.bind_eq_bind,Option.bind_some,Heap.getData_some,h2,
      Option.bind_some,Heap.free_eq h3,Option.bind_some,listDestroyData_eq]
    rfl
  · rw [Heap.next_drop_ne hy,Heap.next_putPrev,Heap.next_putNext_ne hy]
  · rw [Heap.prev_drop_ne hy,Heap.prev_putPrev_ne hy,Heap.prev_putNext]
  · rw [Heap.data_drop_ne hy,Heap.data_putPrev,Heap.data_putNext]

/-- The two writes of __list_del, also when both neighbours are the head. -/
theorem listDelete_spec (has : Link h a s) (hsb : Link h s b) (hsa : s≠a) (hne : s≠b) :
    ∃ k,listDelete h (some s)=some k ∧ Link k a b ∧ Relinked h k a b s ∧
      k.next s=some (some b) ∧ k.prev s=some (some a) ∧ (∀ x,k.data x=h.data x) ∧
      k.used=h.used ∧ (h.Bounded → k.Bounded) := by
  have h1 : (h.putPrev b (some a)).next a=some (some s) := Heap.next_putPrev.trans has.1
  refine ⟨(h.putPrev b (some a)).putNext a (some b),?_,⟨?_,?_⟩,
    ⟨fun x hxa _ => ?_,fun x hxb _ => ?_⟩,?_,?_,fun x => ?_,rfl,fun hb => hb.modify.modify⟩
  · unfold listDelete listDelBetween
    rw [Heap.getPrev_some,has.2,Option.bind_eq_bind,Option.bind_some,Heap.getNext_some,hsb.1,
      Option.bind_some,Heap.setPrev_eq hsb.2,Option.bind_eq_bind,Option.bind_some,
      Heap.setNext_eq h1]
  · exact Heap.next_putNext_self h1
  · rw [Heap.prev_putNext]
    exact Heap.prev_putPrev_self hsb.2
  · rw [Heap.next_putNext_ne hxa,Heap.next_putPrev]
  · rw [Heap.prev_putNext,Heap.prev_putPrev_ne hxb]
  · rw [Heap.next_putNext_ne hsa,Heap.next_putPrev]
    exact hsb.1
  · rw [Heap.prev_putNext,Heap.prev_putPrev_ne hne]
    exact has.2
  · rw [Heap.data_putNext,Heap.data_putPrev]

/-- Any node of the ring is unlinked and destroyed. -/
theorem Inv.unlink (hi : Inv σ.heap list.head (p++s::m) ds) :
    ∃ k d,ds[p.length]?=some d ∧
      listDelAndDestroyNode list σ (some s)=some ⟨k,σ.log++destroyed list [d]⟩ ∧
      Inv k list.head (p++m) (ds.eraseIdx p.length) := by
  obtain ⟨l,a,b,r,hl,hr⟩ := neighbours list.head p m
  have hpath := hi.ring.path
  have hnodup := hi.ring.nodup
  have hd := hi.ring.nodup
  have ht := ring_tail_nodup hi.ring.nodup
  rw [←ring_dropLast] at hd
  rw [ring_split_node hl hr] at hpath hd ht
  obtain ⟨-,has,hrest⟩ := List.isChain_append_cons_cons.mp hpath
  obtain ⟨hsb,-⟩ := List.isChain_cons_cons.mp hrest
  rw [←List.cons_append,List.nodup_middle,List.nodup_cons] at hnodup
  obtain ⟨hsnot,hnodup2⟩ := hnodup
  have hne : ∀ x ∈ l++a::b::r,s≠x := by
    intro x hx hsx
    rw [←ring_split hl hr,←hsx] at hx
    exact hsnot (mem_ring hx)
  have hsa : s≠a := hne a (List.mem_append_right _ List.mem_cons_self)
  have hsb2 : s≠b := hne b (List.mem_append_right _ (List.mem_cons_of_mem a List.mem_cons_self))
  obtain ⟨d,hds,hsd⟩ := data_at hi.data
  obtain ⟨k,hk,hab,hrel,hks,hkp,hkd,hku,hkb⟩ := listDelete_spec has hsb hsa hsb2
  obtain ⟨k2,hk2,hfreed⟩ := listDestroyNode_spec list ⟨k,σ.log⟩ hks hkp ((hkd s).trans hsd)
  have hused := hi.used
  have hku2 : k2.used=σ.heap.used-1 := hfreed.used.trans (congrArg (· - 1) hku)
  refine ⟨k2,d,hds,?_,⟨?_,hnodup2⟩,?_,?_,?_⟩
  · unfold listDelAndDestroyNode
    rw [hk,Option.bind_some,hk2]
  · rw [ring_split hl hr]
    refine hpath.remove hd ht (fun hx => ?_) (fun hx => ?_)
      ⟨fun x hxa hxs => ?_,fun x hxb hxs => ?_⟩ ⟨?_,?_⟩
    · refine hne s ?_ rfl
      rw [List.append_cons]
      exact List.mem_append_left _ hx
    · exact hne s (List.mem_append_right _ (List.mem_cons_of_mem a hx)) rfl
    · exact (hfreed.next x hxs).trans (hrel.next x hxa hxs)
    · exact (hfreed.prev x hxs).trans (hrel.prev x hxb hxs)
    · exact (hfreed.next a hsa.symm).trans hab.1
    · exact (hfreed.prev b hsb2.symm).trans hab.2
  · have hmap : ∀ x ∈ p++m,k2.data x=σ.heap.data x := by
      intro x hx
      have hxs : x≠s := by
        rintro rfl
        exact hsnot (List.mem_cons_of_mem _ hx)
      exact (hfreed.data x hxs).trans (hkd x)
    rw [List.map_congr_left hmap]
    exact data_erase hi.data
  · rw [List.length_append,List.length_cons] at hused
    rw [hku2,List.length_append]
    omega
  · exact hfreed.bounded (hkb hi.bounded)

/-! ## The end of a list -/

/-- The data are destroyed one after the other. -/
theorem destroyed_cons (list : ListT) (d : α) (ds : List α) :
    destroyed list [d]++destroyed list ds=destroyed list (d::ds) := by
  unfold destroyed
  split <;> rfl

/-- The loop frees the nodes in the order of the list, each after the link to
the next one is read. -/
theorem destroyLoop_spec (list : ListT) (σ : State α) (as : List ℕ) (ds : List α) {n : ℕ}
    (hp : Path σ.heap (as++[list.head])) (hn : (as++[list.head]).Nodup)
    (hnext : ∃ w,σ.heap.next list.head=some w) (hprev : ∀ x ∈ as,∃ w,σ.heap.prev x=some w)
    (hd : as.map σ.heap.data=ds.map some) (hfuel : as.length < n) :
    ∃ k,destroyLoop list n (as++[list.head]).head? σ=some ⟨k,σ.log++destroyed list ds⟩ ∧
      k.next list.head=σ.heap.next list.head ∧ k.prev list.head=σ.heap.prev list.head := by
  induction as generalizing n σ ds with
  | nil =>
    obtain ⟨n,rfl⟩ : ∃ j,n=j+1 := ⟨n-1,by have := hfuel; omega⟩
    refine ⟨σ.heap,?_,rfl,rfl⟩
    have hempty : destroyed list ([] : List α)=[] := by
      unfold destroyed
      split <;> rfl
    rw [List.map_eq_nil_iff.mp hd.symm,hempty,List.append_nil]
    exact if_pos rfl
  | cons x as ih =>
    rw [List.length_cons] at hfuel
    obtain ⟨n,rfl⟩ : ∃ j,n=j+1 := ⟨n-1,by omega⟩
    cases ds with
    | nil => cases hd
    | cons d ds =>
      rw [List.map_cons,List.map_cons,List.cons_eq_cons] at hd
      rw [List.cons_append,List.nodup_cons] at hn
      obtain ⟨w,hw⟩ := hprev x List.mem_cons_self
      obtain ⟨k,hk,hfreed⟩ := listDestroyNode_spec list σ (next_of_path hp) hw hd.1
      have hne : ∀ y ∈ as++[list.head],y≠x := fun y hy hyx => hn.1 (hyx ▸ hy)
      have hhead : list.head≠x := hne _ (List.mem_append_right _ List.mem_cons_self)
      have hp2 : Path k (as++[list.head]) := by
        refine Path.congr (List.IsChain.of_cons hp) (fun y hy => ?_) (fun y hy => ?_)
        · exact hfreed.next y (hne y (List.mem_of_mem_dropLast hy))
        · exact hfreed.prev y (hne y (List.mem_of_mem_tail hy))
      have hd2 : as.map k.data=ds.map some := by
        rw [←hd.2]
        exact List.map_congr_left fun y hy => hfreed.data y (hne y (List.mem_append_left _ hy))
      obtain ⟨k2,hk2,hn2,hv2⟩ := ih ⟨k,σ.log++destroyed list [d]⟩ ds (n:=n) hp2 hn.2
        (by rw [hfreed.next _ hhead]; exact hnext)
        (fun y hy => by
          rw [hfreed.prev y (hne y (List.mem_append_left _ hy))]
          exact hprev y (List.mem_cons_of_mem x hy)) hd2 (by omega)
      refine ⟨k2,?_,hn2.trans (hfreed.next _ hhead),hv2.trans (hfreed.prev _ hhead)⟩
      rw [List.cons_append,List.head?_cons,destroyLoop,
        if_neg (fun hx => hhead (Option.some.inj hx).symm),Heap.getNext_some,next_of_path hp,
        Option.bind_some,hk,Option.bind_some,hk2,List.append_assoc,destroyed_cons]

/-- Destroying the lock leaves the nodes. -/
theorem dlistDestroyLocker_heap (list : ListT) (σ : State α) :
    (dlistDestroyLocker list σ).heap=σ.heap := by
  unfold dlistDestroyLocker
  split <;> rfl

/-- What destroying the lock logs does not depend on the nodes. -/
theorem dlistDestroyLocker_log (list : ListT) (h k : Heap α) (log : List (Event α)) :
    (dlistDestroyLocker list ⟨h,log⟩).log=(dlistDestroyLocker list ⟨k,log⟩).log := by
  unfold dlistDestroyLocker
  split <;> rfl

/-- list_destroy ends with one call of data_destroy for each datum. -/
theorem Inv.destroy (hi : Inv σ.heap list.head as ds) :
    ∃ k,listDestroy (some list) σ=some ⟨k,(dlistDestroyLocker list
      ⟨σ.heap,(dlistLock list σ).log++destroyed list ds⟩).log⟩ := by
  have hu := hi.used
  have hnext := next_of_path hi.ring.path
  have hheap := dlistLock_heap list σ
  obtain ⟨l,a,-,-,hl,-⟩ := neighbours list.head as []
  have hpath := hi.ring.path
  rw [hl,List.append_assoc] at hpath
  have hback := (List.isChain_append_cons_cons.mp hpath).2.1.2
  have hprev : ∀ x ∈ as,∃ w,σ.heap.prev x=some w := by
    intro x hx
    obtain ⟨w,hw⟩ := hi.ring.allocated (List.mem_cons_of_mem list.head hx)
    obtain ⟨n,hn,-⟩ := Heap.node_of_next hw
    exact ⟨n.prev,congrArg (Option.map Node.prev) hn⟩
  obtain ⟨k,hk,hkn,hkp⟩ := destroyLoop_spec list (dlistLock list σ) as ds
    (n:=σ.heap.used+1) (by rw [hheap]; exact List.IsChain.of_cons hi.ring.path)
    (ring_tail_nodup hi.ring.nodup) (by rw [hheap]; exact ⟨_,hnext⟩) (by rw [hheap]; exact hprev)
    (by rw [hheap]; exact hi.data) (by omega)
  rw [hheap] at hkn hkp
  have h1 : (k.putNext list.head (some list.head)).prev list.head=some (some a) :=
    Heap.prev_putNext.trans (hkp.trans hback)
  have h2 : ((k.putNext list.head (some list.head)).putPrev list.head (some list.head)).next
      list.head=some (some list.head) := by
    rw [Heap.next_putPrev]
    exact Heap.next_putNext_self (hkn.trans hnext)
  refine ⟨((k.putNext list.head (some list.head)).putPrev list.head (some list.head)).drop
    list.head,?_⟩
  unfold listDestroy
  dsimp only
  rw [hheap,Heap.getNext_some,hnext,Option.bind_eq_bind,Option.bind_some,hk,Option.bind_eq_bind,
    Option.bind_some,Heap.setNext_eq (hkn.trans hnext),Option.bind_eq_bind,Option.bind_some,
    Heap.setPrev_eq h1,Option.bind_some,dlistDestroyLocker_heap,Heap.free_eq h2,Option.bind_some,
    dlistDestroyLocker_log list _ σ.heap]
  rfl

/-! ## Runs -/

/-- The functions see the deque of the invariant. -/
theorem Inv.deque (hi : Inv σ.heap list.head as ds) : Deque list σ ds where
  holds := ⟨as,hi.holds⟩
  length := hi.length
  unlink := by
    intro p x m hh
    have hlen : (p++x::m).length=as.length := by
      rw [hi.length_eq,←List.length_map (f:=σ.heap.data),hh.data,List.length_map]
    have hi2 : Inv σ.heap list.head (p++x::m) ds :=
      ⟨hh.ring,hh.data,by rw [hlen]; exact hi.used,hi.bounded⟩
    obtain ⟨k,d,hd,hk,hinv⟩ := hi2.unlink
    exact ⟨k,d,hd,hk,Inv.holds hinv⟩
  destroy := hi.destroy

/-- A new list is a ring of its head alone. -/
theorem listCreate_inv (hb : σ.heap.Bounded) (junk : α) (dataDestroy locker : Bool) :
    Inv (listCreate σ s junk dataDestroy locker).1.heap s [] [] := by
  refine ⟨⟨?_,List.nodup_singleton s⟩,rfl,Nat.succ_pos _,hb.alloc⟩
  exact List.isChain_cons_cons.mpr
    ⟨⟨Heap.next_alloc_self,Heap.prev_alloc_self⟩,List.IsChain.singleton s⟩

/-- Every run of insertions succeeds and keeps the invariant. -/
theorem calls_inv (hm : Succeeds malloc) (hi : Inv σ.heap list.head as ds) (cs : List (Call α)) :
    ∃ τ bs,calls malloc list σ cs=some τ ∧ Inv τ.heap list.head bs (cs.foldl callSpec ds) := by
  induction cs generalizing σ as ds with
  | nil => exact ⟨σ,as,rfl,hi⟩
  | cons c cs ih =>
    obtain ⟨τ,bs,hτ,hinv⟩ : ∃ τ bs,call malloc list σ c=some (τ,.ok) ∧
        Inv τ.heap list.head bs (callSpec ds c) := by
      cases c with
      | add d => exact listAdd_inv hm hi d
      | addTail d => exact listAddTail_inv hm hi d
    obtain ⟨ρ,es,hρ,hinv2⟩ := ih hinv
    refine ⟨ρ,es,?_,hinv2⟩
    rw [calls,hτ,Option.bind_some,if_pos rfl,hρ]

/-- For every list made by list_create, with or without a locker and with or
without data_destroy, every finite sequence of list_add and list_add_tail
succeeds and leaves the ring of the abstract deque, on which list_length,
the removal of any one node and list_destroy are correct. -/
theorem calls_deque (malloc : Heap α → ℕ) (hm : Succeeds malloc) (σ : State α)
    (hb : σ.heap.Bounded) (junk : α) (dataDestroy locker : Bool) (cs : List (Call α)) :
    ∃ τ,calls malloc (listCreate σ (malloc σ.heap) junk dataDestroy locker).2
        (listCreate σ (malloc σ.heap) junk dataDestroy locker).1 cs=some τ ∧
      Deque (listCreate σ (malloc σ.heap) junk dataDestroy locker).2 τ (cs.foldl callSpec []) := by
  have hinit : Inv (listCreate σ (malloc σ.heap) junk dataDestroy locker).1.heap
      (listCreate σ (malloc σ.heap) junk dataDestroy locker).2.head [] [] :=
    listCreate_inv hb junk dataDestroy locker
  obtain ⟨τ,bs,hτ,hinv⟩ := calls_inv hm hinit cs
  exact ⟨τ,hτ,hinv.deque⟩

/-- Three elements are added at both ends. -/
theorem calls_deque_three :
    ∃ τ,calls behindAll (listCreate ⟨noNodes,[]⟩ (behindAll (noNodes : Heap ℕ)) 0 true true).2
        (listCreate ⟨noNodes,[]⟩ (behindAll (noNodes : Heap ℕ)) 0 true true).1
        [.add 1,.addTail 2,.add 3]=some τ ∧
      Deque (listCreate ⟨noNodes,[]⟩ (behindAll (noNodes : Heap ℕ)) 0 true true).2 τ [3,1,2] :=
  calls_deque behindAll behindAll_succeeds ⟨noNodes,[]⟩ noNodes_bounded 0 true true
    [.add 1,.addTail 2,.add 3]

end StudyCode.ChunxiaoList
