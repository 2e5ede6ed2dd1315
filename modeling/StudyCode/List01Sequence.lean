import StudyCode.List01

/-!
# Calls on list_01 follow the abstract sequence

The header and the nodes form a path whose last address has no successor.
Each branch of an insertion or a deletion is one change of that path; a run
without an insertion one position behind the last node keeps it.
-/

namespace StudyCode.List01

open Linked

variable {α : Type} {malloc : Heap α → ℕ} {h k : Heap α} {list a s : ℕ}
variable {as p m l : List ℕ} {es : List α}

/-- The header and the nodes of a list that holds a sequence. -/
structure Chain (h : Heap α) (list : ℕ) (as : List ℕ) (es : List α) : Prop where
  /-- The links. -/
  path : Path h (list::as)
  /-- The end. -/
  last : ∀ l a,list::as=l++[a] → h.next a=some none
  /-- No address occurs twice. -/
  nodup : (list::as).Nodup
  /-- The elements. -/
  data : as.map h.data=es.map some
  /-- The header has no predecessor. -/
  header : h.prev list=some none
  /-- The heap counts the nodes. -/
  used : as.length < h.used
  /-- The heap is not full. -/
  bounded : h.Bounded

/-! ## What a chain shows -/

/-- The link of an address is the first address behind it. -/
theorem next_eq_head (hp : Path h (a::as)) (hl : ∀ l b,a::as=l++[b] → h.next b=some none) :
    h.next a=some as.head? := by
  cases as with
  | nil => exact hl [] a rfl
  | cons b as => exact (List.isChain_cons_cons.mp hp).1.1

/-- The end of the list is the end of the rest. -/
theorem last_tail {b : ℕ} (hl : ∀ l c,a::b::as=l++[c] → h.next c=some none) :
    ∀ l c,b::as=l++[c] → h.next c=some none := fun l c hc => hl (a::l) c (by rw [hc]; rfl)

/-- Walking along the path counts the nodes. -/
theorem lengthLoop_eq {n : ℕ} {i : ℤ} (hp : Path h (a::as))
    (hl : ∀ l b,a::as=l++[b] → h.next b=some none) (hn : as.length < n) :
    lengthLoop h n as.head? i=some (i+as.length) := by
  induction as generalizing a n i with
  | nil =>
    obtain ⟨n,rfl⟩ : ∃ j,n=j+1 := ⟨n-1,by have := hn; omega⟩
    show some i=some (i+(0 : ℕ))
    rw [Nat.cast_zero,add_zero]
  | cons b as ih =>
    rw [List.length_cons] at hn
    obtain ⟨n,rfl⟩ : ∃ j,n=j+1 := ⟨n-1,by omega⟩
    have hp2 := (List.isChain_cons_cons.mp hp).2
    show ((h.next b).bind fun q => lengthLoop h n q (i+1))=_
    rw [next_eq_head hp2 (last_tail hl),Option.bind_some,ih hp2 (last_tail hl) (by omega)]
    rw [List.length_cons,Nat.cast_add,Nat.cast_one]
    congr 1
    ring

/-- Walking along the path shows the elements. -/
theorem elements_eq {n : ℕ} (hp : Path h (a::as)) (hl : ∀ l b,a::as=l++[b] → h.next b=some none)
    (hd : as.map h.data=es.map some) (hn : as.length < n) : elements h n as.head?=some es := by
  induction as generalizing a n es with
  | nil =>
    obtain ⟨n,rfl⟩ : ∃ j,n=j+1 := ⟨n-1,by have := hn; omega⟩
    rw [List.map_eq_nil_iff.mp hd.symm]
    rfl
  | cons b as ih =>
    rw [List.length_cons] at hn
    obtain ⟨n,rfl⟩ : ∃ j,n=j+1 := ⟨n-1,by omega⟩
    cases es with
    | nil => cases hd
    | cons e es =>
      rw [List.map_cons,List.map_cons,List.cons_eq_cons] at hd
      have hp2 := (List.isChain_cons_cons.mp hp).2
      show ((h.data b).bind fun e => (h.next b).bind fun q => (elements h n q).map fun l => e::l)=_
      rw [hd.1,Option.bind_some,next_eq_head hp2 (last_tail hl),Option.bind_some,
        ih hp2 (last_tail hl) hd.2 (by omega),Option.map_some]

/-- The head links to the first node. -/
theorem Chain.next_list (hc : Chain h list as es) : h.next list=some as.head? :=
  next_eq_head hc.path hc.last

/-- There is one node for each element. -/
theorem Chain.length_eq (hc : Chain h list as es) : as.length=es.length := by
  rw [←List.length_map (f:=h.data),hc.data,List.length_map]

/-- The length that is returned counts the elements. -/
theorem Chain.listLength (hc : Chain h list as es) :
    listLength h (some list)=some (es.length : ℤ) := by
  have hused := hc.used
  unfold List01.listLength
  rw [if_neg (Option.some_ne_none _),Heap.getNext_some,hc.next_list,Option.bind_some,
    lengthLoop_eq hc.path hc.last (by omega),hc.length_eq,zero_add]

/-- A list is empty when it has no element. -/
theorem Chain.listEmpty (hc : Chain h list as es) :
    listEmpty h (some list)=some (if es.isEmpty then 1 else 0) := by
  have hlen := hc.length_eq
  unfold List01.listEmpty
  rw [if_neg (Option.some_ne_none _),Heap.getNext_some,hc.next_list,Option.bind_some,
    Heap.getPrev_some,hc.header]
  cases as with
  | nil =>
    obtain rfl : es=[] := List.length_eq_zero_iff.mp hlen.symm
    rfl
  | cons b as =>
    cases es with
    | nil => cases hlen
    | cons e es => rfl

/-- The nodes that the links reach are those of the list. -/
theorem Chain.reached (hc : Chain h list as es) {q : ℕ} (hq : Reached h list q) : q ∈ list::as := by
  induction hq with
  | header => exact List.mem_cons_self
  | @next x y hx hxy ih =>
    obtain ⟨l,m,hsplit⟩ := List.append_of_mem ih
    have hpath := hc.path
    rw [hsplit] at hpath
    cases m with
    | nil =>
      rw [hc.last l x hsplit] at hxy
      cases hxy
    | cons b m =>
      have hlink := (List.isChain_append_cons_cons.mp hpath).2.1
      rw [hlink.1] at hxy
      rw [hsplit,←Option.some.inj (Option.some.inj hxy)]
      exact List.mem_append_right _ (List.mem_cons_of_mem x List.mem_cons_self)

/-- A chain shows its sequence. -/
theorem Chain.shows (hc : Chain h list as es) : Shows h list es where
  elements := by
    have hused := hc.used
    rw [hc.next_list,Option.bind_some]
    exact elements_eq hc.path hc.last hc.data (by omega)
  length := hc.listLength
  empty := hc.listEmpty
  back := by
    intro x y hx hxy
    obtain ⟨l,m,hsplit⟩ := List.append_of_mem (hc.reached hx)
    have hpath := hc.path
    rw [hsplit] at hpath
    cases m with
    | nil =>
      rw [hc.last l x hsplit] at hxy
      cases hxy
    | cons b m =>
      have hlink := (List.isChain_append_cons_cons.mp hpath).2.1
      rw [hlink.1] at hxy
      rw [←Option.some.inj (Option.some.inj hxy)]
      exact hlink.2

/-- The header alone. -/
theorem initList_chain (hb : h.Bounded) (junk : α) : Chain (initList h s junk) s [] [] where
  path := List.IsChain.singleton s
  last := by
    intro l a hl
    cases l with
    | nil =>
      obtain rfl : s=a := List.head_eq_of_cons_eq hl
      exact Heap.next_alloc_self
    | cons b l =>
      have := congrArg List.length hl
      simp at this
  nodup := List.nodup_singleton s
  data := rfl
  header := Heap.prev_alloc_self
  used := Nat.succ_pos h.used
  bounded := hb.alloc

/-! ## Positions -/

/-- Walking as far as a node ends there. -/
theorem walk_eq (hp : Path h (l++a::m)) : walk h l.length (l++a::m).head?=some (some a) := by
  induction l with
  | nil => rfl
  | cons c l ih =>
    have hnext : h.next c=some (l++a::m).head? := by
      cases l with
      | nil => exact (List.isChain_cons_cons.mp hp).1.1
      | cons b l => exact (List.isChain_cons_cons.mp hp).1.1
    show (h.next c).bind (walk h l.length)=_
    rw [hnext,Option.bind_some]
    exact ih (List.IsChain.of_cons hp)

/-- The node at a position inside the list. -/
theorem Chain.node_at (hc : Chain h list as es) {i : ℤ} (hsplit : list::as=l++a::m)
    (hl : l.length=i.toNat) (h1 : 1 ≤ i) (hi : i ≤ es.length) :
    getElemNode h (some list) i=some (some a) := by
  have hpath := hc.path
  have hhead : some list=(l++a::m).head? := by
    rw [←hsplit]
    rfl
  rw [hsplit] at hpath
  unfold getElemNode
  rw [if_neg (Option.some_ne_none _),hc.listLength,Option.bind_some,if_neg (by omega),←hl,hhead]
  exact walk_eq hpath

/-- No node one position behind the last. -/
theorem Chain.node_behind (hc : Chain h list as es) {i : ℤ} (hi : es.length < i) :
    getElemNode h (some list) i=some none := by
  unfold getElemNode
  rw [if_neg (Option.some_ne_none _),hc.listLength,Option.bind_some,if_pos (Or.inr hi)]

/-! ## Insertion -/

/-- Every address of a chain has a node. -/
theorem Chain.allocated (hc : Chain h list as es) {x : ℕ} (hx : x ∈ list::as) :
    ∃ w,h.next x=some w := by
  obtain ⟨l,m,hsplit⟩ := List.append_of_mem hx
  have hpath := hc.path
  rw [hsplit] at hpath
  cases m with
  | nil => exact ⟨none,hc.last l x hsplit⟩
  | cons b m => exact ⟨some b,(List.isChain_append_cons_cons.mp hpath).2.1.1⟩

/-- A new node is not in the list. -/
theorem Chain.fresh (hc : Chain h list as es) (hs : h.node s=none) : s ∉ list::as := by
  intro hx
  obtain ⟨w,hw⟩ := hc.allocated hx
  rw [Heap.next_eq_none hs] at hw
  cases hw

/-- A node that is not linked changes nothing. -/
theorem Chain.alloc (hc : Chain h list as es) (hs : h.node s=none) (n : Node α) :
    Chain (h.alloc s n) list as es := by
  have hne : ∀ x ∈ list::as,x≠s := fun x hx hxs => hc.fresh hs (hxs ▸ hx)
  constructor
  · exact hc.path.congr (fun x hx => Heap.next_alloc_ne (hne x (List.mem_of_mem_dropLast hx)))
      (fun x hx => Heap.prev_alloc_ne (hne x (List.mem_of_mem_tail hx)))
  · intro l a hl
    have ha : a ∈ list::as := by
      rw [hl]
      exact List.mem_append_right _ List.mem_cons_self
    rw [Heap.next_alloc_ne (hne a ha)]
    exact hc.last l a hl
  · exact hc.nodup
  · rw [←hc.data]
    exact List.map_congr_left fun x hx => Heap.data_alloc_ne (hne x (List.mem_cons_of_mem list hx))
  · rw [Heap.prev_alloc_ne (hne list List.mem_cons_self)]
    exact hc.header
  · exact hc.used.trans (Nat.lt_succ_self h.used)
  · exact hc.bounded.alloc

/-- What a node that is linked in behind an address changes; the link behind
it is the former link of that address. -/
structure Spliced (h k : Heap α) (a s : ℕ) (v : Option ℕ) : Prop where
  /-- The address and the node. -/
  link : Link k a s
  /-- The link of the node. -/
  next : k.next s=some v
  /-- The link back to the node. -/
  back : ∀ b ∈ v,k.prev b=some (some s)
  /-- The other links forwards. -/
  frameNext : ∀ x,x≠a → x≠s → k.next x=h.next x
  /-- The other links backwards. -/
  framePrev : ∀ x,x ∉ v → x≠s → k.prev x=h.prev x
  /-- The elements. -/
  data : ∀ x,k.data x=h.data x
  /-- The number of nodes. -/
  used : k.used=h.used
  /-- Room in the heap. -/
  bounded : k.Bounded

/-- A chain with a node linked in. -/
theorem Chain.splice {e : α} (hc : Chain h list (p++m) es) (hl : list::p=l++[a])
    (hs : s ∉ list::(p++m)) (hsd : h.data s=some e) (hu : (p++m).length+1 < h.used)
    (hk : Spliced h k a s m.head?) :
    Chain k list (p++s::m) (es.take p.length++e::es.drop p.length) := by
  have he : list::(p++m)=l++a::m := by
    rw [←List.cons_append,hl,List.append_assoc]
    rfl
  have he2 : list::(p++s::m)=l++a::s::m := by
    rw [←List.cons_append,hl,List.append_assoc]
    rfl
  have hpath := hc.path
  have hnodup := hc.nodup
  have hlast := hc.last
  have hne : ∀ x ∈ list::(p++m),x≠s := fun x hx hxs => hs (hxs ▸ hx)
  have hs2 := hs
  rw [he] at hpath hnodup hs2 hlast
  constructor
  · rw [he2]
    cases m with
    | nil =>
      exact hpath.append_last hnodup hs2 hk.frameNext
        (fun x hx => hk.framePrev x (fun hb => by cases hb) hx) hk.link
    | cons b m =>
      have hb : Link k s b := ⟨hk.next,hk.back b rfl⟩
      refine hpath.insert (hnodup.sublist (List.dropLast_sublist _))
        (hnodup.sublist (List.tail_sublist _)) hs2 ⟨hk.frameNext,fun x hx hxs => ?_⟩ hk.link hb
      exact hk.framePrev x (fun hv => hx (Option.some.inj hv).symm) hxs
  · intro l' z hz
    rw [he2] at hz
    have hz2 : (l++a::s::m).getLast?=some z := by
      rw [hz,List.getLast?_concat]
    cases m with
    | nil =>
      have hsz : (l++[a,s]).getLast?=some s := by rw [List.append_cons,List.getLast?_concat]
      rw [hsz] at hz2
      rw [←Option.some.inj hz2]
      exact hk.next
    | cons b m =>
      have hb : (l++a::s::b::m).getLast?=(l++a::b::m).getLast? := by
        simp [List.getLast?_append,List.getLast?_cons_cons]
      rw [hb] at hz2
      obtain ⟨ys,hys⟩ := List.getLast?_eq_some_iff.mp hz2
      have hzm : z ∈ b::m := by
        refine List.mem_of_getLast? (l:=b::m) ?_
        rw [←hz2,List.append_cons,List.getLast?_append_cons]
      have hza : z≠a := by
        rintro rfl
        rw [List.nodup_append] at hnodup
        exact (List.nodup_cons.mp hnodup.2.1).1 hzm
      have hzs : z≠s := by
        rintro rfl
        exact hs2 (List.mem_append_right _ (List.mem_cons_of_mem a hzm))
      rw [hk.frameNext z hza hzs]
      exact hlast ys z hys
  · rw [he2,List.append_cons,List.nodup_middle,List.append_assoc]
    exact List.nodup_cons.mpr ⟨hs2,hnodup⟩
  · obtain ⟨h1,h2⟩ := data_split hc.data
    rw [List.map_append,List.map_cons,List.map_append,List.map_cons,hk.data,hsd,
      List.map_congr_left (fun x _ => hk.data x),h1,List.map_congr_left (fun x _ => hk.data x),h2]
  · rw [hk.framePrev list ?_ (hne list List.mem_cons_self)]
    · exact hc.header
    · intro hv
      have hm : list ∈ m := List.mem_of_mem_head? hv
      exact (List.nodup_cons.mp hc.nodup).1 (List.mem_append_right _ hm)
  · rw [hk.used,List.length_append,List.length_cons]
    rw [List.length_append] at hu
    omega
  · exact hk.bounded

/-- The node behind an address without a successor. -/
theorem spliced_last {w u v : Option ℕ} (hsa : s≠a) (ha : h.next a=some w) (hs : h.next s=some u)
    (hv : h.prev s=some v) (hb : h.Bounded) :
    Spliced h (((h.putNext s none).putPrev s (some a)).putNext a (some s)) a s none where
  link := by
    constructor
    · refine Heap.next_putNext_self (w:=w) ?_
      rw [Heap.next_putPrev,Heap.next_putNext_ne hsa.symm]
      exact ha
    · rw [Heap.prev_putNext]
      refine Heap.prev_putPrev_self (w:=v) ?_
      rw [Heap.prev_putNext]
      exact hv
  next := by
    rw [Heap.next_putNext_ne hsa,Heap.next_putPrev]
    exact Heap.next_putNext_self hs
  back := fun b hb => by cases hb
  frameNext := fun x hxa hxs => by
    rw [Heap.next_putNext_ne hxa,Heap.next_putPrev,Heap.next_putNext_ne hxs]
  framePrev := fun x _ hxs => by
    rw [Heap.prev_putNext,Heap.prev_putPrev_ne hxs,Heap.prev_putNext]
  data := fun x => by
    rw [Heap.data_putNext,Heap.data_putPrev,Heap.data_putNext]
  used := rfl
  bounded := hb.modify.modify.modify

/-- The node between two addresses. -/
theorem spliced_middle {b : ℕ} {u v : Option ℕ} (hsa : s≠a) (hsb : s≠b) (hab : Link h a b)
    (hs : h.next s=some u) (hv : h.prev s=some v) (hb : h.Bounded) :
    Spliced h ((((h.putNext s (some b)).putPrev s (some a)).putPrev b (some s)).putNext a (some s))
      a s (some b) where
  link := by
    constructor
    · refine Heap.next_putNext_self (w:=some b) ?_
      rw [Heap.next_putPrev,Heap.next_putPrev,Heap.next_putNext_ne hsa.symm]
      exact hab.1
    · rw [Heap.prev_putNext,Heap.prev_putPrev_ne hsb]
      refine Heap.prev_putPrev_self (w:=v) ?_
      rw [Heap.prev_putNext]
      exact hv
  next := by
    rw [Heap.next_putNext_ne hsa,Heap.next_putPrev,Heap.next_putPrev]
    exact Heap.next_putNext_self hs
  back := fun c hc => by
    obtain rfl := Option.some.inj hc
    rw [Heap.prev_putNext]
    refine Heap.prev_putPrev_self (w:=some a) ?_
    rw [Heap.prev_putPrev_ne hsb.symm,Heap.prev_putNext]
    exact hab.2
  frameNext := fun x hxa hxs => by
    rw [Heap.next_putNext_ne hxa,Heap.next_putPrev,Heap.next_putPrev,Heap.next_putNext_ne hxs]
  framePrev := fun x hxb hxs => by
    have hb : x≠b := fun h => hxb (congrArg some h.symm)
    rw [Heap.prev_putNext,Heap.prev_putPrev_ne hb,Heap.prev_putPrev_ne hxs,Heap.prev_putNext]
  data := fun x => by
    rw [Heap.data_putNext,Heap.data_putPrev,Heap.data_putPrev,Heap.data_putNext]
  used := rfl
  bounded := hb.modify.modify.modify.modify

section Branches

variable {w u v : Option ℕ} {b : ℕ}

/-- Inserting into an empty list. -/
theorem insertEmpty_spliced (hsa : s≠a) (ha : h.next a=some w) (hs : h.next s=some u)
    (hv : h.prev s=some v) (hb : h.Bounded) :
    ∃ k,insertEmpty h (some a) s=some k ∧ Spliced h k a s none := by
  refine ⟨_,?_,spliced_last hsa ha hs hv hb⟩
  have h1 : (h.putPrev s (some a)).next s=some u := Heap.next_putPrev.trans hs
  have h2 : ((h.putPrev s (some a)).putNext s none).next a=some w := by
    rw [Heap.next_putNext_ne hsa.symm,Heap.next_putPrev]
    exact ha
  unfold insertEmpty
  rw [Heap.setPrev_eq hv,Option.bind_eq_bind,Option.bind_some,Heap.setNext_eq h1,
    Option.bind_some,Heap.setNext_eq h2,Heap.putPrev_putNext]

/-- Inserting at the end. -/
theorem insertLast_spliced (hsa : s≠a) (ha : h.next a=some w) (hs : h.next s=some u)
    (hv : h.prev s=some v) (hb : h.Bounded) :
    ∃ k,insertLast h (some a) s=some k ∧ Spliced h k a s none := by
  refine ⟨_,?_,spliced_last hsa ha hs hv hb⟩
  have h1 : (h.putNext s none).prev s=some v := Heap.prev_putNext.trans hv
  have h2 : ((h.putNext s none).putPrev s (some a)).next a=some w := by
    rw [Heap.next_putPrev,Heap.next_putNext_ne hsa.symm]
    exact ha
  unfold insertLast
  rw [Heap.setNext_eq hs,Option.bind_eq_bind,Option.bind_some,Heap.setPrev_eq h1,
    Option.bind_some,Heap.setNext_eq h2]

/-- The last two writes of an insertion before another node. -/
theorem link_between (hsa : s≠a) (hsb : s≠b) (hab : Link h a b) :
    ((((h.putNext s (some b)).putPrev s (some a)).getNext (some a)).bind fun n =>
      (((h.putNext s (some b)).putPrev s (some a)).setPrev n (some s)).bind fun k =>
        k.setNext (some a) (some s))=
      some ((((h.putNext s (some b)).putPrev s (some a)).putPrev b (some s)).putNext a (some s)) := by
  have h1 : ((h.putNext s (some b)).putPrev s (some a)).next a=some (some b) := by
    rw [Heap.next_putPrev,Heap.next_putNext_ne hsa.symm]
    exact hab.1
  have h2 : ((h.putNext s (some b)).putPrev s (some a)).prev b=some (some a) := by
    rw [Heap.prev_putPrev_ne hsb.symm,Heap.prev_putNext]
    exact hab.2
  rw [Heap.getNext_some,h1,Option.bind_some,Heap.setPrev_eq h2,Option.bind_some,
    Heap.setNext_eq (Heap.next_putPrev.trans h1)]

/-- Inserting at the front. -/
theorem insertFront_spliced (hsa : s≠a) (hsb : s≠b) (hab : Link h a b) (hs : h.next s=some u)
    (hv : h.prev s=some v) (hb : h.Bounded) :
    ∃ k,insertFront h (some a) s=some k ∧ Spliced h k a s (some b) := by
  refine ⟨_,?_,spliced_middle hsa hsb hab hs hv hb⟩
  have h1 : (h.putNext s (some b)).prev s=some v := Heap.prev_putNext.trans hv
  unfold insertFront
  rw [Heap.getNext_some,hab.1,Option.bind_eq_bind,Option.bind_some,Heap.setNext_eq hs,
    Option.bind_eq_bind,Option.bind_some,Heap.setPrev_eq h1,Option.bind_some]
  exact link_between hsa hsb hab

/-- Inserting between two nodes. -/
theorem insertMiddle_spliced (hsa : s≠a) (hsb : s≠b) (hab : Link h a b) (hs : h.next s=some u)
    (hv : h.prev s=some v) (hb : h.Bounded) :
    ∃ k,insertMiddle h (some a) s=some k ∧ Spliced h k a s (some b) := by
  refine ⟨_,?_,spliced_middle hsa hsb hab hs hv hb⟩
  have h1 : (h.putPrev s (some a)).next a=some (some b) := Heap.next_putPrev.trans hab.1
  have h2 : (h.putPrev s (some a)).next s=some u := Heap.next_putPrev.trans hs
  unfold insertMiddle
  rw [Heap.setPrev_eq hv,Option.bind_eq_bind,Option.bind_some,Heap.getNext_some,h1,
    Option.bind_eq_bind,Option.bind_some,Heap.setNext_eq h2,Option.bind_some,
    Heap.putPrev_putNext]
  exact link_between hsa hsb hab

end Branches

/-- Every admitted insertion but the one behind the end of a list with nodes
links the new node in behind its position. -/
theorem insertNode_chain (hc : Chain h list (p++m) es) (hs : h.node s=none) (n : Node α)
    {i : ℤ} (hi : 0 ≤ i) (hp : p.length=min i.toNat es.length) (hclear : ¬(es≠[] ∧ i=es.length+1))
    (hmax : i ≤ es.length+1) :
    ∃ k,insertNode (h.alloc s n) (some list) i s=some k ∧
      Chain k list (p++s::m) (es.take p.length++n.data::es.drop p.length) := by
  have hc0 := hc.alloc hs n
  have hfresh := hc.fresh hs
  have hlen := hc.length_eq
  have hused := hc.used
  rw [List.length_append] at hlen hused
  obtain ⟨l,a,hl⟩ : ∃ l a,list::p=l++[a] :=
    ⟨_,_,(List.dropLast_append_getLast (List.cons_ne_nil list p)).symm⟩
  have hll : l.length=p.length := by
    have := congrArg List.length hl
    rw [List.length_cons,List.length_append,List.length_singleton] at this
    omega
  have he : list::(p++m)=l++a::m := by
    rw [←List.cons_append,hl,List.append_assoc]
    rfl
  have hmem : ∀ x ∈ l++a::m,s≠x := fun x hx hsx => hfresh (by rw [he,hsx]; exact hx)
  have hsa : s≠a := hmem a (List.mem_append_right _ List.mem_cons_self)
  have hsn : (h.alloc s n).next s=some n.next := Heap.next_alloc_self
  have hsv : (h.alloc s n).prev s=some n.prev := Heap.prev_alloc_self
  have hb := hc0.bounded
  have hpath := hc0.path
  rw [he] at hpath
  have hspliced : ∃ k,insertNode (h.alloc s n) (some list) i s=some k ∧
      Spliced (h.alloc s n) k a s m.head? := by
    unfold insertNode
    rw [Heap.getNext_some,hc0.next_list,Option.bind_eq_bind,Option.bind_some]
    cases p with
    | nil =>
      obtain ⟨rfl,rfl⟩ : l=[] ∧ a=list := by
        cases l with
        | nil => exact ⟨rfl,(List.head_eq_of_cons_eq hl).symm⟩
        | cons c l => cases hll
      cases m with
      | nil => exact insertEmpty_spliced hsa hc0.next_list hsn hsv hb
      | cons b m =>
        have hi0 : i=0 := by
          rw [List.length_nil,List.length_cons] at *
          omega
        rw [List.nil_append,List.head?_cons,if_neg (Option.some_ne_none b),if_pos hi0]
        have hsb : s≠b := hmem b (List.mem_cons_of_mem a List.mem_cons_self)
        exact insertFront_spliced hsa hsb (List.isChain_cons_cons.mp hpath).1 hsn hsv hb
    | cons c p =>
      rw [List.length_cons] at *
      have hpos : es≠[] := by
        rintro rfl
        rw [List.length_nil] at hp
        omega
      have hile : i ≤ es.length := by
        by_contra hlt
        exact hclear ⟨hpos,by omega⟩
      have hnode := hc0.node_at (i:=i) he (by omega) (by omega) hile
      rw [List.cons_append,List.head?_cons,if_neg (Option.some_ne_none c),if_neg (by omega),
        hc0.listLength,Option.bind_eq_bind,Option.bind_some,hnode,Option.bind_some]
      cases m with
      | nil =>
        rw [List.length_nil] at hlen
        rw [if_pos (by omega)]
        exact insertLast_spliced hsa (hc0.last l a he) hsn hsv hb
      | cons b m =>
        rw [List.length_cons] at hlen
        rw [if_neg (by omega)]
        have hsb : s≠b := hmem b (List.mem_append_right _ (List.mem_cons_of_mem a List.mem_cons_self))
        have hab := (List.isChain_append_cons_cons.mp hpath).2.1
        exact insertMiddle_spliced hsa hsb hab hsn hsv hb
  obtain ⟨k,hk,hsp⟩ := hspliced
  refine ⟨k,hk,hc0.splice hl hfresh Heap.data_alloc_self ?_ hsp⟩
  show (p++m).length+1 < h.used+1
  rw [List.length_append]
  omega

/-- The insertion behind the end of a list with nodes reads through NULL. -/
theorem insertNode_behind (hc : Chain h list as es) (hs : h.node s=none) (n : Node α)
    (hne : es≠[]) : insertNode (h.alloc s n) (some list) (es.length+1) s=none := by
  have hc0 := hc.alloc hs n
  have hlen := hc.length_eq
  cases as with
  | nil => exact absurd (List.length_eq_zero_iff.mp hlen.symm) hne
  | cons b as =>
    have hprev : (h.alloc s n).prev s=some n.prev := Heap.prev_alloc_self
    unfold insertNode
    rw [Heap.getNext_some,hc0.next_list,Option.bind_eq_bind,Option.bind_some,List.head?_cons,
      if_neg (Option.some_ne_none b),if_neg (by omega),hc0.listLength,Option.bind_eq_bind,
      Option.bind_some,hc0.node_behind (by omega),Option.bind_some,if_neg (by omega)]
    unfold insertMiddle
    rw [Heap.setPrev_eq hprev,Option.bind_eq_bind,Option.bind_some]
    rfl

/-! ## Deletion -/

/-- What an unlinked and freed node changes. -/
structure Unlinked (h k : Heap α) (a s : ℕ) (v : Option ℕ) : Prop where
  /-- The link over the node. -/
  next : k.next a=some v
  /-- The link back. -/
  back : ∀ b ∈ v,k.prev b=some (some a)
  /-- The other links forwards. -/
  frameNext : ∀ x,x≠a → x≠s → k.next x=h.next x
  /-- The other links backwards. -/
  framePrev : ∀ x,x ∉ v → x≠s → k.prev x=h.prev x
  /-- The other elements. -/
  data : ∀ x,x≠s → k.data x=h.data x
  /-- The number of nodes. -/
  used : k.used=h.used-1
  /-- Room in the heap. -/
  bounded : k.Bounded

/-- A chain without a node. -/
theorem Chain.unlink (hc : Chain h list (p++s::m) es) (hl : list::p=l++[a])
    (hk : Unlinked h k a s m.head?) : Chain k list (p++m) (es.eraseIdx p.length) := by
  have he : list::(p++s::m)=l++a::s::m := by
    rw [←List.cons_append,hl,List.append_assoc]
    rfl
  have he2 : list::(p++m)=l++a::m := by
    rw [←List.cons_append,hl,List.append_assoc]
    rfl
  have hpath := hc.path
  have hnodup := hc.nodup
  have hlast := hc.last
  rw [he] at hpath hnodup hlast
  have hmid : (l++a::m).Nodup ∧ s ∉ l++a::m := by
    rw [List.append_cons,List.nodup_middle,List.append_assoc] at hnodup
    exact ⟨(List.nodup_cons.mp hnodup).2,(List.nodup_cons.mp hnodup).1⟩
  obtain ⟨hnodup2,hs⟩ := hmid
  have hne : ∀ x ∈ l++a::m,x≠s := fun x hx hxs => hs (hxs ▸ hx)
  have ha : a ∉ l ∧ a ∉ m := by
    rw [List.nodup_middle,List.nodup_cons,List.mem_append,not_or] at hnodup2
    exact hnodup2.1
  constructor
  · rw [he2]
    cases m with
    | nil =>
      have hl2 := (List.isChain_append_cons_cons.mp hpath).1
      refine Path.congr hl2 (fun x hx => hk.frameNext x ?_ (hne x (List.mem_of_mem_dropLast hx)))
        (fun x hx => hk.framePrev x (fun hb => by cases hb) (hne x (List.mem_of_mem_tail hx)))
      rintro rfl
      rw [List.dropLast_concat] at hx
      exact ha.1 hx
    | cons b m =>
      refine hpath.remove (hnodup.sublist (List.dropLast_sublist _))
        (hnodup.sublist (List.tail_sublist _)) ?_ ?_ ⟨hk.frameNext,fun x hx hxs => ?_⟩
        ⟨hk.next,hk.back b rfl⟩
      · intro hx
        refine hs ?_
        rw [List.append_cons]
        exact List.mem_append_left _ hx
      · exact fun hx => hs (List.mem_append_right _ (List.mem_cons_of_mem a hx))
      · exact hk.framePrev x (fun hv => hx (Option.some.inj hv).symm) hxs
  · intro l' z hz
    rw [he2] at hz
    have hz2 : (l++a::m).getLast?=some z := by rw [hz,List.getLast?_concat]
    cases m with
    | nil =>
      rw [List.getLast?_concat] at hz2
      rw [←Option.some.inj hz2]
      exact hk.next
    | cons b m =>
      have hzm : z ∈ b::m := by
        refine List.mem_of_getLast? (l:=b::m) ?_
        rw [←hz2,List.append_cons,List.getLast?_append_cons]
      have hb : (l++a::s::b::m).getLast?=some z := by
        rw [←hz2]
        simp [List.getLast?_append,List.getLast?_cons_cons]
      obtain ⟨ys,hys⟩ := List.getLast?_eq_some_iff.mp hb
      have hza : z≠a := by
        rintro rfl
        exact ha.2 hzm
      rw [hk.frameNext z hza (hne z (List.mem_append_right _ (List.mem_cons_of_mem a hzm)))]
      exact hlast ys z hys
  · rw [he2]
    exact hnodup2
  · have hmap : ∀ x ∈ p++m,k.data x=h.data x := by
      intro x hx
      refine hk.data x (hne x ?_)
      rw [←he2]
      exact List.mem_cons_of_mem list hx
    rw [List.map_congr_left hmap]
    exact data_erase hc.data
  · rw [hk.framePrev list ?_ ?_]
    · exact hc.header
    · intro hv
      have hm : list ∈ m := List.mem_of_mem_head? hv
      exact (List.nodup_cons.mp hc.nodup).1 (List.mem_append_right _ (List.mem_cons_of_mem s hm))
    · refine hne list ?_
      rw [←he2]
      exact List.mem_cons_self
  · have hused := hc.used
    rw [hk.used]
    rw [List.length_append,List.length_cons] at hused
    rw [List.length_append]
    omega
  · exact hk.bounded

/-- Deleting the last node. -/
theorem deleteLast_unlinked {e : α} (has : Link h a s) (hsa : s≠a) (hd : h.data s=some e)
    (hs : h.next s=some none) (hb : h.Bounded) :
    ∃ k,deleteLast h (some s)=some (k,e) ∧ Unlinked h k a s none := by
  refine ⟨(h.putNext a none).drop s,?_,?_⟩
  · have h1 : (h.putNext a none).next s=some none := (Heap.next_putNext_ne hsa).trans hs
    unfold deleteLast
    rw [Heap.getPrev_some,has.2,Option.bind_eq_bind,Option.bind_some,Heap.setNext_eq has.1,
      Option.bind_eq_bind,Option.bind_some,Heap.getData_some,Heap.data_putNext,hd,
      Option.bind_eq_bind,Option.bind_some,Heap.free_eq h1]
    rfl
  · constructor
    · rw [Heap.next_drop_ne hsa.symm]
      exact Heap.next_putNext_self has.1
    · intro b hb
      cases hb
    · intro x hxa hxs
      rw [Heap.next_drop_ne hxs,Heap.next_putNext_ne hxa]
    · intro x _ hxs
      rw [Heap.prev_drop_ne hxs,Heap.prev_putNext]
    · intro x hxs
      rw [Heap.data_drop_ne hxs,Heap.data_putNext]
    · rfl
    · exact hb.modify.drop

/-- Deleting a node between two others. -/
theorem deleteMiddle_unlinked {e : α} {b : ℕ} (has : Link h a s) (hsb : Link h s b) (hsa : s≠a)
    (hbs : b≠s) (hd : h.data s=some e) (hb : h.Bounded) :
    ∃ k,deleteMiddle h (some s)=some (k,e) ∧ Unlinked h k a s (some b) := by
  have hprev : (h.putNext a (some b)).prev b=some (some s) := Heap.prev_putNext.trans hsb.2
  refine ⟨((h.putNext a (some b)).putPrev b (some a)).drop s,?_,?_⟩
  · have h1 : (h.putNext a (some b)).next s=some (some b) := (Heap.next_putNext_ne hsa).trans hsb.1
    have h2 : ((h.putNext a (some b)).putPrev b (some a)).next s=some (some b) :=
      Heap.next_putPrev.trans h1
    unfold deleteMiddle
    rw [Heap.getPrev_some,has.2,Option.bind_eq_bind,Option.bind_some,Heap.getNext_some,hsb.1,
      Option.bind_some,Heap.setNext_eq has.1,Option.bind_eq_bind,Option.bind_some,
      Heap.getNext_some,h1,Option.bind_some,Heap.getPrev_some,Heap.prev_putNext,has.2,
      Option.bind_some,Heap.setPrev_eq hprev,Option.bind_some,Heap.getData_some,Heap.data_putPrev,
      Heap.data_putNext,hd,Option.bind_eq_bind,Option.bind_some,Heap.free_eq h2]
    rfl
  · constructor
    · rw [Heap.next_drop_ne hsa.symm,Heap.next_putPrev]
      exact Heap.next_putNext_self has.1
    · intro c hc
      obtain rfl := Option.some.inj hc
      rw [Heap.prev_drop_ne hbs]
      exact Heap.prev_putPrev_self hprev
    · intro x hxa hxs
      rw [Heap.next_drop_ne hxs,Heap.next_putPrev,Heap.next_putNext_ne hxa]
    · intro x hxb hxs
      have hb : x≠b := fun h => hxb (congrArg some h.symm)
      rw [Heap.prev_drop_ne hxs,Heap.prev_putPrev_ne hb,Heap.prev_putNext]
    · intro x hxs
      rw [Heap.data_drop_ne hxs,Heap.data_putPrev,Heap.data_putNext]
    · rfl
    · exact hb.modify.modify.drop

/-- A place splits the list. -/
theorem exists_split {j : ℕ} (hj : j < as.length) : ∃ p s m,as=p++s::m ∧ p.length=j :=
  ⟨as.take j,as[j],as.drop (j+1),by simp,by rw [List.length_take]; omega⟩

/-- A deletion at a position of the list removes it and gives its element. -/
theorem listDelete_chain (hc : Chain h list as es) {i : ℤ} (h1 : 1 ≤ i) (hi : i ≤ es.length) :
    ∃ k bs,listDelete h (some list) i=some (k,1,es[i.toNat-1]?) ∧
      Chain k list bs (es.eraseIdx (i.toNat-1)) := by
  obtain ⟨p,s,m,rfl,hp⟩ := exists_split (show i.toNat-1 < as.length by rw [hc.length_eq]; omega)
  have hlen := hc.length_eq
  rw [List.length_append,List.length_cons] at hlen
  obtain ⟨l,a,hl⟩ : ∃ l a,list::p=l++[a] :=
    ⟨_,_,(List.dropLast_append_getLast (List.cons_ne_nil list p)).symm⟩
  have he : list::(p++s::m)=l++a::s::m := by
    rw [←List.cons_append,hl,List.append_assoc]
    rfl
  have hpath := hc.path
  have hnodup := hc.nodup
  rw [he] at hpath hnodup
  obtain ⟨-,has,hrest⟩ := List.isChain_append_cons_cons.mp hpath
  have hsnot : s ∉ (l++[a])++m := by
    rw [List.append_cons,List.nodup_middle,List.nodup_cons] at hnodup
    exact hnodup.1
  have hsa : s≠a := by
    rintro rfl
    exact hsnot (List.mem_append_left _ (List.mem_append_right _ List.mem_cons_self))
  obtain ⟨e,hee,hde⟩ := data_at hc.data
  rw [hp] at hee
  have hunlinked : ∃ k,(if i=es.length then deleteLast h (some s) else deleteMiddle h (some s))=
      some (k,e) ∧ Unlinked h k a s m.head? := by
    cases m with
    | nil =>
      rw [List.length_nil] at hlen
      rw [if_pos (by omega)]
      exact deleteLast_unlinked has hsa hde (hc.last (list::p) s rfl) hc.bounded
    | cons b m =>
      rw [List.length_cons] at hlen
      rw [if_neg (by omega)]
      have hbs : b≠s := by
        rintro rfl
        exact hsnot (List.mem_append_right _ List.mem_cons_self)
      exact deleteMiddle_unlinked has (List.isChain_cons_cons.mp hrest).1 hsa hbs hde hc.bounded
  obtain ⟨k,hk,hun⟩ := hunlinked
  have hfirst : (p++s::m).head?≠none := by
    rw [Ne,List.head?_eq_none_iff]
    exact List.append_ne_nil_of_right_ne_nil p (List.cons_ne_nil s m)
  have hnode : getElemNode h (some list) i=some (some s) :=
    hc.node_at (l:=list::p) rfl (by rw [List.length_cons]; omega) h1 hi
  refine ⟨k,p++m,?_,hp ▸ hc.unlink hl hun⟩
  unfold listDelete
  rw [if_neg (Option.some_ne_none _),hc.listLength,Option.bind_some,if_neg (by omega),
    Heap.getNext_some,hc.next_list,Option.bind_some,if_neg hfirst,hnode,Option.bind_some,
    if_neg (Option.some_ne_none _),hk,Option.map_some,hee]

/-! ## Runs -/

/-- A clear call gives the abstract answer and leaves a chain. -/
theorem call_chain (hm : Succeeds malloc) (hc : Chain h list as es) {c : Call α}
    (hclear : ClearCall es c) :
    ∃ k bs,call malloc h list c=some (k,(callSpec es c).2) ∧ ((callSpec es c).2.1=-1 → k=h) ∧
      Chain k list bs (callSpec es c).1 := by
  cases c with
  | insert i e =>
    by_cases hi : i < 0 ∨ es.length+1 < i
    · have hspec : callSpec es (.insert i e)=(es,-1,none) := if_pos hi
      refine ⟨h,as,?_,fun _ => rfl,?_⟩
      · unfold call listInsert
        dsimp only
        rw [hspec,if_neg (Option.some_ne_none _),hc.listLength,Option.bind_some,if_pos hi]
        rfl
      · rw [hspec]
        exact hc
    · have hspec : callSpec es (.insert i e)=(es.take i.toNat++e::es.drop i.toNat,1,none) :=
        if_neg hi
      rw [not_or,not_lt,not_lt] at hi
      have hsplit := List.take_append_drop i.toNat as
      have hlen := hc.length_eq
      have hp : (as.take i.toNat).length=min i.toNat es.length := by rw [List.length_take,hlen]
      rw [←hsplit] at hc
      obtain ⟨k,hk,hchain⟩ := insertNode_chain hc (hm h hc.bounded) ⟨e,none,none⟩ hi.1 hp hclear hi.2
      refine ⟨k,as.take i.toNat++malloc h::as.drop i.toNat,?_,fun h1 => ?_,?_⟩
      · unfold call listInsert
        dsimp only
        rw [hspec,if_neg (Option.some_ne_none _),hc.listLength,Option.bind_some,
          if_neg (by omega),hk]
        rfl
      · rw [hspec] at h1
        have hne : (1 : ℤ)=-1 := h1
        omega
      · rw [hspec]
        rw [hp,←List.take_eq_take_min,←List.drop_eq_drop_min] at hchain
        exact hchain
  | delete i =>
    by_cases hi : i < 1 ∨ es.length < i
    · have hspec : callSpec es (.delete i)=(es,-1,none) := if_pos hi
      refine ⟨h,as,?_,fun _ => rfl,?_⟩
      · unfold call listDelete
        dsimp only
        rw [hspec,if_neg (Option.some_ne_none _),hc.listLength,Option.bind_some,if_pos hi]
      · rw [hspec]
        exact hc
    · have hspec : callSpec es (.delete i)=(es.eraseIdx (i.toNat-1),1,es[i.toNat-1]?) := if_neg hi
      rw [not_or,not_lt,not_lt] at hi
      obtain ⟨k,bs,hk,hchain⟩ := listDelete_chain hc hi.1 hi.2
      refine ⟨k,bs,?_,fun h1 => ?_,?_⟩
      · rw [hspec]
        exact hk
      · rw [hspec] at h1
        have hne : (1 : ℤ)=-1 := h1
        omega
      · rw [hspec]
        exact hchain

/-- A call that is not clear reads through NULL. -/
theorem call_behind (hm : Succeeds malloc) (hc : Chain h list as es) {c : Call α}
    (hbad : ¬ClearCall es c) : call malloc h list c=none := by
  cases c with
  | insert i e =>
    obtain ⟨hne,rfl⟩ : es≠[] ∧ i=es.length+1 := not_not.mp hbad
    unfold call listInsert
    dsimp only
    rw [if_neg (Option.some_ne_none _),hc.listLength,Option.bind_some,if_neg (by omega),
      insertNode_behind hc (hm h hc.bounded) ⟨e,none,none⟩ hne]
    rfl
  | delete i => exact absurd trivial hbad

/-- From a chain on, a run meets the abstract sequence exactly when it is
clear. -/
theorem meets_iff_clear (hm : Succeeds malloc) (hc : Chain h list as es) (calls : List (Call α)) :
    Meets malloc list h es calls ↔ Clear es calls := by
  induction calls generalizing h as es with
  | nil => exact iff_of_true hc.shows trivial
  | cons c cs ih =>
    by_cases hclear : ClearCall es c
    · obtain ⟨k,bs,hk,hrej,hchain⟩ := call_chain hm hc hclear
      constructor
      · rintro ⟨-,k2,hk2,-,hrest⟩
        rw [hk] at hk2
        obtain rfl : k=k2 := congrArg Prod.fst (Option.some.inj hk2)
        exact ⟨hclear,(ih hchain).mp hrest⟩
      · rintro ⟨-,hrest⟩
        exact ⟨hc.shows,k,hk,hrej,(ih hchain).mpr hrest⟩
    · refine iff_of_false ?_ (fun h => hclear h.1)
      rintro ⟨-,k,hk,-⟩
      rw [call_behind hm hc hclear] at hk
      cases hk

/-- For every finite sequence of calls on a list made by init_list, in any
heap that is not full, the list follows the abstract sequence in every state
reached exactly when no call inserts one position behind the last node of a
list with nodes. -/
theorem calls_meets_iff (malloc : Heap α → ℕ) (hm : Succeeds malloc) (h : Heap α)
    (hb : h.Bounded) (junk : α) (calls : List (Call α)) :
    Meets malloc (malloc h) (initList h (malloc h) junk) [] calls ↔ Clear [] calls :=
  meets_iff_clear hm (initList_chain hb junk) calls

/-- Three inserts and a delete. -/
theorem calls_meets_iff_three :
    Meets behindAll (behindAll (noNodes : Heap ℕ)) (initList noNodes (behindAll (noNodes : Heap ℕ)) 0)
      [] [.insert 1 10,.insert 1 20,.insert 0 30,.delete 2] := by
  refine (calls_meets_iff behindAll behindAll_succeeds noNodes noNodes_bounded 0 _).mpr ?_
  simp [Clear,ClearCall,callSpec]

/-- After one insertion the range check admits position 2, where there is no
node. -/
theorem secondInsert_not_meets :
    ¬Meets behindAll (behindAll (noNodes : Heap ℕ)) (initList noNodes (behindAll (noNodes : Heap ℕ)) 0)
      [] [.insert 1 10,.insert 2 20] := by
  have hinit := initList_chain (s:=behindAll (noNodes : Heap ℕ)) noNodes_bounded 0
  obtain ⟨k,bs,hk,-,hchain⟩ := call_chain behindAll_succeeds hinit
    (c:=.insert 1 10) (fun h => h.1 rfl)
  rintro ⟨-,k2,hk2,-,-,k3,hk3,-⟩
  rw [hk] at hk2
  obtain rfl : k=k2 := congrArg Prod.fst (Option.some.inj hk2)
  have hbad : ¬ClearCall (callSpec [] (.insert 1 10)).1 (.insert 2 20) :=
    not_not.mpr ⟨List.cons_ne_nil _ _,rfl⟩
  rw [call_behind behindAll_succeeds hchain hbad] at hk3
  cases hk3

end StudyCode.List01
