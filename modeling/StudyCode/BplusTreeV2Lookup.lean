import StudyCode.BplusReach
import StudyCode.BplusTreeV2Insert

/-!
# Lookups in the tree with brother lists

A lookup traverses the forest of brothers, which are all leaves in order,
and cuts the range out of the pairs by bisection. Over any sequence of
insertions the pairs are those inserted, ordered by key and, for one key,
by the time of their insertion.
-/

namespace StudyCode.Bplus.V2

open Frontier

variable {κ ν : Type}

/-! ## Traversal -/

/-- A map whose calls all succeed is a plain map. -/
theorem mapM_ok {α β : Type} {f : α → Except PyError β} {g : α → β} {l : List α}
    (h : ∀ a ∈ l,f a=.ok (g a)) : l.mapM f=.ok (l.map g) := by
  induction l with
  | nil => rfl
  | cons a l ih =>
    rw [List.mapM_cons,h a (by simp),ih fun b hb => h b (by simp [hb])]
    rfl

/-- Traversal collects the pairs of the forest. -/
theorem traversal_ok {s : BTree κ ν} {d x : ℕ} (hd : Deep (broOf s) d x)
    (hl : ∀ z ∈ forest (broOf s) d x,(s.node z).isleaf=true) :
    traversal s d x=.ok ((forest (broOf s) d x).flatMap (vlistOf s)) := by
  induction d generalizing x with
  | zero => exact hd.elim
  | succ d ih =>
    have hx := hl x List.mem_cons_self
    cases hn : s.node x with
    | inter n =>
      rw [hn] at hx
      cases hx
    | leaf n =>
      have hbro : broOf s x=n.bro := by simp [broOf,hn]
      have hv : vlistOf s x=n.vlist := by simp [vlistOf,hn]
      have hrec : ∀ c ∈ n.bro.reverse,traversal s d c=
          .ok ((forest (broOf s) d c).flatMap (vlistOf s)) := by
        intro c hc
        have hc' : c∈broOf s x := by
          rw [hbro]
          simpa using hc
        exact ih (hd c hc') fun z hz => hl z (mem_forest_of_child hc' hz)
      rw [traversal]
      simp only [Tree.leafNode,hn,ok_bind,mapM_ok hrec]
      rw [forest,List.flatMap_cons,hv,hbro,List.flatMap_assoc,List.flatMap_def]
      rfl

section Order

variable [LinearOrder κ] {L h : ℕ} {lev : ℕ → List (Item ℕ (Tok κ ν))} {rank : ℕ → ℕ}
  {s : BTree κ ν}

/-- Traversal from the first leaf returns the pairs of the tree in order. -/
theorem Inv.traversal_eq (I : Inv L s h lev rank) :
    traversal s s.next s.leaf=.ok (pairsOf (tokens s lev)) := by
  rw [traversal_ok I.chained.deep,I.chained.forest,I.shape.pairsOf_tokens]
  intro z hz
  rw [I.chained.forest] at hz
  exact I.shape.leaf z hz

/-- The slice between the two bisections is the range. -/
theorem slice_eq_filter {q : List (KeyValue κ ν)} (hs : q.Pairwise fun a b => a.key ≤ b.key)
    (low up : κ) :
    (q.take (bisectRight KeyValue.key q up)).drop (bisectLeft KeyValue.key q low)=
      q.filter fun p => decide (low ≤ p.key ∧ p.key ≤ up) := by
  obtain ⟨-,hle,hgt⟩ := bisectRight_spec hs up
  obtain ⟨hlt,hge⟩ := bisectLeft_spec hs low
  generalize bisectRight KeyValue.key q up=b at hle hgt ⊢
  generalize bisectLeft KeyValue.key q low=a at hlt hge ⊢
  have hright : (q.drop b).filter (fun p => decide (low ≤ p.key ∧ p.key ≤ up))=[] := by
    refine List.filter_eq_nil_iff.mpr fun p hp => ?_
    have := hgt p hp
    simp only [decide_eq_true_eq,not_and,not_le]
    exact fun _ => this
  have hleft : ((q.take b).take a).filter (fun p => decide (low ≤ p.key ∧ p.key ≤ up))=[] := by
    refine List.filter_eq_nil_iff.mpr fun p hp => ?_
    rw [List.take_take,Nat.min_comm,←List.take_take] at hp
    have := hlt p (List.mem_of_mem_take hp)
    simp only [decide_eq_true_eq,not_and]
    exact fun h => absurd h (not_le.mpr this)
  have hmid : ((q.take b).drop a).filter (fun p => decide (low ≤ p.key ∧ p.key ≤ up))=
      (q.take b).drop a := by
    refine List.filter_eq_self.mpr fun p hp => ?_
    have h1 := hle p (List.mem_of_mem_drop hp)
    rw [List.drop_take] at hp
    have h2 := hge p (List.mem_of_mem_take hp)
    simpa using ⟨h2,h1⟩
  calc (q.take b).drop a
      =((q.take b).take a).filter (fun p => decide (low ≤ p.key ∧ p.key ≤ up))++
        ((q.take b).drop a).filter fun p => decide (low ≤ p.key ∧ p.key ≤ up) := by
          rw [hleft,hmid,List.nil_append]
    _=(q.take b).filter fun p => decide (low ≤ p.key ∧ p.key ≤ up) := by
          rw [←List.filter_append,List.take_append_drop]
    _=(q.take b).filter (fun p => decide (low ≤ p.key ∧ p.key ≤ up))++
        (q.drop b).filter fun p => decide (low ≤ p.key ∧ p.key ≤ up) := by
          rw [hright,List.append_nil]
    _=q.filter fun p => decide (low ≤ p.key ∧ p.key ≤ up) := by
          rw [←List.filter_append,List.take_append_drop]

/-- A range lookup filters the pairs of the tree. -/
theorem Inv.lookupRange_eq (I : Inv L s h lev rank) (low up : κ) :
    lookupRange s low up=.ok (((pairsOf (tokens s lev)).filter fun p =>
      decide (low ≤ p.key ∧ p.key ≤ up)).map KeyValue.value) := by
  unfold lookupRange
  simp only [I.traversal_eq,ok_bind,slice_eq_filter (pairwise_pairsOf I.sorted)]
  rfl

/-! ## Runs of insertions -/

/-- A run of insertions keeps the invariant and arranges the pairs. -/
theorem Inv.insertAll_ok (I : Inv L s h lev rank) (hL : 3 ≤ L) {given : List (KeyValue κ ν)}
    (A : Arranged given (pairsOf (tokens s lev))) (rest : List (KeyValue κ ν)) :
    ∃ s' h' lev' rank',insertAll L s rest=.ok s' ∧ Inv L s' h' lev' rank' ∧
      Arranged (given++rest) (pairsOf (tokens s' lev')) := by
  induction rest generalizing s h lev rank given with
  | nil => exact ⟨s,h,lev,rank,rfl,I,by rw [List.append_nil]; exact A⟩
  | cons kv rest ih =>
    obtain ⟨s1,hs1,h1,lev1,rank1,I1,hput⟩ := I.insert_ok hL kv.key kv.value
    obtain ⟨s',h',lev',rank',hs',I',A'⟩ := ih I1 (A.put hput)
    refine ⟨s',h',lev',rank',?_,I',by simpa using A'⟩
    rw [insertAll,hs1]
    exact hs'

/-- Every run of insertions into an empty tree. -/
theorem insertAll_empty (hL : 3 ≤ L) (pairs : List (KeyValue κ ν)) :
    ∃ s h lev rank,insertAll L empty pairs=.ok s ∧ Inv L s h lev rank ∧
      Arranged pairs (pairsOf (tokens s lev)) := by
  have A : Arranged ([] : List (KeyValue κ ν)) (pairsOf (tokens (empty : BTree κ ν)
      fun _ => [.node 0])) := ⟨List.Perm.nil,List.Pairwise.nil,fun _ => rfl⟩
  have := (inv_empty L).insertAll_ok hL A pairs
  simpa using this

/-- After any insertions a range lookup returns the values of the inserted
pairs in the range, each once, by key and then by time of insertion; a
lookup returns the value that was inserted first under its key. -/
theorem lookups_after_insertions (hL : 3 ≤ L) (pairs : List (KeyValue κ ν)) :
    ∃ s : BTree κ ν,insertAll L empty pairs=.ok s ∧
      (∀ low up,∃ r,lookupRange s low up=.ok (r.map KeyValue.value) ∧
        Arranged (pairs.filter fun p => decide (low ≤ p.key ∧ p.key ≤ up)) r) ∧
      ∀ key,lookup s key=.ok ((pairs.find? fun p => decide (p.key=key)).map KeyValue.value) := by
  obtain ⟨s,h,lev,rank,hs,I,A⟩ := insertAll_empty hL pairs
  refine ⟨s,hs,fun low up => ⟨_,I.lookupRange_eq low up,A.filter fun k => decide (low ≤ k ∧ k ≤ up)⟩,
    fun key => ?_⟩
  have hcond : (fun p : KeyValue κ ν => decide (key ≤ p.key ∧ p.key ≤ key))=
      fun p => decide (p.key=key) := by
    funext p
    exact decide_eq_decide.mpr ⟨fun h => le_antisymm h.2 h.1,fun h => ⟨h.ge,h.le⟩⟩
  unfold lookup
  simp only [I.lookupRange_eq,ok_bind,hcond,A.stable]
  rw [List.head?_map,List.head?_filter]
  rfl

/-- Seven insertions with repeated keys into a tree of three keys a node. -/
theorem lookups_after_insertions_seven :
    ∃ s : BTree ℕ ℕ,insertAll 3 empty [⟨2,0⟩,⟨1,1⟩,⟨2,2⟩,⟨2,3⟩,⟨1,4⟩,⟨3,5⟩,⟨2,6⟩]=.ok s ∧
      (∀ low up,∃ r,lookupRange s low up=.ok (r.map KeyValue.value) ∧
        Arranged ([⟨2,0⟩,⟨1,1⟩,⟨2,2⟩,⟨2,3⟩,⟨1,4⟩,⟨3,5⟩,⟨2,6⟩].filter
          fun p : KeyValue ℕ ℕ => decide (low ≤ p.key ∧ p.key ≤ up)) r) ∧
      ∀ key,lookup s key=.ok (([⟨2,0⟩,⟨1,1⟩,⟨2,2⟩,⟨2,3⟩,⟨1,4⟩,⟨3,5⟩,⟨2,6⟩].find?
        fun p : KeyValue ℕ ℕ => decide (p.key=key)).map KeyValue.value) :=
  lookups_after_insertions (by decide) _

/-! ## The representation invariant -/

/-- What every tree satisfies, in terms of the nodes below its root. -/
structure WellFormed (L : ℕ) (s : BTree κ ν) : Prop where
  /-- All leaves are at one depth, and traversal returns their pairs from left
  to right. -/
  leaves : ∃ h,LeavesAt s h ∧ traversal s s.next s.leaf=.ok ((nodesAt s h).flatMap (vlistOf s))
  /-- Internal nodes have one child more than separators, and at least one and
  at most L separators; none is full. -/
  inter : ∀ x n,Below s s.root x → s.node x=.inter n → n.clist.length=n.ilist.length+1 ∧
    1 ≤ n.ilist.length ∧ n.ilist.length ≤ L+1-1 ∧ isfullInter (L+1) n=false
  /-- Leaves have at most L pairs, ordered by key. -/
  leaf : ∀ x n,Below s s.root x → s.node x=.leaf n → n.vlist.length ≤ L ∧
    n.vlist.Pairwise fun a b => a.key ≤ b.key
  /-- Separators divide the keys. -/
  separates : ∀ x n,Below s s.root x → s.node x=.inter n → ∀ i k,n.ilist[i]?=some k →
    (∀ c ∈ n.clist.take (i+1),∀ p,PairUnder s c p → p.key ≤ k) ∧
      ∀ c ∈ n.clist.drop (i+1),∀ p,PairUnder s c p → k ≤ p.key
  /-- Children name the node that holds them. -/
  par : ∀ x n,Below s s.root x → s.node x=.inter n → ∀ c ∈ n.clist,(s.node c).par=some x
  /-- The root names no parent. -/
  par_root : (s.node s.root).par=none

/-- Under the invariant the tree is well formed. -/
theorem Inv.wellFormed (I : Inv L s h lev rank) : WellFormed L s := by
  have S := I.shape
  refine ⟨⟨h,S.leavesAt,?_⟩,?_,?_,?_,?_,S.par_root⟩
  · rw [I.traversal_eq,S.pairsOf_tokens,S.nodesAt_eq le_rfl,Nat.sub_self]
  · intro x n hx hn
    obtain ⟨j,hj,hm⟩ := S.reach_inter hx hn
    obtain ⟨n',hn',hlen,-⟩ := S.node_inter hj hm
    have hfit := I.sizes (j+1) hj x hm
    rw [hn] at hn' hfit
    cases hn'
    refine ⟨hlen,hfit.1,Nat.le_of_lt_succ hfit.2,?_⟩
    unfold isfullInter
    simpa using hfit.2
  · intro x n hx hn
    have hm := S.reach_leaf hx hn
    have hfit := I.sizes 0 (Nat.zero_le h) x hm
    rw [hn] at hfit
    exact ⟨hfit,S.vlist_sorted I.sorted hm hn⟩
  · intro x n hx hn i k hk
    obtain ⟨j,hj,hm⟩ := S.reach_inter hx hn
    exact S.separates I.sorted hj hm hn hk
  · intro x n hx hn c hc
    obtain ⟨j,hj,hm⟩ := S.reach_inter hx hn
    obtain ⟨n',hn',hlen,-,hids⟩ := S.node_inter hj hm
    rw [hn] at hn'
    cases hn'
    exact S.par j hj x hm c (by rw [hids]; exact hc)

/-- Every sequence of insertions leaves a well-formed tree. -/
theorem insertions_wellFormed (hL : 3 ≤ L) (pairs : List (KeyValue κ ν)) :
    ∃ s : BTree κ ν,insertAll L empty pairs=.ok s ∧ WellFormed L s := by
  obtain ⟨s,h,lev,rank,hs,I,-⟩ := insertAll_empty hL pairs
  exact ⟨s,hs,I.wellFormed⟩

/-- Seven insertions with repeated keys leave a well-formed tree. -/
theorem insertions_wellFormed_seven :
    ∃ s : BTree ℕ ℕ,insertAll 3 empty [⟨2,0⟩,⟨1,1⟩,⟨2,2⟩,⟨2,3⟩,⟨1,4⟩,⟨3,5⟩,⟨2,6⟩]=.ok s ∧
      WellFormed 3 s :=
  insertions_wellFormed (by decide) _

end Order

end StudyCode.Bplus.V2
