import StudyCode.BplusReach
import StudyCode.BplusTreeInsert

/-!
# Search in the tree with brother pointers

With distinct keys, pairs before a separator have smaller keys and pairs
behind it have greater or equal ones, so the pair with a key is in the leaf
where a descent ends, and a bisection finds it there. Every run of
insertions leaves a tree of the right form with the pairs inserted.
-/

namespace StudyCode.Bplus.V1

open Frontier

variable {ν : Type}

/-! ## Distinct keys -/

/-- Order of tokens when keys are distinct: only a separator may have the key
of a token behind it. -/
def Before : Tok ℤ ν → Tok ℤ ν → Prop
  | .kv p,u => p.key < u.key
  | .sep k,u => k ≤ u.key

/-- Tokens in order with distinct keys. -/
def Strict (l : List (Tok ℤ ν)) : Prop := l.Pairwise Before

/-- A token before another has no greater key. -/
theorem Before.le {t u : Tok ℤ ν} (h : Before t u) : t.key ≤ u.key := by
  cases t with
  | sep k => exact h
  | kv p => exact le_of_lt h

/-- A token with a smaller key stands before. -/
theorem Before.of_lt {t u : Tok ℤ ν} (h : t.key < u.key) : Before t u := by
  cases t with
  | sep k => exact le_of_lt h
  | kv p => exact h

/-- Tokens in strict order are sorted. -/
theorem Strict.sorted {l : List (Tok ℤ ν)} (hs : Strict l) : Sorted l := List.Pairwise.imp Before.le hs

/-- Pairs of tokens in order have increasing keys. -/
theorem Strict.pairs {l : List (Tok ℤ ν)} (hs : Strict l) :
    (pairsOf l).Pairwise fun p q => p.key < q.key := by
  refine List.Pairwise.filterMap _ (fun t u htu p hp q hq => ?_) hs
  cases t with
  | sep k => cases hp
  | kv a =>
    cases u with
    | sep k => cases hq
    | kv b =>
      cases hp
      cases hq
      exact htu

/-- A token between those before and behind it keeps the strict order. -/
theorem Strict.insert {l r : List (Tok ℤ ν)} (hs : Strict (l++r)) {t : Tok ℤ ν}
    (hl : ∀ u ∈ l,Before u t) (hr : ∀ u ∈ r,Before t u) : Strict (l++t::r) :=
  pairwise_insert hs hl hr

/-- The key of a pair may stand before it as a separator. -/
theorem Strict.divide {l r : List (Tok ℤ ν)} {p : KeyValue ℤ ν} (hs : Strict (l++.kv p::r)) :
    Strict (l++.sep p.key::.kv p::r) := by
  have hp := hs
  unfold Strict at hp
  rw [List.pairwise_append,List.pairwise_cons] at hp
  refine Strict.insert hs (fun u hu => ?_) fun u hu => ?_
  · have := hp.2.2 u hu (.kv p) (by simp)
    cases u with
    | sep k => exact this
    | kv q => exact this
  · rcases List.mem_cons.mp hu with rfl|hu
    · exact le_refl p.key
    · exact le_of_lt (hp.2.1.1 u hu)

/-- A pair with a fresh key keeps the strict order. -/
theorem Entered.strict {kv : KeyValue ℤ ν} {t t' : List (Tok ℤ ν)} (E : Entered kv t t')
    (hs : Strict t) (hfresh : ∀ p ∈ pairsOf t,p.key≠kv.key) : Strict t' := by
  obtain ⟨l,r,rfl,hl,hr,hcase⟩ := E
  have hs1 : Strict (l++.kv kv::r) := by
    refine hs.insert (fun u hu => ?_) fun u hu => Before.of_lt (hr u hu)
    cases u with
    | sep k => exact hl _ hu
    | kv q => exact lt_of_le_of_ne (hl _ hu) (hfresh q (mem_pairsOf.mpr (by simp [hu])))
  rcases hcase with rfl|⟨l',r',p,hp,rfl⟩
  · exact hs1
  · rw [hp] at hs1
    exact hs1.divide

/-! ## Point search -/

section Search

variable {M L h i x : ℕ} {Z : ℕ → ℕ → Prop} {s : Bptree ν} {lev : ℕ → List (Item ℕ (Tok ℤ ν))}
  {rank : ℕ → ℕ} {k : ℤ}

/-- A descent ends in the leaf where a key belongs. -/
theorem searchKey_ok {fuel : ℕ} (S : Shape s h lev rank) (hs : Sorted (tokens s lev)) (hi : i ≤ h)
    (hx : Seated lev k i x) (hfuel : i < fuel) :
    ∃ y n,searchKey s k fuel x=.ok (bisectLeft KeyValue.key n.vlist k,y) ∧ Seated lev k 0 y ∧
      s.node y=.leaf n := by
  induction fuel generalizing i x with
  | zero => omega
  | succ fuel ih =>
    rw [searchKey]
    cases i with
    | zero =>
      obtain ⟨n,hn,-⟩ := S.node_leaf hx.mem
      exact ⟨x,n,by simp only [hn],hx,hn⟩
    | succ i =>
      obtain ⟨n,hn,-⟩ := S.joint i hi x hx.mem
      obtain ⟨c,hc1,hc2⟩ := S.descend hs hi hx hn
      obtain ⟨y,m,hy,hseat,hm⟩ := ih (by omega) hc2 (by omega)
      refine ⟨y,m,?_,hseat,hm⟩
      simp only [hn,hc1,ok_bind]
      exact hy

/-- Leaves before the place of a key hold smaller keys. -/
theorem pairs_before (S : Shape s h lev rank) (hs : Strict (tokens s lev))
    {A B : List (Item ℕ (Tok ℤ ν))} (hAB : lev 0=A++B) (hA : Ends (fun t => t.key ≤ k) A) :
    ∀ p ∈ (ids A).flatMap (vlistOf s),p.key < k := by
  intro p hp
  rw [←S.pairsOf_grow (by rw [hAB]; exact List.sublist_append_left A B)] at hp
  rcases hA with rfl|⟨A',t,rfl,ht⟩
  · cases hp
  · have hsep : ∃ j,t=.sep j := by
      have := S.toks_sep (le_refl h) t
      rw [Nat.sub_self,hAB] at this
      exact this (by simp)
    obtain ⟨j,rfl⟩ := hsep
    have hmem := mem_pairsOf.mp hp
    have hpre := hs
    rw [tokens,hAB,grow_append,toks_append] at hpre
    have hrow := (List.pairwise_append.mp hpre).1
    simp only [grow_append,grow_tok,grow_nil,toks_append,toks_tok,toks_nil] at hmem hrow
    rw [List.mem_append,List.mem_singleton] at hmem
    rcases hmem with hmem|hmem
    · exact lt_of_lt_of_le ((List.pairwise_append.mp hrow).2.2 _ hmem (.sep j) (by simp)) ht
    · cases hmem

/-- Leaves behind the place of a key hold greater keys. -/
theorem pairs_behind (S : Shape s h lev rank) (hs : Strict (tokens s lev))
    {A B : List (Item ℕ (Tok ℤ ν))} (hAB : lev 0=A++B) (hB : Starts (fun t => k < t.key) B) :
    ∀ p ∈ (ids B).flatMap (vlistOf s),k < p.key := by
  intro p hp
  rw [←S.pairsOf_grow (by rw [hAB]; exact List.sublist_append_right A B)] at hp
  have hpre := hs
  rw [tokens,hAB,grow_append,toks_append] at hpre
  exact hB.grow.forall_toks (List.pairwise_append.mp hpre).2.1
    (fun t u htu ht => lt_of_lt_of_le ht (Before.le htu)) _ (mem_pairsOf.mp hp)

/-- Pairs outside the leaf where a key belongs have other keys. -/
theorem leaf_pairs (S : Shape s h lev rank) (hs : Strict (tokens s lev)) (hx : Seated lev k 0 x)
    {n : Leaf ℤ ν (Option ℕ)} (hn : s.node x=.leaf n) :
    ∃ a b,pairsOf (tokens s lev)=a++n.vlist++b ∧ (∀ p ∈ a,p.key < k) ∧ ∀ p ∈ b,k < p.key := by
  obtain ⟨A,B,hAB,hA,hB⟩ := hx
  have hAB' : lev 0=(A++[.node x])++B := by
    rw [hAB]
    simp
  refine ⟨_,_,?_,pairs_before S hs hAB hA,pairs_behind S hs hAB' hB⟩
  rw [S.pairsOf_tokens,hAB,ids_append,ids_node,List.flatMap_append,List.flatMap_cons]
  simp [vlistOf,hn]

/-- The answer that a bisection in a leaf gives. -/
theorem point_eq_filter {v : List (KeyValue ℤ ν)} (hs : v.Pairwise fun a b => a.key < b.key) :
    (match v[bisectLeft KeyValue.key v k]? with
      | some p => if eq p (.int k) then [p] else []
      | none => [])=v.filter fun p => decide (p.key=k) := by
  have hle : v.Pairwise fun a b => a.key ≤ b.key := hs.imp fun h => le_of_lt h
  obtain ⟨hlt,hge⟩ := bisectLeft_spec hle k
  generalize bisectLeft KeyValue.key v k=i at hlt hge
  have hpre : (v.take i).filter (fun p => decide (p.key=k))=[] := by
    refine List.filter_eq_nil_iff.mpr fun p hp => ?_
    have := hlt p hp
    simp only [decide_eq_true_eq]
    omega
  nth_rewrite 2 [←List.take_append_drop i v]
  rw [List.filter_append,hpre,List.nil_append,←List.head?_drop]
  have hs' := hs.sublist (List.drop_sublist i v)
  cases hd : v.drop i with
  | nil => rfl
  | cons q rest =>
    rw [hd] at hge hs'
    have hrest : rest.filter (fun p => decide (p.key=k))=[] := by
      refine List.filter_eq_nil_iff.mpr fun p hp => ?_
      have h1 := (List.pairwise_cons.mp hs').1 p hp
      have h2 := hge q (by simp)
      simp only [decide_eq_true_eq]
      omega
    rw [List.filter_cons,hrest]
    simp [eq]

/-- A point search returns the pairs with its key. -/
theorem search_point (S : Shape s h lev rank) (hs : Strict (tokens s lev)) (k : ℤ) :
    search s (some k) (some k)=
      .ok ((pairsOf (tokens s lev)).filter fun p => decide (p.key=k)) := by
  obtain ⟨y,n,hkey,hseat,hn⟩ := searchKey_ok (k:=k) S hs.sorted le_rfl S.tower.seat_root
    S.height_lt
  obtain ⟨a,b,hpairs,ha,hb⟩ := leaf_pairs S hs hseat hn
  have hva : a.filter (fun p => decide (p.key=k))=[] := by
    refine List.filter_eq_nil_iff.mpr fun p hp => ?_
    have := ha p hp
    simp only [decide_eq_true_eq]
    omega
  have hvb : b.filter (fun p => decide (p.key=k))=[] := by
    refine List.filter_eq_nil_iff.mpr fun p hp => ?_
    have := hb p hp
    simp only [decide_eq_true_eq]
    omega
  have hv : n.vlist.Pairwise fun p q => p.key < q.key := by
    have hp := hs.pairs
    rw [hpairs,List.pairwise_append,List.pairwise_append] at hp
    exact hp.1.2.1
  rw [hpairs,List.filter_append,List.filter_append,hva,hvb,List.nil_append,List.append_nil,
    ←point_eq_filter hv]
  unfold search
  simp only [lt_irrefl,if_false,if_true,hkey,ok_bind,Tree.leafNode,hn]
  cases n.vlist[bisectLeft KeyValue.key n.vlist k]? with
  | none => rfl
  | some p =>
    by_cases hp : eq p (.int k)=true
    · simp only [hp,if_true]
      rfl
    · simp only [hp]
      rfl

end Search

/-! ## Form -/

/-- A tree of the right form that holds given pairs, in terms of the nodes
below its root. -/
structure Formed (s : Bptree ν) (pairs : List (KeyValue ℤ ν)) : Prop where
  /-- All leaves are at one depth and hold the pairs. -/
  leaves : ∃ h,LeavesAt s h ∧ ((nodesAt s h).flatMap (vlistOf s)).Perm pairs
  /-- Internal nodes have one child more than separators. -/
  inter : ∀ x n,Below s s.root x → s.node x=.inter n → n.clist.length=n.ilist.length+1
  /-- Keys before a separator are smaller, keys behind it are not. -/
  separates : ∀ x n,Below s s.root x → s.node x=.inter n → ∀ i k,n.ilist[i]?=some k →
    (∀ c ∈ n.clist.take (i+1),∀ p,PairUnder s c p → p.key < k) ∧
      ∀ c ∈ n.clist.drop (i+1),∀ p,PairUnder s c p → k ≤ p.key
  /-- Children name the node that holds them. -/
  par : ∀ x n,Below s s.root x → s.node x=.inter n → ∀ c ∈ n.clist,(s.node c).par=some x
  /-- The root names no parent. -/
  par_root : (s.node s.root).par=none

/-- Numbers of separators and pairs below the root. -/
structure Sized (M L : ℕ) (s : Bptree ν) : Prop where
  /-- Internal nodes have at least one and at most M-1 separators. -/
  inter : ∀ x n,Below s s.root x → s.node x=.inter n → 1 ≤ n.ilist.length ∧ n.ilist.length ≤ M-1
  /-- Leaves have at most L pairs, and at least one when the root is not a
  leaf. -/
  leaf : ∀ x n,Below s s.root x → s.node x=.leaf n → n.vlist.length ≤ L ∧
    ((s.node s.root).isleaf=false → 1 ≤ n.vlist.length)

section Form

variable {M L h : ℕ} {Z : ℕ → ℕ → Prop} {s : Bptree ν} {lev : ℕ → List (Item ℕ (Tok ℤ ν))}
  {rank : ℕ → ℕ} {pairs : List (KeyValue ℤ ν)}

/-- A tree with a shape and strict tokens is well formed. -/
theorem Shape.formed (S : Shape s h lev rank) (hs : Strict (tokens s lev))
    (hp : (pairsOf (tokens s lev)).Perm pairs) : Formed s pairs := by
  have hinter : ∀ x n,Below s s.root x → s.node x=.inter n →
      n.clist.length=n.ilist.length+1 ∧ ∀ c ∈ n.clist,(s.node c).par=some x := by
    intro x n hx hn
    obtain ⟨j,hj,hm⟩ := S.reach_inter hx hn
    obtain ⟨n',hn',hlen,-,hids⟩ := S.node_inter hj hm
    rw [hn] at hn'
    cases hn'
    exact ⟨hlen,fun c hc => S.par j hj x hm c (by rw [hids]; exact hc)⟩
  refine ⟨⟨h,S.leavesAt,?_⟩,fun x n hx hn => (hinter x n hx hn).1,?_,
    fun x n hx hn => (hinter x n hx hn).2,S.par_root⟩
  · rw [S.nodesAt_eq le_rfl,Nat.sub_self,←S.pairsOf_tokens]
    exact hp
  · intro x n hx hn i k hk
    obtain ⟨j,hj,hm⟩ := S.reach_inter hx hn
    exact S.separates hs hj hm hn hk

/-- Numbers of pairs after insertions into an empty tree. -/
def atMost (L h m : ℕ) : Prop := m ≤ L ∧ (0 < h → 1 ≤ m)

/-- The sizes that insertions keep are sizes for the leaves. -/
theorem leafSizes_atMost (hL : 1 ≤ L) : LeafSizes L (atMost L) where
  grow := fun h m hm hlt => ⟨hlt,fun _ => by omega⟩
  left := fun h h' m hm hle h0 => ⟨by omega,fun _ => by omega⟩
  right := fun h h' m hm hle h0 => ⟨by have := hm.1; omega,fun _ => by omega⟩
  lift := fun h m h0 hm => ⟨hm.1,fun _ => hm.2 h0⟩

/-- The empty tree keeps the invariant. -/
theorem inv_atMost_empty (M L : ℕ) :
    Inv M (atMost L) (empty : Bptree ν) 0 (fun _ => [.node 0]) fun _ => 0 :=
  inv_empty M ⟨Nat.zero_le L,fun h0 => by omega⟩

/-- Under the invariant the nodes have the allowed sizes. -/
theorem Inv.sized (I : Inv M (atMost L) s h lev rank) : Sized M L s := by
  have S := I.shape
  refine ⟨fun x n hx hn => ?_,fun x n hx hn => ?_⟩
  · obtain ⟨j,hj,hm⟩ := S.reach_inter hx hn
    have hfit := I.sizes (j+1) hj x hm
    rw [hn] at hfit
    have := hfit.2
    exact ⟨hfit.1,by omega⟩
  · have hm := S.reach_leaf hx hn
    have hfit : atMost L h n.vlist.length := by
      have := I.sizes 0 (Nat.zero_le h) x hm
      rwa [hn] at this
    refine ⟨hfit.1,fun hroot => hfit.2 (Nat.pos_of_ne_zero fun h0 => ?_)⟩
    subst h0
    rw [S.leaf _ S.tower.root_mem] at hroot
    cases hroot

/-- The next key of a run is not in the tree. -/
theorem fresh_of_nodup {q given rest : List (KeyValue ℤ ν)} {kv : KeyValue ℤ ν} (hp : q.Perm given)
    (hd : ((given++kv::rest).map KeyValue.key).Nodup) : ∀ p ∈ q,p.key≠kv.key := by
  intro p hmem hpk
  rw [List.map_append,List.map_cons,List.nodup_append] at hd
  exact hd.2.2 p.key (List.mem_map_of_mem (hp.subset hmem)) kv.key (by simp) hpk

/-- A run of insertions of pairs with distinct keys keeps what every insertion
keeps. -/
theorem Inv.insertAll_keep {K : Bptree ν → (ℕ → List (Item ℕ (Tok ℤ ν))) → Prop}
    (hK : ∀ (kv : KeyValue ℤ ν) (s s' : Bptree ν) h lev lev' rank,Inv M Z s h lev rank →
      Inserted L kv s lev s' lev' → K s lev → K s' lev')
    (I : Inv M Z s h lev rank) (hM : 3 < M) (hL : 1 ≤ L) (hZ : LeafSizes L Z)
    (hs : Strict (tokens s lev)) (hk : K s lev) {given rest : List (KeyValue ℤ ν)}
    (hp : (pairsOf (tokens s lev)).Perm given) (hd : ((given++rest).map KeyValue.key).Nodup) :
    ∃ s' h' lev' rank',insertAll M L s rest=.ok s' ∧ Inv M Z s' h' lev' rank' ∧
      Strict (tokens s' lev') ∧ (pairsOf (tokens s' lev')).Perm (given++rest) ∧ K s' lev' := by
  induction rest generalizing s h lev rank given with
  | nil => exact ⟨s,h,lev,rank,rfl,I,hs,by rw [List.append_nil]; exact hp,hk⟩
  | cons kv rest ih =>
    obtain ⟨s1,h1,lev1,rank1,hs1,I1,R⟩ := I.insert_ok hM hL hZ kv
    obtain ⟨s',h',lev',rank',hs',I',hst,hp',hk'⟩ := ih I1
      (R.entered.strict hs (fresh_of_nodup hp hd)) (hK kv s s1 h lev lev1 rank I R hk)
      (R.entered.putBehind.perm hp) (by simpa using hd)
    refine ⟨s',h',lev',rank',?_,I',hst,by simpa using hp',hk'⟩
    rw [insertAll_cons hs1]
    exact hs'

/-- A run of insertions of pairs with distinct keys. -/
theorem Inv.insertAll_ok (I : Inv M Z s h lev rank) (hM : 3 < M) (hL : 1 ≤ L) (hZ : LeafSizes L Z)
    (hs : Strict (tokens s lev)) {given rest : List (KeyValue ℤ ν)}
    (hp : (pairsOf (tokens s lev)).Perm given) (hd : ((given++rest).map KeyValue.key).Nodup) :
    ∃ s' h' lev' rank',insertAll M L s rest=.ok s' ∧ Inv M Z s' h' lev' rank' ∧
      Strict (tokens s' lev') ∧ (pairsOf (tokens s' lev')).Perm (given++rest) := by
  obtain ⟨s',h',lev',rank',hs',I',hst,hp',-⟩ := I.insertAll_keep (K:=fun _ _ => True)
    (fun _ _ _ _ _ _ _ _ _ _ => trivial) hM hL hZ hs trivial hp hd
  exact ⟨s',h',lev',rank',hs',I',hst,hp'⟩

/-- With distinct keys a key selects one pair. -/
theorem filter_key_eq {κ ν : Type} [DecidableEq κ] {l : List (KeyValue κ ν)}
    (hd : (l.map KeyValue.key).Nodup) {p : KeyValue κ ν} (hp : p∈l) :
    l.filter (fun q => decide (q.key=p.key))=[p] := by
  obtain ⟨a,b,rfl⟩ := List.append_of_mem hp
  rw [List.map_append,List.map_cons,List.nodup_append,List.nodup_cons] at hd
  have ha : a.filter (fun q => decide (q.key=p.key))=[] := by
    refine List.filter_eq_nil_iff.mpr fun q hq => ?_
    simpa using hd.2.2 q.key (List.mem_map_of_mem hq) p.key (by simp)
  have hb : b.filter (fun q => decide (q.key=p.key))=[] := by
    refine List.filter_eq_nil_iff.mpr fun q hq => ?_
    simp only [decide_eq_true_eq]
    exact fun h => hd.2.1.1 (h ▸ List.mem_map_of_mem hq)
  rw [List.filter_append,ha,List.filter_cons_of_pos (by simp),hb]
  rfl

/-- Every run of insertions with distinct keys ends in a tree of the right
form and sizes that holds the pairs, and a point search finds each pair. -/
theorem insertions_distinct (hM : 4 ≤ M) (hL : 1 ≤ L) (hLM : L ≤ M)
    (hd : (pairs.map KeyValue.key).Nodup) :
    ∃ s0 s : Bptree ν,init M L=.ok s0 ∧ insertAll M L s0 pairs=.ok s ∧ Formed s pairs ∧
      Sized M L s ∧ (∀ p ∈ pairs,search s (some p.key) (some p.key)=.ok [p]) ∧
      ∀ k,(∀ p ∈ pairs,p.key≠k) → search s (some k) (some k)=.ok [] := by
  have hinit : init M L=.ok (empty : Bptree ν) := init_eq hLM
  obtain ⟨s,h,lev,rank,hs,I,hst,hp⟩ := (inv_atMost_empty M L).insertAll_ok (by omega) hL (leafSizes_atMost hL)
    List.Pairwise.nil List.Perm.nil hd
  have hfilter : ∀ k,((pairsOf (tokens s lev)).filter fun p => decide (p.key=k)).Perm
      (pairs.filter fun p => decide (p.key=k)) := fun k => hp.filter _
  refine ⟨empty,s,hinit,hs,Shape.formed I.shape hst hp,I.sized,fun p hmem => ?_,fun k hk => ?_⟩
  · rw [search_point I.shape hst]
    have := hfilter p.key
    rw [filter_key_eq hd hmem] at this
    rw [List.perm_singleton.mp this]
  · rw [search_point I.shape hst]
    have hnone : pairs.filter (fun q => decide (q.key=k))=[] :=
      List.filter_eq_nil_iff.mpr fun p hmem => by simpa using hk p hmem
    have := hfilter k
    rw [hnone] at this
    rw [List.perm_nil.mp this]

/-- Seven insertions into a tree of order four with two pairs a leaf. -/
theorem insertions_distinct_seven :
    ∃ s0 s : Bptree ℕ,init 4 2=.ok s0 ∧
      insertAll 4 2 s0 [⟨5,0⟩,⟨-1,1⟩,⟨7,2⟩,⟨3,3⟩,⟨4,4⟩,⟨2,5⟩,⟨6,6⟩]=.ok s ∧
      Formed s [⟨5,0⟩,⟨-1,1⟩,⟨7,2⟩,⟨3,3⟩,⟨4,4⟩,⟨2,5⟩,⟨6,6⟩] ∧ Sized 4 2 s ∧
      (∀ p ∈ ([⟨5,0⟩,⟨-1,1⟩,⟨7,2⟩,⟨3,3⟩,⟨4,4⟩,⟨2,5⟩,⟨6,6⟩] : List (KeyValue ℤ ℕ)),
        search s (some p.key) (some p.key)=.ok [p]) ∧
      ∀ k,(∀ p ∈ ([⟨5,0⟩,⟨-1,1⟩,⟨7,2⟩,⟨3,3⟩,⟨4,4⟩,⟨2,5⟩,⟨6,6⟩] : List (KeyValue ℤ ℕ)),p.key≠k) →
        search s (some k) (some k)=.ok [] :=
  insertions_distinct (by decide) (by decide) (by decide) (by decide)

end Form

end StudyCode.Bplus.V1
