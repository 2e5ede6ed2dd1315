import Mathlib.Logic.Relation
import StudyCode.BplusOrder

/-!
# What can be reached in a B+ tree

Statements about a tree speak of the nodes below its root, of their depth
and of the pairs below a node. Here these are defined from the child lists
alone and found again in the frontiers of a shaped tree.
-/

namespace StudyCode.Bplus

open Frontier

variable {κ ν β : Type}

/-- Children of a node; leaves have none. -/
def children (s : Tree κ ν β) (x : ℕ) : List ℕ :=
  match s.node x with
  | .inter n => n.clist
  | .leaf _ => []

/-- Pairs of a node; internal nodes have none. -/
def vlistOf (s : Tree κ ν β) (x : ℕ) : List (KeyValue κ ν) :=
  match s.node x with
  | .inter _ => []
  | .leaf n => n.vlist

/-- Nodes at a depth from left to right. -/
def nodesAt (s : Tree κ ν β) : ℕ → List ℕ
  | 0 => [s.root]
  | d+1 => (nodesAt s d).flatMap (children s)

/-- A node is reached from another one through children. -/
def Below (s : Tree κ ν β) : ℕ → ℕ → Prop := Relation.ReflTransGen fun x c => c∈children s x

/-- A pair is stored in a leaf below a node. -/
def PairUnder (s : Tree κ ν β) (x : ℕ) (p : KeyValue κ ν) : Prop := ∃ y,Below s x y ∧ p∈vlistOf s y

/-- All leaves are at one depth, and everything above is internal. -/
def LeavesAt (s : Tree κ ν β) (h : ℕ) : Prop :=
  (∀ d,d < h → ∀ x ∈ nodesAt s d,(s.node x).isleaf=false) ∧
    ∀ x ∈ nodesAt s h,(s.node x).isleaf=true

/-- There is nothing below the leaves. -/
theorem LeavesAt.beyond {s : Tree κ ν β} {h : ℕ} (hl : LeavesAt s h) (d : ℕ) :
    nodesAt s (h+1+d)=[] := by
  induction d with
  | zero =>
    refine List.flatMap_eq_nil_iff.mpr fun x hx => ?_
    have := hl.2 x hx
    unfold children
    cases hn : s.node x with
    | inter n =>
      rw [hn] at this
      cases this
    | leaf n => rfl
  | succ d ih =>
    show (nodesAt s (h+1+d)).flatMap (children s)=[]
    rw [ih]
    rfl

namespace Shape

variable {s : Tree κ ν β} {h i x : ℕ} {lev : ℕ → List (Item ℕ (Tok κ ν))} {rank : ℕ → ℕ}

/-- A node above the leaves and its children. -/
theorem node_inter (S : Shape s h lev rank) (hi : i < h) (hx : x∈ids (lev (i+1))) :
    ∃ n,s.node x=.inter n ∧ n.clist.length=n.ilist.length+1 ∧ children s x=n.clist ∧
      ids (s.items x)=n.clist := by
  obtain ⟨n,hn1,hn2⟩ := S.joint i hi x hx
  refine ⟨n,hn1,hn2,?_,?_⟩
  · simp [children,hn1]
  · rw [Tree.items,hn1,Node.ids_items_inter hn2]

/-- A node on the lowest frontier is a leaf. -/
theorem node_leaf (S : Shape s h lev rank) (hx : x∈ids (lev 0)) :
    ∃ n,s.node x=.leaf n ∧ children s x=[] ∧ vlistOf s x=n.vlist := by
  have hl := S.leaf x hx
  cases hn : s.node x with
  | inter n =>
    rw [hn] at hl
    cases hl
  | leaf n => exact ⟨n,rfl,by simp [children,hn],by simp [vlistOf,hn]⟩

/-- Nodes below a node of a frontier are on that frontier or a lower one. -/
theorem below_mem (S : Shape s h lev rank) (hi : i ≤ h) (hx : x∈ids (lev i)) {y : ℕ}
    (hy : Below s x y) : ∃ j,j ≤ i ∧ y∈ids (lev j) := by
  induction hy with
  | refl => exact ⟨i,le_rfl,hx⟩
  | tail _ hc ih =>
    obtain ⟨j,hj,hm⟩ := ih
    cases j with
    | zero =>
      obtain ⟨n,-,hn,-⟩ := S.node_leaf hm
      rw [hn] at hc
      cases hc
    | succ j =>
      obtain ⟨n,-,-,hn1,hn2⟩ := S.node_inter (show j < h by omega) hm
      rw [hn1,←hn2] at hc
      exact ⟨j,by omega,S.tower.child_mem (by omega) hm hc⟩

/-- Nodes below the root are those of the frontiers. -/
theorem reach_mem (S : Shape s h lev rank) (hx : Below s s.root x) : ∃ j,j ≤ h ∧ x∈ids (lev j) :=
  S.below_mem le_rfl S.tower.root_mem hx

/-- An internal node below the root is above the leaves. -/
theorem reach_inter (S : Shape s h lev rank) (hx : Below s s.root x) {n : InterNode κ}
    (hn : s.node x=.inter n) : ∃ j,j < h ∧ x∈ids (lev (j+1)) := by
  obtain ⟨j,hj,hm⟩ := S.reach_mem hx
  cases j with
  | zero =>
    obtain ⟨m,hm',-⟩ := S.node_leaf hm
    rw [hn] at hm'
    cases hm'
  | succ j => exact ⟨j,hj,hm⟩

/-- A leaf below the root is on the bottom frontier. -/
theorem reach_leaf (S : Shape s h lev rank) (hx : Below s s.root x) {n : Leaf κ ν β}
    (hn : s.node x=.leaf n) : x∈ids (lev 0) := by
  obtain ⟨j,hj,hm⟩ := S.reach_mem hx
  cases j with
  | zero => exact hm
  | succ j =>
    obtain ⟨m,hm',-⟩ := S.node_inter hj hm
    rw [hn] at hm'
    cases hm'

/-- The nodes at a depth are those of a frontier. -/
theorem nodesAt_eq (S : Shape s h lev rank) {d : ℕ} (hd : d ≤ h) :
    nodesAt s d=ids (lev (h-d)) := by
  induction d with
  | zero =>
    rw [Nat.sub_zero,S.tower.top]
    rfl
  | succ d ih =>
    rw [nodesAt,ih (by omega),S.tower.step (h-(d+1)) (by omega),ids_grow,
      show h-(d+1)+1=h-d by omega]
    refine List.flatMap_congr fun x hx => ?_
    rw [show h-d=h-(d+1)+1 by omega] at hx
    obtain ⟨n,-,-,h1,h2⟩ := S.node_inter (by omega) hx
    rw [h1,h2]

/-- The leaves are all on one level. -/
theorem leavesAt (S : Shape s h lev rank) : LeavesAt s h := by
  refine ⟨fun d hd x hx => ?_,fun x hx => ?_⟩
  · rw [S.nodesAt_eq (by omega),show h-d=h-(d+1)+1 by omega] at hx
    obtain ⟨n,hn,-⟩ := S.node_inter (by omega) hx
    rw [hn]
    rfl
  · rw [S.nodesAt_eq le_rfl,Nat.sub_self] at hx
    exact S.leaf x hx

/-- Leaves are at no other depth. -/
theorem leavesAt_unique (S : Shape s h lev rank) {d : ℕ} (hd : LeavesAt s d) : d=h := by
  obtain ⟨hup,hbot⟩ := S.leavesAt
  rcases lt_trichotomy d h with hlt|heq|hgt
  · obtain ⟨x,hx⟩ := S.exists_mem hlt.le
    rw [←S.nodesAt_eq hlt.le] at hx
    have h1 := hup d hlt x hx
    rw [hd.2 x hx] at h1
    cases h1
  · exact heq
  · obtain ⟨x,hx⟩ := S.exists_mem (le_refl h)
    rw [←S.nodesAt_eq le_rfl] at hx
    have h1 := hd.1 h hgt x hx
    rw [hbot x hx] at h1
    cases h1

/-- Leaves below a node are what the node spreads to. -/
theorem mem_spread (S : Shape s h lev rank) (hi : i ≤ h) (hx : x∈ids (lev i)) {y : ℕ}
    (hy : Below s x y) (hl : (s.node y).isleaf=true) : y∈ids (spread s.items i [.node x]) := by
  induction i generalizing x with
  | zero =>
    rcases Relation.ReflTransGen.cases_head hy with rfl|⟨c,hc,-⟩
    · simp [spread]
    · obtain ⟨n,-,hn,-⟩ := S.node_leaf hx
      rw [hn] at hc
      cases hc
  | succ i ih =>
    obtain ⟨n,hn,-,h1,h2⟩ := S.node_inter hi hx
    rcases Relation.ReflTransGen.cases_head hy with rfl|⟨c,hc,hcy⟩
    · rw [hn] at hl
      cases hl
    · rw [h1,←h2] at hc
      have hcm := S.tower.child_mem (show i < h by omega) hx hc
      rw [spread,grow_node,grow_nil,List.append_nil]
      exact mem_ids_spread.mpr ⟨c,hc,ih (by omega) hcm hcy⟩

/-- Pairs below a node are tokens of what the node spreads to. -/
theorem mem_toks_spread (S : Shape s h lev rank) (hi : i ≤ h) {l : List (Item ℕ (Tok κ ν))}
    (hx : x∈ids (lev i)) (hxl : x∈ids l) {p : KeyValue κ ν} (hp : PairUnder s x p) :
    .kv p∈toks (grow s.items (spread s.items i l)) := by
  obtain ⟨y,hy,hpy⟩ := hp
  have hl : ∃ n,s.node y=.leaf n ∧ p∈n.vlist := by
    unfold vlistOf at hpy
    cases hn : s.node y with
    | inter n => simp [hn] at hpy
    | leaf n => exact ⟨n,rfl,by simpa [hn] using hpy⟩
  obtain ⟨n,hn,hpn⟩ := hl
  have hys : y∈ids (spread s.items i l) :=
    mem_ids_spread.mpr ⟨x,hxl,S.mem_spread hi hx hy (by rw [hn]; rfl)⟩
  obtain ⟨A,B,hAB⟩ := mem_ids_iff.mp hys
  rw [hAB,grow_append,grow_node,toks_append,toks_append,Tree.items,hn]
  refine List.mem_append_right _ (List.mem_append_left _ ?_)
  simp only [Node.items]
  rw [toks_map_tok]
  exact List.mem_map_of_mem hpn

/-- Separators against the pairs below the children around them. -/
theorem separates (S : Shape s h lev rank) {R : Tok κ ν → Tok κ ν → Prop}
    (hR : (tokens s lev).Pairwise R) (hi : i < h) (hx : x∈ids (lev (i+1))) {n : InterNode κ}
    (hn : s.node x=.inter n) {j : ℕ} {k : κ} (hk : n.ilist[j]?=some k) :
    (∀ c ∈ n.clist.take (j+1),∀ p,PairUnder s c p → R (.kv p) (.sep k)) ∧
      ∀ c ∈ n.clist.drop (j+1),∀ p,PairUnder s c p → R (.sep k) (.kv p) := by
  obtain ⟨n',hn1,hn2,-,hids⟩ := S.node_inter hi hx
  rw [hn] at hn1
  cases hn1
  obtain ⟨hj,rfl⟩ := List.getElem?_eq_some_iff.mp hk
  have hil : n.ilist=n.ilist.take j++n.ilist[j]::n.ilist.drop (j+1) := by
    nth_rewrite 1 [←List.take_append_drop j n.ilist]
    rw [List.drop_eq_getElem_cons hj]
  have he : s.items x=weave (n.clist.take (j+1)) ((n.ilist.take j).map .sep)++
      .tok (.sep n.ilist[j])::weave (n.clist.drop (j+1)) ((n.ilist.drop (j+1)).map .sep) := by
    have hne : n.clist.drop (j+1)≠[] := fun h0 => by
      have := congrArg List.length h0
      simp at this
      omega
    rw [Tree.items,hn,←weave_append (by simp; omega) _ hne,List.take_append_drop,←List.map_cons,
      ←List.map_append,←hil]
    rfl
  have hl : ids (weave (n.clist.take (j+1)) ((n.ilist.take j).map .sep) : List (Item ℕ (Tok κ ν)))=
      n.clist.take (j+1) := ids_weave (by simp; omega)
  have hr : ids (weave (n.clist.drop (j+1)) ((n.ilist.drop (j+1)).map .sep) :
      List (Item ℕ (Tok κ ν)))=n.clist.drop (j+1) := ids_weave (by simp; omega)
  have hsub : (toks (grow s.items (spread s.items i (s.items x)))).Sublist (tokens s lev) := by
    obtain ⟨A,B,hAB⟩ := mem_ids_iff.mp hx
    have hspread := S.tower.spread_eq (show i+1 ≤ h by omega)
    rw [hAB,spread,grow_append,grow_node,spread_append,spread_append] at hspread
    rw [tokens,←hspread,grow_append,grow_append,toks_append,toks_append]
    exact (List.sublist_append_left _ _).trans (List.sublist_append_right _ _)
  have hpair := List.Pairwise.sublist hsub hR
  rw [he,spread_append,spread_tok,grow_append,grow_tok,toks_append,toks_tok,List.pairwise_append,
    List.pairwise_cons] at hpair
  have hchild : ∀ c ∈ n.clist,c∈ids (lev i) := fun c hc =>
    S.tower.child_mem hi hx (by rw [hids]; exact hc)
  refine ⟨fun c hc p hp => ?_,fun c hc p hp => ?_⟩
  · exact hpair.2.2 _ (S.mem_toks_spread (by omega) (hchild c (List.mem_of_mem_take hc))
      (by rw [hl]; exact hc) hp) _ (by simp)
  · exact hpair.2.1.1 _ (S.mem_toks_spread (by omega) (hchild c (List.mem_of_mem_drop hc))
      (by rw [hr]; exact hc) hp)

/-- Tokens of the frontiers are separators. -/
theorem toks_sep (S : Shape s h lev rank) (hi : i ≤ h) :
    ∀ t ∈ toks (lev (h-i)),∃ k,t=.sep k := by
  induction i with
  | zero =>
    rw [Nat.sub_zero,S.tower.top]
    intro t ht
    cases ht
  | succ i ih =>
    rw [S.tower.step (h-(i+1)) (by omega)]
    have hup := ih (by omega)
    have hmem : ∀ x ∈ ids (lev (h-i)),∀ t ∈ toks (s.items x),∃ k,t=.sep k := by
      intro x hx t ht
      rw [show h-i=h-(i+1)+1 by omega] at hx
      obtain ⟨n,hn1,hn2,-⟩ := S.node_inter (by omega) hx
      rw [Tree.items,hn1] at ht
      simp only [Node.items] at ht
      rw [toks_weave (by simpa using hn2)] at ht
      obtain ⟨k,-,rfl⟩ := List.mem_map.mp ht
      exact ⟨k,rfl⟩
    rw [show h-(i+1)+1=h-i by omega]
    generalize lev (h-i)=l at hup hmem
    clear ih
    induction l with
    | nil =>
      intro t ht
      cases ht
    | cons a l ihl =>
      cases a with
      | node x =>
        intro t ht
        rw [grow_node,toks_append] at ht
        rcases List.mem_append.mp ht with ht|ht
        · exact hmem x (by simp) t ht
        · exact ihl hup (fun y hy => hmem y (by simp [hy])) t ht
      | tok u =>
        intro t ht
        rw [grow_tok,toks_tok] at ht
        rcases List.mem_cons.mp ht with rfl|ht
        · exact hup t (by simp)
        · exact ihl (fun v hv => hup v (by simp [hv])) (fun y hy => hmem y (by simpa using hy)) t ht

/-- The pairs of a part of the bottom row are those of its leaves from left to
right. -/
theorem pairsOf_grow (S : Shape s h lev rank) {l : List (Item ℕ (Tok κ ν))} (hl : l.Sublist (lev 0)) :
    pairsOf (toks (grow s.items l))=(ids l).flatMap (vlistOf s) := by
  induction l with
  | nil => rfl
  | cons a l ih =>
    have hrest := ih ((List.sublist_cons_self a l).trans hl)
    cases a with
    | node x =>
      have hx : x∈ids (lev 0) := (hl.filterMap Item.id?).subset (by simp [Item.id?])
      obtain ⟨n,hn,-,hv⟩ := S.node_leaf hx
      rw [grow_node,toks_append,pairsOf_append,hrest,Tree.items,hn,ids_node,List.flatMap_cons,hv]
      congr 1
      simp only [Node.items]
      rw [toks_map_tok,pairsOf_map_kv]
    | tok t =>
      have ht : t∈toks (lev 0) := (hl.filterMap Item.tok?).subset (by simp [Item.tok?])
      have hsep := S.toks_sep (le_refl h) t
      rw [Nat.sub_self] at hsep
      obtain ⟨k,rfl⟩ := hsep ht
      rw [grow_tok,toks_tok,pairsOf_sep,ids_tok,hrest]

/-- The pairs among the tokens are those of the leaves from left to right. -/
theorem pairsOf_tokens (S : Shape s h lev rank) :
    pairsOf (tokens s lev)=(ids (lev 0)).flatMap (vlistOf s) :=
  S.pairsOf_grow (List.Sublist.refl (lev 0))

end Shape

end StudyCode.Bplus
