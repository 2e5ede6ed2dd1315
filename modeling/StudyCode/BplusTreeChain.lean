import StudyCode.BplusTreeSearch

/-!
# The chain of leaves

A split gives the new leaf no brother, so the chain from the first leaf ends
at the new leaf even when the old one had a brother. The chain meets all
leaves from left to right after every insertion of a run exactly when every
insertion that splits a leaf splits the last one.
-/

namespace StudyCode.Bplus.V1

open Frontier

variable {ν : Type}

/-- Leaves that are met from a leaf on. -/
def chain (s : Bptree ν) : ℕ → ℕ → List ℕ
  | 0,_ => []
  | fuel+1,x =>
    match broOf s x with
    | none => [x]
    | some y => x::chain s fuel y

/-- Every node of a row has the next one as brother, the last has none. -/
def Linked (bro : ℕ → Option ℕ) : List ℕ → Prop
  | [] => True
  | [x] => bro x=none
  | x::y::l => bro x=some y ∧ Linked bro (y::l)

section Linked

variable {bro bro' : ℕ → Option ℕ} {x y : ℕ} {l A B C : List ℕ}

/-- The row before a node does not depend on what follows it. -/
theorem Linked.splice (h : Linked bro (A++x::B)) (hsame : ∀ z ∈ A,bro' z=bro z)
    (hC : Linked bro' (x::C)) : Linked bro' (A++x::C) := by
  induction A with
  | nil => exact hC
  | cons a A ih =>
    cases A with
    | nil => exact ⟨by rw [hsame a (by simp)]; exact h.1,hC⟩
    | cons b A =>
      exact ⟨by rw [hsame a (by simp)]; exact h.1,ih h.2 fun z hz => hsame z (by simp [hz])⟩

/-- A chain is linked from each of its nodes on. -/
theorem Linked.tail_of_append (h : Linked bro (A++x::B)) : Linked bro (x::B) := by
  induction A with
  | nil => exact h
  | cons a A ih =>
    cases A with
    | nil => exact h.2
    | cons b A => exact ih h.2

/-- Only the last node of a row has no brother. -/
theorem Linked.none_iff (h : Linked bro (A++x::B)) : bro x=none ↔ B=[] := by
  cases B with
  | nil => exact iff_of_true h.tail_of_append rfl
  | cons b B =>
    have hsome : bro x=some b := h.tail_of_append.1
    rw [hsome]
    exact iff_of_false (Option.some_ne_none b) (List.cons_ne_nil b B)

/-- A chain with the same links stays linked. -/
theorem Linked.congr (h : Linked bro l) (hsame : ∀ z ∈ l,bro' z=bro z) : Linked bro' l := by
  induction l with
  | nil => trivial
  | cons a l ih =>
    cases l with
    | nil => exact (hsame a (by simp)).trans h
    | cons b l =>
      exact ⟨(hsame a (by simp)).trans h.1,ih h.2 fun z hz => hsame z (List.mem_cons_of_mem a hz)⟩

end Linked

section Walk

variable {s : Bptree ν} {x : ℕ} {l : List ℕ} {fuel : ℕ}

/-- A chain follows its row. -/
theorem chain_of_linked (h : Linked (broOf s) (x::l)) (hlen : l.length < fuel) :
    chain s fuel x=x::l := by
  induction fuel generalizing x l with
  | zero => omega
  | succ fuel ih =>
    rw [chain]
    cases l with
    | nil =>
      have hx : broOf s x=none := h
      rw [hx]
    | cons y l =>
      rw [h.1]
      show x::chain s fuel y=x::y::l
      rw [ih h.2 (by simpa using hlen)]

/-- A leaf is read as one. -/
theorem leafNode_ok (h : (s.node x).isleaf=true) :
    ∃ n,s.leafNode x=.ok n ∧ n.bro=broOf s x ∧ n.vlist=vlistOf s x := by
  cases hn : s.node x with
  | inter n =>
    rw [hn] at h
    cases h
  | leaf n => exact ⟨n,by simp [Tree.leafNode,hn],by simp [broOf,hn],by simp [vlistOf,hn]⟩

/-- A traversal collects the pairs of its row. -/
theorem traversal_of_linked (h : Linked (broOf s) (x::l)) (hlen : l.length < fuel)
    (hleaf : ∀ z ∈ x::l,(s.node z).isleaf=true) :
    traversal s fuel x=.ok ((x::l).flatMap (vlistOf s)) := by
  induction fuel generalizing x l with
  | zero => omega
  | succ fuel ih =>
    obtain ⟨n,hn,hbro,hv⟩ := leafNode_ok (hleaf x (by simp))
    rw [traversal]
    simp only [hn,ok_bind,hbro]
    cases l with
    | nil =>
      have hnone : broOf s x=none := h
      simp [hnone,hv,pure,Except.pure]
    | cons y l =>
      have hsome : broOf s x=some y := h.1
      simp only [hsome,ih h.2 (by simpa using hlen) fun z hz => hleaf z (List.mem_cons_of_mem x hz),
        ok_bind]
      rw [List.flatMap_cons (x:=x),hv]
      rfl

end Walk

/-! ## Runs of insertions -/

/-- Traversal returns given pairs in order, and the chain from the first leaf
meets exactly the leaves below the root, from left to right. -/
structure Chained (s : Bptree ν) (pairs : List (KeyValue ℤ ν)) : Prop where
  /-- The chain is the row of leaves. -/
  row : ∃ h,LeavesAt s h ∧ chain s s.next s.leaf=nodesAt s h
  /-- Every pair is returned once, in the order of keys. -/
  pairs : ∃ q,traversal s s.next s.leaf=.ok q ∧ q.Perm pairs ∧ q.Pairwise fun a b => a.key ≤ b.key

/-- The leaf where the key of a pair belongs has room or no brother. -/
def ClearInsert (L : ℕ) (s : Bptree ν) (kv : KeyValue ℤ ν) : Prop :=
  ∀ i x n,searchKey s kv.key s.next s.root=.ok (i,x) → s.node x=.leaf n → L ≤ n.vlist.length →
    n.bro=none

/-- Every insertion of a run is clear in the state before it. -/
def ClearRun (M L : ℕ) : Bptree ν → List (KeyValue ℤ ν) → Prop
  | _,[] => True
  | s,kv::rest => ClearInsert L s kv ∧ ∀ s1,insert M L s kv=.ok s1 → ClearRun M L s1 rest

section Run

variable {M L h : ℕ} {Z : ℕ → ℕ → Prop} {s s' : Bptree ν}
  {lev lev' : ℕ → List (Item ℕ (Tok ℤ ν))} {rank : ℕ → ℕ} {kv : KeyValue ℤ ν}

/-- The row of leaves starts with the first leaf and is linked. -/
structure Row (s : Bptree ν) (lev : ℕ → List (Item ℕ (Tok ℤ ν))) : Prop where
  /-- The first leaf. -/
  head : (ids (lev 0)).head?=some s.leaf
  /-- Brothers. -/
  linked : Linked (broOf s) (ids (lev 0))

/-- In a row of leaves the chain lists the pairs. -/
theorem Row.chained (W : Row s lev) (I : Inv M Z s h lev rank) {pairs : List (KeyValue ℤ ν)}
    (hp : (pairsOf (tokens s lev)).Perm pairs) : Chained s pairs := by
  have S := I.shape
  have hlen := S.leaves_le
  have hleaf := S.leaf
  have hlinked := W.linked
  have hhead := W.head
  have hpairs := S.pairsOf_tokens
  have hnodes : nodesAt s h=ids (lev 0) := by rw [S.nodesAt_eq le_rfl,Nat.sub_self]
  rw [hpairs] at hp
  have hsorted := pairwise_pairsOf I.sorted
  rw [hpairs] at hsorted
  cases hrow : ids (lev 0) with
  | nil =>
    rw [hrow] at hhead
    cases hhead
  | cons x l =>
    rw [hrow] at hlen hleaf hlinked hhead hnodes hp hsorted
    cases hhead
    have hlt : l.length < s.next := by simpa using hlen
    refine ⟨⟨h,S.leavesAt,?_⟩,⟨_,traversal_of_linked hlinked hlt hleaf,hp,hsorted⟩⟩
    rw [chain_of_linked hlinked hlt,hnodes]

/-- The leaf of an insertion is the one that a search finds. -/
theorem clearInsert_iff (I : Inv M Z s h lev rank) {x : ℕ} {n : Leaf ℤ ν (Option ℕ)}
    (hx : Seated lev kv.key 0 x) (hn : s.node x=.leaf n) :
    ClearInsert L s kv ↔ (L ≤ n.vlist.length → broOf s x=none) := by
  have S := I.shape
  have hbro : broOf s x=n.bro := by simp [broOf,hn]
  obtain ⟨y,m,hkey,hseat,hm⟩ := searchKey_ok (k:=kv.key) S I.sorted le_rfl S.tower.seat_root
    S.height_lt
  have hxy := S.seated_unique I.sorted (Nat.zero_le h) hseat hx
  subst hxy
  rw [hn] at hm
  cases hm
  constructor
  · intro hc hle
    rw [hbro]
    exact hc _ _ n hkey hn hle
  · intro hc i z m hz hm hle
    rw [hkey] at hz
    cases hz
    rw [hn] at hm
    cases hm
    rw [←hbro]
    exact hc hle

/-- An insertion leaves the row as it is, or it puts a new leaf without brother
behind the leaf of its key, and is clear when that one had none. -/
theorem Inserted.row_cases (R : Inserted L kv s lev s' lev') (I : Inv M Z s h lev rank) :
    (ids (lev' 0)=ids (lev 0) ∧ (∀ z ∈ ids (lev 0),broOf s' z=broOf s z) ∧ ClearInsert L s kv) ∨
      ∃ A x y B,ids (lev 0)=A++x::B ∧ ids (lev' 0)=A++x::y::B ∧
        (∀ z ∈ A++B,broOf s' z=broOf s z) ∧ broOf s' x=some y ∧ broOf s' y=none ∧
        (ClearInsert L s kv ↔ broOf s x=none) := by
  obtain ⟨x,n,hx,hn,hother,hrow⟩ := R.row
  have hclear := clearInsert_iff (L:=L) I hx hn
  by_cases hlen : n.vlist.length < L
  · rw [if_pos hlen] at hrow
    refine Or.inl ⟨hrow.1,fun z hz => ?_,hclear.mpr fun hle => by omega⟩
    by_cases hzx : z=x
    · rw [hzx]
      exact hrow.2
    · exact hother z hz hzx
  · rw [if_neg hlen] at hrow
    obtain ⟨A,B,y,hAB,hAB',hbx,hby⟩ := hrow
    have hnodup := I.shape.tower.nodup 0 (Nat.zero_le h)
    rw [hAB,List.nodup_middle,List.nodup_cons] at hnodup
    refine Or.inr ⟨A,x,y,B,hAB,hAB',fun z hz => hother z ?_ ?_,hbx,hby,?_⟩
    · rw [hAB]
      rcases List.mem_append.mp hz with hz|hz
      · exact List.mem_append_left _ hz
      · exact List.mem_append_right A (List.mem_cons_of_mem x hz)
    · rintro rfl
      exact hnodup.1 hz
    · rw [hclear]
      exact imp_iff_right (not_lt.mp hlen)

/-- A clear insertion keeps the row of leaves linked. -/
theorem Row.inserted (W : Row s lev) (I : Inv M Z s h lev rank) (R : Inserted L kv s lev s' lev')
    (hclear : ClearInsert L s kv) : Row s' lev' := by
  have hlinked := W.linked
  have hhead := W.head
  rcases R.row_cases I with ⟨hids,hsame,-⟩|⟨A,x,y,B,hAB,hAB',hsame,hbx,hby,hiff⟩
  · rw [←R.leaf,←hids] at hhead
    exact ⟨hhead,by rw [hids]; exact hlinked.congr hsame⟩
  · rw [hAB] at hlinked hhead
    obtain rfl := hlinked.none_iff.mp (hiff.mp hclear)
    refine ⟨?_,?_⟩
    · rw [hAB',R.leaf,←hhead]
      cases A <;> rfl
    · rw [hAB']
      exact hlinked.splice (fun z hz => hsame z (List.mem_append_left _ hz)) ⟨hbx,hby⟩

/-- An insertion that is not clear cuts the row. -/
theorem Row.not_chained (W : Row s lev) (I : Inv M Z s h lev rank) (R : Inserted L kv s lev s' lev')
    {h' : ℕ} {rank' : ℕ → ℕ} (I' : Inv M Z s' h' lev' rank') (hclear : ¬ClearInsert L s kv)
    (pairs : List (KeyValue ℤ ν)) : ¬Chained s' pairs := by
  have hlinked := W.linked
  have hhead := W.head
  rcases R.row_cases I with ⟨-,-,hc⟩|⟨A,x,y,B,hAB,hAB',hsame,hbx,hby,hiff⟩
  · exact absurd hc hclear
  rw [hAB] at hlinked hhead
  have hB : B≠[] := fun hB => hclear (hiff.mpr (hlinked.none_iff.mpr hB))
  have hshort : Linked (broOf s') (A++x::[y]) :=
    hlinked.splice (fun z hz => hsame z (List.mem_append_left _ hz)) ⟨hbx,hby⟩
  have hlen := I'.shape.leaves_le
  rw [hAB'] at hlen
  have hchain : chain s' s'.next s'.leaf=A++x::[y] := by
    rw [←R.leaf] at hhead
    cases A with
    | nil =>
      cases hhead
      exact chain_of_linked hshort (by simp at hlen ⊢; omega)
    | cons a A =>
      cases hhead
      exact chain_of_linked hshort (by simp at hlen ⊢; omega)
  rintro ⟨⟨d,hd,hrow'⟩,-⟩
  rw [I'.shape.leavesAt_unique hd,I'.shape.nodesAt_eq le_rfl,Nat.sub_self,hAB',hchain] at hrow'
  have hcut := List.append_cancel_left hrow'
  simp only [List.cons.injEq,true_and] at hcut
  exact hB hcut.symm

/-- A run is clear when its first insert and the rest are. -/
theorem clearRun_cons {s1 : Bptree ν} (hs1 : insert M L s kv=.ok s1) (rest : List (KeyValue ℤ ν)) :
    ClearRun M L s (kv::rest) ↔ ClearInsert L s kv ∧ ClearRun M L s1 rest := by
  rw [ClearRun,hs1]
  exact and_congr_right fun _ => ⟨fun hall => hall s1 rfl,fun hc s2 hs2 => by cases hs2; exact hc⟩

/-- A run keeps the chain after every insertion when all are clear. -/
theorem Row.run_iff (W : Row s lev) (I : Inv M Z s h lev rank) (hM : 3 < M) (hL : 1 ≤ L)
    (hZ : LeafSizes L Z) {given : List (KeyValue ℤ ν)} (hp : (pairsOf (tokens s lev)).Perm given)
    (rest : List (KeyValue ℤ ν)) :
    (∀ pre,pre <+: rest → ∃ s1,insertAll M L s pre=.ok s1 ∧ Chained s1 (given++pre)) ↔
      ClearRun M L s rest := by
  induction rest generalizing s h lev rank given with
  | nil =>
    refine ⟨fun _ => trivial,fun _ pre hpre => ?_⟩
    rw [List.prefix_nil.mp hpre,List.append_nil]
    exact ⟨s,rfl,W.chained I hp⟩
  | cons kv rest ih =>
    obtain ⟨s1,h1,lev1,rank1,hs1,I1,R⟩ := I.insert_ok hM hL hZ kv
    have hp1 := R.entered.putBehind.perm hp
    have hstep := insertAll_cons hs1
    rw [clearRun_cons hs1]
    by_cases hclear : ClearInsert L s kv
    · have W1 := W.inserted I R hclear
      rw [and_iff_right hclear,←ih W1 I1 hp1]
      constructor
      · intro hall pre hpre
        obtain ⟨s2,hs2,hc⟩ := hall (kv::pre) (List.prefix_cons_inj kv |>.mpr hpre)
        rw [hstep] at hs2
        exact ⟨s2,hs2,by simpa using hc⟩
      · intro hall pre hpre
        cases pre with
        | nil => exact ⟨s,rfl,by rw [List.append_nil]; exact W.chained I hp⟩
        | cons a pre =>
          obtain ⟨rfl,hpre'⟩ := List.cons_prefix_cons.mp hpre
          obtain ⟨s2,hs2,hc⟩ := hall pre hpre'
          exact ⟨s2,by rw [hstep]; exact hs2,by simpa using hc⟩
    · refine ⟨fun hall => ?_,fun hc => (hclear hc.1).elim⟩
      obtain ⟨s2,hs2,hc⟩ := hall [kv] (by simp)
      rw [hstep] at hs2
      cases hs2
      exact (W.not_chained I R I1 hclear _ hc).elim

/-- Over the insertions of a run into a new tree, the chain meets all leaves
from left to right and traversal returns every pair once, in order, after
each insertion, exactly when every insertion is clear. -/
theorem chained_iff_clearRun (hM : 4 ≤ M) (hL : 1 ≤ L) (hLM : L ≤ M) (pairs : List (KeyValue ℤ ν)) :
    (∀ pre,pre <+: pairs → ∃ s0 s,init M L=.ok s0 ∧ insertAll M L s0 pre=.ok s ∧ Chained s pre) ↔
      ClearRun M L (empty : Bptree ν) pairs := by
  have hinit : init M L=.ok (empty : Bptree ν) := init_eq hLM
  have I0 := inv_atMost_empty (ν:=ν) M L
  have W0 : Row (empty : Bptree ν) fun _ => [.node 0] := ⟨rfl,rfl⟩
  rw [←W0.run_iff I0 (by omega) hL (leafSizes_atMost hL) List.Perm.nil pairs]
  refine forall₂_congr fun pre _ => ⟨?_,?_⟩
  · rintro ⟨s0,s,h0,hs,hc⟩
    rw [hinit] at h0
    cases h0
    exact ⟨s,hs,by simpa using hc⟩
  · rintro ⟨s,hs,hc⟩
    exact ⟨empty,s,hinit,hs,by simpa using hc⟩

/-- Five ascending keys in a tree with two pairs a leaf. -/
theorem chained_iff_clearRun_ascending :
    (∀ pre,pre <+: ([⟨1,0⟩,⟨2,1⟩,⟨3,2⟩,⟨4,3⟩,⟨5,4⟩] : List (KeyValue ℤ ℕ)) →
      ∃ s0 s,init 4 2=.ok s0 ∧ insertAll 4 2 s0 pre=.ok s ∧ Chained s pre) ↔
      ClearRun 4 2 (empty : Bptree ℕ) [⟨1,0⟩,⟨2,1⟩,⟨3,2⟩,⟨4,3⟩,⟨5,4⟩] :=
  chained_iff_clearRun (by decide) (by decide) (by decide) _

/-- Three descending keys in a tree with one pair a leaf: the first pair is
not traversed. -/
theorem chained_descending_false :
    ¬∀ (M L : ℕ) (pairs : List (KeyValue ℤ ℕ)),4 ≤ M → 1 ≤ L → L ≤ M →
      ∃ s0 s,init M L=.ok s0 ∧ insertAll M L s0 pairs=.ok s ∧ Chained s pairs := by
  intro hall
  obtain ⟨s0,s,h0,hs,hc⟩ := hall 4 1 [⟨2,0⟩,⟨1,1⟩,⟨0,2⟩] (by decide) (by decide) (by decide)
  obtain ⟨q,hq,hp,-⟩ := hc.pairs
  have hrun : (do
      let s0 ← init 4 1
      let s ← insertAll 4 1 s0 [⟨2,0⟩,⟨1,1⟩,⟨0,2⟩]
      traversal s s.next s.leaf : Except PyError (List (KeyValue ℤ ℕ)))=.ok [⟨0,2⟩,⟨1,1⟩] := rfl
  rw [h0,ok_bind,hs,ok_bind,hq] at hrun
  cases hrun
  exact absurd hp.length_eq (by decide)

end Run

end StudyCode.Bplus.V1
