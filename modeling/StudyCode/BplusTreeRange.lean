import StudyCode.BplusTreeChain

/-!
# Range search along the chain of leaves

A range search descends once for each bound and follows the brothers from the
leaf of the lower bound to the leaf of the upper one. On a linked row it
returns the pairs in the range. A row that is cut stays cut whatever is
inserted later, and a search from the leaf before the cut misses all pairs
behind it.
-/

namespace StudyCode.Bplus.V1

open Frontier

variable {ν : Type}

/-- The key of a pair is in a range that includes its lower bound only. -/
def within (mi ma : ℤ) (p : KeyValue ℤ ν) : Bool := decide (mi ≤ p.key ∧ p.key < ma)

/-- Every range search returns the given pairs with keys in the range, each
once, in the order of keys. -/
def Ranged (s : Bptree ν) (pairs : List (KeyValue ℤ ν)) : Prop :=
  ∀ mi ma,mi < ma → ∃ q,search s (some mi) (some ma)=.ok q ∧ q.Perm (pairs.filter (within mi ma)) ∧
    q.Pairwise fun a b => a.key < b.key

section Bisection

variable {v : List (KeyValue ℤ ν)} {mi ma : ℤ}

/-- A leaf inside of the range gives all its pairs. -/
theorem filter_within_all (h : ∀ p ∈ v,mi ≤ p.key ∧ p.key < ma) : v.filter (within mi ma)=v :=
  List.filter_eq_self.mpr fun p hp => decide_eq_true (h p hp)

/-- A leaf outside of the range gives none. -/
theorem filter_within_none (h : ∀ p ∈ v,p.key < mi ∨ ma ≤ p.key) : v.filter (within mi ma)=[] := by
  refine List.filter_eq_nil_iff.mpr fun p hp => ?_
  have := h p hp
  simp only [within,decide_eq_true_eq]
  omega

/-- Two bisections cut the range out of a leaf. -/
theorem filter_within_leaf (hs : v.Pairwise fun a b => a.key < b.key) :
    v.filter (within mi ma)=
      (v.take (bisectLeft KeyValue.key v ma)).drop (bisectLeft KeyValue.key v mi) := by
  have hle : v.Pairwise fun a b => a.key ≤ b.key := hs.imp fun h => le_of_lt h
  obtain ⟨hlt1,hge1⟩ := bisectLeft_spec hle mi
  obtain ⟨hlt2,hge2⟩ := bisectLeft_spec hle ma
  generalize bisectLeft KeyValue.key v mi=i at hlt1 hge1
  generalize bisectLeft KeyValue.key v ma=j at hlt2 hge2
  have hbehind : (v.drop j).filter (within mi ma)=[] :=
    filter_within_none fun p hp => Or.inr (hge2 p hp)
  have hbefore : ((v.take j).take i).filter (within mi ma)=[] := by
    refine filter_within_none fun p hp => Or.inl (hlt1 p ?_)
    rw [List.take_take] at hp
    exact List.take_subset_take_left v (min_le_left i j) hp
  have hinside : ((v.take j).drop i).filter (within mi ma)=(v.take j).drop i := by
    refine filter_within_all fun p hp => ⟨hge1 p ?_,hlt2 p (List.mem_of_mem_drop hp)⟩
    rw [List.drop_take] at hp
    exact List.mem_of_mem_take hp
  calc v.filter (within mi ma)
      =((v.take j).take i++(v.take j).drop i++v.drop j).filter (within mi ma) := by
        rw [List.take_append_drop,List.take_append_drop]
    _=(v.take j).drop i := by
        rw [List.filter_append,List.filter_append,hbefore,hbehind,hinside,List.nil_append,
          List.append_nil]

/-- The lower bound cuts a leaf whose keys are below the upper bound. -/
theorem filter_within_drop (hs : v.Pairwise fun a b => a.key < b.key) (h : ∀ p ∈ v,p.key < ma) :
    v.filter (within mi ma)=v.drop (bisectLeft KeyValue.key v mi) := by
  have hge := (bisectLeft_spec (hs.imp fun h => le_of_lt h) ma).2
  have hnil : v.drop (bisectLeft KeyValue.key v ma)=[] := by
    refine List.eq_nil_iff_forall_not_mem.mpr fun p hp => ?_
    have h1 := hge p hp
    have h2 := h p (List.mem_of_mem_drop hp)
    omega
  rw [filter_within_leaf hs,List.take_of_length_le (List.drop_eq_nil_iff.mp hnil)]

/-- The upper bound cuts a leaf whose keys are not below the lower bound. -/
theorem filter_within_take (hs : v.Pairwise fun a b => a.key < b.key) (h : ∀ p ∈ v,mi ≤ p.key) :
    v.filter (within mi ma)=v.take (bisectLeft KeyValue.key v ma) := by
  have hlt := (bisectLeft_spec (hs.imp fun h => le_of_lt h) mi).1
  have hnil : v.take (bisectLeft KeyValue.key v mi)=[] := by
    refine List.eq_nil_iff_forall_not_mem.mpr fun p hp => ?_
    have h1 := hlt p hp
    have h2 := h p (List.mem_of_mem_take hp)
    omega
  rw [filter_within_leaf hs]
  rcases List.take_eq_nil_iff.mp hnil with hzero|hempty
  · rw [hzero,List.drop_zero]
  · rw [hempty]
    simp

variable {f : ℕ → List (KeyValue ℤ ν)} {A B C : List ℕ} {x y : ℕ}

/-- The range in a row when both bounds belong to one leaf. -/
theorem filter_within_one (hs : (f x).Pairwise fun a b => a.key < b.key)
    (hA : ∀ p ∈ A.flatMap f,p.key < mi) (hB : ∀ p ∈ B.flatMap f,ma < p.key) :
    ((A++x::B).flatMap f).filter (within mi ma)=
      ((f x).take (bisectLeft KeyValue.key (f x) ma)).drop (bisectLeft KeyValue.key (f x) mi) := by
  rw [List.flatMap_append,List.flatMap_cons,List.filter_append,List.filter_append,
    filter_within_none fun p hp => Or.inl (hA p hp),
    filter_within_none fun p hp => Or.inr (hB p hp).le,filter_within_leaf hs,List.nil_append,
    List.append_nil]

/-- The range in a row when the bounds belong to two leaves: the end of the
first, all between them and the start of the second. -/
theorem filter_within_two (hsx : (f x).Pairwise fun a b => a.key < b.key)
    (hsy : (f y).Pairwise fun a b => a.key < b.key) (hA : ∀ p ∈ A.flatMap f,p.key < mi)
    (hC : ∀ p ∈ (C++y::B).flatMap f,mi < p.key) (hAC : ∀ p ∈ (A++x::C).flatMap f,p.key < ma)
    (hB : ∀ p ∈ B.flatMap f,ma < p.key) :
    ((A++x::(C++y::B)).flatMap f).filter (within mi ma)=
      (f x).drop (bisectLeft KeyValue.key (f x) mi)++
        (C.flatMap f++(f y).take (bisectLeft KeyValue.key (f y) ma)) := by
  have hfx : (f x).filter (within mi ma)=(f x).drop (bisectLeft KeyValue.key (f x) mi) :=
    filter_within_drop hsx fun p hp => hAC p (by simp [hp])
  have hfy : (f y).filter (within mi ma)=(f y).take (bisectLeft KeyValue.key (f y) ma) :=
    filter_within_take hsy fun p hp => (hC p (by simp [hp])).le
  have hfC : (C.flatMap f).filter (within mi ma)=C.flatMap f := by
    refine filter_within_all fun p hp => ⟨(hC p ?_).le,hAC p ?_⟩
    · rw [List.flatMap_append]
      exact List.mem_append_left _ hp
    · rw [List.flatMap_append,List.flatMap_cons]
      exact List.mem_append_right _ (List.mem_append_right _ hp)
  simp only [List.flatMap_append,List.flatMap_cons,List.filter_append,hfx,hfy,hfC,
    filter_within_none fun p hp => Or.inl (hA p hp),
    filter_within_none fun p hp => Or.inr (hB p hp).le,List.nil_append,List.append_nil]

end Bisection

section Walk

variable {s : Bptree ν} {x y i : ℕ} {l D : List ℕ} {fuel : ℕ}

/-- A walk along a linked row collects the leaves up to its last one. -/
theorem searchWalk_of_linked (h : Linked (broOf s) (x::(l++y::D))) (hy : y∉l)
    (hlen : l.length < fuel) (hleaf : ∀ z ∈ x::(l++[y]),(s.node z).isleaf=true) :
    searchWalk s y i fuel x=.ok (l.flatMap (vlistOf s)++(vlistOf s y).take i) := by
  induction fuel generalizing x l with
  | zero => omega
  | succ fuel ih =>
    obtain ⟨n,hn,hbro,-⟩ := leafNode_ok (hleaf x (by simp))
    rw [searchWalk]
    simp only [hn,ok_bind,hbro]
    cases l with
    | nil =>
      obtain ⟨m,hm,-,hv⟩ := leafNode_ok (hleaf y (by simp))
      simp only [h.1,hm,ok_bind,if_true,hv]
      rfl
    | cons b l =>
      obtain ⟨m,hm,-,hv⟩ := leafNode_ok (hleaf b (by simp))
      have hby : b≠y := fun he => hy (by simp [he])
      have hrest := ih h.2 (fun hmem => hy (List.mem_cons_of_mem b hmem)) (by simpa using hlen)
        fun z hz => hleaf z (List.mem_cons_of_mem x hz)
      have hsome : broOf s x=some b := h.1
      simp only [hsome,hm,ok_bind,if_neg hby,hrest,hv]
      rw [List.flatMap_cons,List.append_assoc]
      rfl

/-- A walk from a leaf without brother collects nothing. -/
theorem searchWalk_of_none (h : broOf s x=none) (hleaf : (s.node x).isleaf=true) (hfuel : 0 < fuel) :
    searchWalk s y i fuel x=.ok [] := by
  cases fuel with
  | zero => omega
  | succ fuel =>
    obtain ⟨n,hn,hbro,-⟩ := leafNode_ok hleaf
    rw [searchWalk]
    simp only [hn,ok_bind,hbro,h]
    rfl

end Walk

section Range

variable {M L h : ℕ} {Z : ℕ → ℕ → Prop} {s s' : Bptree ν}
  {lev lev' : ℕ → List (Item ℕ (Tok ℤ ν))} {rank : ℕ → ℕ} {kv : KeyValue ℤ ν} {mi ma : ℤ}

/-- Keys of a leaf increase. -/
theorem vlistOf_pairwise (S : Shape s h lev rank) (hs : Strict (tokens s lev)) {x : ℕ}
    (hx : x∈ids (lev 0)) : (vlistOf s x).Pairwise fun a b => a.key < b.key := by
  obtain ⟨A,B,hAB⟩ := List.append_of_mem hx
  have hp := hs.pairs
  rw [S.pairsOf_tokens,hAB,List.flatMap_append,List.flatMap_cons,List.pairwise_append,
    List.pairwise_append] at hp
  exact hp.2.1.1

/-- The leaves of the bounds are one leaf or lie in this order. -/
theorem seated_bounds (S : Shape s h lev rank) (hs : Strict (tokens s lev)) (hlt : mi < ma) {x y : ℕ}
    (hx : Seated lev mi 0 x) (hy : Seated lev ma 0 y) :
    (x=y ∧ ∃ A B,ids (lev 0)=A++x::B ∧ (∀ p ∈ A.flatMap (vlistOf s),p.key < mi) ∧
      ∀ p ∈ B.flatMap (vlistOf s),ma < p.key) ∨
    ∃ A C B,ids (lev 0)=A++x::(C++y::B) ∧ (∀ p ∈ A.flatMap (vlistOf s),p.key < mi) ∧
      (∀ p ∈ (C++y::B).flatMap (vlistOf s),mi < p.key) ∧
      (∀ p ∈ (A++x::C).flatMap (vlistOf s),p.key < ma) ∧ ∀ p ∈ B.flatMap (vlistOf s),ma < p.key := by
  have hsorted := List.Pairwise.sublist (S.tower.toks_sublist (Nat.zero_le h)) hs.sorted
  rcases Seat.before hx hy hsorted (fun _ _ htu hu => le_trans htu hu)
    (fun t ht ht' => by omega) with ⟨rfl,A,B,hAB,hA,hB⟩|⟨A,C,B,hAB,hA,hC,hAC,hB⟩
  · have hAB' : lev 0=(A++[.node x])++B := by rw [hAB]; simp
    exact Or.inl ⟨rfl,ids A,ids B,by rw [hAB]; simp,pairs_before S hs hAB hA,
      pairs_behind S hs hAB' hB⟩
  · have hA' : lev 0=A++(.node x::C++.node y::B) := by rw [hAB]; simp
    have hC' : lev 0=(A++[.node x])++(C++.node y::B) := by rw [hAB]; simp
    have hB' : lev 0=(A++.node x::C++[.node y])++B := by rw [hAB]; simp
    refine Or.inr ⟨ids A,ids C,ids B,by rw [hAB]; simp,pairs_before S hs hA' hA,?_,?_,
      pairs_behind S hs hB' hB⟩
    · have := pairs_behind S hs hC' hC
      rwa [ids_append,ids_node] at this
    · have := pairs_before S hs hAB hAC
      rwa [ids_append,ids_node] at this

/-- The walk from one leaf of a linked row to a later one. -/
theorem Row.walk (W : Row s lev) (S : Shape s h lev rank) {A C B : List ℕ} {x y : ℕ}
    (hrow : ids (lev 0)=A++x::(C++y::B)) (i : ℕ) :
    searchWalk s y i s.next x=.ok (C.flatMap (vlistOf s)++(vlistOf s y).take i) := by
  have hlinked := W.linked
  have hlen := S.leaves_le
  have hleaf := S.leaf
  have hnodup := S.tower.nodup 0 (Nat.zero_le h)
  rw [hrow] at hlinked hlen hleaf hnodup
  have hyC : y∉C := by
    intro hmem
    have hrest := (List.nodup_cons.mp (List.nodup_append.mp hnodup).2.1).2
    exact (List.nodup_append.mp hrest).2.2 y hmem y (by simp) rfl
  have hsub : ∀ z ∈ x::(C++[y]),z∈A++x::(C++y::B) := by
    intro z hz
    simp only [List.mem_cons,List.mem_append,List.not_mem_nil,or_false] at hz ⊢
    tauto
  refine searchWalk_of_linked hlinked.tail_of_append hyC ?_ fun z hz => hleaf z (hsub z hz)
  simp only [List.length_append,List.length_cons] at hlen
  omega

/-- On a linked row a range search returns the pairs in the range. -/
theorem Row.search_range (W : Row s lev) (S : Shape s h lev rank) (hs : Strict (tokens s lev))
    (hlt : mi < ma) :
    search s (some mi) (some ma)=.ok ((pairsOf (tokens s lev)).filter (within mi ma)) := by
  obtain ⟨x,n,hkx,hx,hn⟩ := searchKey_ok (k:=mi) S hs.sorted le_rfl S.tower.seat_root S.height_lt
  obtain ⟨y,m,hky,hy,hm⟩ := searchKey_ok (k:=ma) S hs.sorted le_rfl S.tower.seat_root S.height_lt
  have hvx : vlistOf s x=n.vlist := by simp [vlistOf,hn]
  have hvy : vlistOf s y=m.vlist := by simp [vlistOf,hm]
  have hsx := vlistOf_pairwise S hs hx.mem
  have hsy := vlistOf_pairwise S hs hy.mem
  have hlx : s.leafNode x=.ok n := by simp [Tree.leafNode,hn]
  rw [search,if_neg (by omega),if_neg (by omega)]
  simp only [hkx,hky,ok_bind,hlx]
  rw [S.pairsOf_tokens]
  rcases seated_bounds S hs hlt hx hy with ⟨rfl,A,B,hAB,hA,hB⟩|⟨A,C,B,hAB,hA,hC,hAC,hB⟩
  · rw [hn] at hm
    cases hm
    rw [if_pos rfl,hAB,filter_within_one hsx hA hB,hvx]
    by_cases hij : bisectLeft KeyValue.key n.vlist mi=bisectLeft KeyValue.key n.vlist ma
    · rw [if_pos hij,hij,List.drop_take,Nat.sub_self,List.take_zero]
      rfl
    · rw [if_neg hij]
      rfl
  · have hxy : x≠y := by
      have hnodup := S.tower.nodup 0 (Nat.zero_le h)
      rw [hAB] at hnodup
      intro he
      subst he
      simp [List.nodup_append] at hnodup
    rw [if_neg hxy,W.walk S hAB,hAB,filter_within_two hsx hsy hA hC hAC hB,hvx,hvy]
    rfl

/-- In a row of leaves a range search finds the pairs of the range. -/
theorem Row.ranged (W : Row s lev) (S : Shape s h lev rank) (hs : Strict (tokens s lev))
    {pairs : List (KeyValue ℤ ν)} (hp : (pairsOf (tokens s lev)).Perm pairs) : Ranged s pairs :=
  fun _ _ hlt => ⟨_,W.search_range S hs hlt,hp.filter _,hs.pairs.filter _⟩

/-! ## Cut rows -/

/-- A leaf that is not the last one has no brother. -/
def Cut (s : Bptree ν) (lev : ℕ → List (Item ℕ (Tok ℤ ν))) : Prop :=
  ∃ A x B,ids (lev 0)=A++x::B ∧ B≠[] ∧ broOf s x=none

/-- An insertion that is not clear cuts a linked row. -/
theorem Row.cut (W : Row s lev) (I : Inv M Z s h lev rank) (R : Inserted L kv s lev s' lev')
    (hclear : ¬ClearInsert L s kv) : Cut s' lev' := by
  have hlinked := W.linked
  rcases R.row_cases I with ⟨-,-,hc⟩|⟨A,x,y,B,hAB,hAB',-,-,hby,hiff⟩
  · exact absurd hc hclear
  · rw [hAB] at hlinked
    refine ⟨A++[x],y,B,by rw [hAB']; simp,fun hB => ?_,hby⟩
    exact hclear (hiff.mpr (hlinked.none_iff.mpr hB))

/-- A cut stays: splitting the leaf before it only moves it. -/
theorem Cut.inserted (C : Cut s lev) (I : Inv M Z s h lev rank) (R : Inserted L kv s lev s' lev') :
    Cut s' lev' := by
  obtain ⟨A,z,B,hAB,hB,hz⟩ := C
  rcases R.row_cases I with ⟨hids,hsame,-⟩|⟨A1,x,y,B1,h1,h1',hsame,-,hby,-⟩
  · exact ⟨A,z,B,hids.trans hAB,hB,(hsame z (by rw [hAB]; simp)).trans hz⟩
  · by_cases hB1 : B1=[]
    · subst hB1
      obtain ⟨B2,b,rfl⟩ := List.eq_nil_or_concat B |>.resolve_left hB
      have hlast : A++z::B2++[b]=A1++[x] := by
        rw [←h1,hAB]
        simp
      obtain ⟨rfl,-⟩ := List.append_inj' hlast rfl
      exact ⟨A,z,B2++[x,y],by rw [h1']; simp,by simp,(hsame z (by simp)).trans hz⟩
    · exact ⟨A1++[x],y,B1,by rw [h1']; simp,hB1,hby⟩

/-- The leaf that holds a pair is the place of its key. -/
theorem seated_of_mem (S : Shape s h lev rank) (hs : Strict (tokens s lev)) {x z : ℕ}
    {p : KeyValue ℤ ν} (hx : Seated lev p.key 0 x) (hz : z∈ids (lev 0))
    (hp : p∈vlistOf s z) : x=z := by
  obtain ⟨A,B,hAB,hA,hB⟩ := hx
  have hAB' : lev 0=(A++[.node x])++B := by rw [hAB]; simp
  rw [hAB,ids_append,ids_node] at hz
  rcases List.mem_append.mp hz with hz|hz
  · have := pairs_before S hs hAB hA p (List.mem_flatMap.mpr ⟨z,hz,hp⟩)
    omega
  · rcases List.mem_cons.mp hz with hz|hz
    · exact hz.symm
    · have := pairs_behind S hs hAB' hB p (List.mem_flatMap.mpr ⟨z,hz,hp⟩)
      omega

/-- A tree with several leaves has no empty one. -/
theorem vlistOf_ne_nil (I : Inv M (atMost L) s h lev rank) {x : ℕ} (hx : x∈ids (lev 0))
    (hmany : 1 < (ids (lev 0)).length) : vlistOf s x≠[] := by
  have hpos : 0 < h := by
    rcases Nat.eq_zero_or_pos h with h0|h0
    · subst h0
      rw [I.shape.tower.top] at hmany
      simp at hmany
    · exact h0
  obtain ⟨n,hn,-,hv⟩ := I.shape.node_leaf hx
  have hfit : atMost L h n.vlist.length := by
    have := I.sizes 0 (Nat.zero_le h) x hx
    rwa [hn] at this
  rw [hv]
  exact List.ne_nil_of_length_pos (hfit.2 hpos)

/-- A search that starts before the cut and ends behind it misses pairs. -/
theorem Cut.not_ranged (C : Cut s lev) (I : Inv M (atMost L) s h lev rank)
    (hs : Strict (tokens s lev)) {pairs : List (KeyValue ℤ ν)}
    (hp : (pairsOf (tokens s lev)).Perm pairs) : ¬Ranged s pairs := by
  have S := I.shape
  obtain ⟨A,z,B,hAB,hB,hz⟩ := C
  obtain ⟨w,B,rfl⟩ := List.exists_cons_of_ne_nil hB
  have hzm : z∈ids (lev 0) := by rw [hAB]; simp
  have hwm : w∈ids (lev 0) := by rw [hAB]; simp
  have hmany : 1 < (ids (lev 0)).length := by
    rw [hAB]
    simp
    omega
  obtain ⟨p,hpz⟩ := List.exists_mem_of_ne_nil _ (vlistOf_ne_nil I hzm hmany)
  obtain ⟨q,hqw⟩ := List.exists_mem_of_ne_nil _ (vlistOf_ne_nil I hwm hmany)
  have hrow := hs.pairs
  rw [S.pairsOf_tokens,hAB,List.flatMap_append,List.flatMap_cons,List.flatMap_cons,
    List.pairwise_append,List.pairwise_append] at hrow
  have hless : ∀ a ∈ vlistOf s z,a.key < q.key := fun a ha => hrow.2.1.2.2 a ha q (by simp [hqw])
  have hpq := hless p hpz
  obtain ⟨x,n,hkx,hx,hn⟩ := searchKey_ok (k:=p.key) S hs.sorted le_rfl S.tower.seat_root S.height_lt
  obtain ⟨y,m,hky,hy,hm⟩ := searchKey_ok (k:=q.key+1) S hs.sorted le_rfl S.tower.seat_root
    S.height_lt
  have hxz := seated_of_mem S hs hx hzm hpz
  subst hxz
  have hxy : x≠y := by
    rintro rfl
    obtain ⟨A',B',hAB',-,hB'⟩ := hy
    have hcut : lev 0=(A'++[.node x])++B' := by rw [hAB']; simp
    have hnodup := S.tower.nodup 0 (Nat.zero_le h)
    have hids := hAB
    rw [hAB',ids_append,ids_node] at hids hnodup
    have hxA : x∉ids A' := fun hmem => (List.nodup_append.mp hnodup).2.2 x hmem x (by simp) rfl
    have hxB : x∉ids B' := (List.nodup_cons.mp (List.nodup_append.mp hnodup).2.1).1
    obtain ⟨-,-,hrest⟩ := (List.append_cons_inj_of_notMem hxA hxB).mp hids
    have := pairs_behind S hs hcut hB' q (List.mem_flatMap.mpr ⟨w,by simp [hrest],hqw⟩)
    omega
  have hlx : s.leafNode x=.ok n := by simp [Tree.leafNode,hn]
  have hvx : vlistOf s x=n.vlist := by simp [vlistOf,hn]
  intro hall
  obtain ⟨r,hr,hperm,-⟩ := hall p.key (q.key+1) (by omega)
  rw [search,if_neg (by omega),if_neg (by omega)] at hr
  simp only [hkx,hky,ok_bind,hlx,if_neg hxy] at hr
  rw [searchWalk_of_none hz (S.leaf x hzm) (by have := S.height_lt; omega)] at hr
  have hrn : n.vlist.drop (bisectLeft KeyValue.key n.vlist p.key)++[]=r := Except.ok.inj hr
  have hq : q∈pairs.filter (within p.key (q.key+1)) := by
    refine List.mem_filter.mpr ⟨hp.subset ?_,decide_eq_true ⟨by omega,by omega⟩⟩
    rw [S.pairsOf_tokens]
    exact List.mem_flatMap.mpr ⟨w,hwm,hqw⟩
  have hqr := hperm.symm.subset hq
  rw [←hrn,List.append_nil] at hqr
  have := hless q (by rw [hvx]; exact List.mem_of_mem_drop hqr)
  omega

/-! ## Runs of insertions -/

/-- After a run from a linked row, range searches are right exactly when all
insertions are clear. -/
theorem Row.ranged_iff (W : Row s lev) (I : Inv M (atMost L) s h lev rank) (hM : 3 < M) (hL : 1 ≤ L)
    (hs : Strict (tokens s lev)) {given rest : List (KeyValue ℤ ν)}
    (hp : (pairsOf (tokens s lev)).Perm given) (hd : ((given++rest).map KeyValue.key).Nodup) :
    (∃ s1,insertAll M L s rest=.ok s1 ∧ Ranged s1 (given++rest)) ↔ ClearRun M L s rest := by
  induction rest generalizing s h lev rank given with
  | nil =>
    refine ⟨fun _ => trivial,fun _ => ⟨s,rfl,?_⟩⟩
    rw [List.append_nil]
    exact W.ranged I.shape hs hp
  | cons kv rest ih =>
    obtain ⟨s1,h1,lev1,rank1,hs1,I1,R⟩ := I.insert_ok hM hL (leafSizes_atMost hL) kv
    have hst1 := R.entered.strict hs (fresh_of_nodup hp hd)
    have hp1 := R.entered.putBehind.perm hp
    have hd1 : ((given++[kv]++rest).map KeyValue.key).Nodup := by simpa using hd
    rw [clearRun_cons hs1,insertAll_cons hs1,List.append_cons]
    by_cases hclear : ClearInsert L s kv
    · rw [and_iff_right hclear]
      exact ih (W.inserted I R hclear) I1 hst1 hp1 hd1
    · refine ⟨fun hrun => ?_,fun hc => (hclear hc.1).elim⟩
      obtain ⟨s2,hs2,hranged⟩ := hrun
      obtain ⟨s3,h3,lev3,rank3,hs3,I3,hst3,hp3,C⟩ := I1.insertAll_keep (K:=Cut)
        (fun _ _ _ _ _ _ _ I R C => C.inserted I R) hM hL
        (leafSizes_atMost hL) hst1 (W.cut I R hclear) hp1 hd1
      rw [hs3] at hs2
      cases hs2
      exact (C.not_ranged I3 hst3 hp3 hranged).elim

/-- Over a run of insertions of distinct keys into a new tree, range searches
return exactly the pairs in the range, in order, if and only if every
insertion was clear. -/
theorem ranged_iff_clearRun (hM : 4 ≤ M) (hL : 1 ≤ L) (hLM : L ≤ M) {pairs : List (KeyValue ℤ ν)}
    (hd : (pairs.map KeyValue.key).Nodup) :
    (∃ s0 s,init M L=.ok s0 ∧ insertAll M L s0 pairs=.ok s ∧ Ranged s pairs) ↔
      ClearRun M L (empty : Bptree ν) pairs := by
  have hinit : init M L=.ok (empty : Bptree ν) := init_eq hLM
  have I0 := inv_atMost_empty (ν:=ν) M L
  have W0 : Row (empty : Bptree ν) fun _ => [.node 0] := ⟨rfl,rfl⟩
  have hp0 : (pairsOf (tokens (empty : Bptree ν) fun _ => [.node 0])).Perm [] := List.Perm.nil
  rw [←W0.ranged_iff I0 (by omega) hL List.Pairwise.nil hp0 hd]
  constructor
  · rintro ⟨s0,s,h0,hs,hr⟩
    rw [hinit] at h0
    cases h0
    exact ⟨s,hs,hr⟩
  · rintro ⟨s,hs,hr⟩
    exact ⟨empty,s,hinit,hs,hr⟩

/-- Five keys in a tree with two pairs a leaf. -/
theorem ranged_iff_clearRun_five :
    (∃ s0 s,init 4 2=.ok s0 ∧ insertAll 4 2 s0 [⟨1,0⟩,⟨3,1⟩,⟨2,2⟩,⟨5,3⟩,⟨4,4⟩]=.ok s ∧
      Ranged s [⟨1,0⟩,⟨3,1⟩,⟨2,2⟩,⟨5,3⟩,⟨4,4⟩]) ↔
      ClearRun 4 2 (empty : Bptree ℕ) [⟨1,0⟩,⟨3,1⟩,⟨2,2⟩,⟨5,3⟩,⟨4,4⟩] :=
  ranged_iff_clearRun (by decide) (by decide) (by decide) (by decide)

/-- Three descending keys in a tree with one pair a leaf: a search over all of
them misses the first one. -/
theorem ranged_descending_false :
    ¬∀ (M L : ℕ) (pairs : List (KeyValue ℤ ℕ)),4 ≤ M → 1 ≤ L → L ≤ M →
      (pairs.map KeyValue.key).Nodup →
      ∃ s0 s,init M L=.ok s0 ∧ insertAll M L s0 pairs=.ok s ∧ Ranged s pairs := by
  intro hall
  obtain ⟨s0,s,h0,hs,hr⟩ := hall 4 1 [⟨2,0⟩,⟨1,1⟩,⟨0,2⟩] (by decide) (by decide) (by decide)
    (by decide)
  obtain ⟨q,hq,hp,-⟩ := hr 0 3 (by decide)
  have hrun : (do
      let s0 ← init 4 1
      let s ← insertAll 4 1 s0 [⟨2,0⟩,⟨1,1⟩,⟨0,2⟩]
      search s (some 0) (some 3) : Except PyError (List (KeyValue ℤ ℕ)))=.ok [⟨0,2⟩,⟨1,1⟩] := rfl
  rw [h0,ok_bind,hs,ok_bind,hq] at hrun
  cases hrun
  exact absurd hp.length_eq (by decide)

end Range

end StudyCode.Bplus.V1
