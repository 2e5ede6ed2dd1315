import StudyCode.BplusReach

/-!
# Repairs between two brothers

A deletion moves an entry between two neighbouring children of a node, or
merges two neighbouring leaves. Moving changes the separator between the
two children and the two children, merging removes a separator with the
child behind it; both replace a segment below one node.
-/

namespace StudyCode.Bplus

open Frontier

variable {κ ν β : Type}

/-- Lists of an internal node around two neighbouring children. -/
theorem InterNode.around_two {n : InterNode κ} (hn : n.clist.length=n.ilist.length+1) {j a b : ℕ}
    {k : κ} (ha : n.clist[j]?=some a) (hb : n.clist[j+1]?=some b) (hk : n.ilist[j]?=some k) :
    ∃ c1 c2 k1 k2,n.clist=c1++a::b::c2 ∧ n.ilist=k1++k::k2 ∧ c1.length=j ∧ k1.length=j ∧
      k2.length=c2.length := by
  obtain ⟨hja,rfl⟩ := List.getElem?_eq_some_iff.mp ha
  obtain ⟨hjb,rfl⟩ := List.getElem?_eq_some_iff.mp hb
  obtain ⟨hjk,rfl⟩ := List.getElem?_eq_some_iff.mp hk
  refine ⟨n.clist.take j,n.clist.drop (j+2),n.ilist.take j,n.ilist.drop (j+1),?_,?_,?_,?_,?_⟩
  · nth_rewrite 1 [←List.take_append_drop j n.clist]
    rw [List.drop_eq_getElem_cons hja,List.drop_eq_getElem_cons hjb]
  · nth_rewrite 1 [←List.take_append_drop j n.ilist]
    rw [List.drop_eq_getElem_cons hjk]
  · rw [List.length_take]
    omega
  · rw [List.length_take]
    omega
  · rw [List.length_drop,List.length_drop]
    omega

/-- Items of a node around two neighbouring children. -/
theorem items_around_two {s : Tree κ ν β} {x a b : ℕ} {c1 c2 : List ℕ} {k1 k2 : List κ} {k : κ}
    {v : Option ℕ} (hx : s.node x=.inter ⟨k1++k::k2,c1++a::b::c2,v⟩) (h1 : c1.length=k1.length) :
    s.items x=leftPairs c1 (k1.map Tok.sep)++[Item.node a,Item.tok (Tok.sep k),Item.node b]++
      rightPairs (k2.map Tok.sep) c2 := by
  rw [Tree.items,hx]
  simp only [Node.items,List.map_append,List.map_cons]
  rw [weave_split (by simpa using h1)]
  simp

/-- Items of a node around one child. -/
theorem items_around_one {s : Tree κ ν β} {x a : ℕ} {c1 c2 : List ℕ} {k1 k2 : List κ}
    {v : Option ℕ} (hx : s.node x=.inter ⟨k1++k2,c1++a::c2,v⟩) (h1 : c1.length=k1.length) :
    s.items x=leftPairs c1 (k1.map Tok.sep)++[Item.node a]++rightPairs (k2.map Tok.sep) c2 := by
  rw [Tree.items,hx]
  simp only [Node.items,List.map_append]
  rw [weave_split (by simpa using h1)]
  simp

/-- The outcome of moving entries between two neighbouring children. -/
structure Moved (s s' : Tree κ ν β) (x a b : ℕ) (n : InterNode κ) (j : ℕ) (k k' : κ)
    (na nb : Node κ ν β) : Prop where
  /-- The root stays. -/
  root : s'.root=s.root
  /-- No object is made. -/
  next : s'.next=s.next
  /-- The parent before. -/
  parent : s.node x=.inter n
  /-- The left child. -/
  left : n.clist[j]?=some a
  /-- The right child. -/
  right : n.clist[j+1]?=some b
  /-- The separator between them. -/
  sep : n.ilist[j]?=some k
  /-- The parent after. -/
  parent' : s'.node x=.inter {n with ilist := n.ilist.set j k'}
  /-- The left child after. -/
  left' : s'.node a=na
  /-- The right child after. -/
  right' : s'.node b=nb
  /-- Children of the two name them as parents, nothing else changes. -/
  other : ∀ z,z≠x → z≠a → z≠b → s'.node z=
    if z∈ids na.items then (s.node z).setPar (some a)
    else if z∈ids nb.items then (s.node z).setPar (some b) else s.node z

section Moved

variable {s s' : Tree κ ν β} {h i j x a b : ℕ} {lev : ℕ → List (Item ℕ (Tok κ ν))} {rank : ℕ → ℕ}
  {n : InterNode κ} {k k' : κ} {na nb : Node κ ν β}

/-- Nodes besides the three only change their parent. -/
theorem Moved.frame (P : Moved s s' x a b n j k k' na nb) {z : ℕ} (hx : z≠x) (ha : z≠a) (hb : z≠b) :
    ∃ v,s'.node z=(s.node z).setPar v := by
  rw [P.other z hx ha hb]
  split
  · exact ⟨_,rfl⟩
  · split
    · exact ⟨_,rfl⟩
    · exact ⟨_,((s.node z).setPar_self).symm⟩

/-- The two children in the frontier of their parent. -/
theorem Shape.two_children (S : Shape s h lev rank) (hi : i < h) (hx : x∈ids (lev (i+1)))
    (hn : s.node x=.inter n) (ha : n.clist[j]?=some a) (hb : n.clist[j+1]?=some b) :
    a∈ids (lev i) ∧ b∈ids (lev i) ∧ a≠b ∧ a≠x ∧ b≠x ∧ (s.node a).par=some x ∧
      (s.node b).par=some x := by
  obtain ⟨n',hn',-,-,hids⟩ := S.node_inter hi hx
  rw [hn] at hn'
  cases hn'
  obtain ⟨ga,-,gpa⟩ := S.child hi hx (by rw [hids]; exact List.mem_of_getElem? ha)
  obtain ⟨gb,-,gpb⟩ := S.child hi hx (by rw [hids]; exact List.mem_of_getElem? hb)
  have hnd := S.tower.nodup_node hi hx
  rw [hids] at hnd
  obtain ⟨hja,rfl⟩ := List.getElem?_eq_some_iff.mp ha
  obtain ⟨hjb,rfl⟩ := List.getElem?_eq_some_iff.mp hb
  refine ⟨ga,gb,fun hab => ?_,S.ne_of_level (by omega) hi (by omega) ga hx,
    S.ne_of_level (by omega) hi (by omega) gb hx,gpa,gpb⟩
  have := (List.Nodup.getElem_inj_iff hnd).mp hab
  omega

section Handed

variable (S : Shape s h lev rank) (hi : i < h) (ha : a∈ids (lev i)) (hb : b∈ids (lev i))
  (hleaf : i=0 → na.isleaf=true ∧ nb.isleaf=true)
  (hkept : 0 < i →
    na.items++Item.tok (Tok.sep k')::nb.items=s.items a++Item.tok (Tok.sep k)::s.items b)

include S hi ha hb hleaf hkept

/-- Children of the two nodes after a move were children of one of them before. -/
theorem Shape.handed_child {c : ℕ} (hc : c∈ids na.items ∨ c∈ids nb.items) :
    ∃ i',i=i'+1 ∧ c∈ids (lev i') ∧ ((s.node c).par=some a ∨ (s.node c).par=some b) := by
  rcases Nat.eq_zero_or_pos i with h0|h0
  · rw [Node.ids_items_leaf (hleaf h0).1,Node.ids_items_leaf (hleaf h0).2] at hc
    rcases hc with hc|hc <;> cases hc
  · obtain ⟨i',rfl⟩ : ∃ i',i=i'+1 := ⟨i-1,by omega⟩
    have hmem : c∈ids (s.items a) ∨ c∈ids (s.items b) := by
      have hids := congrArg ids (hkept h0)
      simp only [ids_append,ids_tok] at hids
      rw [←List.mem_append,←hids,List.mem_append]
      exact hc
    rcases hmem with hmem|hmem
    · obtain ⟨g1,-,g3⟩ := S.child (show i' < h by omega) ha hmem
      exact ⟨i',rfl,g1,Or.inl g3⟩
    · obtain ⟨g1,-,g3⟩ := S.child (show i' < h by omega) hb hmem
      exact ⟨i',rfl,g1,Or.inr g3⟩

/-- A child of another node is a child of neither. -/
theorem Shape.handed_not (hax : a≠x) (hbx : b≠x) {z : ℕ} (hz : (s.node z).par=some x) :
    z∉ids na.items ∧ z∉ids nb.items := by
  rw [←not_or]
  intro hm
  obtain ⟨-,-,-,hp|hp⟩ := S.handed_child hi ha hb hleaf hkept hm <;> rw [hz] at hp
  · exact hax (Option.some.inj hp).symm
  · exact hbx (Option.some.inj hp).symm

/-- A child of the two nodes after a move is none of the three nodes. -/
theorem Shape.handed_ne (hx : x∈ids (lev (i+1))) {c : ℕ} (hc : c∈ids na.items ∨ c∈ids nb.items) :
    c≠x ∧ c≠a ∧ c≠b := by
  obtain ⟨i',hi',g1,-⟩ := S.handed_child hi ha hb hleaf hkept hc
  exact ⟨S.ne_of_level (by omega) hi (by omega) g1 hx,
    S.ne_of_level (by omega) (by omega) (by omega) g1 ha,
    S.ne_of_level (by omega) (by omega) (by omega) g1 hb⟩

/-- No node is a child of both. -/
theorem Shape.handed_disjoint (hx : x∈ids (lev (i+1))) {C D : List (Item ℕ (Tok κ ν))}
    (he : s.items x=C++[Item.node a,Item.tok (Tok.sep k),Item.node b]++D) {c : ℕ}
    (hcb : c∈ids nb.items) : c∉ids na.items := by
  intro hca
  obtain ⟨i',rfl,-,-⟩ := S.handed_child hi ha hb hleaf hkept (Or.inl hca)
  have hnd := S.tower.nodup i' (by omega)
  obtain ⟨A,B,hAB⟩ := mem_ids_iff.mp hx
  have hopen := S.tower.open_node hi hAB he
  have hstep := S.tower.step i' (show i' < h by omega)
  rw [hstep,hopen] at hnd
  simp only [grow_append,grow_node,grow_tok,grow_nil,List.append_nil] at hnd
  rw [←hkept (by omega)] at hnd
  simp only [ids_append,ids_tok,List.nodup_append,List.mem_append] at hnd
  exact hnd.1.2.1.2.2 c hca c hcb rfl

end Handed

/-- Moving entries keeps the shape when the items of the two children are
kept above the leaves. -/
theorem Moved.shape (P : Moved s s' x a b n j k k' na nb) (S : Shape s h lev rank) (hi : i < h)
    (hx : x∈ids (lev (i+1))) (hpa : na.par=some x) (hpb : nb.par=some x)
    (hleaf : i=0 → na.isleaf=true ∧ nb.isleaf=true)
    (hinter : 0 < i → na.Joint ∧ nb.Joint ∧
      na.items++Item.tok (Tok.sep k')::nb.items=s.items a++Item.tok (Tok.sep k)::s.items b) :
    ∃ A B,lev i=A++[Item.node a,Item.tok (Tok.sep k),Item.node b]++B ∧
      Shape s' h (Function.update lev i (A++[Item.node a,Item.tok (Tok.sep k'),Item.node b]++B))
        rank := by
  obtain ⟨n',hn',hlen,-,hids⟩ := S.node_inter hi hx
  rw [P.parent] at hn'
  cases hn'
  obtain ⟨ha,hb,hab,hax,hbx,gpa,gpb⟩ := S.two_children hi hx P.parent P.left P.right
  obtain ⟨c1,c2,k1,k2,hc,hk,hc1,hk1,hk2⟩ := InterNode.around_two hlen P.left P.right P.sep
  have hset : n.ilist.set j k'=k1++k'::k2 := by
    rw [hk,←hk1]
    simp
  have hpar' : s'.node x=.inter ⟨k1++k'::k2,c1++a::b::c2,n.par⟩ := by
    rw [P.parent',hset,hc]
  have hlen' : (c1++a::b::c2).length=(k1++k'::k2).length+1 := by
    simp
    omega
  have he := items_around_two (s:=s) (x:=x) (v:=n.par) (by
    rw [P.parent,←hk,←hc]) (show c1.length=k1.length by omega)
  have he' := items_around_two hpar' (show c1.length=k1.length by omega)
  have hidsx : ids (s'.items x)=c1++a::b::c2 := by
    rw [Tree.items,hpar',Node.ids_items_inter hlen']
  have hw : ∀ t : κ,∀ z ∈ ids ([.node a,.tok (.sep t),.node b] : List (Item ℕ (Tok κ ν))),
      z=a ∨ z=b := by
    intro t z hz
    simpa using hz
  have hkept := fun h0 => (hinter h0).2.2
  apply S.replace P.root (by rw [P.next]) hi hx he he' ⟨_,hpar',hlen'⟩
  · intro h0
    simp only [grow_node,grow_tok,grow_nil,List.append_nil]
    rw [←hkept h0,Tree.items,Tree.items,P.left',P.right']
  · intro z hz hzx hzw
    exact P.frame hzx (fun hza => hzw (by simp [hza])) fun hzb => hzw (by simp [hzb])
  · exact fun _ _ => rfl
  · intro z hz
    rcases hw k' z hz with rfl|rfl
    · exact S.tower.rank_eq i (by omega) z ha
    · exact S.tower.rank_eq i (by omega) z hb
  · intro z hz
    exact Or.inl hz
  · simpa using hab
  · intro z hz
    by_cases h0 : i=0
    · rw [if_pos h0]
      rcases hw k' z hz with rfl|rfl
      · rw [P.left']
        exact (hleaf h0).1
      · rw [P.right']
        exact (hleaf h0).2
    · rw [if_neg h0]
      rcases hw k' z hz with rfl|rfl
      · rw [P.left']
        exact (hinter (by omega)).1
      · rw [P.right']
        exact (hinter (by omega)).2.1
  · intro c hclt hcx hcw
    by_cases hcx' : c=x
    · rw [hcx',hpar',P.parent]
      rfl
    · have hca : c≠a := fun hca => hcx (hca ▸ gpa)
      have hcb : c≠b := fun hcb => hcx (hcb ▸ gpb)
      have hno : ¬(c∈ids na.items ∨ c∈ids nb.items) := by
        intro hm
        obtain ⟨-,-,-,hp|hp⟩ := S.handed_child hi ha hb hleaf hkept hm
        · exact hcw a (by simp) hp
        · exact hcw b (by simp) hp
      rw [not_or] at hno
      rw [P.other c hcx' hca hcb,if_neg hno.1,if_neg hno.2]
  · intro c hcm
    rw [hidsx,←hc,←hids] at hcm
    obtain ⟨g1,g2,g3⟩ := S.child hi hx hcm
    by_cases hca : c=a
    · rw [hca,P.left',hpa]
    · by_cases hcb : c=b
      · rw [hcb,P.right',hpb]
      · have hno := S.handed_not hi ha hb hleaf hkept hax hbx g3
        rw [P.other c (S.ne_of_level (by omega) hi (by omega) g1 hx) hca hcb,if_neg hno.1,
          if_neg hno.2,g3]
  · intro z hz c hcm
    rcases hw k' z hz with rfl|rfl
    · rw [Tree.items,P.left'] at hcm
      obtain ⟨g1,g2,g3⟩ := S.handed_ne hi ha hb hleaf hkept hx (Or.inl hcm)
      rw [P.other c g1 g2 g3,if_pos hcm,Node.setPar_par]
    · rw [Tree.items,P.right'] at hcm
      obtain ⟨g1,g2,g3⟩ := S.handed_ne hi ha hb hleaf hkept hx (Or.inr hcm)
      rw [P.other c g1 g2 g3,if_neg (S.handed_disjoint hi ha hb hleaf hkept hx he hcm),
        if_pos hcm,Node.setPar_par]

/-- After a move it is enough to look at the three nodes. -/
theorem Moved.every (P : Moved s s' x a b n j k k' na nb) (S : Shape s h lev rank) (hi : i < h)
    {A B : List (Item ℕ (Tok κ ν))}
    (hlev : lev i=A++[Item.node a,Item.tok (Tok.sep k),Item.node b]++B)
    {Z : Node κ ν β → Prop} (E : Every s h lev fun _ m => Z m) (hZ : ∀ m v,Z m → Z (Node.setPar v m))
    (ha : Z na) (hb : Z nb) (hx : Z (s'.node x)) :
    Every s' h (Function.update lev i (A++[Item.node a,Item.tok (Tok.sep k'),Item.node b]++B))
      fun _ m => Z m := by
  intro j hj z hz
  by_cases hzx : z=x
  · rw [hzx]
    exact hx
  rcases S.tower.mem_replace (by omega) hlev hj hz with ⟨-,hz'⟩|⟨hz',hzw⟩
  · simp only [ids_node,ids_tok,ids_nil,List.mem_cons,List.not_mem_nil,or_false] at hz'
    rcases hz' with rfl|rfl
    · rw [P.left']
      exact ha
    · rw [P.right']
      exact hb
  · simp only [ids_node,ids_tok,ids_nil,List.mem_cons,List.not_mem_nil,or_false,not_or] at hzw
    obtain ⟨v,hv⟩ := P.frame hzx hzw.1 hzw.2
    rw [hv]
    exact hZ _ v (E j hj z hz')

/-- Tokens around two neighbouring leaves before and after a move. -/
theorem Moved.tokens (P : Moved s s' x a b n j k k' na nb) (S : Shape s h lev rank) (hh : 0 < h)
    (hx : x∈ids (lev 1)) {A B : List (Item ℕ (Tok κ ν))}
    (hlev : lev 0=A++[Item.node a,Item.tok (Tok.sep k),Item.node b]++B)
    {va vb va' vb' : List (KeyValue κ ν)}
    (ha : s.items a=pairItems va) (hb : s.items b=pairItems vb) (ha' : na.items=pairItems va')
    (hb' : nb.items=pairItems vb') :
    ∃ l r,tokens s lev=l++va.map Tok.kv++Tok.sep k::(vb.map Tok.kv++r) ∧
      tokens s' (Function.update lev 0 (A++[Item.node a,Item.tok (Tok.sep k'),Item.node b]++B))=
        l++va'.map Tok.kv++Tok.sep k'::(vb'.map Tok.kv++r) := by
  have hnd := S.tower.nodup 0 (Nat.zero_le h)
  rw [hlev] at hnd
  simp only [ids_append,ids_node,ids_tok,ids_nil,List.nodup_append,List.mem_append,List.mem_cons,
    List.not_mem_nil,or_false] at hnd
  have hne : ∀ z ∈ ids (lev 0),z≠x := fun z hz =>
    S.ne_of_level (Nat.zero_le h) hh (by omega) hz hx
  have hA : grow s'.items A=grow s.items A := grow_congr fun z hz =>
    items_setPar (P.frame (hne z (by simp [hlev,hz])) (hnd.1.2.2 z hz a (Or.inl rfl))
      (hnd.1.2.2 z hz b (Or.inr rfl)))
  have hB : grow s'.items B=grow s.items B := grow_congr fun z hz =>
    items_setPar (P.frame (hne z (by simp [hlev,hz]))
      (hnd.2.2 a (Or.inr (Or.inl rfl)) z hz).symm (hnd.2.2 b (Or.inr (Or.inr rfl)) z hz).symm)
  have ga : s'.items a=pairItems va' := by rw [Tree.items,P.left',ha']
  have gb : s'.items b=pairItems vb' := by rw [Tree.items,P.right',hb']
  refine ⟨toks (grow s.items A),toks (grow s.items B),?_,?_⟩
  · rw [Bplus.tokens,hlev,grow_append,grow_append]
    simp only [grow_node,grow_tok,grow_nil,ha,hb,toks_append,toks_tok,toks_pairItems,
      List.append_nil,List.append_assoc,List.cons_append]
  · rw [Bplus.tokens,Function.update_self,grow_append,grow_append,hA,hB]
    simp only [grow_node,grow_tok,grow_nil,ga,gb,toks_append,toks_tok,toks_pairItems,
      List.append_nil,List.append_assoc,List.cons_append]

end Moved

/-! ## Merging leaves -/

/-- The outcome of merging a leaf with the next one below a node. -/
structure Merged (s s' : Tree κ ν β) (x a b : ℕ) (n : InterNode κ) (j : ℕ) (k : κ)
    (na : Node κ ν β) : Prop where
  /-- The root stays. -/
  root : s'.root=s.root
  /-- No object is made. -/
  next : s'.next=s.next
  /-- The parent before. -/
  parent : s.node x=.inter n
  /-- The left child. -/
  left : n.clist[j]?=some a
  /-- The right child. -/
  right : n.clist[j+1]?=some b
  /-- The separator between them. -/
  sep : n.ilist[j]?=some k
  /-- The parent after. -/
  parent' : s'.node x=.inter {n with
    ilist := n.ilist.eraseIdx j,
    clist := n.clist.eraseIdx (j+1)}
  /-- The left child after. -/
  left' : s'.node a=na
  /-- Nothing else changes. -/
  other : ∀ z,z≠x → z≠a → s'.node z=s.node z

section Merged

variable {s s' : Tree κ ν β} {h j x a b : ℕ} {lev : ℕ → List (Item ℕ (Tok κ ν))} {rank : ℕ → ℕ}
  {n : InterNode κ} {k : κ} {na : Node κ ν β}

/-- Merging leaves keeps the shape. -/
theorem Merged.shape (P : Merged s s' x a b n j k na) (S : Shape s h lev rank) (hh : 0 < h)
    (hx : x∈ids (lev 1)) (hpa : na.par=some x) (hleaf : na.isleaf=true) :
    ∃ A B,lev 0=A++[Item.node a,Item.tok (Tok.sep k),Item.node b]++B ∧
      Shape s' h (Function.update lev 0 (A++[Item.node a]++B)) rank := by
  obtain ⟨n',hn',hlen,-,hids⟩ := S.node_inter hh hx
  rw [P.parent] at hn'
  cases hn'
  obtain ⟨ha,hb,hab,hax,hbx,gpa,gpb⟩ := S.two_children hh hx P.parent P.left P.right
  obtain ⟨c1,c2,k1,k2,hc,hk,hc1,hk1,hk2⟩ := InterNode.around_two hlen P.left P.right P.sep
  have hik : n.ilist.eraseIdx j=k1++k2 := by
    rw [hk,List.eraseIdx_append_of_length_le (by omega),hk1,Nat.sub_self]
    rfl
  have hic : n.clist.eraseIdx (j+1)=c1++a::c2 := by
    rw [hc,List.eraseIdx_append_of_length_le (by omega),hc1,show j+1-j=1 by omega]
    rfl
  have hpar' : s'.node x=.inter ⟨k1++k2,c1++a::c2,n.par⟩ := by
    rw [P.parent',hik,hic]
  have hlen' : (c1++a::c2).length=(k1++k2).length+1 := by
    simp
    omega
  have he := items_around_two (s:=s) (x:=x) (v:=n.par) (by
    rw [P.parent,←hk,←hc]) (show c1.length=k1.length by omega)
  have he' := items_around_one hpar' (show c1.length=k1.length by omega)
  have hidsx : ids (s'.items x)=c1++a::c2 := by
    rw [Tree.items,hpar',Node.ids_items_inter hlen']
  apply S.replace P.root (by rw [P.next]) hh hx he he' ⟨_,hpar',hlen'⟩
  · intro h0
    omega
  · intro z hz hzx hzw
    simp only [ids_node,ids_tok,ids_nil,List.mem_cons,List.not_mem_nil,or_false,not_or] at hzw
    rw [P.other z hzx hzw.1]
    exact ⟨_,((s.node z).setPar_self).symm⟩
  · exact fun _ _ => rfl
  · intro z hz
    have hza : z=a := by simpa using hz
    rw [hza]
    exact S.tower.rank_eq 0 (Nat.zero_le h) a ha
  · intro z hz
    have hza : z=a := by simpa using hz
    exact Or.inl (by simp [hza])
  · exact List.nodup_singleton a
  · intro z hz
    have hza : z=a := by simpa using hz
    rw [if_pos rfl,hza,P.left']
    exact hleaf
  · intro c hclt hcx hcw
    by_cases hcx' : c=x
    · rw [hcx',hpar',P.parent]
      rfl
    · rw [P.other c hcx' fun hca => hcx (hca ▸ gpa)]
  · intro c hcm
    by_cases hca : c=a
    · rw [hca,P.left',hpa]
    · have hcn : c∈n.clist := by
        rw [hidsx] at hcm
        rw [hc]
        simp only [List.mem_append,List.mem_cons] at hcm ⊢
        tauto
      rw [←hids] at hcn
      obtain ⟨g1,g2,g3⟩ := S.child hh hx hcn
      rw [P.other c (S.ne_of_level (by omega) hh (by omega) g1 hx) hca,g3]
  · intro z hz c hcm
    have hza : z=a := by simpa using hz
    rw [hza,Tree.items,P.left',Node.ids_items_leaf hleaf] at hcm
    cases hcm

/-- After merging it is enough to look at the two nodes. -/
theorem Merged.every (P : Merged s s' x a b n j k na) (S : Shape s h lev rank)
    {A B : List (Item ℕ (Tok κ ν))}
    (hlev : lev 0=A++[Item.node a,Item.tok (Tok.sep k),Item.node b]++B)
    {Z : ℕ → Node κ ν β → Prop} (E : Every s h lev Z) (ha : Z a na)
    (hx : Z x (s'.node x)) : Every s' h (Function.update lev 0 (A++[Item.node a]++B)) Z := by
  intro j hj z hz
  by_cases hzx : z=x
  · rw [hzx]
    exact hx
  rcases S.tower.mem_replace (Nat.zero_le h) hlev hj hz with ⟨-,hz'⟩|⟨hz',hzw⟩
  · have hza : z=a := by simpa using hz'
    rw [hza,P.left']
    exact ha
  · simp only [ids_node,ids_tok,ids_nil,List.mem_cons,List.not_mem_nil,or_false,not_or] at hzw
    rw [P.other z hzx hzw.1]
    exact E j hj z hz'

/-- Tokens around two leaves before and after merging. -/
theorem Merged.tokens (P : Merged s s' x a b n j k na) (S : Shape s h lev rank) (hh : 0 < h)
    (hx : x∈ids (lev 1)) {A B : List (Item ℕ (Tok κ ν))}
    (hlev : lev 0=A++[Item.node a,Item.tok (Tok.sep k),Item.node b]++B)
    {va vb : List (KeyValue κ ν)}
    (ha : s.items a=pairItems va) (hb : s.items b=pairItems vb) (ha' : na.items=pairItems (va++vb)) :
    ∃ l r,tokens s lev=l++Tok.sep k::r ∧
      tokens s' (Function.update lev 0 (A++[Item.node a]++B))=l++r := by
  have hnd := S.tower.nodup 0 (Nat.zero_le h)
  rw [hlev] at hnd
  simp only [ids_append,ids_node,ids_tok,ids_nil,List.nodup_append,List.mem_append,List.mem_cons,
    List.not_mem_nil,or_false] at hnd
  have hne : ∀ z ∈ ids (lev 0),z≠x := fun z hz =>
    S.ne_of_level (Nat.zero_le h) hh (by omega) hz hx
  have hitems : ∀ z ∈ ids (lev 0),z≠a → s'.items z=s.items z := fun z hz hza => by
    rw [Tree.items,P.other z (hne z hz) hza,Tree.items]
  have hA : grow s'.items A=grow s.items A := grow_congr fun z hz =>
    hitems z (by simp [hlev,hz]) (hnd.1.2.2 z hz a (Or.inl rfl))
  have hB : grow s'.items B=grow s.items B := grow_congr fun z hz =>
    hitems z (by simp [hlev,hz]) (hnd.2.2 a (Or.inr (Or.inl rfl)) z hz).symm
  have ga : s'.items a=pairItems (va++vb) := by rw [Tree.items,P.left',ha']
  refine ⟨toks (grow s.items A)++va.map Tok.kv,vb.map Tok.kv++toks (grow s.items B),?_,?_⟩
  · rw [Bplus.tokens,hlev,grow_append,grow_append]
    simp only [grow_node,grow_tok,grow_nil,ha,hb,toks_append,toks_tok,toks_pairItems,
      List.append_nil,List.append_assoc,List.cons_append]
  · rw [Bplus.tokens,Function.update_self,grow_append,grow_append,hA,hB]
    simp only [grow_node,grow_nil,ga,toks_append,toks_pairItems,List.map_append,
      List.append_nil,List.append_assoc]

/-- A root with a single child gives way to it. -/
theorem Shape.collapse (S : Shape s (h+1) lev rank) {v : Option ℕ}
    (hr : s.node s.root=.inter ⟨[],[a],v⟩) :
    Shape {s.setPar a none with root := a} h lev rank := by
  have hnode : ∀ z,({s.setPar a none with root := a} : Tree κ ν β).node z=
      if z=a then (s.node z).setPar none else s.node z :=
    fun z => Tree.setPar_node s a z none
  have hset : ∀ z,∃ v,({s.setPar a none with root := a} : Tree κ ν β).node z=(s.node z).setPar v := by
    intro z
    rw [hnode]
    split
    · exact ⟨_,rfl⟩
    · exact ⟨_,((s.node z).setPar_self).symm⟩
  have hitems : ({s.setPar a none with root := a} : Tree κ ν β).items=s.items :=
    funext fun z => items_setPar (hset z)
  have hbot : lev h=[.node a] := by
    rw [S.tower.step h (by omega),S.tower.top,grow_node,grow_nil,List.append_nil,Tree.items,hr]
    rfl
  have ha : a∈ids (lev h) := by
    rw [hbot]
    simp
  refine ⟨?_,fun i hi => S.lt i (by omega),fun z hz => ?_,fun i hi z hz => ?_,
    fun i hi z hz c hc => ?_,?_⟩
  · rw [hitems]
    exact S.tower.collapse hbot
  · obtain ⟨v,hv⟩ := hset z
    rw [hv,Node.setPar_isleaf]
    exact S.leaf z hz
  · obtain ⟨v,hv⟩ := hset z
    rw [hv]
    exact (S.joint i (by omega) z hz).setPar v
  · rw [hitems] at hc
    obtain ⟨g1,-,g3⟩ := S.child (by omega) hz hc
    rw [hnode,if_neg (S.ne_of_level (by omega) (by omega) (by omega) g1 ha),g3]
  · show (({s.setPar a none with root := a} : Tree κ ν β).node a).par=none
    rw [hnode,if_pos rfl,Node.setPar_par]

end Merged

/-! ## Order around a separator -/

section Order

variable [LinearOrder κ] {s : Tree κ ν β} {h i x a b : ℕ} {lev : ℕ → List (Item ℕ (Tok κ ν))}
  {rank : ℕ → ℕ} {k : κ}

/-- Tokens of two neighbouring children and the separator between them. -/
theorem Shape.between (S : Shape s h lev rank) (hs : Sorted (tokens s lev)) (hi : i < h)
    (hx : x∈ids (lev (i+1))) {C D : List (Item ℕ (Tok κ ν))}
    (he : s.items x=C++[Item.node a,Item.tok (Tok.sep k),Item.node b]++D) :
    (∀ t ∈ toks (s.items a),t.key ≤ k) ∧ ∀ t ∈ toks (s.items b),k ≤ t.key := by
  obtain ⟨A,B,hAB⟩ := mem_ids_iff.mp hx
  have hopen := S.tower.open_node hi hAB he
  have hsub := S.tower.toks_grow_sublist (show i ≤ h by omega)
  have hp := List.Pairwise.sublist hsub hs
  rw [hopen] at hp
  simp only [grow_append,grow_node,grow_tok,grow_nil,List.append_nil,toks_append,toks_tok] at hp
  have hmid := (List.pairwise_append.mp (List.pairwise_append.mp hp).1).2.1
  obtain ⟨-,hright,hleft⟩ := List.pairwise_append.mp hmid
  exact ⟨fun t ht => hleft t ht (.sep k) (by simp),fun t ht => (List.pairwise_cons.mp hright).1 t ht⟩

/-- Tokens of two neighbouring children of an internal node. -/
theorem Shape.between_children (S : Shape s h lev rank) (hs : Sorted (tokens s lev)) (hi : i < h)
    (hx : x∈ids (lev (i+1))) {n : InterNode κ} (hn : s.node x=.inter n) {j : ℕ}
    (ha : n.clist[j]?=some a) (hb : n.clist[j+1]?=some b) (hk : n.ilist[j]?=some k) :
    (∀ t ∈ toks (s.items a),t.key ≤ k) ∧ ∀ t ∈ toks (s.items b),k ≤ t.key := by
  obtain ⟨n',hn',hlen,-⟩ := S.node_inter hi hx
  rw [hn] at hn'
  cases hn'
  obtain ⟨c1,c2,k1,k2,hc,hk',hc1,hk1,-⟩ := InterNode.around_two hlen ha hb hk
  exact S.between hs hi hx (items_around_two (v:=n.par) (by rw [hn,←hk',←hc])
    (show c1.length=k1.length by omega))

/-- The position that a bisection to the right must give. -/
theorem bisectRight_eq {l : List κ} {p : ℕ} (hp : p ≤ l.length) (hle : ∀ t ∈ l.take p,t ≤ k)
    (hgt : ∀ t ∈ l.drop p,k < t) : bisectRight id l k=p := by
  have h1 : ∀ t ∈ l.take p,decide (k < id t)=false := fun t ht => by simpa using hle t ht
  have h2 : ∀ t ∈ l.drop p,decide (k < id t)=true := fun t ht => by simpa using hgt t ht
  have := Bisect.bisect_append h1 h2
  rw [List.take_append_drop,List.length_take,Nat.min_eq_left hp] at this
  exact this

/-- The separator behind the position may be replaced by any greater one. -/
theorem bisectRight_set_right {l : List κ} {p : ℕ} (hs : l.Pairwise fun u v => id u ≤ id v)
    (hp : bisectRight id l k=p) (hlt : p < l.length) :
    k < l[p] ∧ ∀ t,k < t → bisectRight id (l.set p t) k=p := by
  obtain ⟨-,hle,hgt⟩ := bisectRight_spec hs k
  rw [hp] at hle hgt
  refine ⟨hgt _ (List.mem_drop_iff_getElem.mpr ⟨0,by simpa using hlt,by simp⟩),fun t ht => ?_⟩
  refine bisectRight_eq (by rw [List.length_set]; omega) (fun u hu => ?_) fun u hu => ?_
  · rw [List.take_set_of_le (le_refl p)] at hu
    exact hle u hu
  · rw [List.drop_set,if_neg (lt_irrefl p)] at hu
    rcases List.mem_or_eq_of_mem_set hu with hu|rfl
    · exact hgt u hu
    · exact ht

/-- The separator before the position may be replaced by any that is not greater. -/
theorem bisectRight_set_left {l : List κ} {p : ℕ} (hs : l.Pairwise fun u v => id u ≤ id v)
    (hp : bisectRight id l k=p+1) (hlt : p < l.length) :
    l[p] ≤ k ∧ ∀ t,t ≤ k → bisectRight id (l.set p t) k=p+1 := by
  obtain ⟨-,hle,hgt⟩ := bisectRight_spec hs k
  rw [hp] at hle hgt
  refine ⟨hle _ (List.mem_take_iff_getElem.mpr ⟨p,by omega,rfl⟩),fun t ht => ?_⟩
  refine bisectRight_eq (by rw [List.length_set]; omega) (fun u hu => ?_) fun u hu => ?_
  · rw [List.take_set] at hu
    rcases List.mem_or_eq_of_mem_set hu with hu|rfl
    · exact hle u hu
    · exact ht
  · rw [List.drop_set,if_pos (by omega)] at hu
    exact hgt u hu

/-- The separator behind the position may be erased. -/
theorem bisectRight_eraseIdx {l : List κ} {p : ℕ} (hs : l.Pairwise fun u v => id u ≤ id v)
    (hp : bisectRight id l k=p) (hlt : p < l.length) : bisectRight id (l.eraseIdx p) k=p := by
  obtain ⟨-,hle,hgt⟩ := bisectRight_spec hs k
  rw [hp] at hle hgt
  refine bisectRight_eq (by rw [List.length_eraseIdx,if_pos hlt]; omega) (fun t ht => ?_)
    fun t ht => ?_
  · rw [List.take_eraseIdx_eq_take_of_le _ _ _ le_rfl] at ht
    exact hle t ht
  · rw [List.eraseIdx_eq_take_drop_succ,List.drop_left' (by simp; omega),←List.drop_drop] at ht
    exact hgt t (List.mem_of_mem_drop ht)

end Order

end StudyCode.Bplus
