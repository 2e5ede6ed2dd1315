import StudyCode.BplusSplit

/-!
# Order of the tokens

The tokens of a tree, separators and pairs from left to right, say what the
tree holds: they are ordered by key, a descent by bisection ends in the leaf
where a key belongs, and inserting there inserts into the tokens. Splits of
internal nodes leave the tokens alone, a split of a leaf puts a separator
between two pairs.
-/

namespace StudyCode.Bplus

open Frontier

variable {κ ν β : Type}

/-- Tokens of a tree from left to right. -/
def tokens (s : Tree κ ν β) (lev : ℕ → List (Item ℕ (Tok κ ν))) : List (Tok κ ν) :=
  toks (grow s.items (lev 0))

/-- Pairs among tokens. -/
def pairsOf (l : List (Tok κ ν)) : List (KeyValue κ ν) := l.filterMap Tok.pair?

/-- Pairs of appended tokens. -/
@[simp] theorem pairsOf_append (l r : List (Tok κ ν)) :
    pairsOf (l++r)=pairsOf l++pairsOf r := List.filterMap_append

@[simp] theorem pairsOf_nil : pairsOf ([] : List (Tok κ ν))=[] := rfl

/-- A separator adds no pair. -/
@[simp] theorem pairsOf_sep (k : κ) (l : List (Tok κ ν)) : pairsOf (.sep k::l)=pairsOf l := rfl

@[simp] theorem pairsOf_kv (p : KeyValue κ ν) (l : List (Tok κ ν)) :
    pairsOf (.kv p::l)=p::pairsOf l := rfl

/-- The pairs of a leaf. -/
@[simp] theorem pairsOf_map_kv (v : List (KeyValue κ ν)) : pairsOf (v.map Tok.kv)=v := by
  induction v with
  | nil => rfl
  | cons a v ih => rw [List.map_cons,pairsOf_kv,ih]

/-- The pairs of some tokens are those among them. -/
theorem mem_pairsOf {l : List (Tok κ ν)} {p : KeyValue κ ν} : p∈pairsOf l ↔ .kv p∈l := by
  induction l with
  | nil => simp
  | cons t l ih =>
    cases t with
    | sep k => simp [ih]
    | kv q => simp [ih]

/-! ## Statements about every node -/

/-- Every node of a tower has a property. -/
def Every (s : Tree κ ν β) (h : ℕ) (lev : ℕ → List (Item ℕ (Tok κ ν)))
    (Z : ℕ → Node κ ν β → Prop) : Prop := ∀ j,j ≤ h → ∀ z ∈ ids (lev j),Z z (s.node z)

/-- Numbers of separators and of pairs are allowed. -/
def Node.Fit (I L : ℕ → Prop) : Node κ ν β → Prop
  | inter n => I n.ilist.length
  | leaf n => L n.vlist.length

/-- Numbers of separators allowed by an order. -/
def InterSize (M m : ℕ) : Prop := 1 ≤ m ∧ m < M

/-- The sizes do not depend on the parent. -/
theorem Node.Fit.setPar {I L : ℕ → Prop} {n : Node κ ν β} (h : n.Fit I L) (v : Option ℕ) :
    (n.setPar v).Fit I L := by
  cases n <;> exact h

/-- Looser bounds on a leaf are kept as well. -/
theorem Node.Fit.mono {I L L' : ℕ → Prop} {n : Node κ ν β} (h : n.Fit I L)
    (hL : ∀ m,L m → L' m) : n.Fit I L' := by
  cases n with
  | inter n => exact h
  | leaf n => exact hL _ h

section Every

variable {s s' : Tree κ ν β} {h i x p : ℕ} {lev : ℕ → List (Item ℕ (Tok κ ν))} {rank : ℕ → ℕ}
  {nl nr : Node κ ν β} {k : κ} {Z Z' : ℕ → Node κ ν β → Prop}

/-- After a split below the root it is enough to look at the three nodes. -/
theorem SplitBelow.every {q : InterNode κ} (P : SplitBelow s s' x p q nl nr k)
    (S : Shape s h lev rank) (hi : i < h) {A B : List (Item ℕ (Tok κ ν))}
    (hlev : lev i=A++[Item.node x]++B) (E : Every s h lev Z) (hZ : ∀ z,z≠x → z≠p → ∀ n v,
      Z z n → Z' z (Node.setPar v n))
    (hl : Z' x nl) (hr : Z' s.next nr) (hp : Z' p (s'.node p)) :
    Every s' h (Function.update lev i (A++[Item.node x,Item.tok (Tok.sep k),Item.node s.next]++B))
      Z' := by
  intro j hj z hz
  by_cases hzp : z=p
  · rw [hzp]
    exact hp
  rcases S.tower.mem_replace (by omega) hlev hj hz with ⟨-,hz'⟩|⟨hz',hzx⟩
  · simp only [ids_node,ids_tok,ids_nil,List.mem_cons,List.not_mem_nil,or_false] at hz'
    rcases hz' with rfl|rfl
    · rw [P.left]
      exact hl
    · rw [P.right]
      exact hr
  · simp only [ids_node,ids_nil,List.mem_singleton] at hzx
    have hlt := S.lt j hj z hz'
    rw [P.other z hzx hzp (by omega)]
    split
    · exact hZ z hzx hzp _ _ (E j hj z hz')
    · have := hZ z hzx hzp _ (s.node z).par (E j hj z hz')
      rwa [Node.setPar_self] at this

/-- After a split of the root it is enough to look at the three nodes. -/
theorem SplitRoot.every (P : SplitRoot s s' s.root nl nr k) (S : Shape s h lev rank)
    (E : Every s h lev Z) (hZ : ∀ z,z≠s.root → ∀ n v,Z z n → Z' z (Node.setPar v n))
    (hl : Z' s.root nl) (hr : Z' s.next nr) (hp : Z' (s.next+1) (s'.node (s.next+1))) :
    Every s' (h+1) (Function.update (Function.update lev h
      [.node s.root,.tok (.sep k),.node s.next]) (h+1) [.node (s.next+1)]) Z' := by
  intro j hj z hz
  rcases Tower.mem_lift hj hz with ⟨-,rfl⟩|⟨-,hz'⟩|⟨hj',hz'⟩
  · exact hp
  · simp only [ids_node,ids_tok,ids_nil,List.mem_cons,List.not_mem_nil,or_false] at hz'
    rcases hz' with rfl|rfl
    · rw [P.left]
      exact hl
    · rw [P.right]
      exact hr
  · have hlt := S.lt j (by omega) z hz'
    have hzx := S.ne_of_level (by omega) le_rfl (by omega) hz' S.tower.root_mem
    rw [P.other z hzx (by omega) (by omega)]
    split
    · exact hZ z hzx _ _ (E j (by omega) z hz')
    · have := hZ z hzx _ (s.node z).par (E j (by omega) z hz')
      rwa [Node.setPar_self] at this

end Every

/-! ## Descent -/

section Order

variable [LinearOrder κ] {s s' : Tree κ ν β} {h i x : ℕ} {lev : ℕ → List (Item ℕ (Tok κ ν))}
  {rank : ℕ → ℕ} {k : κ}

/-- Tokens in the order of their keys. -/
def Sorted (l : List (Tok κ ν)) : Prop := l.Pairwise fun t u => t.key ≤ u.key

/-- The place of a key in a frontier: separators before it are not greater,
separators behind it are greater. -/
def Seated (lev : ℕ → List (Item ℕ (Tok κ ν))) (k : κ) (i x : ℕ) : Prop :=
  Seat lev (fun t => t.key ≤ k) (fun t => k < t.key) i x

/-- In a sorted list the greater keys stand at the end, as a bisection needs. -/
theorem suffix_of_sorted {α : Type} {key : α → κ} {l : List α}
    (hs : l.Pairwise fun a b => key a ≤ key b) (k : κ) :
    Bisect.Suffix (fun a => decide (k < key a)) l := by
  refine hs.imp fun {a b} hab h => ?_
  simp only [decide_eq_true_eq] at h ⊢
  exact h.trans_le hab

/-- A bisection to the right cuts an ordered list at a key. -/
theorem bisectRight_spec {α : Type} {key : α → κ} {l : List α}
    (hs : l.Pairwise fun a b => key a ≤ key b) (k : κ) :
    bisectRight key l k ≤ l.length ∧ (∀ a ∈ l.take (bisectRight key l k),key a ≤ k) ∧
      ∀ a ∈ l.drop (bisectRight key l k),k < key a := by
  have hsuf := suffix_of_sorted hs k
  refine ⟨Bisect.bisect_le hsuf,fun a ha => ?_,fun a ha => ?_⟩
  · have := Bisect.take_bisect hsuf a ha
    simpa using this
  · have := Bisect.drop_bisect hsuf a ha
    simpa using this

/-- A bisection to the left cuts an ordered list before a key. -/
theorem bisectLeft_spec {α : Type} {key : α → κ} {l : List α}
    (hs : l.Pairwise fun a b => key a ≤ key b) (k : κ) :
    (∀ a ∈ l.take (bisectLeft key l k),key a < k) ∧ ∀ a ∈ l.drop (bisectLeft key l k),k ≤ key a := by
  have hsuf : Bisect.Suffix (fun a => decide (¬key a < k)) l := by
    refine hs.imp fun {a b} hab h => ?_
    simp only [not_lt,decide_eq_true_eq] at h ⊢
    exact h.trans hab
  refine ⟨fun a ha => ?_,fun a ha => ?_⟩
  · have := Bisect.take_bisect hsuf a ha
    simpa using this
  · have := Bisect.drop_bisect hsuf a ha
    simpa using this

/-- Separators of a node are ordered. -/
theorem Shape.ilist_sorted (S : Shape s h lev rank) (hs : Sorted (tokens s lev)) (hi : i < h)
    {n : InterNode κ} (hx : x∈ids (lev (i+1))) (hn : s.node x=.inter n) :
    n.ilist.Pairwise fun a b => a ≤ b := by
  obtain ⟨r,hr1,hr2⟩ := S.joint i hi x hx
  rw [hn] at hr1
  cases hr1
  have hsub := S.tower.toks_node_sublist (show i+1 ≤ h by omega) hx
  have hp := List.Pairwise.sublist hsub hs
  rw [Tree.items,hn] at hp
  simp only [Node.items] at hp
  rw [toks_weave (by simpa using hr2),List.pairwise_map] at hp
  exact hp

/-- Pairs of a leaf are ordered. -/
theorem Shape.vlist_sorted (S : Shape s h lev rank) (hs : Sorted (tokens s lev))
    {n : Leaf κ ν β} (hx : x∈ids (lev 0)) (hn : s.node x=.leaf n) :
    n.vlist.Pairwise fun a b => a.key ≤ b.key := by
  have hsub := S.tower.toks_node_sublist (Nat.zero_le h) hx
  have hp := List.Pairwise.sublist hsub hs
  rw [Tree.items,hn] at hp
  simp only [Node.items] at hp
  rw [toks_map_tok,List.pairwise_map] at hp
  exact hp

/-- Bisection in an internal node finds the child where a key belongs. -/
theorem Shape.descend (S : Shape s h lev rank) (hs : Sorted (tokens s lev)) (hi : i < h)
    {n : InterNode κ} (hx : Seated lev k (i+1) x) (hn : s.node x=.inter n) :
    ∃ c,item n.clist (bisectRight id n.ilist k)=.ok c ∧ Seated lev k i c := by
  obtain ⟨r,hr1,hr2⟩ := S.joint i hi x hx.mem
  rw [hn] at hr1
  cases hr1
  have hsorted : n.ilist.Pairwise fun a b => id a ≤ id b := S.ilist_sorted hs hi hx.mem hn
  obtain ⟨hle,hleft,hright⟩ := bisectRight_spec hsorted k
  generalize bisectRight id n.ilist k=p at hle hleft hright
  have hlt : p < n.clist.length := by omega
  refine ⟨n.clist[p],item_ok hlt,?_⟩
  have he : s.items x=leftPairs (n.clist.take p) ((n.ilist.take p).map Tok.sep)++
      .node n.clist[p]::rightPairs ((n.ilist.drop p).map Tok.sep) (n.clist.drop (p+1)) := by
    rw [Tree.items,hn,←weave_split (by simp; omega),←List.map_append,List.take_append_drop,
      ←List.drop_eq_getElem_cons hlt,List.take_append_drop]
    rfl
  refine Seat.descend hx S.tower hi he (ends_leftPairs (by simp; omega) ?_) (starts_rightPairs ?_)
  · intro t ht
    obtain ⟨a,ha,rfl⟩ := List.mem_map.mp ht
    exact hleft a ha
  · intro t ht
    obtain ⟨a,ha,rfl⟩ := List.mem_map.mp ht
    exact hright a ha

/-- A key has one place on a frontier. -/
theorem Shape.seated_unique (S : Shape s h lev rank) (hs : Sorted (tokens s lev)) (hi : i ≤ h)
    {y : ℕ} (hx : Seated lev k i x) (hy : Seated lev k i y) : x=y :=
  Seat.unique hx hy (List.Pairwise.sublist (S.tower.toks_sublist hi) hs)
    (fun _ _ htu hu => le_trans htu hu) fun _ => not_lt.mpr

/-- A key has a place on every frontier. -/
theorem Shape.exists_seated (S : Shape s h lev rank) (hs : Sorted (tokens s lev)) (k : κ) {d : ℕ}
    (hd : d ≤ h) : ∃ x,Seated lev k (h-d) x := by
  induction d with
  | zero => exact ⟨s.root,S.tower.seat_root⟩
  | succ d ih =>
    obtain ⟨x,hx⟩ := ih (by omega)
    rw [show h-d=h-(d+1)+1 by omega] at hx
    obtain ⟨n,hn,-⟩ := S.joint (h-(d+1)) (by omega) x hx.mem
    obtain ⟨c,-,hc⟩ := S.descend hs (by omega) hx hn
    exact ⟨c,hc⟩

/-- The parent of the place of a key is its place one frontier up. -/
theorem Shape.seated_parent (S : Shape s h lev rank) (hs : Sorted (tokens s lev)) (hi : i < h)
    (hx : Seated lev k i x) {p : ℕ} (hpar : (s.node x).par=some p) : Seated lev k (i+1) p := by
  obtain ⟨y,hy⟩ := S.exists_seated hs k (show h-(i+1) ≤ h by omega)
  rw [show h-(h-(i+1))=i+1 by omega] at hy
  obtain ⟨n,hn,hlen⟩ := S.joint i hi y hy.mem
  obtain ⟨c,hc,hseat⟩ := S.descend hs hi hy hn
  have hcx := S.seated_unique hs (by omega) hx hseat
  subst hcx
  have hmem : x∈ids (s.items y) := by
    rw [Tree.items,hn,Node.ids_items_inter hlen]
    exact mem_of_item hc
  have hy' := S.par i hi y hy.mem x hmem
  rw [hpar] at hy'
  cases hy'
  exact hy

/-- Tokens around the leaf where a key belongs. -/
theorem Seated.tokens (hx : Seated lev k 0 x) (hs : Sorted (tokens s lev)) {n : Leaf κ ν β}
    (hn : s.node x=.leaf n) :
    ∃ A B,lev 0=A++[Item.node x]++B ∧
      Bplus.tokens s lev=toks (grow s.items A)++n.vlist.map Tok.kv++toks (grow s.items B) ∧
      (∀ t ∈ toks (grow s.items A),t.key ≤ k) ∧ ∀ t ∈ toks (grow s.items B),k < t.key := by
  obtain ⟨A,B,hAB,hA,hB⟩ := hx
  have htok : Bplus.tokens s lev=
      toks (grow s.items A)++n.vlist.map Tok.kv++toks (grow s.items B) := by
    rw [Bplus.tokens,hAB,grow_append,grow_node,toks_append,toks_append,Tree.items,hn]
    simp [Node.items]
  have hp := hs
  rw [htok,Sorted,List.pairwise_append,List.pairwise_append] at hp
  refine ⟨A,B,by rw [hAB]; simp,htok,?_,?_⟩
  · exact hA.grow.forall_toks hp.1.1 fun t u htu hu => le_trans htu hu
  · exact hB.grow.forall_toks hp.2.1 fun t u htu ht => lt_of_lt_of_le ht htu

/-! ## Insertion into a leaf -/

/-- An element put between those that are related to it. -/
theorem pairwise_insert {α : Type*} {R : α → α → Prop} {l r : List α} {a : α}
    (h : (l++r).Pairwise R) (hl : ∀ u ∈ l,R u a) (hr : ∀ u ∈ r,R a u) : (l++a::r).Pairwise R := by
  rw [List.pairwise_append] at h ⊢
  refine ⟨h.1,List.pairwise_cons.mpr ⟨hr,h.2.1⟩,fun u hu v hv => ?_⟩
  rcases List.mem_cons.mp hv with rfl|hv
  · exact hl u hu
  · exact h.2.2 u hu v hv

/-- Tokens with a pair inserted in order. -/
theorem Sorted.insert {l r : List (Tok κ ν)} (hs : Sorted (l++r)) {t : Tok κ ν}
    (hl : ∀ u ∈ l,u.key ≤ t.key) (hr : ∀ u ∈ r,t.key ≤ u.key) : Sorted (l++t::r) :=
  pairwise_insert hs hl hr

/-- Tokens with the key of a pair put before it as a separator. -/
theorem Sorted.divide {l r : List (Tok κ ν)} {p : KeyValue κ ν} (hs : Sorted (l++Tok.kv p::r)) :
    Sorted (l++Tok.sep p.key::.kv p::r) := by
  have hp := hs
  unfold Sorted at hp
  rw [List.pairwise_append,List.pairwise_cons] at hp
  refine Sorted.insert hs (fun u hu => hp.2.2 u hu (.kv p) (by simp)) fun u hu => ?_
  rcases List.mem_cons.mp hu with rfl|hu
  · exact le_rfl
  · exact hp.2.1.1 u hu

omit [LinearOrder κ] in
/-- Changing the pairs or the brothers of a leaf keeps the shape. -/
theorem Shape.set_leaf (S : Shape s h lev rank) {n n' : Leaf κ ν β} (hx : x∈ids (lev 0))
    (hn : s.node x=.leaf n) (hpar : n'.par=n.par) : Shape (s.set x (.leaf n')) h lev rank := by
  have hne : ∀ j,j < h → ∀ z ∈ ids (lev (j+1)),z≠x := fun j hj z hz =>
    S.ne_of_level (by omega) (Nat.zero_le h) (by omega) hz hx
  have hpar' : ∀ c,((s.set x (.leaf n')).node c).par=(s.node c).par := by
    intro c
    by_cases hc : c=x
    · subst hc
      rw [Tree.set_node_self,hn]
      exact hpar
    · rw [Tree.set_node_of_ne s hc]
  have hitems : ∀ j,j < h → ∀ z ∈ ids (lev (j+1)),(s.set x (.leaf n')).items z=s.items z := by
    intro j hj z hz
    rw [Tree.items,Tree.set_node_of_ne s (hne j hj z hz),Tree.items]
  refine ⟨S.tower.congr hitems,S.lt,?_,?_,?_,?_⟩
  · intro z hz
    by_cases hzx : z=x
    · subst hzx
      rw [Tree.set_node_self]
      rfl
    · rw [Tree.set_node_of_ne s hzx]
      exact S.leaf z hz
  · intro j hj z hz
    rw [Tree.set_node_of_ne s (hne j hj z hz)]
    exact S.joint j hj z hz
  · intro j hj z hz c hc
    rw [hitems j hj z hz] at hc
    rw [hpar']
    exact S.par j hj z hz c hc
  · rw [hpar']
    exact S.par_root

omit [LinearOrder κ] in
/-- Opening a segment that does not hold a changed leaf. -/
theorem grow_set_of_not_mem {n : Node κ ν β} {A : List (Item ℕ (Tok κ ν))} (hx : x∉ids A) :
    grow (s.set x n).items A=grow s.items A := by
  refine grow_congr fun z hz => ?_
  have hzx : z≠x := fun hzx => hx (hzx ▸ hz)
  rw [Tree.items,Tree.set_node_of_ne s hzx,Tree.items]

omit [LinearOrder κ] in
/-- A node stands only once on its frontier. -/
theorem Shape.not_mem_segments (S : Shape s h lev rank) {A B : List (Item ℕ (Tok κ ν))} (hi : i ≤ h)
    (hlev : lev i=A++[Item.node x]++B) : x∉ids A ∧ x∉ids B := by
  have hnd := S.tower.nodup i hi
  rw [hlev] at hnd
  simp only [ids_append,ids_node,ids_nil,List.nodup_append,List.mem_append,
    List.mem_singleton] at hnd
  exact ⟨fun h => hnd.1.2.2 x h x rfl rfl,fun h => hnd.2.2 x (Or.inr rfl) x h rfl⟩

/-- The leaf with a pair inserted. -/
def Leaf.inserted (n : Leaf κ ν β) (kv : KeyValue κ ν) : Leaf κ ν β :=
  {n with vlist := insertAt n.vlist (bisectRight KeyValue.key n.vlist kv.key) kv}

/-- Inserting into the leaf where a key belongs inserts behind all pairs that
are not greater. -/
theorem Shape.insert_leaf (S : Shape s h lev rank) (hs : Sorted (tokens s lev))
    {kv : KeyValue κ ν} (hx : Seated lev kv.key 0 x) {n : Leaf κ ν β} (hn : s.node x=.leaf n) :
    Shape (s.set x (.leaf (n.inserted kv))) h lev rank ∧
    ∃ l r,tokens s lev=l++r ∧ tokens (s.set x (.leaf (n.inserted kv))) lev=l++Tok.kv kv::r ∧
      (∀ t ∈ l,t.key ≤ kv.key) ∧ ∀ t ∈ r,kv.key < t.key := by
  refine ⟨S.set_leaf hx.mem hn rfl,?_⟩
  obtain ⟨A,B,hAB,htok,hA,hB⟩ := hx.tokens hs hn
  obtain ⟨hle,hleft,hright⟩ := bisectRight_spec (S.vlist_sorted hs hx.mem hn) kv.key
  obtain ⟨hxA,hxB⟩ := S.not_mem_segments (Nat.zero_le h) hAB
  have htok' : tokens (s.set x (.leaf (n.inserted kv))) lev=
      toks (grow s.items A)++(n.inserted kv).vlist.map Tok.kv++toks (grow s.items B) := by
    rw [tokens,hAB,grow_append,grow_append,toks_append,toks_append,grow_set_of_not_mem hxA,
      grow_set_of_not_mem hxB,grow_node,grow_nil,List.append_nil,Tree.items,Tree.set_node_self]
    simp [Node.items]
  unfold Leaf.inserted insertAt at htok' ⊢
  generalize bisectRight KeyValue.key n.vlist kv.key=p at hle hleft hright htok' ⊢
  refine ⟨toks (grow s.items A)++(n.vlist.take p).map Tok.kv,
    (n.vlist.drop p).map Tok.kv++toks (grow s.items B),?_,?_,?_,?_⟩
  · rw [htok]
    nth_rewrite 1 [←List.take_append_drop p n.vlist]
    simp only [List.map_append,List.append_assoc]
  · rw [htok']
    simp only [List.map_append,List.map_cons,List.append_assoc,List.cons_append]
  · intro t ht
    rcases List.mem_append.mp ht with ht|ht
    · exact hA t ht
    · obtain ⟨a,ha,rfl⟩ := List.mem_map.mp ht
      exact hleft a ha
  · intro t ht
    rcases List.mem_append.mp ht with ht|ht
    · obtain ⟨a,ha,rfl⟩ := List.mem_map.mp ht
      exact hright a ha
    · exact hB t ht

end Order

/-! ## Tokens of split trees -/

section SplitTokens

variable {s s' : Tree κ ν β} {h x y : ℕ} {lev lev' : ℕ → List (Item ℕ (Tok κ ν))}
  {rank : ℕ → ℕ} {k : κ}

/-- Items of a list of pairs. -/
def pairItems (v : List (KeyValue κ ν)) : List (Item ℕ (Tok κ ν)) := v.map fun p => .tok (.kv p)

/-- The tokens of a leaf are its pairs. -/
@[simp] theorem toks_pairItems (v : List (KeyValue κ ν)) : toks (pairItems v)=v.map Tok.kv :=
  toks_map_tok _ _

/-- Opening two leaves in the place of one in a frontier that is otherwise
unchanged. -/
theorem tokens_halves (S : Shape s h lev rank) {A B : List (Item ℕ (Tok κ ν))}
    (hlev : lev 0=A++[Item.node x]++B)
    (hlev' : lev' 0=A++[Item.node x,Item.tok (Tok.sep k),Item.node y]++B)
    (hsame : ∀ z ∈ ids (lev 0),z≠x → s'.items z=s.items z) {v1 v2 : List (KeyValue κ ν)}
    (hx : s'.items x=pairItems v1) (hy : s'.items y=pairItems v2) :
    tokens s' lev'=toks (grow s.items A)++v1.map Tok.kv++
      .sep k::(v2.map Tok.kv++toks (grow s.items B)) := by
  obtain ⟨hxA,hxB⟩ := S.not_mem_segments (Nat.zero_le h) hlev
  have hA : grow s'.items A=grow s.items A := grow_congr fun z hz =>
    hsame z (by simp [hlev,hz]) fun hzx => hxA (hzx ▸ hz)
  have hB : grow s'.items B=grow s.items B := grow_congr fun z hz =>
    hsame z (by simp [hlev,hz]) fun hzx => hxB (hzx ▸ hz)
  rw [tokens,hlev',grow_append,grow_append,hA,hB]
  simp only [grow_node,grow_tok,grow_nil,hx,hy,toks_append,toks_tok,toks_pairItems,
    List.append_nil,List.append_assoc,List.cons_append]

/-- Splitting a leaf puts the key of a pair before it as a separator. -/
theorem divide_leaf (S : Shape s h lev rank) {n : Leaf κ ν β} (hn : s.node x=.leaf n) {mid : ℕ}
    {p : KeyValue κ ν} (hp : n.vlist[mid]?=some p) {A B : List (Item ℕ (Tok κ ν))}
    (hlev : lev 0=A++[Item.node x]++B)
    (hlev' : lev' 0=A++[Item.node x,Item.tok (Tok.sep p.key),Item.node y]++B)
    (hsame : ∀ z ∈ ids (lev 0),z≠x → s'.items z=s.items z)
    (hx : s'.items x=pairItems (n.vlist.take mid)) (hy : s'.items y=pairItems (n.vlist.drop mid)) :
    ∃ l r,tokens s lev=l++Tok.kv p::r ∧ tokens s' lev'=l++Tok.sep p.key::.kv p::r := by
  obtain ⟨hlt,rfl⟩ := List.getElem?_eq_some_iff.mp hp
  have hdrop := List.drop_eq_getElem_cons hlt
  have htok : tokens s lev=toks (grow s.items A)++n.vlist.map Tok.kv++toks (grow s.items B) := by
    rw [tokens,hlev,grow_append,grow_append,grow_node,grow_nil,List.append_nil,Tree.items,hn]
    simp [Node.items]
  refine ⟨toks (grow s.items A)++(n.vlist.take mid).map Tok.kv,
    (n.vlist.drop (mid+1)).map Tok.kv++toks (grow s.items B),?_,?_⟩
  · rw [htok]
    nth_rewrite 1 [←List.take_append_drop mid n.vlist]
    rw [hdrop]
    simp only [List.map_append,List.map_cons,List.append_assoc,List.cons_append]
  · rw [tokens_halves S hlev hlev' hsame hx hy,hdrop]
    simp only [List.map_cons,List.append_assoc,List.cons_append]

end SplitTokens

/-! ## Pairs -/

section Pairs

variable [LinearOrder κ] {kv : KeyValue κ ν}

omit [LinearOrder κ] in
/-- Pairs are ordered as the tokens are. -/
theorem pairwise_pairsOf {R : κ → κ → Prop} {l : List (Tok κ ν)}
    (hs : l.Pairwise fun t u => R t.key u.key) :
    (pairsOf l).Pairwise fun p q => R p.key q.key := by
  refine List.Pairwise.filterMap _ ?_ hs
  intro t u htu p hp q hq
  cases t with
  | sep k => cases hp
  | kv a =>
    cases u with
    | sep k => cases hq
    | kv b =>
      cases hp
      cases hq
      exact htu

/-- A pair is put behind all pairs with keys that are not greater. -/
def PutBehind (kv : KeyValue κ ν) (q q' : List (KeyValue κ ν)) : Prop :=
  ∃ a b,q=a++b ∧ q'=a++kv::b ∧ (∀ p ∈ a,p.key ≤ kv.key) ∧ ∀ p ∈ b,kv.key < p.key

/-- Putting a pair in adds it to what is there. -/
theorem PutBehind.perm {q q' given : List (KeyValue κ ν)} (hput : PutBehind kv q q')
    (hp : q.Perm given) : q'.Perm (given++[kv]) := by
  obtain ⟨a,b,rfl,rfl,-,-⟩ := hput
  exact List.perm_middle.trans ((hp.cons kv).trans (List.perm_append_singleton kv given).symm)

/-- Behind the tokens up to the key is behind the pairs up to the key. -/
theorem putBehind_of_tokens {l r : List (Tok κ ν)} (hl : ∀ t ∈ l,t.key ≤ kv.key)
    (hr : ∀ t ∈ r,kv.key < t.key) :
    PutBehind kv (pairsOf (l++r)) (pairsOf l++kv::pairsOf r) :=
  ⟨pairsOf l,pairsOf r,pairsOf_append l r,rfl,fun _ hp => hl _ (mem_pairsOf.mp hp),
    fun _ hp => hr _ (mem_pairsOf.mp hp)⟩

/-- A list holds given pairs ordered by key and, for one key, in the order
in which they are given. -/
structure Arranged (given q : List (KeyValue κ ν)) : Prop where
  /-- The same pairs. -/
  perm : q.Perm given
  /-- Ordered by key. -/
  sorted : q.Pairwise fun a b => a.key ≤ b.key
  /-- In the given order for one key. -/
  stable : ∀ k,q.filter (fun p => decide (p.key=k))=given.filter fun p => decide (p.key=k)

/-- Putting one pair behind its equals keeps the arrangement. -/
theorem Arranged.put {given q q' : List (KeyValue κ ν)} {kv : KeyValue κ ν} (A : Arranged given q)
    (hput : PutBehind kv q q') : Arranged (given++[kv]) q' := by
  have hperm := hput.perm A.perm
  obtain ⟨a,b,rfl,rfl,ha,hb⟩ := hput
  have hs := A.sorted
  rw [List.pairwise_append] at hs
  refine ⟨hperm,?_,?_⟩
  · rw [List.pairwise_append,List.pairwise_cons]
    refine ⟨hs.1,⟨fun p hp => (hb p hp).le,hs.2.1⟩,fun p hp r hr => ?_⟩
    rcases List.mem_cons.mp hr with rfl|hr
    · exact ha p hp
    · exact hs.2.2 p hp r hr
  · intro k
    have hst := A.stable k
    rw [List.filter_append] at hst
    rw [List.filter_append,List.filter_append,←hst]
    by_cases hk : kv.key=k
    · have hnil : b.filter (fun p => decide (p.key=k))=[] := by
        refine List.filter_eq_nil_iff.mpr fun p hp => ?_
        have := hb p hp
        simp only [decide_eq_true_eq]
        exact fun h => absurd (hk.trans h.symm) this.ne
      rw [List.filter_cons_of_pos (by simpa using hk),hnil,List.append_nil]
      simp [hk]
    · rw [List.filter_cons_of_neg (by simpa using hk)]
      simp [hk]

/-- Filtering by key keeps a list arranged. -/
theorem Arranged.filter {given q : List (KeyValue κ ν)} (A : Arranged given q) (P : κ → Bool) :
    Arranged (given.filter fun p => P p.key) (q.filter fun p => P p.key) := by
  refine ⟨A.perm.filter _,A.sorted.filter _,fun k => ?_⟩
  have hcomm : ∀ l : List (KeyValue κ ν),(l.filter fun p => P p.key).filter (fun p => decide (p.key=k))=
      (l.filter fun p => decide (p.key=k)).filter fun p => P p.key := by
    intro l
    rw [List.filter_filter,List.filter_filter]
    exact List.filter_congr fun p _ => Bool.and_comm _ _
  rw [hcomm,hcomm,A.stable]

end Pairs

end StudyCode.Bplus
