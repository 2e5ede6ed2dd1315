import StudyCode.CheckedLoop

/-!
# Trees read from standard input

`Create` reads a tree in preorder, with a mark for an empty subtree, one
character in a call. Behind the last character the library gives EOF, which is
not the mark when it is stored in a char, so a text that ends too early makes
the function call itself for ever.
-/

namespace StudyCode.BiTree

open Checked

/-! ## The functions of tree.c -/

/-- A binary tree; `empty` is NULL. -/
inductive Tree
  /-- No node. -/
  | empty
  /-- A node with its label and its children. -/
  | node (data : UInt8) (lchild rchild : Tree)
deriving DecidableEq

/-- `getchar`, stored in a char: the character and what is left. EOF is 255. -/
def getchar : List UInt8 → UInt8×List UInt8
  | [] => (255,[])
  | c::s => (c,s)

/-- `Create`: the tree and what is left. The fuel bounds the depth of the calls. -/
def create : ℕ → List UInt8 → Option (Tree×List UInt8)
  | 0,_ => none
  | fuel+1,s =>
    if (getchar s).1=35 then some (.empty,(getchar s).2)
    else do
      let l ← create fuel (getchar s).2
      let r ← create fuel l.2
      some (.node (getchar s).1 l.1 r.1,r.2)

/-- `Preorder`: the labels printed. -/
def preorder : Tree → List UInt8
  | .empty => []
  | .node c l r => c::(preorder l++preorder r)

/-- `Sumleaf`; a sum that is no int has no value. -/
def sumleaf : Tree → Option ℤ
  | .empty => some 0
  | .node _ l r => do
    let sum ← if l=.empty ∧ r=.empty then addInt 0 1 else some 0
    let m ← sumleaf l
    let sum ← addInt sum m
    let n ← sumleaf r
    addInt sum n

/-- `Depth`; a depth that is no int has no value. -/
def depth : Tree → Option ℤ
  | .empty => some 0
  | .node _ l r => do
    let depl ← depth l
    let depr ← depth r
    addInt 1 (if depl > depr then depl else depr)

/-! ## Texts of trees -/

/-- The text of a tree: label, left, right, and a mark for an empty subtree. -/
def text : Tree → List UInt8
  | .empty => [35]
  | .node c l r => c::(text l++text r)

/-- No label is the mark. -/
def Plain : Tree → Prop
  | .empty => True
  | .node c l r => c ≠ 35 ∧ Plain l ∧ Plain r

/-- The number of nodes on a longest way down. -/
def height : Tree → ℕ
  | .empty => 0
  | .node _ l r => 1+max (height l) (height r)

/-- The number of nodes without children. -/
def leaves : Tree → ℕ
  | .empty => 0
  | .node _ .empty .empty => 1
  | .node _ l r => leaves l+leaves r

/-- The labels printed are the text without its marks. -/
theorem preorder_eq_filter {t : Tree} (h : Plain t) : preorder t=(text t).filter (· ≠ 35) := by
  induction t with
  | empty => rfl
  | node c l r ihl ihr =>
    obtain ⟨hc,hl,hr⟩ := h
    rw [preorder,text,List.filter_cons_of_pos (by simpa using hc),List.filter_append,ihl hl,
      ihr hr]

/-! ## Reading -/

/-- A text is read back, and what follows it is left. -/
theorem create_text {t : Tree} (h : Plain t) (rest : List UInt8) {fuel : ℕ}
    (hf : height t < fuel) : create fuel (text t++rest)=some (t,rest) := by
  induction t generalizing rest fuel with
  | empty =>
    obtain ⟨n,rfl⟩ : ∃ n,fuel=n+1 := ⟨fuel-1,by omega⟩
    rfl
  | node c l r ihl ihr =>
    obtain ⟨hc,hl,hr⟩ := h
    rw [height] at hf
    obtain ⟨n,rfl⟩ : ∃ n,fuel=n+1 := ⟨fuel-1,by omega⟩
    have hleft := ihl hl (text r++rest) (show height l < n by omega)
    have hright := ihr hr rest (show height r < n by omega)
    rw [text,List.cons_append,List.append_assoc,create,getchar,if_neg hc,hleft,
      Option.bind_eq_bind,Option.bind_some,hright]
    rfl

/-- Trees with one text are one tree. -/
theorem text_injective {t u : Tree} (ht : Plain t) (hu : Plain u) (h : text t=text u) : t=u := by
  have hread := create_text ht [] (show height t < height t+height u+1 by omega)
  rw [h,create_text hu [] (by omega)] at hread
  simpa using hread.symm

/-- At the end of the input the function does not return. -/
theorem create_nil (fuel : ℕ) : create fuel []=none := by
  induction fuel with
  | zero => rfl
  | succ fuel ih =>
    rw [create,if_neg (by decide)]
    simp [getchar,ih]

/-- What the function returns is the tree of the text that it has read. -/
theorem create_eq_some {fuel : ℕ} {s r : List UInt8} {t : Tree} (h : create fuel s=some (t,r)) :
    s=text t++r ∧ Plain t := by
  induction fuel generalizing s t r with
  | zero => simp [create] at h
  | succ fuel ih =>
    cases s with
    | nil => simp [create_nil] at h
    | cons c s =>
      rw [create,getchar] at h
      split at h
      · rename_i hc
        simp only [Option.some.injEq,Prod.mk.injEq] at h
        obtain ⟨rfl,rfl⟩ := h
        exact ⟨by rw [show c=35 from hc]; rfl,trivial⟩
      · rename_i hc
        obtain ⟨⟨l,u⟩,hl,hrest⟩ := Option.bind_eq_some_iff.mp h
        obtain ⟨⟨k,v⟩,hr,heq⟩ := Option.bind_eq_some_iff.mp hrest
        simp only [Option.some.injEq,Prod.mk.injEq] at heq
        obtain ⟨rfl,rfl⟩ := heq
        obtain ⟨rfl,hpl⟩ := ih hl
        obtain ⟨rfl,hpr⟩ := ih hr
        exact ⟨by simp [text],hc,hpl,hpr⟩

/-! ## Height and leaves -/

/-- A sum of counts that is an int. -/
theorem addInt_counts (a b : ℕ) :
    addInt (a : ℤ) b=if a+b < 2^31 then some ((a+b : ℕ) : ℤ) else none := by
  rw [addInt,Nat.cast_add]
  split <;> split <;> first | rfl | omega

/-- The depth is the height as long as it is an int. -/
theorem depth_eq (t : Tree) :
    depth t=if height t < 2^31 then some (height t : ℤ) else none := by
  induction t with
  | empty => rfl
  | node c l r ihl ihr =>
    rw [depth,height,ihl,ihr]
    by_cases hl : height l < 2^31
    · by_cases hr : height r < 2^31
      · have hmax : (if (height l : ℤ) > height r then (height l : ℤ) else height r)=
            ((max (height l) (height r) : ℕ) : ℤ) := by
          split <;> omega
        simp only [if_pos hl,if_pos hr,Option.bind_eq_bind,Option.bind_some,hmax]
        exact addInt_counts 1 _
      · have hbig : ¬1+max (height l) (height r) < 2^31 := by omega
        rw [if_pos hl,if_neg hr,if_neg hbig]
        rfl
    · have hbig : ¬1+max (height l) (height r) < 2^31 := by omega
      rw [if_neg hl,if_neg hbig]
      rfl

/-- The leaves of a node with a child are those of its children. -/
theorem leaves_node {c : UInt8} {l r : Tree} (h : ¬(l=.empty ∧ r=.empty)) :
    leaves (.node c l r)=leaves l+leaves r := by
  cases l with
  | empty =>
    cases r with
    | empty => exact absurd ⟨rfl,rfl⟩ h
    | node => rfl
  | node => rfl

/-- The sum of the leaves is their number as long as it is an int. -/
theorem sumleaf_eq (t : Tree) :
    sumleaf t=if leaves t < 2^31 then some (leaves t : ℤ) else none := by
  induction t with
  | empty => rfl
  | node c l r ihl ihr =>
    by_cases hleaf : l=.empty ∧ r=.empty
    · obtain ⟨rfl,rfl⟩ := hleaf
      have hone : addInt 0 1=some 1 := by rw [addInt,if_pos (by norm_num),zero_add]
      have hsum : addInt 1 0=some 1 := by rw [addInt,if_pos (by norm_num),add_zero]
      have hval : leaves (.node c .empty .empty)=1 := by rw [leaves]
      rw [hval,if_pos (by norm_num),Nat.cast_one]
      simp only [sumleaf,and_self,if_true,hone,hsum,Option.bind_eq_bind,Option.bind_some]
    · have hsum : sumleaf (.node c l r)=(sumleaf l).bind fun m =>
          (addInt 0 m).bind fun sum => (sumleaf r).bind fun n => addInt sum n := by
        rw [sumleaf,if_neg hleaf]
        rfl
      rw [hsum,leaves_node hleaf,ihl,ihr]
      by_cases hl : leaves l < 2^31
      · have hzero : addInt 0 (leaves l : ℤ)=some (leaves l : ℤ) := by
          have h := addInt_counts 0 (leaves l)
          rwa [Nat.zero_add,if_pos hl,Nat.cast_zero] at h
        rw [if_pos hl,Option.bind_some,hzero,Option.bind_some]
        by_cases hr : leaves r < 2^31
        · rw [if_pos hr,Option.bind_some]
          exact addInt_counts _ _
        · have hbig : ¬leaves l+leaves r < 2^31 := by omega
          rw [if_neg hr,if_neg hbig,Option.bind_none]
      · have hbig : ¬leaves l+leaves r < 2^31 := by omega
        rw [if_neg hl,if_neg hbig,Option.bind_none]

/-- Reading a text gives the tree back and leaves what follows, texts tell trees
apart, and the counts are right as long as they are ints. -/
theorem create_undoes_text :
    (∀ t,Plain t → ∀ rest fuel,height t < fuel → create fuel (text t++rest)=some (t,rest)) ∧
      (∀ t u,Plain t → Plain u → text t=text u → t=u) ∧
      ∀ t,(depth t=some (height t : ℤ) ↔ height t < 2^31) ∧
        (sumleaf t=some (leaves t : ℤ) ↔ leaves t < 2^31) := by
  refine ⟨fun t ht rest fuel => create_text ht rest,fun t u => text_injective,fun t => ⟨?_,?_⟩⟩
  · rw [depth_eq]
    exact Option.ite_none_right_eq_some.trans (and_iff_left rfl)
  · rw [sumleaf_eq]
    exact Option.ite_none_right_eq_some.trans (and_iff_left rfl)

/-- The text `ab###` and a line end behind it. -/
theorem create_two_nodes :
    create 3 ([97,98,35,35,35]++[10])=some (.node 97 (.node 98 .empty .empty) .empty,[10]) :=
  create_undoes_text.1 (.node 97 (.node 98 .empty .empty) .empty) (by simp [Plain]) [10] 3
    (by decide)

/-- A full tree. -/
def full : ℕ → Tree
  | 0 => .node 97 .empty .empty
  | n+1 => .node 97 (full n) (full n)

/-- A full tree is plain. -/
theorem full_plain (n : ℕ) : Plain (full n) := by
  induction n with
  | zero => exact ⟨by decide,trivial,trivial⟩
  | succ n ih => exact ⟨by decide,ih,ih⟩

/-- A full tree doubles its leaves on every level. -/
theorem leaves_full (n : ℕ) : leaves (full n)=2^n := by
  induction n with
  | zero => rfl
  | succ n ih =>
    have hne : full n ≠ .empty := by cases n <;> simp [full]
    rw [full,leaves_node fun h => hne h.1,ih,Nat.pow_succ]
    omega

/-- The leaves of a full tree of height 32 are too many for int. -/
theorem sumleaf_full : Plain (full 31) ∧ sumleaf (full 31) ≠ some (leaves (full 31) : ℤ) := by
  refine ⟨full_plain 31,?_⟩
  rw [sumleaf_eq,leaves_full,if_neg (lt_irrefl _)]
  simp

/-! ## Input that ends too early -/

/-- Marks without the other characters: how many subtrees the text completes. -/
def surplus (p : List UInt8) : ℤ := p.count 35-p.countP (· ≠ 35)

/-- Surpluses of texts add up. -/
theorem surplus_append (p q : List UInt8) : surplus (p++q)=surplus p+surplus q := by
  unfold surplus
  rw [List.count_append,List.countP_append]
  push_cast
  ring

/-- A letter uses up one place. -/
theorem surplus_cons {c : UInt8} (hc : c ≠ 35) (p : List UInt8) :
    surplus (c::p)=surplus p-1 := by
  unfold surplus
  rw [List.count_cons_of_ne hc,List.countP_cons_of_pos (by simpa using hc)]
  push_cast
  ring

/-- A whole tree closes exactly one place more than it opens. -/
theorem surplus_text {t : Tree} (h : Plain t) : surplus (text t)=1 := by
  induction t with
  | empty => rfl
  | node c l r ihl ihr =>
    obtain ⟨hc,hl,hr⟩ := h
    rw [text,surplus_cons hc,surplus_append,ihl hl,ihr hr]
    rfl

/-- A prefix ends in the first part or reaches into the second. -/
theorem prefix_append_cases {p a b : List UInt8} (h : p <+: a++b) :
    p <+: a ∨ ∃ k,p=a++k ∧ k <+: b := by
  rcases List.prefix_or_prefix_of_prefix h (List.prefix_append a b) with hp|⟨k,rfl⟩
  · exact .inl hp
  · exact .inr ⟨k,rfl,(List.prefix_append_right_inj a).mp h⟩

/-- The beginnings of a text complete no more than one subtree. -/
theorem surplus_prefix_le {t : Tree} (h : Plain t) {p : List UInt8} (hp : p <+: text t) :
    surplus p ≤ 1 := by
  induction t generalizing p with
  | empty =>
    rcases List.prefix_cons_iff.mp hp with rfl|⟨q,rfl,hq⟩
    · decide
    · rw [List.prefix_nil.mp hq]
      decide
  | node c l r ihl ihr =>
    obtain ⟨hc,hl,hr⟩ := h
    rcases List.prefix_cons_iff.mp hp with rfl|⟨q,rfl,hq⟩
    · decide
    rw [surplus_cons hc]
    rcases prefix_append_cases hq with hq|⟨k,rfl,hk⟩
    · have := ihl hl hq
      omega
    · have := ihr hr hk
      rw [surplus_append,surplus_text hl]
      omega

/-- A text with a beginning that completes a subtree begins with the text of a tree. -/
theorem exists_text {s p : List UInt8} (hp : p <+: s) (hpos : 1 ≤ surplus p) :
    ∃ t r,Plain t ∧ s=text t++r := by
  induction hn : s.length using Nat.strong_induction_on generalizing s p with
  | _ n ih =>
    cases s with
    | nil =>
      rw [List.prefix_nil.mp hp] at hpos
      exact absurd hpos (by decide)
    | cons c s =>
      rcases List.prefix_cons_iff.mp hp with rfl|⟨q,rfl,hq⟩
      · exact absurd hpos (by decide)
      by_cases hc : c=35
      · exact ⟨.empty,s,trivial,by rw [hc]; rfl⟩
      rw [surplus_cons hc] at hpos
      rw [List.length_cons] at hn
      obtain ⟨l,u,hl,rfl⟩ := ih s.length (by omega) hq (by omega) rfl
      rw [List.length_append] at hn
      rcases prefix_append_cases hq with hq|⟨k,rfl,hk⟩
      · have := surplus_prefix_le hl hq
        omega
      · rw [surplus_append,surplus_text hl] at hpos
        obtain ⟨r,v,hr,rfl⟩ := ih u.length (by omega) hk (by omega) rfl
        exact ⟨.node c l r,v,⟨hc,hl,hr⟩,by simp [text]⟩

/-- The function returns on an input exactly when the marks of some beginning
outnumber the other characters. -/
theorem create_returns_iff (s : List UInt8) :
    (∃ fuel r,create fuel s=some r) ↔ ∃ p,p <+: s ∧ p.countP (· ≠ 35) < p.count 35 := by
  constructor
  · rintro ⟨fuel,⟨t,r⟩,h⟩
    obtain ⟨rfl,ht⟩ := create_eq_some h
    have hone := surplus_text ht
    unfold surplus at hone
    exact ⟨text t,List.prefix_append _ _,by omega⟩
  · rintro ⟨p,hp,hlt⟩
    obtain ⟨t,r,ht,rfl⟩ := exists_text hp (show 1 ≤ surplus p by unfold surplus; omega)
    exact ⟨height t+1,(t,r),create_text ht r (Nat.lt_succ_self _)⟩

/-- A label without its subtrees. -/
theorem create_truncated : ¬∃ fuel r,create fuel [97]=some r := by
  rintro ⟨fuel,r,h⟩
  cases fuel with
  | zero => simp [create] at h
  | succ fuel =>
    rw [create,if_neg (by decide)] at h
    simp [getchar,create_nil] at h

end StudyCode.BiTree
