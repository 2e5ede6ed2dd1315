import StudyCode.RegexNfa

/-!
# The automaton of an expression

The fragment of an expression occupies the states that its postfix form
allocates. Whatever its open pointers are set to later, its words lead from its
first state to there.
-/

namespace StudyCode.RegexNfa

open SplitGraph Re2Post

/-! ## Expressions -/

/-- The regular expression of a tree. -/
def regex : {l : Level} → Syn l → RegularExpression UInt8
  | _,.lit c _ => if c < 128 then .char c else 0
  | _,.group a => regex a
  | _,.rep .star a => (regex a).star
  | _,.rep .plus a => regex a*(regex a).star
  | _,.rep .quest a => regex a+1
  | _,.one a => regex a
  | _,.more c a => regex c*regex a
  | _,.single c => regex c
  | _,.bar c a => regex c+regex a

/-- No dot stands in the expression; it would be taken for the operator. -/
def NoDot : {l : Level} → Syn l → Prop
  | _,.lit c _ => c ≠ 46
  | _,.group a => NoDot a
  | _,.rep _ a => NoDot a
  | _,.one a => NoDot a
  | _,.more c a => NoDot c ∧ NoDot a
  | _,.single c => NoDot c
  | _,.bar c a => NoDot c ∧ NoDot a

/-- Number of fragments on the stack. -/
def need : {l : Level} → Syn l → ℕ
  | _,.lit _ _ => 1
  | _,.group a => need a
  | _,.rep _ a => need a
  | _,.one a => need a
  | _,.more c a => max (need c) (need a+1)
  | _,.single c => need c
  | _,.bar c a => max (need c) (need a+1)

/-- Every piece needs a place on the stack. -/
theorem need_pos {l : Level} (x : Syn l) : 1 ≤ need x := by
  induction x with
  | lit => exact le_refl 1
  | more c a ihc _ => exact ihc.trans (le_max_left _ _)
  | bar c a ihc _ => exact ihc.trans (le_max_left _ _)
  | _ => assumption

/-- The graph of the states. -/
def kind (h : Heap) : Cell → Kind UInt8 Cell
  | .null => .dead
  | .slot _ => .dead
  | .state .matchstate => .accept
  | .state (.node i) =>
    if (h.mem i).c=splitC then .split (h.mem i).out (h.mem i).out1
    else .read (fun b => (h.mem i).c=b.toNat) (h.mem i).out

/-- A character is read as itself below 128 only. -/
theorem charOf_eq_iff {p b : UInt8} : charOf p=b.toNat ↔ p < 128 ∧ b=p := by
  have hp : p.toNat < 256 := p.toNat_lt
  have h128 : p < 128 ↔ p.toNat < 128 := UInt8.lt_iff_toNat_lt
  rw [h128,←UInt8.toNat_inj,charOf]
  split <;> omega

/-- No character is a split. -/
theorem charOf_ne_splitC (p : UInt8) : charOf p ≠ splitC := by
  have hp : p.toNat < 256 := p.toNat_lt
  rw [charOf,splitC]
  split <;> omega

/-- The words of one character. -/
theorem charLanguage (p : UInt8) :
    ({w | ∃ b : UInt8,(decide (charOf p=b.toNat))=true ∧ w=[b]} : Language UInt8)=
      (if p < 128 then RegularExpression.char p else 0).matches' := by
  ext w
  simp only [decide_eq_true_eq,charOf_eq_iff]
  split
  · next h =>
    rw [RegularExpression.matches'_char]
    constructor
    · rintro ⟨b,⟨-,rfl⟩,rfl⟩
      exact rfl
    · rintro rfl
      exact ⟨p,⟨h,rfl⟩,rfl⟩
  · next h =>
    rw [RegularExpression.matches'_zero]
    constructor
    · rintro ⟨b,⟨hp,-⟩,-⟩
      exact absurd hp h
    · intro hw
      exact absurd hw (Language.notMem_zero w)

/-! ## Fragments -/

section Fragments

variable {h g h1 : Heap} {a b c : ℕ} {e e1 e2 : Frag} {l l1 l2 : List Slot}
  {L L1 L2 : Language UInt8} {st : List Frag} {t : Cell}

/-- Two heaps agree on some states except at some pointers. -/
structure Agree (h g : Heap) (a b : ℕ) (l : List Slot) : Prop where
  /-- The characters. -/
  c : ∀ i,a ≤ i → i < b → (g.mem i).c=(h.mem i).c
  /-- The other pointers. -/
  read : ∀ s : Slot,a ≤ s.state → s.state < b → s ∉ l → g.read s=h.read s

/-- A fragment that occupies the states from one number to another. -/
structure Built (h : Heap) (a b : ℕ) (e : Frag) (l : List Slot) (L : Language UInt8) : Prop where
  /-- The first state. -/
  first : ∃ i,e.start=.node i ∧ a ≤ i ∧ i < b
  /-- The open pointers are linked. -/
  links : Links h (e.out::l)
  /-- They are different. -/
  nodup : (e.out::l).Nodup
  /-- They are pointers of these states. -/
  region : ∀ s ∈ e.out::l,a ≤ s.state ∧ s.state < b
  /-- The other pointers lead to allocated states. -/
  cells : ∀ s : Slot,a ≤ s.state → s.state < b → s ∉ e.out::l →
    h.read s=.null ∨ ∃ i < b,h.read s=.state (.node i)
  /-- The words lead to where the open pointers are set to. -/
  realizes : ∀ g t,Agree h g a b (e.out::l) → (∀ s ∈ e.out::l,g.read s=t) →
    Realizes (kind g) (.state e.start) t L

/-- A piece has a state. -/
theorem Built.le (h1 : Built h a b e l L) : a < b := by
  obtain ⟨i,-,hi,hb⟩ := h1.first
  omega

/-- A piece depends on its own states only. -/
theorem Built.congr (hb : Built h a b e l L) (hm : ∀ i,a ≤ i → i < b → h1.mem i=h.mem i) :
    Built h1 a b e l L where
  first := hb.first
  links := hb.links.congr fun s hs => read_congr (hm _ (hb.region s hs).1 (hb.region s hs).2)
  nodup := hb.nodup
  region := hb.region
  cells s ha hs hl := by
    rw [read_congr (hm _ ha hs)]
    exact hb.cells s ha hs hl
  realizes g t hg ht := hb.realizes g t
    ⟨fun i ha hi => (hg.c i ha hi).trans (by rw [hm i ha hi]),
      fun s ha hs hl => (hg.read s ha hs hl).trans (read_congr (hm _ ha hs))⟩ ht

/-- The open pointers of a fragment fit the fuel. -/
theorem Built.length_le (hb : Built h a b e l L) (hn : b ≤ h.nstate) :
    (e.out::l).length ≤ h.fuel := by
  have hl := slots_length hb.nodup fun s hs => (hb.region s hs).2.trans_le hn
  simp only [Heap.fuel]
  omega

/-- Two pieces have different slots. -/
theorem Built.not_mem (h1 : Built h a b e1 l1 L1) (h2 : Built h b c e2 l2 L2) {s : Slot}
    (hs : s ∈ e1.out::l1) : s ∉ e2.out::l2 := by
  intro h
  have h3 := (h1.region s hs).2
  have h4 := (h2.region s h).1
  omega

/-- A split state. -/
theorem kind_split {i : ℕ} (hc : (g.mem i).c=splitC) :
    kind g (.state (.node i))=.split (g.read ⟨i,false⟩) (g.read ⟨i,true⟩) := by
  simp only [kind,hc,if_true]
  rfl

/-- A step of the loop pushes a fragment that begins with a state. -/
def Stepped (h : Heap) (st st1 : List Frag) (p : UInt8) (a : ℕ) (L : Language UInt8) : Prop :=
  ∃ h1 e l,step h st p=some (h1,e::st1) ∧ h.nstate ≤ h1.nstate ∧
    (∀ i < a,h1.mem i=h.mem i) ∧ Built h1 a h1.nstate e l L

/-- There is room on the stack. -/
theorem push_of_lt (h : Heap) (e : Frag) (hst : st.length < stackSize) :
    push h st e=some (h,e::st) := if_pos hst

/-- A character. -/
theorem step_char {p : UInt8} (hp : ordinary p=true) (hd : p ≠ 46) (h : Heap)
    (hst : st.length < stackSize) :
    Stepped h st st p h.nstate (if p < 128 then RegularExpression.char p else 0).matches' := by
  simp only [ordinary,List.mem_cons,List.not_mem_nil,or_false,not_or,decide_eq_true_eq] at hp
  obtain ⟨-,h2,-,h4,h5,h6⟩ := hp
  refine ⟨(state h (charOf p) .null .null).write ⟨h.nstate,false⟩ .null,
    ⟨.node h.nstate,⟨h.nstate,false⟩⟩,[],?_,?_,?_,?_⟩
  · simp only [step,hd,h2,h4,h5,h6,if_false]
    exact push_of_lt _ _ hst
  · exact Nat.le_succ _
  · intro i hi
    rw [write_other (by simp only; omega),state_other (by omega)]
  · refine ⟨⟨_,rfl,le_refl _,Nat.lt_succ_self _⟩,read_write_same,List.nodup_singleton _,?_,?_,?_⟩
    · intro s hs
      obtain rfl := List.mem_singleton.1 hs
      exact ⟨le_refl _,Nat.lt_succ_self _⟩
    · intro s ha hs hl
      simp only [write_nstate,state_nstate] at hs
      have hi : s.state=h.nstate := by omega
      left
      rw [read_write_ne (by simpa using hl)]
      simp only [Heap.read,state,hi,Function.update_self,ite_self]
    · intro g t hg ht
      rw [←charLanguage]
      refine realizes_read (g := kind g) ?_
      have hc : (g.mem h.nstate).c=charOf p := by
        rw [hg.c _ (le_refl _) (Nat.lt_succ_self _),write_c]
        simp only [state,Function.update_self]
      have ho : (g.mem h.nstate).out=t := ht _ (List.mem_singleton_self _)
      simp only [kind,hc,charOf_ne_splitC,if_false,ho]

/-- The concatenation. -/
theorem step_cat (h1 : Built h a b e1 l1 L1) (h2 : Built h b h.nstate e2 l2 L2)
    (hst : st.length < stackSize) :
    Stepped h (e2::e1::st) st 46 a (L1*L2) := by
  have hab := h1.le
  have hbn := h2.le
  obtain ⟨h3,hp,hd,hr⟩ := patch_spec e2.start h1.links h1.nodup (h1.length_le hbn.le)
  obtain ⟨i2,hi2,-,hn2⟩ := h2.first
  have hreg1 : ∀ s ∈ e1.out::l1,s.state < b := fun s hs => (h1.region s hs).2
  refine ⟨h3,⟨e1.start,e2.out⟩,l2,?_,hd.nstate.ge,?_,?_⟩
  · exact (congrArg (Option.bind · fun h1 => push h1 st ⟨e1.start,e2.out⟩) hp).trans
      (push_of_lt _ _ hst)
  · intro i hi
    exact hd.mem i fun s hs => by have hs1 := (h1.region s hs).1; omega
  · rw [hd.nstate]
    refine ⟨?_,?_,h2.nodup,?_,?_,?_⟩
    · obtain ⟨i,he,hi,hib⟩ := h1.first
      exact ⟨i,he,hi,hib.trans hbn⟩
    · exact h2.links.congr fun s hs => hd.read s fun hm => h1.not_mem h2 hm hs
    · intro s hs
      have hs2 := h2.region s hs
      exact ⟨hab.le.trans hs2.1,hs2.2⟩
    · intro s ha hs hl
      by_cases hm : s ∈ e1.out::l1
      · exact .inr ⟨i2,hn2,by rw [hr s hm,hi2]⟩
      · rw [hd.read s hm]
        by_cases hsb : s.state < b
        · obtain hnull|⟨i,hi,hread⟩ := h1.cells s ha hsb hm
          · exact .inl hnull
          · exact .inr ⟨i,hi.trans hbn,hread⟩
        · exact h2.cells s (by omega) hs hl
    · intro g t hg ht
      have hr1 : Realizes (kind g) (.state e1.start) (.state e2.start) L1 := by
        refine h1.realizes g _ ⟨?_,?_⟩ ?_
        · intro i ha hi
          rw [hg.c i ha (hi.trans hbn),hd.c]
        · intro s ha hs hl
          rw [hg.read s ha (hs.trans hbn) fun hm => by have := (h2.region s hm).1; omega,
            hd.read s hl]
        · intro s hs
          have hs1 := h1.region s hs
          rw [hg.read s hs1.1 (hs1.2.trans hbn) (h1.not_mem h2 hs),hr s hs]
      have hr2 : Realizes (kind g) (.state e2.start) t L2 := by
        refine h2.realizes g _ ⟨?_,?_⟩ ht
        · intro i ha hi
          rw [hg.c i (hab.le.trans ha) hi,hd.c]
        · intro s ha hs hl
          rw [hg.read s (hab.le.trans ha) hs hl,
            hd.read s fun hm => by have := hreg1 s hm; omega]
      exact hr1.trans hr2

/-- The character of a new state. -/
theorem state_c (h : Heap) (x : ℤ) (o o1 : Cell) : ((state h x o o1).mem h.nstate).c=x := by
  simp only [state,Function.update_self]

/-- The slots of a new state. -/
theorem read_state (h : Heap) (x : ℤ) (o o1 : Cell) (second : Bool) :
    (state h x o o1).read ⟨h.nstate,second⟩=if second then o1 else o := by
  simp only [Heap.read,state,Function.update_self]

/-- A fragment is not touched by the allocation of a state. -/
theorem Built.state (hb : Built h a b e l L) (hn : b ≤ h.nstate) (x : ℤ) (o o1 : Cell) :
    Built (state h x o o1) a b e l L :=
  hb.congr fun i _ hi => state_other (by omega) x o o1

/-- The alternation. -/
theorem step_alt (h1 : Built h a b e1 l1 L1) (h2 : Built h b h.nstate e2 l2 L2)
    (hst : st.length < stackSize) : Stepped h (e2::e1::st) st 124 a (L1+L2) := by
  have hab := h1.le
  have hbn := h2.le
  obtain ⟨i1,hi1,-,hb1⟩ := h1.first
  obtain ⟨i2,hi2,-,hb2⟩ := h2.first
  have k1 := h1.state hbn.le splitC (.state e1.start) (.state e2.start)
  have k2 := h2.state (le_refl _) splitC (.state e1.start) (.state e2.start)
  have hnodup : (e1.out::l1++e2.out::l2).Nodup :=
    h1.nodup.append h2.nodup fun s hs1 hs2 => h1.not_mem h2 hs1 hs2
  obtain ⟨h4,ha,hd,hlinks⟩ := append_spec k1.links k2.links hnodup
    (k1.length_le (hbn.le.trans (Nat.le_succ _)))
  have hregion : ∀ s ∈ e1.out::l1++e2.out::l2,a ≤ s.state ∧ s.state < h.nstate := by
    intro s hm
    obtain hm|hm := List.mem_append.1 hm
    · exact ⟨(h1.region s hm).1,(h1.region s hm).2.trans hbn⟩
    · exact ⟨hab.le.trans (h2.region s hm).1,(h2.region s hm).2⟩
  have hnew : ∀ second,h4.read ⟨h.nstate,second⟩=
      if second then .state e2.start else .state e1.start := by
    intro second
    rw [hd.read _ fun hm => by have := (h1.region _ hm).2; simp only at this; omega]
    exact read_state h splitC _ _ second
  refine ⟨h4,⟨.node h.nstate,e1.out⟩,l1++e2.out::l2,?_,?_,?_,?_⟩
  · exact (congrArg (Option.bind · fun h1 => push h1 st ⟨.node h.nstate,e1.out⟩) ha).trans
      (push_of_lt _ _ hst)
  · rw [hd.nstate]
    exact Nat.le_succ _
  · intro i hi
    rw [hd.mem i fun s hs => by have hs1 := (h1.region s hs).1; omega]
    exact state_other (by omega) _ _ _
  · have hn4 : h4.nstate=h.nstate+1 := hd.nstate
    rw [hn4]
    refine ⟨⟨h.nstate,rfl,by omega,Nat.lt_succ_self _⟩,hlinks,hnodup,?_,?_,?_⟩
    · intro s hm
      have hr := hregion s hm
      exact ⟨hr.1,hr.2.trans (Nat.lt_succ_self _)⟩
    · intro s has hsn hl
      rw [List.cons_append.symm,List.mem_append,not_or] at hl
      by_cases hsn1 : s.state=h.nstate
      · right
        obtain ⟨i,second⟩ := s
        obtain rfl : i=h.nstate := hsn1
        rw [hnew]
        cases second with
        | false => exact ⟨i1,by omega,by rw [hi1]; rfl⟩
        | true => exact ⟨i2,by omega,by rw [hi2]; rfl⟩
      · rw [hd.read s hl.1]
        by_cases hsb : s.state < b
        · obtain hnull|⟨i,hi,hread⟩ := k1.cells s has hsb hl.1
          · exact .inl hnull
          · exact .inr ⟨i,by omega,hread⟩
        · obtain hnull|⟨i,hi,hread⟩ := k2.cells s (by omega) (by omega) hl.2
          · exact .inl hnull
          · exact .inr ⟨i,by omega,hread⟩
    · intro g t hg ht
      have hgn : ∀ second,g.read ⟨h.nstate,second⟩=
          if second then .state e2.start else .state e1.start := by
        intro second
        rw [hg.read ⟨h.nstate,second⟩ (by simp only; omega) (Nat.lt_succ_self _)
          fun hm => (hregion _ hm).2.ne rfl,hnew]
      have hk : kind g (.state (.node h.nstate))=.split (.state e1.start) (.state e2.start) := by
        rw [kind_split,hgn,hgn]
        · rfl
        · rw [hg.c _ (by omega) (Nat.lt_succ_self _),hd.c]
          exact state_c h splitC _ _
      refine realizes_alt hk (k1.realizes g t ⟨?_,?_⟩ ?_) (k2.realizes g t ⟨?_,?_⟩ ?_)
      · intro i hi hib
        rw [hg.c i hi (by omega),hd.c]
      · intro s has hsb hl
        have hs2 : s ∉ e2.out::l2 := fun hm => by have := (h2.region s hm).1; omega
        rw [hg.read s has (by omega) fun hm => (List.mem_append.1 hm).elim hl hs2,hd.read s hl]
      · exact fun s hm => ht s (List.mem_append_left _ hm)
      · intro i hi hin
        rw [hg.c i (by omega) (by omega),hd.c]
      · intro s hsb hsn hl
        have hs1 : s ∉ e1.out::l1 := fun hm => by have := (h1.region s hm).2; omega
        rw [hg.read s (by omega) (by omega) fun hm => (List.mem_append.1 hm).elim hs1 hl,
          hd.read s hs1]
      · exact fun s hm => ht s (List.mem_append_right (e1.out::l1) hm)

/-- Zero or one. -/
theorem step_quest (hb : Built h a h.nstate e l L) (hst : st.length < stackSize) :
    Stepped h (e::st) st 63 a (L+1) := by
  have han := hb.le
  obtain ⟨i1,hi1,-,hb1⟩ := hb.first
  let n : Slot := ⟨h.nstate,true⟩
  let hs := (RegexNfa.state h splitC (.state e.start) .null).write n .null
  have k : Built hs a h.nstate e l L := hb.congr fun i _ hi => by
    rw [write_other (by simp only [n]; omega),state_other (by omega)]
  have hn : n ∉ e.out::l := fun hm => (hb.region n hm).2.ne rfl
  have hnodup : (e.out::l++[n]).Nodup :=
    hb.nodup.append (List.nodup_singleton n) fun s hs1 hs2 => by
      obtain rfl := List.mem_singleton.1 hs2
      exact hn hs1
  have hone : Links hs [n] := read_write_same
  obtain ⟨h4,ha,hd,hlinks⟩ := append_spec k.links hone hnodup (k.length_le (Nat.le_succ _))
  have hregion : ∀ s ∈ e.out::l++[n],a ≤ s.state ∧ s.state < h.nstate+1 := by
    intro s hm
    obtain hm|hm := List.mem_append.1 hm
    · exact ⟨(hb.region s hm).1,(hb.region s hm).2.trans (Nat.lt_succ_self _)⟩
    · obtain rfl := List.mem_singleton.1 hm
      exact ⟨han.le,Nat.lt_succ_self _⟩
  have hfalse : (⟨h.nstate,false⟩ : Slot) ∉ e.out::l := fun hm => (hb.region _ hm).2.ne rfl
  have hnew : h4.read ⟨h.nstate,false⟩=.state e.start := by
    rw [hd.read _ hfalse,read_write_ne (by simp [n])]
    exact read_state h splitC _ _ false
  refine ⟨h4,⟨.node h.nstate,e.out⟩,l++[n],?_,?_,?_,?_⟩
  · exact (congrArg (Option.bind · fun h1 => push h1 st ⟨.node h.nstate,e.out⟩) ha).trans
      (push_of_lt _ _ hst)
  · rw [hd.nstate]
    exact Nat.le_succ _
  · intro i hi
    rw [hd.mem i fun s hs => by have hs1 := (hb.region s hs).1; omega,
      write_other (by simp only [n]; omega),state_other (by omega)]
  · have hn4 : h4.nstate=h.nstate+1 := hd.nstate
    rw [hn4]
    refine ⟨⟨h.nstate,rfl,han.le,Nat.lt_succ_self _⟩,hlinks,hnodup,hregion,?_,?_⟩
    · intro s has hsn hl
      rw [List.cons_append.symm,List.mem_append,not_or] at hl
      by_cases hsn1 : s.state=h.nstate
      · right
        obtain ⟨i,second⟩ := s
        obtain rfl : i=h.nstate := hsn1
        cases second with
        | false => exact ⟨i1,by omega,by rw [hnew,hi1]⟩
        | true => exact absurd (List.mem_singleton_self n) hl.2
      · rw [hd.read s hl.1]
        obtain hnull|⟨i,hi,hread⟩ := k.cells s has (by omega) hl.1
        · exact .inl hnull
        · exact .inr ⟨i,by omega,hread⟩
    · intro g t hg ht
      have hgn : g.read ⟨h.nstate,false⟩=.state e.start := by
        rw [hg.read ⟨h.nstate,false⟩ han.le (Nat.lt_succ_self _) fun hm =>
          (List.mem_append.1 hm).elim hfalse (by simp [n]),hnew]
      have hk : kind g (.state (.node h.nstate))=.split (.state e.start) t := by
        rw [kind_split,hgn,show g.read ⟨h.nstate,true⟩=t from
          ht n (List.mem_append_right (e.out::l) (List.mem_singleton_self n))]
        rw [hg.c _ han.le (Nat.lt_succ_self _),hd.c,write_c]
        exact state_c h splitC _ _
      refine realizes_option hk (k.realizes g t ⟨?_,?_⟩ ?_)
      · intro i hi hin
        rw [hg.c i hi (by omega),hd.c]
      · intro s has hsn hl
        have hs1 : s ∉ [n] := fun hm => by
          obtain rfl := List.mem_singleton.1 hm
          exact hsn.ne rfl
        rw [hg.read s has (by omega) fun hm => (List.mem_append.1 hm).elim hl hs1,hd.read s hl]
      · exact fun s hm => ht s (List.mem_append_left _ hm)

/-- The heap after a loop has been closed, with any first state of which the
words of a language lead to the end of the loop. -/
theorem loop_spec {M : Language UInt8} {r : Ref} (hb : Built h a h.nstate e l L)
    (hr : ∃ i,r=.node i ∧ a ≤ i ∧ i ≤ h.nstate)
    (hM : ∀ g t,Realizes (kind g) (.state e.start) (.state (.node h.nstate)) L →
      kind g (.state (.node h.nstate))=.split (.state e.start) t →
      Realizes (kind g) (.state r) t M) :
    ∃ h3,patch (RegexNfa.state h splitC (.state e.start) .null).fuel
        (RegexNfa.state h splitC (.state e.start) .null) (some e.out) (.node h.nstate)=some h3 ∧
      h3.nstate=h.nstate+1 ∧ (∀ i < a,(h3.write ⟨h.nstate,true⟩ .null).mem i=h.mem i) ∧
      Built (h3.write ⟨h.nstate,true⟩ .null) a (h.nstate+1) ⟨r,⟨h.nstate,true⟩⟩ [] M := by
  have han := hb.le
  obtain ⟨i1,hi1,-,hb1⟩ := hb.first
  let n : Slot := ⟨h.nstate,true⟩
  have k := hb.state (le_refl _) splitC (.state e.start) .null
  obtain ⟨h3,hp,hd,hread⟩ := patch_spec (.node h.nstate) k.links k.nodup
    (k.length_le (Nat.le_succ _))
  have hnot : ∀ second,(⟨h.nstate,second⟩ : Slot) ∉ e.out::l :=
    fun second hm => (hb.region _ hm).2.ne rfl
  have hnew : h3.read ⟨h.nstate,false⟩=.state e.start := by
    rw [hd.read _ (hnot false)]
    exact read_state h splitC _ _ false
  refine ⟨h3,hp,hd.nstate,?_,?_⟩
  · intro i hi
    rw [write_other (by simp only; omega),
      hd.mem i fun s hs => by have hs1 := (hb.region s hs).1; omega,state_other (by omega)]
  · obtain ⟨j,hj,haj,hjn⟩ := hr
    refine ⟨⟨j,hj,haj,by omega⟩,read_write_same,List.nodup_singleton _,?_,?_,?_⟩
    · intro s hm
      obtain rfl := List.mem_singleton.1 hm
      exact ⟨han.le,Nat.lt_succ_self _⟩
    · intro s has hsn hl
      rw [read_write_ne (by simpa using hl)]
      by_cases hsn1 : s.state=h.nstate
      · right
        obtain ⟨i,second⟩ := s
        obtain rfl : i=h.nstate := hsn1
        cases second with
        | false => exact ⟨i1,by omega,by rw [hnew,hi1]⟩
        | true => exact absurd (List.mem_singleton_self n) hl
      · by_cases hm : s ∈ e.out::l
        · exact .inr ⟨h.nstate,Nat.lt_succ_self _,hread s hm⟩
        · rw [hd.read s hm]
          obtain hnull|⟨i,hi,hrd⟩ := k.cells s has (by omega) hm
          · exact .inl hnull
          · exact .inr ⟨i,by omega,hrd⟩
    · intro g t hg ht
      have hgr : ∀ s : Slot,a ≤ s.state → s.state < h.nstate+1 → s ≠ n → g.read s=h3.read s := by
        intro s has hsn hs
        rw [hg.read s has hsn (by simpa [n] using hs),read_write_ne hs]
      have hgc : ∀ i,a ≤ i → i < h.nstate+1 →
          (g.mem i).c=((RegexNfa.state h splitC (.state e.start) .null).mem i).c := by
        intro i hi hin
        rw [hg.c i hi hin,write_c,hd.c]
      refine hM g t (k.realizes g _ ⟨?_,?_⟩ ?_) ?_
      · exact fun i hi hin => hgc i hi (by omega)
      · intro s has hsn hl
        rw [hgr s has (by omega) fun he => by rw [he] at hsn; exact hsn.ne rfl,hd.read s hl]
      · intro s hm
        have hs := hb.region s hm
        rw [hgr s hs.1 (by omega) fun he => by rw [he] at hs; exact hs.2.ne rfl,hread s hm]
      · rw [kind_split,hgr ⟨h.nstate,false⟩ han.le (Nat.lt_succ_self _) (by simp [n]),hnew,
          show g.read ⟨h.nstate,true⟩=t from ht _ (List.mem_singleton_self _)]
        rw [hgc _ han.le (Nat.lt_succ_self _)]
        exact state_c h splitC _ _

/-- Zero or more. -/
theorem step_star (hb : Built h a h.nstate e l L) (hst : st.length < stackSize) :
    Stepped h (e::st) st 42 a (KStar.kstar L) := by
  obtain ⟨h3,hp,hn,hm,hb3⟩ := loop_spec (r := .node h.nstate) (M := KStar.kstar L) hb
    ⟨h.nstate,rfl,hb.le.le,le_refl _⟩ fun g t hr hk => realizes_star hk hr
  refine ⟨h3.write ⟨h.nstate,true⟩ .null,⟨.node h.nstate,⟨h.nstate,true⟩⟩,[],?_,?_,hm,?_⟩
  · exact (congrArg (Option.bind · fun h1 => push (h1.write ⟨h.nstate,true⟩ .null) st
      ⟨.node h.nstate,⟨h.nstate,true⟩⟩) hp).trans (push_of_lt _ _ hst)
  · rw [write_nstate,hn]
    exact Nat.le_succ _
  · rw [write_nstate,hn]
    exact hb3

/-- One or more. -/
theorem step_plus (hb : Built h a h.nstate e l L) (hst : st.length < stackSize) :
    Stepped h (e::st) st 43 a (L*KStar.kstar L) := by
  obtain ⟨i,hi,hai,hin⟩ := hb.first
  obtain ⟨h3,hp,hn,hm,hb3⟩ := loop_spec (r := e.start) (M := L*KStar.kstar L) hb
    ⟨i,hi,hai,hin.le⟩ fun g t hr hk => hr.trans (realizes_star hk hr)
  refine ⟨h3.write ⟨h.nstate,true⟩ .null,⟨e.start,⟨h.nstate,true⟩⟩,[],?_,?_,hm,?_⟩
  · exact (congrArg (Option.bind · fun h1 => push (h1.write ⟨h.nstate,true⟩ .null) st
      ⟨e.start,⟨h.nstate,true⟩⟩) hp).trans (push_of_lt _ _ hst)
  · rw [write_nstate,hn]
    exact Nat.le_succ _
  · rw [write_nstate,hn]
    exact hb3

end Fragments

/-! ## The loop -/

/-- Runs one behind the other. -/
theorem run_append (h : Heap) (st : List Frag) (x y : List UInt8) :
    run h st (x++y)=(run h st x).bind fun r => run r.1 r.2 y := by
  induction x generalizing h st with
  | nil => rfl
  | cons c x ih =>
    simp only [List.cons_append,run,Option.bind_assoc]
    exact Option.bind_congr fun r _ => ih r.1 r.2

/-- One character is one step. -/
theorem run_singleton (h : Heap) (st : List Frag) (p : UInt8) : run h st [p]=step h st p := by
  simp only [run,Prod.mk.eta,Option.bind_fun_some]

/-- The postfix form of an expression pushes its fragment. -/
theorem run_post {l : Level} (x : Syn l) (hx : NoDot x) : ∀ (h : Heap) (st : List Frag),
    st.length+need x ≤ stackSize → ∃ h1 e k,run h st x.post=some (h1,e::st) ∧
      h.nstate ≤ h1.nstate ∧ (∀ i < h.nstate,h1.mem i=h.mem i) ∧
      Built h1 h.nstate h1.nstate e k (regex x).matches' := by
  induction x with
  | lit c hc =>
    intro h st hst
    simp only [need] at hst
    rw [Syn.post,run_singleton]
    exact step_char hc hx h (by omega)
  | group a ih => exact ih hx
  | rep op a ih =>
    intro h st hst
    obtain ⟨h1,e,k,hrun,hn,hm,hb⟩ := ih hx h st hst
    have hpos : st.length < stackSize := by
      have := need_pos a
      simp only [need] at hst
      omega
    have hs : Stepped h1 (e::st) st op.char h.nstate (regex (.rep op a)).matches' := by
      cases op with
      | star => exact step_star hb hpos
      | plus => exact step_plus hb hpos
      | quest => exact step_quest hb hpos
    obtain ⟨h2,e2,k2,hstep,hn2,hm2,hb2⟩ := hs
    refine ⟨h2,e2,k2,?_,hn.trans hn2,fun i hi => (hm2 i hi).trans (hm i hi),hb2⟩
    rw [Syn.post,run_append,hrun,Option.bind_some,run_singleton,hstep]
  | one a ih => exact ih hx
  | more c a ihc iha =>
    intro h st hst
    simp only [need] at hst
    obtain ⟨h1,e1,k1,hrun1,hn1,hm1,hb1⟩ := ihc hx.1 h st (by omega)
    obtain ⟨h2,e2,k2,hrun2,hn2,hm2,hb2⟩ := iha hx.2 h1 (e1::st)
      (by simp only [List.length_cons]; omega)
    obtain ⟨h3,e3,k3,hstep,hn3,hm3,hb3⟩ := step_cat
      (hb1.congr fun i _ hi => hm2 i hi) hb2 (show st.length < stackSize by omega)
    refine ⟨h3,e3,k3,?_,by omega,fun i hi => ?_,hb3⟩
    · rw [Syn.post,run_append,run_append,hrun1,Option.bind_some,hrun2,Option.bind_some,
        run_singleton,hstep]
    · rw [hm3 i hi,hm2 i (by omega),hm1 i hi]
  | single c ih => exact ih hx
  | bar c a ihc iha =>
    intro h st hst
    simp only [need] at hst
    obtain ⟨h1,e1,k1,hrun1,hn1,hm1,hb1⟩ := ihc hx.1 h st (by omega)
    obtain ⟨h2,e2,k2,hrun2,hn2,hm2,hb2⟩ := iha hx.2 h1 (e1::st)
      (by simp only [List.length_cons]; omega)
    obtain ⟨h3,e3,k3,hstep,hn3,hm3,hb3⟩ := step_alt
      (hb1.congr fun i _ hi => hm2 i hi) hb2 (show st.length < stackSize by omega)
    refine ⟨h3,e3,k3,?_,by omega,fun i hi => ?_,hb3⟩
    · rw [Syn.post,run_append,run_append,hrun1,Option.bind_some,hrun2,Option.bind_some,
        run_singleton,hstep]
    · rw [hm3 i hi,hm2 i (by omega),hm1 i hi]

/-- An expression that needs more of the stack than there is leaves it. -/
theorem run_overflow {l : Level} (x : Syn l) (hx : NoDot x) : ∀ (h : Heap) (st : List Frag),
    st.length ≤ stackSize → stackSize < st.length+need x → run h st x.post=none := by
  induction x with
  | lit c hc =>
    intro h st hst hlt
    simp only [need] at hlt
    simp only [ordinary,List.mem_cons,List.not_mem_nil,or_false,not_or,decide_eq_true_eq] at hc
    obtain ⟨-,h2,-,h4,h5,h6⟩ := hc
    have hd : c ≠ 46 := hx
    rw [Syn.post,run_singleton]
    simp only [step,hd,h2,h4,h5,h6,if_false]
    exact if_neg (by omega)
  | group a ih => exact ih hx
  | rep op a ih =>
    intro h st hst hlt
    rw [Syn.post,run_append,ih hx h st hst hlt,Option.bind_none]
  | one a ih => exact ih hx
  | more c a ihc iha =>
    intro h st hst hlt
    simp only [need] at hlt
    rw [Syn.post,run_append,run_append]
    by_cases hc : st.length+need c ≤ stackSize
    · obtain ⟨h1,e1,k1,hrun1,-,-,-⟩ := run_post c hx.1 h st hc
      have := need_pos c
      rw [hrun1,Option.bind_some,iha hx.2 h1 (e1::st) (by simp only [List.length_cons]; omega)
        (by simp only [List.length_cons]; omega),Option.bind_none]
    · rw [ihc hx.1 h st hst (by omega),Option.bind_none,Option.bind_none]
  | single c ih => exact ih hx
  | bar c a ihc iha =>
    intro h st hst hlt
    simp only [need] at hlt
    rw [Syn.post,run_append,run_append]
    by_cases hc : st.length+need c ≤ stackSize
    · obtain ⟨h1,e1,k1,hrun1,-,-,-⟩ := run_post c hx.1 h st hc
      have := need_pos c
      rw [hrun1,Option.bind_some,iha hx.2 h1 (e1::st) (by simp only [List.length_cons]; omega)
        (by simp only [List.length_cons]; omega),Option.bind_none]
    · rw [ihc hx.1 h st hst (by omega),Option.bind_none,Option.bind_none]

/-- States whose first state accepts a language. -/
structure Automaton (h : Heap) (start : Ref) (L : Language UInt8) : Prop where
  /-- The first state. -/
  first : ∃ i < h.nstate,start=.node i
  /-- Every pointer leads to an allocated or to the static state. -/
  cells : ∀ s : Slot,s.state < h.nstate →
    h.read s=.null ∨ h.read s=.state .matchstate ∨ ∃ i < h.nstate,h.read s=.state (.node i)
  /-- The words of the first state. -/
  word : ∀ w,Word (kind h) (.state start) w ↔ w ∈ L

/-- post2nfa makes the automaton of an expression that the stack has room
for. -/
theorem post2nfa_post (a : Syn .alt) (ha : NoDot a) (hs : need a ≤ stackSize) :
    ∃ h start,post2nfa a.post=some (some (h,start)) ∧ Automaton h start (regex a).matches' := by
  obtain ⟨h1,e,k,hrun,-,-,hb⟩ := run_post a ha .init [] (by simpa using hs)
  obtain ⟨h2,hp,hd,hr⟩ := patch_spec .matchstate hb.links hb.nodup (hb.length_le (le_refl _))
  refine ⟨h2,e.start,?_,?_,?_,?_⟩
  · rw [post2nfa,hrun,Option.bind_some]
    exact congrArg (Option.map _) hp
  · obtain ⟨i,hi,-,hn⟩ := hb.first
    exact ⟨i,hd.nstate ▸ hn,hi⟩
  · intro s hsn
    rw [hd.nstate] at hsn ⊢
    by_cases hm : s ∈ e.out::k
    · exact .inr (.inl (hr s hm))
    · rw [hd.read s hm]
      obtain hnull|hnode := hb.cells s (Nat.zero_le _) hsn hm
      · exact .inl hnull
      · exact .inr (.inr hnode)
  · intro w
    refine (hb.realizes h2 (.state .matchstate) ⟨?_,?_⟩ hr).word_iff rfl w
    · exact fun i _ _ => hd.c i
    · exact fun s _ _ hl => hd.read s hl

/-- A pattern that needs too much stack is undefined. -/
theorem post2nfa_overflow (a : Syn .alt) (ha : NoDot a) (hs : stackSize < need a) :
    post2nfa a.post=none := by
  rw [post2nfa,run_overflow a ha .init [] (Nat.zero_le _) (by simpa using hs),Option.bind_none]

/-- A bar without an alternative behind it finds one fragment only. -/
theorem post2nfa_trailing (a : Syn .alt) (ha : NoDot a) : post2nfa (a.post++[124])=none := by
  rw [post2nfa,run_append]
  by_cases hs : need a ≤ stackSize
  · obtain ⟨h1,e,k,hrun,-,-,-⟩ := run_post a ha .init [] (by simpa using hs)
    rw [hrun,Option.bind_some,run_singleton]
    rfl
  · rw [run_overflow a ha .init [] (Nat.zero_le _) (by simpa using hs),Option.bind_none,
      Option.bind_none]

end StudyCode.RegexNfa
