import Mathlib.Computability.Language
import Mathlib.Tactic

/-!
# Graphs that read and branch

A node accepts, reads a symbol that passes a test, or branches to two nodes
without reading. Acceptance counts its moves, so that a loop through a branch
is unrolled by induction. A list of nodes that do not branch stands for the set
of nodes that one word leads to.
-/

namespace StudyCode.SplitGraph

/-- What a node does. -/
inductive Kind (α P : Type*) where
  /-- It accepts the empty word. -/
  | accept
  /-- It reads a symbol that passes the test. -/
  | read (test : α → Bool) (next : P)
  /-- It goes on to one of two nodes. -/
  | split (left right : P)
  /-- It does nothing. -/
  | dead

section Accepts

variable {α P : Type*} {g : P → Kind α P} {p q r t : P} {a : α} {n : ℕ} {w : List α}

/-- A node accepts a word in a number of moves. -/
inductive Accepts (g : P → Kind α P) : ℕ → P → List α → Prop
  /-- The end of the word. -/
  | accept {p : P} (h : g p=.accept) : Accepts g 0 p []
  /-- One symbol. -/
  | read {p q : P} {n : ℕ} {w : List α} {test : α → Bool} {a : α} (h : g p=.read test q)
      (ha : test a=true) (hq : Accepts g n q w) : Accepts g (n+1) p (a::w)
  /-- The first branch. -/
  | left {p q r : P} {n : ℕ} {w : List α} (h : g p=.split q r) (hq : Accepts g n q w) :
      Accepts g (n+1) p w
  /-- The second branch. -/
  | right {p q r : P} {n : ℕ} {w : List α} (h : g p=.split q r) (hr : Accepts g n r w) :
      Accepts g (n+1) p w

/-- A node accepts a word. -/
def Word (g : P → Kind α P) (p : P) (w : List α) : Prop := ∃ n,Accepts g n p w

/-- The end accepts nothing more. -/
theorem accepts_accept (h : g p=.accept) : Accepts g n p w ↔ n=0 ∧ w=[] := by
  constructor
  · intro hp
    cases hp with
    | accept => exact ⟨rfl,rfl⟩
    | read h1 => rw [h] at h1; cases h1
    | left h1 => rw [h] at h1; cases h1
    | right h1 => rw [h] at h1; cases h1
  · rintro ⟨rfl,rfl⟩
    exact .accept h

/-- A reading node takes one letter. -/
theorem accepts_read {test : α → Bool} (h : g p=.read test q) :
    Accepts g n p w ↔ ∃ m a v,n=m+1 ∧ w=a::v ∧ test a=true ∧ Accepts g m q v := by
  constructor
  · intro hp
    cases hp with
    | accept h1 => rw [h] at h1; cases h1
    | read h1 ha hq =>
      rw [h] at h1
      cases h1
      exact ⟨_,_,_,rfl,rfl,ha,hq⟩
    | left h1 => rw [h] at h1; cases h1
    | right h1 => rw [h] at h1; cases h1
  · rintro ⟨m,a,v,rfl,rfl,ha,hq⟩
    exact .read h ha hq

/-- A split goes either way. -/
theorem accepts_split (h : g p=.split q r) :
    Accepts g n p w ↔ ∃ m,n=m+1 ∧ (Accepts g m q w ∨ Accepts g m r w) := by
  constructor
  · intro hp
    cases hp with
    | accept h1 => rw [h] at h1; cases h1
    | read h1 => rw [h] at h1; cases h1
    | left h1 hq =>
      rw [h] at h1
      cases h1
      exact ⟨_,rfl,.inl hq⟩
    | right h1 hr =>
      rw [h] at h1
      cases h1
      exact ⟨_,rfl,.inr hr⟩
  · rintro ⟨m,rfl,hq|hr⟩
    · exact .left h hq
    · exact .right h hr

/-- A dead node accepts nothing. -/
theorem not_accepts_dead (h : g p=.dead) : ¬Accepts g n p w := by
  intro hp
  cases hp with
  | accept h1 => rw [h] at h1; cases h1
  | read h1 => rw [h] at h1; cases h1
  | left h1 => rw [h] at h1; cases h1
  | right h1 => rw [h] at h1; cases h1

/-- The word of the end is empty. -/
theorem word_accept (h : g p=.accept) : Word g p w ↔ w=[] := by
  simp only [Word,accepts_accept h,exists_and_right,exists_eq,true_and]

/-- A reading node has not the empty word. -/
theorem word_nil_read {test : α → Bool} (h : g p=.read test q) : ¬Word g p [] := by
  rintro ⟨n,hp⟩
  obtain ⟨m,a,v,-,hw,-⟩ := (accepts_read h).1 hp
  cases hw

/-- A reading node takes its letter. -/
theorem word_cons_read {test : α → Bool} (h : g p=.read test q) :
    Word g p (a::w) ↔ test a=true ∧ Word g q w := by
  constructor
  · rintro ⟨n,hp⟩
    obtain ⟨m,b,v,-,hw,hb,hq⟩ := (accepts_read h).1 hp
    cases hw
    exact ⟨hb,m,hq⟩
  · rintro ⟨ha,n,hq⟩
    exact ⟨n+1,.read h ha hq⟩

/-- The words of a split. -/
theorem word_split (h : g p=.split q r) : Word g p w ↔ Word g q w ∨ Word g r w := by
  constructor
  · rintro ⟨n,hp⟩
    obtain ⟨m,-,hq|hr⟩ := (accepts_split h).1 hp
    · exact .inl ⟨m,hq⟩
    · exact .inr ⟨m,hr⟩
  · rintro (⟨n,hq⟩|⟨n,hr⟩)
    · exact ⟨n+1,.left h hq⟩
    · exact ⟨n+1,.right h hr⟩

/-- A dead node has no word. -/
theorem not_word_dead (h : g p=.dead) : ¬Word g p w := by
  rintro ⟨n,hp⟩
  exact not_accepts_dead h hp

end Accepts

/-! ## Parts of a graph -/

section Realizes

variable {α P : Type*} {g : P → Kind α P} {p q r s t : P} {L K : Language α}

/-- From one node the words of a language lead to another node. -/
structure Realizes (g : P → Kind α P) (p t : P) (L : Language α) : Prop where
  /-- What the first node accepts begins with a word of the language, and the
  moves behind it are not more. -/
  sound : ∀ n w,Accepts g n p w → ∃ m ≤ n,∃ u v,w=u++v ∧ u ∈ L ∧ Accepts g m t v
  /-- A word of the language may stand before what the second node accepts. -/
  complete : ∀ u v,u ∈ L → Word g t v → Word g p (u++v)

/-- What is accepted in front of a node that accepts the empty word. -/
theorem Realizes.word_iff (h : Realizes g p t L) (ht : g t=.accept) (w : List α) :
    Word g p w ↔ w ∈ L := by
  constructor
  · rintro ⟨n,hp⟩
    obtain ⟨m,-,u,v,rfl,hu,hv⟩ := h.sound n w hp
    obtain ⟨-,rfl⟩ := (accepts_accept ht).1 hv
    rwa [List.append_nil]
  · intro hw
    have hn := h.complete w [] hw ((word_accept ht).2 rfl)
    rwa [List.append_nil] at hn

/-- One letter. -/
theorem realizes_read {test : α → Bool} (h : g p=.read test t) :
    Realizes g p t {w | ∃ a,test a=true ∧ w=[a]} where
  sound n w hp := by
    obtain ⟨m,a,v,rfl,rfl,ha,hv⟩ := (accepts_read h).1 hp
    exact ⟨m,Nat.le_succ m,[a],v,rfl,⟨a,ha,rfl⟩,hv⟩
  complete u v hu ht := by
    obtain ⟨a,ha,rfl⟩ := hu
    exact (word_cons_read h).2 ⟨ha,ht⟩

/-- One piece behind another. -/
theorem Realizes.trans (hp : Realizes g p q L) (hq : Realizes g q t K) :
    Realizes g p t (L*K) where
  sound n w h := by
    obtain ⟨m,hm,u,v,rfl,hu,hv⟩ := hp.sound n w h
    obtain ⟨k,hk,x,y,rfl,hx,hy⟩ := hq.sound m v hv
    exact ⟨k,hk.trans hm,u++x,y,(List.append_assoc u x y).symm,
      Language.append_mem_mul hu hx,hy⟩
  complete u v hu ht := by
    obtain ⟨x,hx,y,hy,rfl⟩ := hu
    rw [List.append_assoc]
    exact hp.complete x (y++v) hx (hq.complete y v hy ht)

/-- Two pieces side by side. -/
theorem realizes_alt (h : g s=.split p q) (hp : Realizes g p t L) (hq : Realizes g q t K) :
    Realizes g s t (L+K) where
  sound n w hs := by
    obtain ⟨m,rfl,h1|h2⟩ := (accepts_split h).1 hs
    · obtain ⟨k,hk,u,v,rfl,hu,hv⟩ := hp.sound m w h1
      exact ⟨k,hk.trans (Nat.le_succ m),u,v,rfl,.inl hu,hv⟩
    · obtain ⟨k,hk,u,v,rfl,hu,hv⟩ := hq.sound m w h2
      exact ⟨k,hk.trans (Nat.le_succ m),u,v,rfl,.inr hu,hv⟩
  complete u v hu ht := by
    rw [word_split h]
    obtain hu|hu := hu
    · exact .inl (hp.complete u v hu ht)
    · exact .inr (hq.complete u v hu ht)

/-- A piece that may be left out. -/
theorem realizes_option (h : g s=.split p t) (hp : Realizes g p t L) :
    Realizes g s t (L+1) where
  sound n w hs := by
    obtain ⟨m,rfl,h1|h2⟩ := (accepts_split h).1 hs
    · obtain ⟨k,hk,u,v,rfl,hu,hv⟩ := hp.sound m w h1
      exact ⟨k,hk.trans (Nat.le_succ m),u,v,rfl,.inl hu,hv⟩
    · exact ⟨m,Nat.le_succ m,[],w,rfl,.inr rfl,h2⟩
  complete u v hu ht := by
    rw [word_split h]
    obtain hu|hu := hu
    · exact .inl (hp.complete u v hu ht)
    · obtain rfl : u=[] := hu
      exact .inr ht

/-- A loop: the branch is one move, so what follows a turn takes fewer. -/
theorem realizes_star (h : g s=.split p t) (hp : Realizes g p s L) :
    Realizes g s t (KStar.kstar L) where
  sound n := by
    induction n using Nat.strong_induction_on with
    | _ n ih =>
      intro w hs
      obtain ⟨m,rfl,h1|h2⟩ := (accepts_split h).1 hs
      · obtain ⟨k,hk,u,v,rfl,hu,hv⟩ := hp.sound m w h1
        obtain ⟨j,hj,x,y,rfl,hx,hy⟩ := ih k (by omega) v hv
        have hstar : u++x ∈ KStar.kstar L :=
          Set.mem_of_mem_of_subset (Language.append_mem_mul hu hx)
            (mul_kstar_le_kstar (a := L))
        exact ⟨j,by omega,u++x,y,(List.append_assoc u x y).symm,hstar,hy⟩
      · exact ⟨m,Nat.le_succ m,[],w,rfl,Language.nil_mem_kstar L,h2⟩
  complete u v hu ht := by
    rw [Language.kstar_def] at hu
    obtain ⟨parts,rfl,hparts⟩ := hu
    induction parts with
    | nil => exact (word_split h).2 (.inr ht)
    | cons x parts ih =>
      simp only [List.mem_cons,forall_eq_or_imp] at hparts
      rw [List.flatten_cons,List.append_assoc]
      exact (word_split h).2 (.inl (hp.complete x _ hparts.1 (ih hparts.2)))

end Realizes

/-! ## Lists of nodes -/

section Cover

variable {α P : Type*} {g : P → Kind α P} {p q r : P} {a : α} {w : List α} {l roots : List P}

/-- A node that does not branch and is not dead. -/
def Plain (g : P → Kind α P) (p : P) : Prop := g p=.accept ∨ ∃ test q,g p=.read test q

/-- Some node of the list accepts the word. -/
def Cover (g : P → Kind α P) (l : List P) (w : List α) : Prop := ∃ p ∈ l,Word g p w

/-- Only the members of a list count. -/
theorem cover_congr {k : List P} (h : ∀ p,p ∈ l ↔ p ∈ k) (w : List α) :
    Cover g l w ↔ Cover g k w :=
  exists_congr fun p => and_congr_left fun _ => h p

/-- Silent moves from one node to another. -/
inductive Silent (g : P → Kind α P) (p : P) : P → Prop
  /-- No move. -/
  | refl : Silent g p p
  /-- A split to the left. -/
  | left {q r s : P} (h : Silent g p q) (hq : g q=.split r s) : Silent g p r
  /-- A split to the right. -/
  | right {q r s : P} (h : Silent g p q) (hq : g q=.split r s) : Silent g p s

/-- Words behind silent moves. -/
theorem Silent.word (h : Silent g p q) (hq : Word g q w) : Word g p w := by
  induction h with
  | refl => exact hq
  | left _ hs ih => exact ih ((word_split hs).2 (.inl hq))
  | right _ hs ih => exact ih ((word_split hs).2 (.inr hq))

/-- Silent moves one behind the other. -/
theorem Silent.trans (h : Silent g p q) (hq : Silent g q r) : Silent g p r := by
  induction hq with
  | refl => exact h
  | left _ hs ih => exact .left ih hs
  | right _ hs ih => exact .right ih hs

/-- A set of marked nodes with the list of those that do not branch. -/
structure Closed (g : P → Kind α P) (marked : P → Prop) (l : List P) : Prop where
  /-- A marked node that does not branch is in the list. -/
  plain : ∀ p,marked p → Plain g p → p ∈ l
  /-- Both branches of a marked node are marked or dead. -/
  split : ∀ p q r,marked p → g p=.split q r → (marked q ∨ g q=.dead) ∧ (marked r ∨ g r=.dead)

/-- A closed list covers the words of what is marked. -/
theorem Closed.cover {marked : P → Prop} (h : Closed g marked l) (hp : marked p)
    (hw : Word g p w) : Cover g l w := by
  obtain ⟨n,hn⟩ := hw
  induction hn with
  | accept ha => exact ⟨_,h.plain _ hp (.inl ha),_,.accept ha⟩
  | read hr ha hq _ => exact ⟨_,h.plain _ hp (.inr ⟨_,_,hr⟩),_,.read hr ha hq⟩
  | left hs hq ih =>
    obtain hm|hd := (h.split _ _ _ hp hs).1
    · exact ih hm
    · exact absurd hq (not_accepts_dead hd)
  | right hs hr ih =>
    obtain hm|hd := (h.split _ _ _ hp hs).2
    · exact ih hm
    · exact absurd hr (not_accepts_dead hd)

/-- A list that a search over the silent moves from some roots has collected
accepts what the roots accept. -/
theorem Closed.cover_iff {marked : P → Prop} (h : Closed g marked l)
    (hroots : ∀ p ∈ roots,marked p ∨ g p=.dead) (hl : ∀ q ∈ l,∃ p ∈ roots,Silent g p q)
    (w : List α) : Cover g l w ↔ Cover g roots w := by
  constructor
  · rintro ⟨q,hq,hw⟩
    obtain ⟨p,hp,hs⟩ := hl q hq
    exact ⟨p,hp,hs.word hw⟩
  · rintro ⟨p,hp,hw⟩
    obtain hm|hd := hroots p hp
    · exact h.cover hm hw
    · exact absurd hw (not_word_dead hd)

/-- Where a node goes with a symbol. -/
def next (g : P → Kind α P) (a : α) (p : P) : Option P :=
  match g p with
  | .read test q => if test a then some q else none
  | _ => none

/-- The nodes after one symbol accept the rests of the words. -/
theorem cover_next (hl : ∀ p ∈ l,Plain g p) (a : α) (w : List α) :
    Cover g (l.filterMap (next g a)) w ↔ Cover g l (a::w) := by
  constructor
  · rintro ⟨q,hq,hw⟩
    obtain ⟨p,hp,hn⟩ := List.mem_filterMap.1 hq
    obtain ha|⟨test,r,hr⟩ := hl p hp
    · simp only [next,ha] at hn; cases hn
    · simp only [next,hr] at hn
      split at hn
      · next ht =>
        cases hn
        exact ⟨p,hp,(word_cons_read hr).2 ⟨ht,hw⟩⟩
      · cases hn
  · rintro ⟨p,hp,hw⟩
    obtain ha|⟨test,r,hr⟩ := hl p hp
    · cases (word_accept ha).1 hw
    · obtain ⟨ht,hq⟩ := (word_cons_read hr).1 hw
      exact ⟨r,List.mem_filterMap.2 ⟨p,hp,by simp only [next,hr,ht,if_true]⟩,hq⟩

/-- The end of the word is accepted when an accepting node is in the list. -/
theorem cover_nil (hl : ∀ p ∈ l,Plain g p) : Cover g l [] ↔ ∃ p ∈ l,g p=.accept := by
  constructor
  · rintro ⟨p,hp,hw⟩
    obtain ha|⟨test,r,hr⟩ := hl p hp
    · exact ⟨p,hp,ha⟩
    · exact absurd hw (word_nil_read hr)
  · rintro ⟨p,hp,ha⟩
    exact ⟨p,hp,(word_accept ha).2 rfl⟩

end Cover

end StudyCode.SplitGraph
