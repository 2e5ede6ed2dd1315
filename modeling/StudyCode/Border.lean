import Mathlib.Tactic

/-!
# Overlaps of a pattern with a text

A text ends in prefixes of a pattern, and the longest one that may still be
extended is all that a matcher has to keep. Falling back along the longest
proper overlap of a prefix with itself loses no candidate.
-/

namespace StudyCode.Border

variable {α : Type*} {p t : List α} {c : α} {b m : ℕ}

/-- The text ends in the first m elements of the pattern. -/
def Laps (p t : List α) (m : ℕ) : Prop := m ≤ p.length ∧ p.take m <:+ t

/-- A border of length zero always laps. -/
theorem laps_zero (p t : List α) : Laps p t 0 := ⟨Nat.zero_le _,by simp⟩

/-- An overlap grows with the text by the element that follows it. -/
theorem laps_snoc : Laps p (t++[c]) (m+1) ↔ Laps p t m ∧ p[m]?=some c := by
  constructor
  · rintro ⟨hm,hs⟩
    have hlt : m < p.length := hm
    rw [List.take_add_one,List.getElem?_eq_getElem hlt] at hs
    have h := List.suffix_concat_iff.mp hs
    rcases h with h|⟨u,hu,hsu⟩
    · exact absurd (List.append_eq_nil_iff.mp h).2 (by simp)
    · have he := List.append_inj' hu rfl
      refine ⟨⟨hlt.le,he.1 ▸ hsu⟩,?_⟩
      rw [List.getElem?_eq_getElem hlt]
      simpa using he.2
  · rintro ⟨⟨-,u,hu⟩,hc⟩
    obtain ⟨hlt,-⟩ := List.getElem?_eq_some_iff.mp hc
    refine ⟨hlt,u,?_⟩
    rw [List.take_add_one,hc,←hu]
    simp

/-- The shorter overlaps are the overlaps of the pattern with the longer one. -/
theorem Laps.below (h : Laps p t m) {j : ℕ} (hj : j ≤ m) : Laps p t j ↔ Laps p (p.take m) j := by
  have hlen : (p.take j).length ≤ (p.take m).length := by
    rw [List.length_take,List.length_take]
    omega
  constructor
  · intro hl
    exact ⟨hl.1,List.suffix_of_suffix_length_le hl.2 h.2 hlen⟩
  · intro hl
    exact ⟨hl.1,hl.2.trans h.2⟩

/-- The longest overlap among those of at most b elements. -/
structure Longest (p t : List α) (b m : ℕ) : Prop where
  /-- It is within the bound. -/
  le : m ≤ b
  /-- It is an overlap. -/
  laps : Laps p t m
  /-- No other one within the bound is longer. -/
  max : ∀ j ≤ b,Laps p t j → j ≤ m

/-- A candidate of a fallback: an overlap at least as long as every one that
the next element extends. -/
structure Candidate (p t : List α) (c : α) (b m : ℕ) : Prop where
  /-- It is within the bound. -/
  le : m ≤ b
  /-- It is an overlap. -/
  laps : Laps p t m
  /-- What the next element extends is not longer. -/
  max : ∀ j ≤ b,Laps p t j → p[j]?=some c → j ≤ m

/-- The longest border is where the next character is tried first. -/
theorem Longest.candidate (h : Longest p t b m) (c : α) : Candidate p t c b m :=
  ⟨h.le,h.laps,fun j hj hl _ => h.max j hj hl⟩

/-- A candidate that is not extended is replaced by its longest proper overlap
with itself. -/
theorem Candidate.fall (h : Candidate p t c b m) (hm : 0 < m) (hc : p[m]? ≠ some c) {f : ℕ}
    (hf : Longest p (p.take m) (m-1) f) : Candidate p t c b f ∧ f < m := by
  have hfm : f < m := by
    have := hf.le
    omega
  refine ⟨⟨hfm.le.trans h.le,(h.laps.below hfm.le).mpr hf.laps,?_⟩,hfm⟩
  intro j hj hl hjc
  have hjm : j ≤ m := h.max j hj hl hjc
  have hne : j ≠ m := fun he => hc (he ▸ hjc)
  exact hf.max j (by omega) ((h.laps.below hjm).mp hl)

/-- A candidate that the next element extends is the longest overlap but one. -/
theorem Candidate.extend (h : Candidate p t c b m) (hc : p[m]?=some c) :
    Longest p (t++[c]) (b+1) (m+1) := by
  refine ⟨Nat.succ_le_succ h.le,laps_snoc.mpr ⟨h.laps,hc⟩,?_⟩
  intro j hj hl
  cases j with
  | zero => omega
  | succ j =>
    obtain ⟨hl',hc'⟩ := laps_snoc.mp hl
    exact Nat.succ_le_succ (h.max j (by omega) hl' hc')

/-- When even the empty candidate is not extended, nothing is. -/
theorem Candidate.empty (h : Candidate p t c b 0) (hc : p[0]? ≠ some c) :
    Longest p (t++[c]) (b+1) 0 := by
  refine ⟨Nat.zero_le _,laps_zero _ _,?_⟩
  intro j hj hl
  cases j with
  | zero => exact le_rfl
  | succ j =>
    obtain ⟨hl',hc'⟩ := laps_snoc.mp hl
    have hj0 : j=0 := Nat.le_zero.mp (h.max j (by omega) hl' hc')
    exact absurd (hj0 ▸ hc') hc

/-! ## Borders -/

/-- Lengths of the proper prefixes of a word that it also ends in. -/
def borders (w : List α) : Set ℕ := {m | ∃ u,u <+: w ∧ u ≠ w ∧ u <:+ w ∧ u.length=m}

/-- The proper overlaps of a prefix of the pattern with itself are its borders. -/
theorem mem_borders {q : ℕ} (hq : q < p.length) :
    m ∈ borders (p.take (q+1)) ↔ m ≤ q ∧ Laps p (p.take (q+1)) m := by
  have hlen : (p.take (q+1)).length=q+1 := List.length_take_of_le hq
  constructor
  · rintro ⟨u,hpre,hne,hsuf,rfl⟩
    have hle := hpre.length_le
    have hlt : u.length ≠ q+1 := fun he => hne (hpre.eq_of_length (he.trans hlen.symm))
    have hu : u=p.take u.length := List.prefix_iff_eq_take.mp (hpre.trans (List.take_prefix _ _))
    refine ⟨by omega,by omega,?_⟩
    rw [←hu]
    exact hsuf
  · rintro ⟨hm,hmp,hsuf⟩
    have hum : (p.take m).length=m := List.length_take_of_le hmp
    refine ⟨p.take m,?_,?_,hsuf,hum⟩
    · exact List.take_prefix_take_left (by omega)
    · intro he
      have := congrArg List.length he
      omega

/-- The longest proper overlap is the longest border. -/
theorem Longest.isGreatest {q : ℕ} (hq : q < p.length) (h : Longest p (p.take (q+1)) q m) :
    IsGreatest (borders (p.take (q+1))) m := by
  refine ⟨(mem_borders hq).mpr ⟨h.le,h.laps⟩,?_⟩
  intro j hj
  obtain ⟨hle,hl⟩ := (mem_borders hq).mp hj
  exact h.max j hle hl

/-! ## Occurrences -/

/-- The pattern stands in the text at position i. -/
def Occurs (p t : List α) (i : ℕ) : Prop := i+p.length ≤ t.length ∧ (t.drop i).take p.length=p

/-- An occurrence is a full overlap of the text up to its end. -/
theorem occurs_iff_laps {i : ℕ} (hi : i+p.length ≤ t.length) :
    Occurs p t i ↔ Laps p (t.take (i+p.length)) p.length := by
  have ht : t.take (i+p.length)=t.take i++(t.drop i).take p.length := List.take_add
  constructor
  · rintro ⟨-,ho⟩
    refine ⟨le_rfl,t.take i,?_⟩
    rw [ht,ho,List.take_length]
  · rintro ⟨-,hl⟩
    refine ⟨hi,?_⟩
    rw [List.take_length,ht] at hl
    obtain ⟨u,hu⟩ := hl
    have hlen : p.length=((t.drop i).take p.length).length := by
      rw [List.length_take,List.length_drop]
      omega
    exact ((List.append_inj' hu hlen).2).symm

end StudyCode.Border
