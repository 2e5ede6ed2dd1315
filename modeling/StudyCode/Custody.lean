import Mathlib.Data.List.Nodup
import Mathlib.Logic.Function.Basic
import Mathlib.Tactic

/-!
# Things that are kept or held

Some threads hold one thing each and the others are kept in lists. No thing is
in two places. A lock belongs to the thread that is in its critical section.
-/

namespace StudyCode.Custody

section Custody

variable {T α : Type*} [DecidableEq T] {all : α → Prop} {kept kept1 : List α}
  {hold : T → Option α} {t : T} {a : α}

/-- Every thing is kept, or one thread holds it. -/
structure Placed (all : α → Prop) (kept : List α) (hold : T → Option α) : Prop where
  /-- No thing is kept twice. -/
  nodup : kept.Nodup
  /-- What is kept is a thing. -/
  mem : ∀ a ∈ kept,all a
  /-- What is held is a thing that is not kept. -/
  held : ∀ t a,hold t=some a → all a ∧ a ∉ kept
  /-- Two threads hold different things. -/
  inj : ∀ t u a,hold t=some a → hold u=some a → t=u
  /-- No thing is lost. -/
  cover : ∀ a,all a → a ∈ kept ∨ ∃ t,hold t=some a

omit [DecidableEq T] in
/-- The order in which things are kept does not matter. -/
theorem Placed.perm (h : Placed all kept hold) (hp : kept.Perm kept1) :
    Placed all kept1 hold where
  nodup := hp.nodup_iff.1 h.nodup
  mem a ha := h.mem a (hp.mem_iff.2 ha)
  held t a ha := ⟨(h.held t a ha).1,fun hm => (h.held t a ha).2 (hp.mem_iff.2 hm)⟩
  inj := h.inj
  cover a ha := (h.cover a ha).imp_left hp.mem_iff.1

/-- A thread takes a thing that was kept. -/
theorem Placed.take (h : Placed all (a::kept) hold) (ht : hold t=none) :
    Placed all kept (Function.update hold t (some a)) where
  nodup := h.nodup.of_cons
  mem b hb := h.mem b (List.mem_cons_of_mem a hb)
  held u b hu := by
    by_cases hut : u=t
    · rw [hut,Function.update_self] at hu
      obtain rfl := Option.some.inj hu
      exact ⟨h.mem a List.mem_cons_self,(List.nodup_cons.1 h.nodup).1⟩
    · rw [Function.update_of_ne hut] at hu
      exact ⟨(h.held u b hu).1,fun hm => (h.held u b hu).2 (List.mem_cons_of_mem a hm)⟩
  inj u v b hu hv := by
    have hnot : ∀ u,hold u ≠ some a := fun u hu => (h.held u a hu).2 List.mem_cons_self
    by_cases hut : u=t
    · by_cases hvt : v=t
      · rw [hut,hvt]
      · rw [hut,Function.update_self] at hu
        rw [Function.update_of_ne hvt,←hu] at hv
        exact absurd hv (hnot v)
    · by_cases hvt : v=t
      · rw [hvt,Function.update_self] at hv
        rw [Function.update_of_ne hut,←hv] at hu
        exact absurd hu (hnot u)
      · rw [Function.update_of_ne hut] at hu
        rw [Function.update_of_ne hvt] at hv
        exact h.inj u v b hu hv
  cover b hb := by
    obtain hm|⟨u,hu⟩ := h.cover b hb
    · obtain rfl|hm := List.mem_cons.1 hm
      · exact .inr ⟨t,Function.update_self _ _ _⟩
      · exact .inl hm
    · have hut : u ≠ t := by
        rintro rfl
        rw [ht] at hu
        cases hu
      exact .inr ⟨u,by rw [Function.update_of_ne hut]; exact hu⟩

/-- A thread gives a thing to be kept. -/
theorem Placed.give (h : Placed all kept hold) (ht : hold t=some a) :
    Placed all (a::kept) (Function.update hold t none) where
  nodup := List.nodup_cons.2 ⟨(h.held t a ht).2,h.nodup⟩
  mem b hb := by
    obtain rfl|hb := List.mem_cons.1 hb
    · exact (h.held t b ht).1
    · exact h.mem b hb
  held u b hu := by
    by_cases hut : u=t
    · rw [hut,Function.update_self] at hu
      cases hu
    · rw [Function.update_of_ne hut] at hu
      refine ⟨(h.held u b hu).1,fun hm => ?_⟩
      obtain rfl|hm := List.mem_cons.1 hm
      · exact hut (h.inj u t b hu ht)
      · exact (h.held u b hu).2 hm
  inj u v b hu hv := by
    by_cases hut : u=t
    · rw [hut,Function.update_self] at hu
      cases hu
    · by_cases hvt : v=t
      · rw [hvt,Function.update_self] at hv
        cases hv
      · rw [Function.update_of_ne hut] at hu
        rw [Function.update_of_ne hvt] at hv
        exact h.inj u v b hu hv
  cover b hb := by
    obtain hm|⟨u,hu⟩ := h.cover b hb
    · exact .inl (List.mem_cons_of_mem a hm)
    · by_cases hut : u=t
      · rw [hut,ht] at hu
        exact .inl (Option.some.inj hu ▸ List.mem_cons_self)
      · exact .inr ⟨u,by rw [Function.update_of_ne hut]; exact hu⟩

omit [DecidableEq T] in
/-- While a thread holds one of a number of things, not all are kept. -/
theorem Placed.length_lt {N a : ℕ} {kept : List ℕ} {hold : T → Option ℕ}
    (h : Placed (· < N) kept hold) (ht : hold t=some a) : kept.length < N := by
  have hsub : a::kept ⊆ List.range N := fun b hb => by
    obtain rfl|hb := List.mem_cons.1 hb
    · exact List.mem_range.2 (h.held t b ht).1
    · exact List.mem_range.2 (h.mem b hb)
  have hle := (List.nodup_cons.2 ⟨(h.held t a ht).2,h.nodup⟩).subperm hsub |>.length_le
  rwa [List.length_cons,List.length_range] at hle

omit [DecidableEq T] in
/-- When no thread holds a thing, all of them are kept. -/
theorem Placed.length_eq {N : ℕ} {kept : List ℕ} {hold : T → Option ℕ}
    (h : Placed (· < N) kept hold) (hn : ∀ t,hold t=none) : kept.length=N := by
  have hp : kept.Perm (List.range N) := (List.perm_ext_iff_of_nodup h.nodup List.nodup_range).2
    fun a => by
      refine ⟨fun ha => List.mem_range.2 (h.mem a ha),fun ha => ?_⟩
      obtain hm|⟨t,ht⟩ := h.cover a (List.mem_range.1 ha)
      · exact hm
      · rw [hn t] at ht
        cases ht
  rw [hp.length_eq,List.length_range]

end Custody

/-! ## Locks -/

section Owner

variable {T P : Type*} [DecidableEq T] {owner : Option T} {pc : T → P} {inside : P → Bool} {t : T}
  {p : P}

/-- The owner of a lock is the thread that is inside. -/
def Owner (owner : Option T) (inside : P → Bool) (pc : T → P) : Prop :=
  ∀ t,inside (pc t)=true ↔ owner=some t

/-- How a lock changes when a thread goes from one place to another. -/
inductive Passes (t : T) : Option T → Option T → Bool → Bool → Prop
  /-- It does not. -/
  | keep (owner : Option T) (b : Bool) : Passes t owner owner b b
  /-- The thread takes it. -/
  | acquire (b : Bool) : Passes t none (some t) b true
  /-- The thread gives it back. -/
  | release (owner : Option T) : Passes t owner none true false

/-- A thread that moves may take the lock or give it back. -/
theorem Owner.passes {owner1 : Option T} (h : Owner owner inside pc)
    (hp : Passes t owner owner1 (inside (pc t)) (inside p)) :
    Owner owner1 inside (Function.update pc t p) := by
  intro u
  have hu := h u
  have ht := h t
  by_cases hut : u=t
  · rw [hut,Function.update_self]
    generalize inside (pc t)=b,inside p=b1 at hp ht ⊢
    cases hp with
    | keep => exact ht
    | acquire => exact ⟨fun _ => rfl,fun _ => rfl⟩
    | release => exact ⟨fun hb => (nomatch hb),fun hb => (nomatch hb)⟩
  · rw [Function.update_of_ne hut]
    generalize inside (pc t)=b,inside p=b1 at hp ht
    cases hp with
    | keep => exact hu
    | acquire => exact hu.trans ⟨fun hb => (nomatch hb),fun hb => absurd (Option.some.inj hb).symm hut⟩
    | release =>
      rw [ht.1 rfl] at hu
      exact hu.trans ⟨fun hb => absurd (Option.some.inj hb).symm hut,fun hb => (nomatch hb)⟩

omit [DecidableEq T] in
/-- One thread at most is inside. -/
theorem Owner.unique (h : Owner owner inside pc) {u : T} (ht : inside (pc t)=true)
    (hu : inside (pc u)=true) : t=u :=
  Option.some.inj (((h t).1 ht).symm.trans ((h u).1 hu))

omit [DecidableEq T] in
/-- Only being inside of the critical section counts. -/
theorem Owner.congr {pc1 : T → P} (h : Owner owner inside pc)
    (hp : ∀ t,inside (pc1 t)=inside (pc t)) : Owner owner inside pc1 := fun t => by
  rw [hp t]
  exact h t

end Owner

end StudyCode.Custody
