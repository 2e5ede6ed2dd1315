import Mathlib.Data.Prod.Basic
import Mathlib.Tactic

/-!
# Feistel networks

A round changes one half of a block with a function of the other half and of a
key, and the halves change places. The rounds of the keys in the other order
undo it, whatever the function is.
-/

namespace StudyCode.Feistel

section Feistel

variable {α β K L : Type*} (op : α → α → α) (f : α → K → α)

/-- The round of a key. -/
def round (k : K) (p : α×α) : α×α := (p.2,op p.1 (f p.2 k))

/-- The rounds of some keys. -/
def rounds : List K → α×α → α×α
  | [],p => p
  | k::ks,p => rounds ks (round op f k p)

/-- No rounds do nothing. -/
@[simp] theorem rounds_nil (p : α×α) : rounds op f [] p=p := rfl

/-- The first round comes first. -/
@[simp] theorem rounds_cons (k : K) (ks : List K) (p : α×α) :
    rounds op f (k::ks) p=rounds op f ks (round op f k p) := rfl

/-- Rounds one behind the other. -/
@[simp] theorem rounds_append (ks ls : List K) (p : α×α) :
    rounds op f (ks++ls) p=rounds op f ls (rounds op f ks p) := by
  induction ks generalizing p with
  | nil => rfl
  | cons k ks ih => exact ih (round op f k p)

variable {op}

/-- A round undoes itself on the block with its halves exchanged. -/
theorem round_swap (hop : ∀ a b,op (op a b) b=a) (k : K) (p : α×α) :
    round op f k (round op f k p).swap=p.swap := Prod.ext rfl (hop p.1 (f p.2 k))

/-- The rounds of the keys in the other order undo the rounds. -/
theorem rounds_reverse (hop : ∀ a b,op (op a b) b=a) (ks : List K) (p : α×α) :
    rounds op f ks.reverse (rounds op f ks p).swap=p.swap := by
  induction ks generalizing p with
  | nil => rfl
  | cons k ks ih =>
    have hlast := ih (round op f k p)
    rw [List.reverse_cons,rounds_append,rounds_cons op f k ks,hlast]
    exact round_swap f hop k p

variable {f} {op1 : β → β → β} {g : β → L → β} {φ : α → β} {R : K → L → Prop}

/-- Two networks whose rounds agree along a map of the halves agree along it. -/
theorem rounds_map (hR : ∀ k l,R k l → ∀ a b,φ (op a (f b k))=op1 (φ a) (g (φ b) l))
    {ks : List K} {ls : List L} (h : List.Forall₂ R ks ls) (p : α×α) :
    rounds op1 g ls (p.map φ φ)=(rounds op f ks p).map φ φ := by
  induction h generalizing p with
  | nil => rfl
  | cons hkl _ ih =>
    have hround : round op1 g _ (p.map φ φ)=(round op f _ p).map φ φ :=
      Prod.ext rfl (hR _ _ hkl p.1 p.2).symm
    rw [rounds_cons,rounds_cons,hround]
    exact ih _

end Feistel

end StudyCode.Feistel
