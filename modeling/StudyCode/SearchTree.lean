import Mathlib.Data.List.Perm.Basic
import Mathlib.Tactic

/-!
# Search trees of records

A tree holds the names of records that are ordered by a key. A comparison of
some key with that of a record is a number whose sign decides, as in C.
-/

namespace StudyCode.SearchTree

/-- A binary tree of names. -/
inductive BinTree (α : Type*) where
  /-- The empty tree. -/
  | nil
  /-- A name with the two trees below it. -/
  | node (d : α) (left right : BinTree α)

section Trees

variable {α K : Type*} [LinearOrder K] {key : α → K} {cmp : α → ℤ} {k : K} {t : BinTree α} {d : α}

/-- The names of a tree. -/
def BinTree.ids : BinTree α → List α
  | nil => []
  | node d left right => d::(left.ids++right.ids)

/-- The name that compares equal. -/
def BinTree.search (cmp : α → ℤ) : BinTree α → Option α
  | nil => none
  | node d left right =>
    if cmp d < 0 then left.search cmp
    else if 0 < cmp d then right.search cmp
    else some d

/-- The tree with a new name at the place where the search ends. -/
def BinTree.insert (cmp : α → ℤ) (new : α) : BinTree α → BinTree α
  | nil => node new nil nil
  | node d left right =>
    if cmp d < 0 then node d (left.insert cmp new) right
    else if 0 < cmp d then node d left (right.insert cmp new)
    else node d left right

/-- The keys are smaller on the left and larger on the right. -/
def BinTree.Ordered (key : α → K) : BinTree α → Prop
  | nil => True
  | node d left right => left.Ordered key ∧ right.Ordered key ∧
      (∀ x ∈ left.ids,key x < key d) ∧ ∀ x ∈ right.ids,key d < key x

/-- The comparison of a key with those of the records. -/
def Compares (cmp : α → ℤ) (key : α → K) (k : K) (d : α) : Prop :=
  (cmp d < 0 ↔ k < key d) ∧ (0 < cmp d ↔ key d < k)

/-- The order depends on the keys of the members only. -/
theorem BinTree.Ordered.congr {key1 : α → K} (ht : t.Ordered key)
    (h : ∀ d ∈ t.ids,key1 d=key d) : t.Ordered key1 := by
  induction t with
  | nil => exact trivial
  | node d left right ihl ihr =>
    obtain ⟨hl,hr,hlt,hgt⟩ := ht
    have hd := h d List.mem_cons_self
    have hleft : ∀ x ∈ left.ids,key1 x=key x :=
      fun x hx => h x (List.mem_cons_of_mem d (List.mem_append_left _ hx))
    have hright : ∀ x ∈ right.ids,key1 x=key x :=
      fun x hx => h x (List.mem_cons_of_mem d (List.mem_append_right _ hx))
    refine ⟨ihl hl hleft,ihr hr hright,fun x hx => ?_,fun x hx => ?_⟩
    · rw [hleft x hx,hd]
      exact hlt x hx
    · rw [hright x hx,hd]
      exact hgt x hx

/-- What is found has the key. -/
theorem BinTree.search_some (hc : ∀ x ∈ t.ids,Compares cmp key k x)
    (hs : t.search cmp=some d) : d ∈ t.ids ∧ key d=k := by
  induction t with
  | nil => cases hs
  | node x left right ihl ihr =>
    have hx := hc x List.mem_cons_self
    rw [search] at hs
    split at hs
    · obtain ⟨hm,hk⟩ := ihl (fun y hy => hc y (List.mem_cons_of_mem x
        (List.mem_append_left _ hy))) hs
      exact ⟨List.mem_cons_of_mem x (List.mem_append_left _ hm),hk⟩
    · next hnlt =>
      split at hs
      · obtain ⟨hm,hk⟩ := ihr (fun y hy => hc y (List.mem_cons_of_mem x
          (List.mem_append_right _ hy))) hs
        exact ⟨List.mem_cons_of_mem x (List.mem_append_right _ hm),hk⟩
      · next hngt =>
        cases hs
        exact ⟨List.mem_cons_self,le_antisymm (not_lt.1 fun h => hnlt (hx.1.2 h))
          (not_lt.1 fun h => hngt (hx.2.2 h))⟩

/-- A name is inserted where the search has found nothing. -/
theorem BinTree.ids_insert (new : α) (hs : t.search cmp=none) :
    (t.insert cmp new).ids.Perm (new::t.ids) := by
  induction t with
  | nil => exact List.Perm.refl _
  | node d left right ihl ihr =>
    rw [search] at hs
    rw [insert]
    split at hs
    · next h =>
      rw [if_pos h]
      exact (((ihl hs).append_right right.ids).cons d).trans (List.Perm.swap _ _ _)
    · next h =>
      split at hs
      · next h1 =>
        rw [if_neg h,if_pos h1]
        have hp := ((ihr hs).append_left left.ids).trans List.perm_middle
        exact (hp.cons d).trans (List.Perm.swap _ _ _)
      · cases hs

/-- A new member keeps the order. -/
theorem BinTree.Ordered.insert {new : α} (ht : t.Ordered key)
    (hc : ∀ x ∈ t.ids,Compares cmp key (key new) x) (hs : t.search cmp=none) :
    (t.insert cmp new).Ordered key := by
  induction t with
  | nil => exact ⟨trivial,trivial,fun x hx => absurd hx List.not_mem_nil,
      fun x hx => absurd hx List.not_mem_nil⟩
  | node d left right ihl ihr =>
    obtain ⟨hl,hr,hlt,hgt⟩ := ht
    have hd := hc d List.mem_cons_self
    have hcl : ∀ x ∈ left.ids,Compares cmp key (key new) x :=
      fun x hx => hc x (List.mem_cons_of_mem d (List.mem_append_left _ hx))
    have hcr : ∀ x ∈ right.ids,Compares cmp key (key new) x :=
      fun x hx => hc x (List.mem_cons_of_mem d (List.mem_append_right _ hx))
    rw [search] at hs
    rw [BinTree.insert]
    split at hs
    · next h =>
      rw [if_pos h]
      refine ⟨ihl hl hcl hs,hr,fun x hx => ?_,hgt⟩
      obtain rfl|hx := List.mem_cons.1 ((BinTree.ids_insert new hs).mem_iff.1 hx)
      · exact hd.1.1 h
      · exact hlt x hx
    · next h =>
      split at hs
      · next h1 =>
        rw [if_neg h,if_pos h1]
        refine ⟨hl,ihr hr hcr hs,hlt,fun x hx => ?_⟩
        obtain rfl|hx := List.mem_cons.1 ((BinTree.ids_insert new hs).mem_iff.1 hx)
        · exact hd.2.1 h1
        · exact hgt x hx
      · cases hs

/-- The records of a tree have different keys. -/
theorem BinTree.Ordered.nodup (ht : t.Ordered key) : (t.ids.map key).Nodup := by
  induction t with
  | nil => exact List.nodup_nil
  | node d left right ihl ihr =>
    obtain ⟨hl,hr,hlt,hgt⟩ := ht
    rw [ids,List.map_cons,List.map_append,List.nodup_cons]
    refine ⟨fun hm => ?_,(ihl hl).append (ihr hr) fun k h1 h2 => ?_⟩
    · obtain hm|hm := List.mem_append.1 hm
      · obtain ⟨x,hx,he⟩ := List.mem_map.1 hm
        exact (hlt x hx).ne he
      · obtain ⟨x,hx,he⟩ := List.mem_map.1 hm
        exact (hgt x hx).ne he.symm
    · obtain ⟨x,hx,rfl⟩ := List.mem_map.1 h1
      obtain ⟨y,hy,he⟩ := List.mem_map.1 h2
      exact ((hlt x hx).trans (hgt y hy)).ne he.symm

end Trees

end StudyCode.SearchTree
