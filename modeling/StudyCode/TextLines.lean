import Mathlib.Data.List.Infix
import Mathlib.Tactic

/-!
# Lines of a text

A text is a list of lines, each closed by a separator that does not occur
inside of it. The lines can be read back, since a list is cut in one way only
at the first place of an element.
-/

namespace StudyCode.TextLines

variable {α : Type*} {sep a : α} {l m x y : List α} {ls ms : List (List α)}

/-- The text of some lines. -/
def unlines (sep : α) (ls : List (List α)) : List α := ls.flatMap (· ++ [sep])

@[simp] theorem unlines_nil : unlines sep ([] : List (List α))=[] := rfl

/-- The first line and its end. -/
@[simp] theorem unlines_cons : unlines sep (l::ls)=l++sep::unlines sep ls := by
  unfold unlines
  rw [List.flatMap_cons,List.append_assoc]
  rfl

/-- Lines one behind the other. -/
@[simp] theorem unlines_append : unlines sep (ls++ms)=unlines sep ls++unlines sep ms :=
  List.flatMap_append

/-- A list is cut in one way only at the first place of an element. -/
theorem append_cons_inj (hl : a ∉ l) (hm : a ∉ m) : l++a::x=m++a::y ↔ l=m ∧ x=y := by
  induction l generalizing m with
  | nil =>
    cases m with
    | nil => simp
    | cons b m =>
      have hb : a≠b := fun hab => hm (hab ▸ List.mem_cons_self)
      simp [hb]
  | cons b l ih =>
    have hb : b≠a := fun hba => hl (hba ▸ List.mem_cons_self)
    have hl2 : a ∉ l := fun h => hl (List.mem_cons_of_mem b h)
    cases m with
    | nil => simp [hb]
    | cons c m =>
      have hm2 : a ∉ m := fun h => hm (List.mem_cons_of_mem c h)
      rw [List.cons_append,List.cons_append,List.cons_eq_cons,ih hl2 hm2,List.cons_eq_cons,and_assoc]

/-- A list is cut in one way only at the last place of an element. -/
theorem append_cons_inj_last (hx : a ∉ x) (hy : a ∉ y) : l++a::x=m++a::y ↔ l=m ∧ x=y := by
  have hrev : ∀ l x : List α,(l++a::x).reverse=x.reverse++a::l.reverse := by
    intro l x
    rw [List.reverse_append,List.reverse_cons,List.append_assoc,List.singleton_append]
  rw [←List.reverse_inj,hrev l x,hrev m y,
    append_cons_inj (mt List.mem_reverse.mp hx) (mt List.mem_reverse.mp hy),List.reverse_inj,
    List.reverse_inj,and_comm]

/-- The lines of a text are unique. -/
theorem unlines_inj (hl : ∀ l ∈ ls,sep ∉ l) (hm : ∀ l ∈ ms,sep ∉ l) :
    unlines sep ls=unlines sep ms ↔ ls=ms := by
  induction ls generalizing ms with
  | nil =>
    cases ms with
    | nil => simp
    | cons m ms => simp
  | cons l ls ih =>
    cases ms with
    | nil => simp
    | cons m ms =>
      have hl2 : ∀ l ∈ ls,sep ∉ l := fun k hk => hl k (List.mem_cons_of_mem l hk)
      have hm2 : ∀ l ∈ ms,sep ∉ l := fun k hk => hm k (List.mem_cons_of_mem m hk)
      rw [unlines_cons,unlines_cons,append_cons_inj (hl l List.mem_cons_self) (hm m List.mem_cons_self),
        ih hl2 hm2,List.cons_eq_cons]

/-- A word without the separator is not found across it. -/
theorem infix_concat (hm : sep ∉ m) (hne : m≠[]) : m <:+: l++[sep] ↔ m <:+: l := by
  rw [List.infix_concat_iff,List.suffix_concat_iff]
  constructor
  · rintro ((h|⟨t,rfl,-⟩)|h)
    · exact absurd h hne
    · exact absurd (List.mem_append_right _ List.mem_cons_self) hm
    · exact h
  · exact Or.inr

/-! ## Reading a line -/

variable [DecidableEq α]

/-- What is read up to a separator, at most n elements, and the rest. -/
def takeLine (sep : α) : ℕ → List α → List α × List α
  | 0,s => ([],s)
  | _+1,[] => ([],[])
  | n+1,a::s => if a=sep then ([a],s) else (a::(takeLine sep n s).1,(takeLine sep n s).2)

/-- What is taken and what is left. -/
theorem takeLine_append (sep : α) (n : ℕ) (s : List α) :
    (takeLine sep n s).1++(takeLine sep n s).2=s := by
  induction n generalizing s with
  | zero => rfl
  | succ n ih =>
    cases s with
    | nil => rfl
    | cons a s =>
      rw [takeLine]
      split
      · rfl
      · exact congrArg (List.cons a) (ih s)

/-- No more than the bound is taken. -/
theorem takeLine_length (sep : α) (n : ℕ) (s : List α) : (takeLine sep n s).1.length ≤ n := by
  induction n generalizing s with
  | zero => exact le_rfl
  | succ n ih =>
    cases s with
    | nil => exact Nat.zero_le _
    | cons a s =>
      rw [takeLine]
      split
      · exact Nat.succ_le_succ (Nat.zero_le n)
      · exact Nat.succ_le_succ (ih s)

/-- From a text that is not empty something is read. -/
theorem takeLine_ne_nil (sep : α) (n : ℕ) (s : List α) : (takeLine sep (n+1) (a::s)).1≠[] := by
  rw [takeLine]
  split <;> exact List.cons_ne_nil _ _

end StudyCode.TextLines
