import Mathlib.Tactic

/-!
# Maximal runs between separators

The maximal runs of a list without separators are listed by the places where
they start. A place starts a run if it holds no separator and nothing or a
separator stands in front of it.
-/

namespace StudyCode.Runs

variable {α : Type*} {s : α → Bool} {l : List α} {n m p i : ℕ}

/-- A place holds something else than a separator behind none or a separator. -/
def startsRun (s : α → Bool) (l : List α) (p : ℕ) : Bool :=
  (l[p]?).any (fun a => !s a) && (p==0 || (l[p-1]?).any s)

/-- A place holds a separator behind something else. -/
def endsRun (s : α → Bool) (l : List α) (p : ℕ) : Bool :=
  (l[p]?).any s && (l[p-1]?).any fun a => !s a

/-- The starts among the first places. -/
def startsBelow (s : α → Bool) (l : List α) (n : ℕ) : List ℕ :=
  (List.range n).filter (startsRun s l)

/-- The starts of all runs in order. -/
def starts (s : α → Bool) (l : List α) : List ℕ := startsBelow s l l.length

/-- The longest run from a place on. -/
def runAt (s : α → Bool) (l : List α) (p : ℕ) : List α := (l.drop p).takeWhile fun a => !s a

/-- One place more. -/
theorem startsBelow_succ : startsBelow s l (n+1)=
    startsBelow s l n++if startsRun s l n then [n] else [] := by
  rw [startsBelow,List.range_succ,List.filter_append,List.filter_singleton,cond_eq_ite]
  rfl

/-- Later starts stand behind. -/
theorem startsBelow_mono (h : n ≤ m) : startsBelow s l n <+: startsBelow s l m := by
  induction m,h using Nat.le_induction with
  | base => exact List.prefix_rfl
  | succ m _ ih =>
    rw [startsBelow_succ]
    exact ih.trans (List.prefix_append _ _)

/-- A start below a bound. -/
theorem getElem?_starts (hn : n ≤ l.length) {k : ℕ} (hk : k < (startsBelow s l n).length) :
    (starts s l)[k]?=(startsBelow s l n)[k]? := by
  obtain ⟨rest,hrest⟩ := startsBelow_mono (s:=s) (l:=l) hn
  rw [starts,←hrest,List.getElem?_append_left hk]

/-- The starts are below the bound. -/
theorem lt_of_mem_startsBelow (h : p ∈ startsBelow s l n) : p < n :=
  List.mem_range.mp (List.mem_filter.mp h).1

/-- The starts are starts. -/
theorem startsRun_of_mem (h : p ∈ startsBelow s l n) : startsRun s l p=true :=
  (List.mem_filter.mp h).2

/-- Behind a run stands a separator or nothing. -/
theorem drop_eq_runAt (s : α → Bool) (l : List α) (p : ℕ) :
    ∃ rest,l.drop p=runAt s l p++rest ∧ (∀ a ∈ rest.head?,s a=true) := by
  refine ⟨(l.drop p).dropWhile fun a => !s a,List.takeWhile_append_dropWhile.symm,?_⟩
  intro a ha
  have h := List.head?_dropWhile_not (fun a => !s a) (l.drop p)
  rw [Option.mem_def.mp ha] at h
  simpa using h

/-- A run is not empty. -/
theorem runAt_ne_nil (h : startsRun s l p=true) : runAt s l p≠[] := by
  rw [startsRun,Bool.and_eq_true,Option.any_eq_true] at h
  obtain ⟨⟨a,ha,hsep⟩,-⟩ := h
  obtain ⟨hp,rfl⟩ := List.getElem?_eq_some_iff.mp ha
  rw [runAt,List.drop_eq_getElem_cons hp,List.takeWhile_cons_of_pos (p:=fun a => !s a) hsep]
  exact List.cons_ne_nil _ _

/-- The elements of a run. -/
theorem getElem?_runAt (hi : i < (runAt s l p).length) :
    l[p+i]?=(runAt s l p)[i]? := by
  obtain ⟨rest,hrest,-⟩ := drop_eq_runAt s l p
  rw [←List.getElem?_drop,hrest,List.getElem?_append_left hi]

/-- A place inside of a run holds no separator. -/
theorem not_sep_of_runAt (hi : i < (runAt s l p).length) :
    (l[p+i]?).any (fun a => !s a)=true := by
  have hall : (runAt s l p).all (fun a => !s a)=true := List.all_takeWhile
  rw [getElem?_runAt hi,List.getElem?_eq_getElem hi,Option.any_some]
  exact List.all_eq_true.mp hall _ (List.getElem_mem hi)

/-- A run ends inside of the list. -/
theorem runAt_length_le (hp : p ≤ l.length) : p+(runAt s l p).length ≤ l.length := by
  obtain ⟨rest,hrest,-⟩ := drop_eq_runAt s l p
  have hlen := congrArg List.length hrest
  rw [List.length_drop,List.length_append] at hlen
  omega

/-- The place behind a run ends it, or it is the end of the list. -/
theorem endsRun_runAt (h : startsRun s l p=true) (hp : p+(runAt s l p).length≠l.length)
    (hle : p ≤ l.length) : endsRun s l (p+(runAt s l p).length)=true := by
  obtain ⟨rest,hrest,hhead⟩ := drop_eq_runAt s l p
  have hpos := List.length_pos_iff.mpr (runAt_ne_nil h)
  have hlen := runAt_length_le (s:=s) hle
  have hlast := not_sep_of_runAt (s:=s) (l:=l) (p:=p)
    (i:=(runAt s l p).length-1) (by omega)
  rw [endsRun,Bool.and_eq_true]
  constructor
  · have hget : l[p+(runAt s l p).length]?=rest.head? := by
      rw [←List.getElem?_drop,hrest,List.getElem?_append_right le_rfl,Nat.sub_self,
        List.head?_eq_getElem?]
    rw [List.getElem?_eq_getElem (by omega)] at hget
    rw [List.getElem?_eq_getElem (by omega),Option.any_some]
    exact hhead _ hget.symm
  · rwa [Nat.add_sub_assoc (by omega)]

/-- A run does not reach over a separator. -/
theorem runAt_le_of_sep (hsep : (l[n]?).any s=true) (hp : p ≤ n) :
    p+(runAt s l p).length ≤ n := by
  by_contra hlt
  have hnot := not_sep_of_runAt (s:=s) (l:=l) (p:=p) (i:=n-p) (by omega)
  rw [Nat.add_sub_cancel' hp] at hnot
  rw [Option.any_eq_true] at hsep hnot
  obtain ⟨a,ha,hs⟩ := hsep
  obtain ⟨b,hb,hn⟩ := hnot
  rw [ha] at hb
  cases hb
  rw [hs] at hn
  cases hn

end StudyCode.Runs
