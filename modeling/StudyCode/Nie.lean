import StudyCode.CheckedLoop
import StudyCode.MixedRadix

/-!
# Enumeration of a cartesian product

`func` counts up to the product of the sizes and takes the digits of the counter
by a division and a remainder for each size. The weights of the digits are found
by dividing the product by one size after the other.
-/

namespace StudyCode.Nie

open Checked MixedRadix

/-! ## The function -/

/-- Product of two int values; an overflow has no value. -/
def mulInt (a b : ℤ) : Option ℤ := if -2^31 ≤ a*b ∧ a*b < 2^31 then some (a*b) else none

/-- Division of int values; a zero divisor and an overflow have no value. -/
def divInt (a b : ℤ) : Option ℤ := if b=0 ∨ (a=-2^31 ∧ b=-1) then none else some (a.tdiv b)

/-- Remainder of int values. -/
def modInt (a b : ℤ) : Option ℤ := if b=0 ∨ (a=-2^31 ∧ b=-1) then none else some (a.tmod b)

/-- Product of all sizes. -/
def allOf (size : List ℤ) (num : ℤ) : Option ℤ :=
  forUp (fun i all => (cellAt size i).bind (mulInt all)) 0 num 1

/-- `temp[i] = temp_int / size[i]`, with the quotient kept for the next turn. -/
def tempStep (size : List ℤ) (i : ℤ) (s : List ℤ × ℤ) : Option (List ℤ × ℤ) :=
  (cellAt size i).bind fun d =>
    (divInt s.2 d).bind fun q => (putAt s.1 i q).map fun temp => (temp,q)

/-- `position[j] = i / temp[j]; position[j] %= size[j]`. -/
def positionStep (size temp : List ℤ) (i j : ℤ) (position : List ℤ) : Option (List ℤ) :=
  (cellAt temp j).bind fun t =>
    (divInt i t).bind fun q =>
      (cellAt size j).bind fun d => (modInt q d).bind (putAt position j)

/-- One value of a row, put behind those printed before. -/
def rowStep (nieP : List (List ℤ)) (position : List ℤ) (j : ℤ) (row : List ℤ) :
    Option (List ℤ) :=
  (cellAt position j).bind fun p =>
    (cellAt nieP j).bind fun values => (cellAt values p).map fun v => row++[v]

/-- One turn of the outer loop: the positions and the row printed for them. -/
structure Turn where
  /-- Contents of `position` when the row is printed. -/
  position : List ℤ
  /-- Printed values. -/
  row : List ℤ

/-- The outer loop keeps the array and what has been printed. -/
def turnStep (nieP : List (List ℤ)) (size temp : List ℤ) (num i : ℤ) (s : List ℤ × List Turn) :
    Option (List ℤ × List Turn) :=
  (forUp (positionStep size temp i) 0 num s.1).bind fun position =>
    (forUp (rowStep nieP position) 0 num []).map fun row => (position,s.2++[⟨position,row⟩])

/-- What a call prints. -/
structure Printed where
  /-- The number of rows. -/
  all : ℤ
  /-- The weights. -/
  temp : List ℤ
  /-- The rows with their positions. -/
  turns : List Turn

/-- `func` on the arrays `temp` and `position` as they were allocated. -/
def func (nieP : List (List ℤ)) (size : List ℤ) (num : ℤ) (temp position : List ℤ) :
    Option Printed :=
  (allOf size num).bind fun all =>
    (forUp (tempStep size) 0 num (temp,all)).bind fun t =>
      (forUp (fun i printed => (cellAt t.1 i).map fun v => printed++[v]) 0 num []).bind fun lines =>
        (forUp (turnStep nieP size t.1 num) 0 all (position,[])).map fun s => ⟨all,lines,s.2⟩

/-! ## Int values from natural numbers -/

/-- Numbers as an array stores them. -/
def stored (l : List ℕ) : List ℤ := l.map Nat.cast

/-- The array has its length. -/
@[simp] theorem stored_length (l : List ℕ) : (stored l).length=l.length := List.length_map _

/-- A cell of the array. -/
theorem cellAt_stored {l : List ℕ} {i v : ℕ} (h : l[i]?=some v) :
    cellAt (stored l) i=some (v : ℤ) := by
  rw [cellAt_natCast,stored,List.getElem?_map,h,Option.map_some]

/-- A quotient of ints. -/
theorem divInt_natCast (a : ℕ) {b : ℕ} (hb : 1 ≤ b) :
    divInt a b=some ((a/b : ℕ) : ℤ) := by
  have hok : ¬((b : ℤ)=0 ∨ ((a : ℤ)=-2^31 ∧ (b : ℤ)=-1)) := by omega
  rw [divInt,if_neg hok,Int.ofNat_tdiv]

/-- A rest of ints. -/
theorem modInt_natCast (a : ℕ) {b : ℕ} (hb : 1 ≤ b) :
    modInt a b=some ((a%b : ℕ) : ℤ) := by
  have hok : ¬((b : ℤ)=0 ∨ ((a : ℤ)=-2^31 ∧ (b : ℤ)=-1)) := by omega
  rw [modInt,if_neg hok,Int.ofNat_tmod]

/-! ## Arrays that are filled from the front -/

/-- The first cells of an array hold those of the target. -/
def Filled (target : List ℕ) (i : ℕ) (l : List ℤ) : Prop :=
  l.length=target.length ∧ l.take i=(stored target).take i

/-- One cell more is filled. -/
theorem Filled.put {target : List ℕ} {i v : ℕ} {l : List ℤ} (h : Filled target i l)
    (hv : target[i]?=some v) : ∃ t,putAt l i v=some t ∧ Filled target (i+1) t := by
  obtain ⟨hlen,htake⟩ := h
  obtain ⟨hi,rfl⟩ := List.getElem?_eq_some_iff.mp hv
  have hil : i < l.length := by omega
  refine ⟨l.set i (target[i] : ℤ),?_,?_,?_⟩
  · exact putAt_of_lt hil _
  · rw [List.length_set,hlen]
  · have hset : i < (l.set i (target[i] : ℤ)).length := by rwa [List.length_set]
    have hst : i < (stored target).length := by rwa [stored_length]
    rw [List.take_succ_eq_append_getElem hset,List.take_succ_eq_append_getElem hst,
      List.take_set_of_le le_rfl,htake,List.getElem_set_self]
    simp [stored]

/-- A full array. -/
theorem Filled.eq {target : List ℕ} {l : List ℤ} (h : Filled target target.length l) :
    l=stored target := by
  obtain ⟨hlen,htake⟩ := h
  rw [←hlen,List.take_length,hlen,←stored_length target,List.take_length] at htake
  exact htake

/-- A loop that stores one value of the target in each turn. -/
theorem forUp_filled {body : ℤ → List ℤ → Option (List ℤ)} {target : List ℕ} {l : List ℤ}
    (hlen : l.length=target.length)
    (hbody : ∀ (i v : ℕ) l,target[i]?=some v → body i l=putAt l i v) :
    forUp body 0 target.length l=some (stored target) := by
  obtain ⟨t,ht,hfill⟩ : ∃ t,forUp body (0 : ℕ) target.length l=some t ∧
      Filled target target.length t := by
    refine forUp_spec (Filled target) (Nat.zero_le _) ⟨hlen,by simp⟩ ?_
    intro i l _ hi h
    have hv := List.getElem?_eq_getElem hi
    rw [hbody i _ l hv]
    exact h.put hv
  rw [←hfill.eq]
  exact ht

/-- A loop that appends one value in each turn. -/
theorem forUp_appended {body : ℤ → List ℤ → Option (List ℤ)} (values : List ℤ)
    (hbody : ∀ (i : ℕ) v l,values[i]?=some v → body i l=some (l++[v])) :
    forUp body 0 values.length []=some values := by
  obtain ⟨t,ht,hall⟩ : ∃ t,forUp body (0 : ℕ) values.length []=some t ∧
      t=values.take values.length := by
    refine forUp_spec (fun i l => l=values.take i) (Nat.zero_le _) (by simp) ?_
    rintro i l - hi rfl
    exact ⟨_,hbody i _ _ (List.getElem?_eq_getElem hi),(List.take_succ_eq_append_getElem hi).symm⟩
  rw [List.take_length] at hall
  rw [hall] at ht
  exact ht

/-! ## The weights -/

section Loops

variable {sizes : List ℕ}

/-- A part of the sizes has no larger product than all of them. -/
theorem prod_take_le (hpos : ∀ s ∈ sizes,1 ≤ s) (i : ℕ) : (sizes.take i).prod ≤ sizes.prod := by
  have hdrop : 0 < (sizes.drop i).prod := List.prod_pos fun s hs => hpos s (List.mem_of_mem_drop hs)
  calc (sizes.take i).prod ≤ (sizes.take i).prod*(sizes.drop i).prod :=
        Nat.le_mul_of_pos_right _ hdrop
    _=sizes.prod := List.prod_take_mul_prod_drop sizes i

/-- The number of the tuples. -/
theorem allOf_eq (hpos : ∀ s ∈ sizes,1 ≤ s) (hprod : sizes.prod < 2^31) :
    allOf (stored sizes) sizes.length=some (sizes.prod : ℤ) := by
  obtain ⟨t,ht,hinv⟩ : ∃ t,forUp (fun i all => (cellAt (stored sizes) i).bind (mulInt all))
      (0 : ℕ) sizes.length 1=some t ∧ t=((sizes.take sizes.length).prod : ℤ) := by
    refine forUp_spec (fun i all => all=((sizes.take i).prod : ℤ)) (Nat.zero_le _) (by simp) ?_
    rintro i all - hi rfl
    have hnext : (sizes.take (i+1)).prod=(sizes.take i).prod*sizes[i] := by
      rw [List.take_succ_eq_append_getElem hi,List.prod_append,List.prod_singleton]
    have hle := prod_take_le hpos (i+1)
    refine ⟨((sizes.take (i+1)).prod : ℤ),?_,rfl⟩
    rw [cellAt_stored (List.getElem?_eq_getElem hi),Option.bind_some,hnext,mulInt,←Nat.cast_mul,
      ←hnext,if_pos ⟨by omega,by omega⟩]
  rw [List.take_length] at hinv
  rw [←hinv]
  exact ht

/-- The quotients are the weights of the digits. -/
theorem temp_eq (hpos : ∀ s ∈ sizes,1 ≤ s) {temp : List ℤ} (hlen : temp.length=sizes.length) :
    ∃ q,forUp (tempStep (stored sizes)) 0 sizes.length (temp,(sizes.prod : ℤ))=
      some (stored (weights sizes),q) := by
  obtain ⟨t,ht,-,hfill⟩ : ∃ t,forUp (tempStep (stored sizes)) (0 : ℕ) sizes.length
      (temp,(sizes.prod : ℤ))=some t ∧
      t.2=((sizes.drop sizes.length).prod : ℤ) ∧ Filled (weights sizes) sizes.length t.1 := by
    refine forUp_spec
      (fun i (t : List ℤ × ℤ) => t.2=((sizes.drop i).prod : ℤ) ∧ Filled (weights sizes) i t.1)
      (Nat.zero_le _) ⟨rfl,by simpa using hlen,by simp⟩ ?_
    rintro i ⟨l,q⟩ - hi ⟨hq,hl⟩
    obtain rfl : q=((sizes.drop i).prod : ℤ) := hq
    have hsize : 1 ≤ sizes[i] := hpos _ (List.getElem_mem hi)
    have hdiv : (sizes.drop i).prod/sizes[i]=(sizes.drop (i+1)).prod := by
      rw [List.drop_eq_getElem_cons hi,List.prod_cons,Nat.mul_div_cancel_left _ hsize]
    obtain ⟨u,hu,hfill⟩ := hl.put (getElem?_weights hi)
    refine ⟨(u,((sizes.drop (i+1)).prod : ℤ)),?_,rfl,hfill⟩
    rw [tempStep,cellAt_stored (List.getElem?_eq_getElem hi),Option.bind_some,
      divInt_natCast _ hsize,hdiv,Option.bind_some,hu,Option.map_some]
  rw [←length_weights sizes] at hfill
  exact ⟨t.2,by rw [←hfill.eq]; exact ht⟩

/-! ## Positions and rows -/

/-- The values a tuple of positions selects. -/
def selected (nieP : List (List ℤ)) (p : List ℕ) : List ℤ :=
  List.zipWith (fun values k => values.getD k 0) nieP p

/-- The divisions of one turn give the digits of the counter. -/
theorem position_eq (hpos : ∀ s ∈ sizes,1 ≤ s) {position : List ℤ}
    (hlen : position.length=sizes.length) (i : ℕ) :
    forUp (positionStep (stored sizes) (stored (weights sizes)) i) 0 sizes.length position=
      some (stored (digits sizes i)) := by
  have hbody : ∀ (j v : ℕ) l,(digits sizes i)[j]?=some v →
      positionStep (stored sizes) (stored (weights sizes)) i j l=putAt l j v := by
    intro j v l hv
    have hj : j < sizes.length := by
      rw [←length_digits sizes i]
      exact (List.getElem?_eq_some_iff.mp hv).1
    have hsize := List.getElem?_eq_getElem hj
    have hweight : 1 ≤ (sizes.drop (j+1)).prod :=
      List.prod_pos fun s hs => hpos s (List.mem_of_mem_drop hs)
    rw [getElem?_digits sizes i hsize,Option.some.injEq] at hv
    rw [positionStep,cellAt_stored (getElem?_weights hj),Option.bind_some,
      divInt_natCast _ hweight,Option.bind_some,cellAt_stored hsize,Option.bind_some,
      modInt_natCast _ (hpos _ (List.getElem_mem hj)),Option.bind_some,hv]
  have hfill := forUp_filled (hlen.trans (length_digits sizes i).symm) hbody
  rw [length_digits] at hfill
  exact hfill

/-- The row of a tuple below the sizes is read inside of the value arrays. -/
theorem row_eq {nieP : List (List ℤ)} {p : List ℕ}
    (hrows : List.Forall₂ (fun s values => s ≤ values.length) sizes nieP) (hp : Within p sizes) :
    forUp (rowStep nieP (stored p)) 0 sizes.length []=some (selected nieP p) := by
  have hlen : (selected nieP p).length=sizes.length := by
    rw [selected,List.length_zipWith,←hrows.length_eq,hp.length_eq,Nat.min_self]
  rw [←hlen]
  refine forUp_appended (selected nieP p) ?_
  intro j v l hv
  obtain ⟨values,k,hvalues,hk,rfl⟩ := List.getElem?_zipWith_eq_some.mp hv
  obtain ⟨hjn,rfl⟩ := List.getElem?_eq_some_iff.mp hvalues
  obtain ⟨hjp,rfl⟩ := List.getElem?_eq_some_iff.mp hk
  have hjs : j < sizes.length := hp.length_eq ▸ hjp
  have hlt := (List.forall₂_iff_get.mp hp).2 j hjp hjs
  have hle := (List.forall₂_iff_get.mp hrows).2 j hjs hjn
  have hin : p[j] < nieP[j].length := lt_of_lt_of_le hlt hle
  rw [rowStep,cellAt_stored hk,Option.bind_some,cellAt_natCast,hvalues,Option.bind_some,
    cellAt_of_lt hin,Option.map_some,List.getD_eq_getElem?_getD,List.getElem?_eq_getElem hin,
    Option.getD_some]

/-- One turn of the outer loop. -/
theorem turn_eq (hpos : ∀ s ∈ sizes,1 ≤ s) {nieP : List (List ℤ)} {position : List ℤ}
    (hrows : List.Forall₂ (fun s values => s ≤ values.length) sizes nieP)
    (hlen : position.length=sizes.length) (i : ℕ) (turns : List Turn) :
    turnStep nieP (stored sizes) (stored (weights sizes)) sizes.length i (position,turns)=
      some (stored (digits sizes i),
        turns++[⟨stored (digits sizes i),selected nieP (digits sizes i)⟩]) := by
  rw [turnStep,position_eq hpos hlen,Option.bind_some,row_eq hrows (digits_within hpos i),
    Option.map_some]

/-- All turns of the outer loop. -/
theorem turns_eq (hpos : ∀ s ∈ sizes,1 ≤ s) {nieP : List (List ℤ)} {position : List ℤ}
    (hrows : List.Forall₂ (fun s values => s ≤ values.length) sizes nieP)
    (hlen : position.length=sizes.length) :
    ∃ l,forUp (turnStep nieP (stored sizes) (stored (weights sizes)) sizes.length) 0
      (sizes.prod : ℤ) (position,[])=
      some (l,(tuples sizes).map fun p => ⟨stored p,selected nieP p⟩) := by
  obtain ⟨t,ht,-,hturns⟩ : ∃ t : List ℤ × List Turn,
      forUp (turnStep nieP (stored sizes) (stored (weights sizes)) sizes.length) (0 : ℕ)
      (sizes.prod : ℕ) (position,[])=some t ∧ t.1.length=sizes.length ∧
      t.2=((List.range sizes.prod).map (digits sizes)).map fun p => ⟨stored p,selected nieP p⟩ := by
    refine forUp_spec (fun i (t : List ℤ × List Turn) => t.1.length=sizes.length ∧
      t.2=((List.range i).map (digits sizes)).map fun p => ⟨stored p,selected nieP p⟩)
      (Nat.zero_le _) ⟨hlen,rfl⟩ ?_
    rintro i ⟨l,turns⟩ - - ⟨hl,hturns⟩
    refine ⟨_,turn_eq hpos hrows hl i turns,by simp,?_⟩
    rw [List.range_succ,List.map_append,List.map_append,←hturns]
    rfl
  exact ⟨t.1,by rw [tuples,←hturns]; exact ht⟩

end Loops

/-! ## The whole call -/

/-- The rows belong to all tuples of positions below the sizes, each once and in
lexicographic order. -/
theorem func_enumerates (nieP : List (List ℤ)) (sizes : List ℕ) (temp position : List ℤ)
    (hpos : ∀ s ∈ sizes,1 ≤ s) (hprod : sizes.prod < 2^31)
    (hrows : List.Forall₂ (fun s values => s ≤ values.length) sizes nieP)
    (htemp : temp.length=sizes.length) (hposition : position.length=sizes.length) :
    ∃ out,func nieP (stored sizes) sizes.length temp position=some out ∧
      out.all=(sizes.prod : ℤ) ∧ ∃ visited : List (List ℕ),
        out.turns=visited.map (fun p => ⟨stored p,selected nieP p⟩) ∧
        visited.Pairwise (List.Lex (· < ·)) ∧ visited.Nodup ∧
        ∀ p,p ∈ visited ↔ List.Forall₂ (· < ·) p sizes := by
  obtain ⟨q,hq⟩ := temp_eq hpos htemp
  obtain ⟨l,hl⟩ := turns_eq hpos hrows hposition
  have hlines : forUp (fun i printed => (cellAt (stored (weights sizes)) i).map fun v =>
      printed++[v]) 0 sizes.length []=some (stored (weights sizes)) := by
    rw [←length_weights sizes,←stored_length (weights sizes)]
    refine forUp_appended (stored (weights sizes)) ?_
    intro i v l hv
    rw [cellAt_natCast,hv,Option.map_some]
  refine ⟨⟨sizes.prod,stored (weights sizes),(tuples sizes).map fun p => ⟨stored p,selected nieP p⟩⟩,
    ?_,rfl,tuples sizes,rfl,tuples_lex sizes,tuples_nodup sizes,mem_tuples hpos⟩
  rw [func,allOf_eq hpos hprod,Option.bind_some,hq,Option.bind_some,hlines,Option.bind_some,hl,
    Option.map_some]

/-- The arrays of `main`. -/
theorem func_enumerates_main :
    ∃ out,func [[1,2,3,4,5],[1,2,3,4,5,6],[1,2,3,4,5,6,7],[1,2,3,4,5,6,7,8]] (stored [5,6,7,8]) 4
        [0,0,0,0] [0,0,0,0]=some out ∧ out.all=1680 := by
  obtain ⟨out,hout,hall,-⟩ := func_enumerates
    [[1,2,3,4,5],[1,2,3,4,5,6],[1,2,3,4,5,6,7],[1,2,3,4,5,6,7,8]] [5,6,7,8] [0,0,0,0] [0,0,0,0]
    (by simp) (by norm_num) (by simp) rfl rfl
  refine ⟨out,hout,hall.trans ?_⟩
  norm_num

end StudyCode.Nie
