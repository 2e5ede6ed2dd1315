import StudyCode.CheckedLoop

/-!
# Duff's device

`copyBoolArray` copies an array in rounds of eight. A switch on the remainder
jumps into the body of the loop, so the first pass may be a part of a round and
does not test the counter of rounds. The invariant stands at the labels: what
has been copied, what is left of this round and the rounds to come make up the
size.
-/

namespace StudyCode.DuffDevice

open Checked

/-! ## The function -/

/-- Places of the body: the test of the loop and the labels in it. -/
inductive Label where
  | test
  | case7
  | case6
  | case5
  | case4
  | case3
  | case2
  | case1

/-- What the function works on. -/
structure Copy where
  /-- Rounds that are left. -/
  rounds : ℤ
  /-- Next index. -/
  i : ℤ
  /-- The array that is written. -/
  dest : List Bool
  /-- Indices of `src` that have been read, in order. -/
  reads : List ℤ
  /-- Indices of `dest` that have been written, in order. -/
  writes : List ℤ

/-- `dest[i] = src[i]; i = i + 1`. -/
def copyOne (src : List Bool) (s : Copy) : Option Copy :=
  (cellAt src s.i).bind fun v =>
    (putAt s.dest s.i v).bind fun dest =>
      (addInt s.i 1).map fun i => ⟨s.rounds,i,dest,s.reads++[s.i],s.writes++[s.i]⟩

/-- The statements from one place to the next one; behind the loop there is
no place. -/
def step (src : List Bool) : Label → Copy → Option (Option Label × Copy)
  | .test,s =>
    if ¬s.rounds=0 then
      (addInt s.rounds (-1)).bind fun rounds =>
        (copyOne src {s with rounds := rounds}).map (some .case7,·)
    else some (none,s)
  | .case7,s => (copyOne src s).map (some .case6,·)
  | .case6,s => (copyOne src s).map (some .case5,·)
  | .case5,s => (copyOne src s).map (some .case4,·)
  | .case4,s => (copyOne src s).map (some .case3,·)
  | .case3,s => (copyOne src s).map (some .case2,·)
  | .case2,s => (copyOne src s).map (some .case1,·)
  | .case1,s => (copyOne src s).map (some .test,·)

/-- `switch (size % 8)`. -/
def entry (size : ℤ) : Option Label :=
  match size.tmod 8 with
  | 0 => some .test
  | 7 => some .case7
  | 6 => some .case6
  | 5 => some .case5
  | 4 => some .case4
  | 3 => some .case3
  | 2 => some .case2
  | 1 => some .case1
  | _ => none

/-- Run from a place on; the fuel bounds the number of places. -/
def run (src : List Bool) : ℕ → Option Label → Copy → Option Copy
  | _,none,s => some s
  | 0,some _,_ => none
  | fuel+1,some l,s => (step src l s).bind fun t => run src fuel t.1 t.2

/-- `copyBoolArray` on two arrays that do not overlap. -/
def copyBoolArray (fuel : ℕ) (src dest : List Bool) (size : ℤ) : Option Copy :=
  run src fuel (entry size) ⟨size.tdiv 8,0,dest,[],[]⟩

/-! ## One place -/

/-- Copies that a place still makes in its round. -/
def Label.left : Label → ℕ
  | .test => 0
  | .case7 => 7
  | .case6 => 6
  | .case5 => 5
  | .case4 => 4
  | .case3 => 3
  | .case2 => 2
  | .case1 => 1

/-- The state after i copies with r rounds to come. -/
def copied (src dest : List Bool) (i r : ℕ) : Copy :=
  ⟨r,i,src.take i++dest.drop i,(List.range i).map Nat.cast,(List.range i).map Nat.cast⟩

variable {src dest : List Bool} {i r size : ℕ}

/-- One case of the switch copies one element. -/
theorem copyOne_copied (hs : i < src.length) (hd : i < dest.length) (hi : i+1 < 2^31) :
    copyOne src (copied src dest i r)=some (copied src dest (i+1) r) := by
  have hlen : (src.take i).length=i := List.length_take_of_le hs.le
  have hput : putAt (src.take i++dest.drop i) i src[i]=
      some (src.take (i+1)++dest.drop (i+1)) := by
    have hp := putAt_length (src.take i) (dest.drop (i+1)) dest[i] src[i]
    rw [hlen,List.cons_getElem_drop_succ] at hp
    rw [hp,List.take_succ_eq_append_getElem hs,List.append_assoc,List.singleton_append]
  rw [copyOne,copied]
  dsimp only
  rw [cellAt_of_lt hs,Option.bind_some,hput,Option.bind_some,addInt_one hi,Option.map_some,
    copied,List.range_succ,List.map_append,List.map_singleton]

/-- From a place inside of the body one copy leads to the next place. -/
theorem step_body {l : Label} (hl : 0 < l.left) (hs : i < src.length) (hd : i < dest.length)
    (hi : i+1 < 2^31) :
    ∃ l' : Label,l'.left+1=l.left ∧
      step src l (copied src dest i r)=some (some l',copied src dest (i+1) r) := by
  have hone := copyOne_copied (r:=r) hs hd hi
  cases l with
  | test => cases hl
  | case7 => exact ⟨.case6,rfl,by rw [step,hone,Option.map_some]⟩
  | case6 => exact ⟨.case5,rfl,by rw [step,hone,Option.map_some]⟩
  | case5 => exact ⟨.case4,rfl,by rw [step,hone,Option.map_some]⟩
  | case4 => exact ⟨.case3,rfl,by rw [step,hone,Option.map_some]⟩
  | case3 => exact ⟨.case2,rfl,by rw [step,hone,Option.map_some]⟩
  | case2 => exact ⟨.case1,rfl,by rw [step,hone,Option.map_some]⟩
  | case1 => exact ⟨.test,rfl,by rw [step,hone,Option.map_some]⟩

/-- The test opens a round with its first copy. -/
theorem step_test (hr : r+1 < 2^31) (hs : i < src.length) (hd : i < dest.length)
    (hi : i+1 < 2^31) :
    step src .test (copied src dest i (r+1))=some (some .case7,copied src dest (i+1) r) := by
  have hne : ¬((r+1 : ℕ) : ℤ)=0 := by omega
  have hdown : addInt ((r+1 : ℕ) : ℤ) (-1)=some (r : ℤ) := by
    rw [addInt,if_pos ⟨by omega,by omega⟩,Nat.cast_add,Nat.cast_one,Int.add_neg_cancel_right]
  have hone := copyOne_copied (r:=r) hs hd hi
  rw [copied] at hone
  rw [step,copied]
  dsimp only
  rw [if_pos hne,hdown,Option.bind_some,hone,Option.map_some]

/-- At the end of the count the loop stops. -/
theorem step_end : step src .test (copied src dest i 0)=some (none,copied src dest i 0) := by
  rw [step,if_neg (by simp [copied])]

/-! ## The whole copy -/

/-- From every place on, the rest of the round and the rounds to come are
copied. -/
theorem run_copied (hs : size ≤ src.length) (hd : size ≤ dest.length) (hsize : size < 2^31)
    {fuel : ℕ} {l : Label} (hsum : i+l.left+8*r=size) (hfuel : size < i+fuel) :
    run src fuel (some l) (copied src dest i r)=some (copied src dest size 0) := by
  induction fuel generalizing i r l with
  | zero => omega
  | succ fuel ih =>
    rw [run]
    rcases Nat.eq_zero_or_pos l.left with hl|hl
    · obtain rfl : l=.test := by
        cases l <;> first | rfl | cases hl
      cases r with
      | zero =>
        have hend : i=size := by simpa [Label.left] using hsum
        rw [step_end,Option.bind_some,hend]
        cases fuel <;> rfl
      | succ r =>
        have hseven : i+1+Label.case7.left+8*r=size := by
          simp only [Label.left] at hsum ⊢
          omega
        rw [step_test (by omega) (by omega) (by omega) (by omega),Option.bind_some]
        exact ih hseven (by omega)
    · obtain ⟨l',hl',hstep⟩ := step_body (r:=r) hl (show i < src.length by omega)
        (show i < dest.length by omega) (by omega)
      rw [hstep,Option.bind_some]
      exact ih (by omega) (by omega)

/-- The switch enters where the remainder of the size is left. -/
theorem entry_natCast (size : ℕ) : ∃ l,entry size=some l ∧ l.left=size%8 := by
  have hmod : (size : ℤ).tmod 8=((size%8 : ℕ) : ℤ) := (Int.ofNat_tmod size 8).symm
  have hlt : size%8 < 8 := Nat.mod_lt size (by decide)
  rw [entry,hmod]
  generalize size%8=m at hlt
  match m,hlt with
  | 0,_ => exact ⟨.test,rfl,rfl⟩
  | 1,_ => exact ⟨.case1,rfl,rfl⟩
  | 2,_ => exact ⟨.case2,rfl,rfl⟩
  | 3,_ => exact ⟨.case3,rfl,rfl⟩
  | 4,_ => exact ⟨.case4,rfl,rfl⟩
  | 5,_ => exact ⟨.case5,rfl,rfl⟩
  | 6,_ => exact ⟨.case6,rfl,rfl⟩
  | 7,_ => exact ⟨.case7,rfl,rfl⟩

/-- The call ends, reads and writes each index below the size once and no other,
copies the elements there and leaves the others alone. -/
theorem copyBoolArray_copies (src dest : List Bool) (size : ℕ) (hsize : size < 2^31)
    (hs : size ≤ src.length) (hd : size ≤ dest.length) (fuel : ℕ) (hfuel : size < fuel) :
    ∃ s,copyBoolArray fuel src dest size=some s ∧ s.dest.length=dest.length ∧
      (∀ i < size,s.dest[i]?=src[i]?) ∧ (∀ i,size ≤ i → s.dest[i]?=dest[i]?) ∧
      s.reads=(List.range size).map Nat.cast ∧ s.writes=(List.range size).map Nat.cast := by
  obtain ⟨l,hentry,hleft⟩ := entry_natCast size
  have hrounds : (size : ℤ).tdiv 8=((size/8 : ℕ) : ℤ) := (Int.ofNat_tdiv size 8).symm
  have hlen : (src.take size).length=size := List.length_take_of_le hs
  refine ⟨copied src dest size 0,?_,?_,?_,?_,rfl,rfl⟩
  · rw [copyBoolArray,hentry,hrounds]
    have hsum : 0+l.left+8*(size/8)=size := by
      rw [hleft,Nat.zero_add]
      exact Nat.mod_add_div size 8
    exact run_copied hs hd hsize hsum (by omega)
  · show (src.take size++dest.drop size).length=dest.length
    rw [List.length_append,hlen,List.length_drop]
    omega
  · intro i hi
    show (src.take size++dest.drop size)[i]?=src[i]?
    rw [List.getElem?_append_left (by omega),List.getElem?_take_of_lt hi]
  · intro i hi
    show (src.take size++dest.drop size)[i]?=dest[i]?
    rw [List.getElem?_append_right (by omega),hlen,List.getElem?_drop,Nat.add_sub_cancel' hi]

/-- Eleven elements: three by the jump and one round. -/
theorem copyBoolArray_eleven :
    ∃ s,copyBoolArray 12 (List.replicate 11 true) (List.replicate 12 false) (11 : ℕ)=some s ∧
      s.dest.length=(List.replicate 12 false).length ∧
      (∀ i < 11,s.dest[i]?=(List.replicate 11 true)[i]?) ∧
      (∀ i,11 ≤ i → s.dest[i]?=(List.replicate 12 false)[i]?) ∧
      s.reads=(List.range 11).map Nat.cast ∧ s.writes=(List.range 11).map Nat.cast :=
  copyBoolArray_copies (List.replicate 11 true) (List.replicate 12 false) 11 (by decide) (by decide)
    (by decide) 12 (by decide)

end StudyCode.DuffDevice
