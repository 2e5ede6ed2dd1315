import Mathlib.Data.List.Sort
import StudyCode.CheckedLoop

/-!
# Counting sort

`sort_func` takes a maximum with `max_find`, counts the values of the array in
a table and writes each value back as often as it has been counted. The table
is allocated with one cell for each element, while `memset` clears one cell
more, so the clearing already leaves the allocation. With that cell granted
the loops sort every array of values up to its size whose maximum is found.
-/

namespace StudyCode.SortAll

open Checked

/-! ## The functions -/

/-- One turn of the loop of `max_find`, on the position and the maximum. -/
def maxStep (array : List ℤ) (s : ℤ × ℤ) : Option (ℤ × ℤ) :=
  (cellAt array s.1).bind fun v =>
    (addInt s.1 1).map fun i => (i,if s.2 < v then v else s.2)

/-- `max_find`; the loop runs up to the maximum found so far, whatever the
size. The fuel bounds the number of tests. -/
def maxFind (fuel : ℕ) (array : List ℤ) : Option ℤ :=
  (cellAt array 0).bind fun max =>
    (whileSome (fun s => some (decide (s.1 < s.2))) (maxStep array) fuel (1,max)).map Prod.snd

/-- `memset` of the first cells of a table. -/
def clear (p : List ℤ) (cells : ℕ) : Option (List ℤ) :=
  if cells ≤ p.length then some (List.replicate cells 0++p.drop cells) else none

/-- `p[v]++`. -/
def countUp (p : List ℤ) (v : ℤ) : Option (List ℤ) :=
  (cellAt p v).bind fun c => (addInt c 1).bind (putAt p v)

/-- Counting of all elements. -/
def countAll (array p : List ℤ) : Option (List ℤ) :=
  forUp (fun i p => (cellAt array i).bind (countUp p)) 0 array.length p

/-- What the loops that write back work on. -/
@[ext] structure Work where
  /-- The array. -/
  array : List ℤ
  /-- Position of the next write. -/
  j : ℤ
  /-- Counts that are left. -/
  p : List ℤ

/-- One write of the value `i`. -/
def emitStep (i : ℤ) (s : Work) : Option Work :=
  (putAt s.array s.j i).bind fun array =>
    (addInt s.j 1).bind fun j =>
      (cellAt s.p i).bind fun c =>
        (addInt c (-1)).bind fun c => (putAt s.p i c).map (Work.mk array j)

/-- `while (p[i])` for one value. -/
def emit (fuel : ℕ) (i : ℤ) : Work → Option Work :=
  whileSome (fun s => (cellAt s.p i).map fun c => decide (c ≠ 0)) (emitStep i) fuel

/-- `sort_func` on a table `p` as it was allocated. -/
def sortWith (fuel : ℕ) (p array : List ℤ) : Option (List ℤ) :=
  (maxFind fuel array).bind fun max =>
    (clear p (array.length+1)).bind fun p =>
      (countAll array p).bind fun p =>
        (forUp (emit fuel) 1 (max+1) ⟨array,0,p⟩).map Work.array

/-- The call leaves the array a sorted permutation, whatever the allocated
table of one cell for each element held before. -/
def Sorts (array : List ℤ) : Prop :=
  ∃ n,∀ fuel ≥ n,∀ p : List ℤ,p.length=array.length →
    ∃ r,sortWith fuel p array=some r ∧ r.Pairwise (· ≤ ·) ∧ r.Perm array

/-! ## The allocated table -/

/-- A block that is too short is written outside. -/
theorem clear_short {p : List ℤ} {cells : ℕ} (h : p.length < cells) : clear p cells=none := by
  rw [clear,if_neg (by omega)]

/-- So is the block that is allocated. -/
theorem sortWith_short {p array : List ℤ} (h : p.length ≤ array.length) (fuel : ℕ) :
    sortWith fuel p array=none := by
  cases hmax : maxFind fuel array with
  | none => rw [sortWith,hmax,Option.bind_none]
  | some max => rw [sortWith,hmax,Option.bind_some,clear_short (by omega),Option.bind_none]

/-- No array is sorted with accesses inside of its table only. -/
theorem sorts_never (array : List ℤ) : ¬Sorts array := by
  rintro ⟨n,hn⟩
  obtain ⟨r,hr,-⟩ := hn n le_rfl array rfl
  rw [sortWith_short le_rfl] at hr
  cases hr

/-- The array of `main`. -/
theorem sorts_main :
    (∀ v ∈ ([5,3,2,1,5,6] : List ℤ),0 < v ∧ v < 2^31) ∧ ¬Sorts [5,3,2,1,5,6] := by
  refine ⟨by decide,?_⟩
  rintro ⟨n,hn⟩
  obtain ⟨r,hr,-⟩ := hn n le_rfl [5,3,2,1,5,6] rfl
  rw [sortWith_short le_rfl] at hr
  cases hr

/-! ## The maximum -/

/-- Elements as the array stores them. -/
def stored (xs : List ℕ) : List ℤ := xs.map Nat.cast

/-- The array has its length. -/
@[simp] theorem stored_length (xs : List ℕ) : (stored xs).length=xs.length := by simp [stored]

/-- A cell of the array. -/
theorem cellAt_stored {xs : List ℕ} {i : ℕ} (h : i < xs.length) :
    cellAt (stored xs) i=some (xs[i] : ℤ) := by
  simp [stored,h]

/-- What the loop of `max_find` knows: the maximum is an element, and no element
in front of the position exceeds it. -/
def MaxInv (xs : List ℕ) (s : ℤ × ℤ) : Prop :=
  ∃ i m : ℕ,s=((i : ℤ),(m : ℤ)) ∧ 1 ≤ i ∧ m ∈ xs ∧ ∀ v ∈ xs.take i,v ≤ m

/-- A turn in front of the maximum reads an element of the array. -/
theorem maxStep_inv {xs : List ℕ} (hle : ∀ v ∈ xs,v ≤ xs.length) (hsize : xs.length < 2^31)
    {s : ℤ × ℤ} (h : MaxInv xs s) (hlt : s.1 < s.2) :
    ∃ t,maxStep (stored xs) s=some t ∧ MaxInv xs t ∧
      xs.length-t.1.toNat < xs.length-s.1.toNat := by
  obtain ⟨i,m,rfl,hi,hm,hall⟩ := h
  have hin : i < xs.length := by
    have hbound := hle m hm
    have hnat : i < m := by simpa using hlt
    omega
  have hstep : maxStep (stored xs) (i,m)=some (((i+1 : ℕ) : ℤ),((max m xs[i] : ℕ) : ℤ)) := by
    have hmax : (if (m : ℤ) < xs[i] then (xs[i] : ℤ) else m)=((max m xs[i] : ℕ) : ℤ) := by
      split <;> omega
    rw [maxStep,cellAt_stored hin,Option.bind_some,addInt_one (by omega),Option.map_some,hmax]
  refine ⟨_,hstep,⟨i+1,max m xs[i],rfl,by omega,?_,?_⟩,?_⟩
  · rcases Nat.le_total m xs[i] with h|h
    · rw [max_eq_right h]
      exact List.getElem_mem hin
    · rw [max_eq_left h]
      exact hm
  · intro v hv
    rw [List.take_succ_eq_append_getElem hin,List.mem_append,List.mem_singleton] at hv
    rcases hv with hv|rfl
    · exact (hall v hv).trans (le_max_left ..)
    · exact le_max_right ..
  · show xs.length-((i+1 : ℕ) : ℤ).toNat < xs.length-(i : ℤ).toNat
    omega

/-- Where no value is above the size, `max_find` stays inside of the array. It
finds an element that none of as many first elements exceeds. -/
theorem maxFind_eq {fuel : ℕ} {xs : List ℕ} (hne : xs ≠ []) (hle : ∀ v ∈ xs,v ≤ xs.length)
    (hsize : xs.length < 2^31) (hfuel : xs.length < fuel) :
    ∃ m ∈ xs,maxFind fuel (stored xs)=some (m : ℤ) ∧ ∀ v ∈ xs.take m,v ≤ m := by
  have hpos : 0 < xs.length := List.length_pos_iff.mpr hne
  have hfirst := cellAt_stored hpos
  rw [Nat.cast_zero] at hfirst
  have hstart : MaxInv xs (1,(xs[0] : ℤ)) := by
    refine ⟨1,xs[0],rfl,le_rfl,List.getElem_mem hpos,?_⟩
    intro v hv
    rw [List.take_succ_eq_append_getElem hpos] at hv
    obtain rfl : v=xs[0] := by simpa using hv
    exact le_rfl
  obtain ⟨t,ht,⟨i,m,rfl,hi,hm,hall⟩,hend⟩ :
      ∃ t,whileSome (fun s => some (decide (s.1 < s.2))) (maxStep (stored xs)) fuel
        (1,(xs[0] : ℤ))=some t ∧ MaxInv xs t ∧ some (decide (t.1 < t.2))=some false := by
    refine whileSome_spec (MaxInv xs) (fun s => xs.length-s.1.toNat) (fun s _ => ⟨_,rfl⟩) ?_
      hstart (lt_of_le_of_lt (Nat.sub_le ..) hfuel)
    intro s hs hlt
    exact maxStep_inv hle hsize hs (by simpa using hlt)
  refine ⟨m,hm,?_,?_⟩
  · rw [maxFind,hfirst,Option.bind_some,ht,Option.map_some]
  · have hge : m ≤ i := by simpa using hend
    intro v hv
    exact hall v (List.take_subset_take_left xs hge hv)

/-! ## The counts -/

/-- A table that holds the number of elements with each value up to a bound. -/
def Counts (xs : List ℕ) (bound : ℕ) (p : List ℤ) : Prop :=
  ∀ v ≤ bound,p[v]?=some (xs.count v : ℤ)

/-- A cleared block counts nothing. -/
theorem clear_counts {p : List ℤ} {bound : ℕ} (h : bound < p.length) :
    ∃ q,clear p (bound+1)=some q ∧ Counts [] bound q := by
  refine ⟨_,by rw [clear,if_pos (Nat.succ_le_of_lt h)],?_⟩
  intro v hv
  rw [List.getElem?_append_left (by rw [List.length_replicate]; omega),
    List.getElem?_replicate,if_pos (by omega),List.count_nil,Nat.cast_zero]

/-- One number more is counted. -/
theorem countUp_counts {xs : List ℕ} {bound x : ℕ} {p : List ℤ} (h : Counts xs bound p)
    (hx : x ≤ bound) (hsize : xs.length+1 < 2^31) :
    ∃ q,countUp p x=some q ∧ Counts (xs++[x]) bound q := by
  have hcell := h x hx
  have hin : x < p.length := (List.getElem?_eq_some_iff.mp hcell).1
  have hcount := List.count_le_length (a := x) (l := xs)
  refine ⟨p.set x (xs.count x+1 : ℕ),?_,?_⟩
  · rw [countUp,cellAt_natCast,hcell,Option.bind_some,addInt_one (by omega),Option.bind_some,
      putAt_of_lt hin]
  · intro v hv
    by_cases hvx : x=v
    · subst hvx
      rw [List.getElem?_set_self hin,List.count_append,List.count_singleton_self]
    · rw [List.getElem?_set_ne hvx,h v hv,List.count_append,List.count_singleton,
        if_neg (by simpa using hvx),Nat.add_zero]

/-- Behind the first loop the table holds the counts of the array. -/
theorem countAll_counts {xs : List ℕ} {p : List ℤ} (hle : ∀ v ∈ xs,v ≤ xs.length)
    (hsize : xs.length < 2^31) (h : Counts [] xs.length p) :
    ∃ q,countAll (stored xs) p=some q ∧ Counts xs xs.length q := by
  obtain ⟨q,hq,hc⟩ : ∃ q,forUp (fun i p => (cellAt (stored xs) i).bind (countUp p))
      (0 : ℕ) xs.length p=some q ∧ Counts (xs.take xs.length) xs.length q := by
    refine forUp_spec (fun i p => Counts (xs.take i) xs.length p) (Nat.zero_le xs.length) h ?_
    intro i s _ hi hs
    rw [cellAt_stored hi,Option.bind_some,List.take_succ_eq_append_getElem hi]
    refine countUp_counts hs (hle _ (List.getElem_mem hi)) ?_
    rw [List.length_take]
    omega
  refine ⟨q,?_,?_⟩
  · rw [countAll,stored_length]
    exact hq
  · rw [List.take_length] at hc
    exact hc

/-! ## Writing back -/

/-- The elements from 1 up to a value, sorted. -/
def upTo (xs : List ℕ) : ℕ → List ℕ
  | 0 => []
  | n+1 => upTo xs n++List.replicate (xs.count (n+1)) (n+1)

/-- How often a number stands in the sorted list. -/
theorem count_upTo (xs : List ℕ) (n v : ℕ) :
    (upTo xs n).count v=if 1 ≤ v ∧ v ≤ n then xs.count v else 0 := by
  induction n with
  | zero => rw [upTo,List.count_nil,if_neg (by omega)]
  | succ n ih =>
    rw [upTo,List.count_append,ih,List.count_replicate]
    by_cases hv : v=n+1
    · subst hv
      simp
    · have hbeq : ((n+1)==v)=false := by simpa using Ne.symm hv
      have hiff : (1 ≤ v ∧ v ≤ n+1) ↔ (1 ≤ v ∧ v ≤ n) := by omega
      simp only [hbeq,hiff,Bool.false_eq_true,if_false,Nat.add_zero]

/-- The numbers up to a bound. -/
theorem mem_upTo {xs : List ℕ} {n v : ℕ} (h : v ∈ upTo xs n) : v ≤ n := by
  have hpos := List.count_pos_iff.mpr h
  rw [count_upTo] at hpos
  split at hpos <;> omega

/-- They are sorted. -/
theorem upTo_sorted (xs : List ℕ) (n : ℕ) : (upTo xs n).Pairwise (· ≤ ·) := by
  induction n with
  | zero => exact List.Pairwise.nil
  | succ n ih =>
    rw [upTo,List.pairwise_append]
    refine ⟨ih,List.pairwise_replicate.mpr (Or.inr le_rfl),?_⟩
    intro a ha b hb
    obtain rfl := List.eq_of_mem_replicate hb
    exact (mem_upTo ha).trans (Nat.le_succ n)

/-- They are the numbers of the array. -/
theorem upTo_perm {xs : List ℕ} {n : ℕ} (h : ∀ v ∈ xs,1 ≤ v ∧ v ≤ n) : (upTo xs n).Perm xs := by
  rw [List.perm_iff_count]
  intro v
  rw [count_upTo]
  split
  · rfl
  · rename_i hout
    by_contra hne
    exact hout (h v (List.count_pos_iff.mp (by omega)))

/-- There are no more than in the array. -/
theorem upTo_length_le (xs : List ℕ) (n : ℕ) : (upTo xs n).length ≤ xs.length := by
  have hsub : (upTo xs n : Multiset ℕ) ≤ xs := by
    rw [Multiset.le_iff_count]
    intro v
    rw [Multiset.coe_count,Multiset.coe_count,count_upTo]
    split <;> omega
  exact Multiset.card_le_card hsub

/-- One number is written. -/
theorem emitStep_eq {i c : ℕ} {done rest p : List ℤ} {x : ℤ} (hi : p[i]?=some ((c+1 : ℕ) : ℤ))
    (hsmall : done.length+1 < 2^31) (hc : c+1 < 2^31) :
    emitStep i ⟨done++x::rest,done.length,p⟩=
      some ⟨done++[(i : ℤ)]++rest,(done++[(i : ℤ)]).length,p.set i c⟩ := by
  have hin : i < p.length := (List.getElem?_eq_some_iff.mp hi).1
  have hdown : addInt ((c+1 : ℕ) : ℤ) (-1)=some (c : ℤ) := by
    rw [addInt,if_pos ⟨by omega,by omega⟩,Nat.cast_add,Nat.cast_one,Int.add_neg_cancel_right]
  rw [emitStep,putAt_length,Option.bind_some,addInt_one hsmall,Option.bind_some,cellAt_natCast,hi,
    Option.bind_some,hdown,Option.bind_some,putAt_of_lt hin,Option.map_some,List.append_cons,
    List.length_append,List.length_singleton]

/-- The loop writes a value as often as it has been counted. -/
theorem emit_eq {fuel i c : ℕ} {done rest p : List ℤ} (hi : p[i]?=some (c : ℤ))
    (hr : c ≤ rest.length) (hsmall : done.length+c < 2^31) (hfuel : c < fuel) :
    emit fuel i ⟨done++rest,done.length,p⟩=
      some ⟨done++List.replicate c (i : ℤ)++rest.drop c,((done.length+c : ℕ) : ℤ),p.set i 0⟩ := by
  induction c generalizing fuel done rest p with
  | zero =>
    obtain ⟨fuel,rfl⟩ : ∃ k,fuel=k+1 := ⟨fuel-1,by omega⟩
    obtain ⟨hin,hcell⟩ := List.getElem?_eq_some_iff.mp hi
    have hset : p.set i 0=p := by
      rw [←Nat.cast_zero,←hcell,List.set_getElem_self]
    rw [emit,whileSome,cellAt_natCast,hi]
    simp [hset]
  | succ c ih =>
    obtain ⟨fuel,rfl⟩ : ∃ k,fuel=k+1 := ⟨fuel-1,by omega⟩
    obtain ⟨hin,-⟩ := List.getElem?_eq_some_iff.mp hi
    cases rest with
    | nil =>
      rw [List.length_nil] at hr
      omega
    | cons x rest =>
      have hmore : decide (((c+1 : ℕ) : ℤ) ≠ 0)=true := by
        rw [decide_eq_true_iff]
        omega
      have hlen : (done++[(i : ℤ)]).length=done.length+1 := by simp
      rw [List.length_cons] at hr
      have hrest : emit fuel i ⟨done++[(i : ℤ)]++rest,(done++[(i : ℤ)]).length,p.set i c⟩=_ :=
        ih (List.getElem?_set_self hin) (by omega) (by omega) (by omega)
      have hsum : done.length+1+c=done.length+(c+1) := by omega
      rw [emit] at hrest
      rw [emit,whileSome,cellAt_natCast,hi,Option.map_some,Option.bind_some,hmore,if_pos rfl,
        emitStep_eq hi (by omega) (by omega),Option.bind_some,hrest,List.set_set,hlen,hsum,
        List.drop_succ_cons,List.replicate_succ,List.append_assoc done,List.singleton_append]

/-- What is known in front of the value `i`: the smaller values stand in front,
behind them the array is as it was. -/
def Written (xs : List ℕ) (i : ℕ) (s : Work) : Prop :=
  ∃ q : List ℤ,s=⟨stored (upTo xs (i-1))++(stored xs).drop (upTo xs (i-1)).length,
    (upTo xs (i-1)).length,q⟩ ∧ ∀ v,i ≤ v → v ≤ xs.length → q[v]?=some (xs.count v : ℤ)

/-- Every occurrence of a number is written. -/
theorem emit_written {fuel i : ℕ} {xs : List ℕ} {s : Work} (hpos : 1 ≤ i) (hi : i ≤ xs.length)
    (hsize : xs.length < 2^31) (hfuel : xs.length < fuel) (h : Written xs i s) :
    ∃ t,emit fuel i s=some t ∧ Written xs (i+1) t := by
  obtain ⟨q,rfl,hq⟩ := h
  obtain ⟨n,rfl⟩ : ∃ n,i=n+1 := ⟨i-1,by omega⟩
  rw [Nat.add_sub_cancel]
  have hle := upTo_length_le xs (n+1)
  rw [upTo,List.length_append,List.length_replicate] at hle
  have hemit : emit fuel (n+1 : ℕ) ⟨stored (upTo xs n)++(stored xs).drop (upTo xs n).length,
      (stored (upTo xs n)).length,q⟩=_ :=
    emit_eq (hq (n+1) le_rfl hi) (by rw [List.length_drop,stored_length]; omega)
      (by rw [stored_length]; omega) (by omega)
  rw [stored_length] at hemit
  refine ⟨_,hemit,q.set (n+1) 0,?_,?_⟩
  · rw [Nat.add_sub_cancel,upTo,List.drop_drop,List.length_append,List.length_replicate]
    simp [stored]
  · intro v hv hvs
    rw [List.getElem?_set_ne (by omega)]
    exact hq v (by omega) hvs

/-- Granted one cell more, the call writes the elements up to the maximum it has
found in order and leaves what stands behind them. -/
theorem sortWith_eq {fuel : ℕ} {xs : List ℕ} {p : List ℤ} (hne : xs ≠ [])
    (hle : ∀ v ∈ xs,v ≤ xs.length) (hsize : xs.length < 2^31) (hfuel : xs.length < fuel)
    (hp : xs.length < p.length) :
    ∃ m ∈ xs,maxFind fuel (stored xs)=some (m : ℤ) ∧ sortWith fuel p (stored xs)=
      some (stored (upTo xs m)++(stored xs).drop (upTo xs m).length) := by
  obtain ⟨m,hm,hmax,-⟩ := maxFind_eq hne hle hsize hfuel
  obtain ⟨q,hq,hzero⟩ := clear_counts hp
  obtain ⟨q',hq',hcounts⟩ := countAll_counts hle hsize hzero
  obtain ⟨t,ht,_,rfl,-⟩ : ∃ t,forUp (emit fuel) (1 : ℕ) (m+1 : ℕ) ⟨stored xs,0,q'⟩=some t ∧
      Written xs (m+1) t := by
    refine forUp_spec (Written xs) (by omega) ⟨q',?_,fun v _ hv => hcounts v hv⟩ ?_
    · simp [upTo,stored]
    · intro i s h1 hi hs
      have hbound := hle m hm
      exact emit_written h1 (by omega) hsize hfuel hs
  refine ⟨m,hm,hmax,?_⟩
  rw [Nat.cast_one,Nat.cast_add,Nat.cast_one] at ht
  rw [sortWith,hmax,Option.bind_some,stored_length,hq,Option.bind_some,hq',Option.bind_some,ht,
    Option.map_some,Nat.add_sub_cancel]

/-- Granted one cell more, an array of positive values up to its size is sorted
when the maximum that has been found is the maximum. -/
theorem sortWith_sorted {fuel : ℕ} {xs : List ℕ} {p : List ℤ} (hne : xs ≠ [])
    (hle : ∀ v ∈ xs,1 ≤ v ∧ v ≤ xs.length) (hsize : xs.length < 2^31) (hfuel : xs.length < fuel)
    (hp : xs.length < p.length)
    (hmax : ∀ m : ℕ,maxFind fuel (stored xs)=some (m : ℤ) → ∀ v ∈ xs,v ≤ m) :
    ∃ r,sortWith fuel p (stored xs)=some r ∧ r.Pairwise (· ≤ ·) ∧ r.Perm (stored xs) := by
  obtain ⟨m,-,hfound,hsort⟩ := sortWith_eq hne (fun v hv => (hle v hv).2) hsize hfuel hp
  have hperm : (upTo xs m).Perm xs :=
    upTo_perm fun v hv => ⟨(hle v hv).1,hmax m hfound v hv⟩
  rw [hperm.length_eq,←stored_length,List.drop_length,List.append_nil] at hsort
  refine ⟨_,hsort,?_,hperm.map _⟩
  rw [stored,List.pairwise_map]
  exact (upTo_sorted xs m).imp fun h => by exact_mod_cast h

end StudyCode.SortAll
