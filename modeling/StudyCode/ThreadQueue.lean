import Mathlib.Data.Nat.ModEq
import Mathlib.Tactic

/-!
# The queues of the thread pool

A queue is an array of fixed size that is used as a ring. An empty queue is
reset to the start of the array, and a cell that is not in use holds NULL.
-/

namespace StudyCode.ThreadQueue

/-! ## The source -/

/-- THREAD_POOL_QUEUE_SIZE. -/
def queueSize : ℕ := 10000

/-- The queue has a cell. -/
theorem queueSize_pos : 0 < queueSize := by decide

/-- The struct threadpool_queue; a cell holds the index of a task or NULL. -/
structure Queue where
  /-- The cell of the first element. -/
  head : ℕ
  /-- The cell behind the last element. -/
  tail : ℕ
  /-- Number of the elements. -/
  num : ℕ
  /-- The cells. -/
  cells : ℕ → Option ℕ

/-- threadpool_queue_init. -/
def Queue.init : Queue := ⟨0,0,0,fun _ => none⟩

/-- threadpool_queue_enqueue; none when it reports an error. -/
def Queue.enqueue (q : Queue) (data : ℕ) : Option Queue :=
  if q.num=queueSize then none
  else if q.cells q.tail ≠ none then none
  else
    some {q with
      cells := Function.update q.cells q.tail (some data)
      num := q.num+1
      tail := if q.tail+1=queueSize then 0 else q.tail+1}

/-- threadpool_queue_dequeue: the element, or NULL, and the queue. -/
def Queue.dequeue (q : Queue) : Option ℕ×Queue :=
  if q.num=0 then (none,q)
  else
    let cells := Function.update q.cells q.head none
    let num := q.num-1
    (q.cells q.head,
      if num=0 then ⟨0,0,num,cells⟩
      else ⟨if q.head+1=queueSize then 0 else q.head+1,q.tail,num,cells⟩)

/-! ## The ring -/

section Ring

variable {q : Queue} {data : ℕ}

/-- The cell of an element. -/
def Queue.cell (q : Queue) (i : ℕ) : ℕ := (q.head+i)%queueSize

/-- The elements in their order. -/
def Queue.list (q : Queue) : List ℕ := (List.range q.num).map fun i => (q.cells (q.cell i)).getD 0

/-- The invariant of a queue. -/
structure Queue.Ok (q : Queue) : Prop where
  /-- The first cell is one of the array. -/
  head : q.head < queueSize
  /-- There are no more elements than cells. -/
  num : q.num ≤ queueSize
  /-- The cell behind the last element. -/
  tail : q.tail=q.cell q.num
  /-- The cells of the elements are in use. -/
  used : ∀ i < q.num,q.cells (q.cell i) ≠ none
  /-- The other cells are not in use. -/
  unused : ∀ j,(∀ i < q.num,q.cell i ≠ j) → q.cells j=none

/-- The list is as long as the number of cells in use. -/
@[simp] theorem Queue.length_list (q : Queue) : q.list.length=q.num := by
  rw [list,List.length_map,List.length_range]

/-- The list is empty when no cell is in use. -/
theorem Queue.list_eq_nil : q.list=[] ↔ q.num=0 := by
  rw [←List.length_eq_zero_iff,length_list]

/-- Different places are different cells. -/
theorem Queue.cell_inj {i k : ℕ} (hi : i < queueSize) (hk : k < queueSize)
    (h : q.cell i=q.cell k) : i=k := by
  have hmod : i%queueSize=k%queueSize := Nat.ModEq.add_left_cancel' q.head h
  rwa [Nat.mod_eq_of_lt hi,Nat.mod_eq_of_lt hk] at hmod

/-- The cell behind a cell. -/
theorem wrap_eq (a : ℕ) :
    (if a%queueSize+1=queueSize then 0 else a%queueSize+1)=(a+1)%queueSize := by
  have hlt := Nat.mod_lt a queueSize_pos
  have hmod : (a+1)%queueSize=(a%queueSize+1)%queueSize := (Nat.mod_add_mod a queueSize 1).symm
  rw [hmod]
  split
  · next h => rw [h,Nat.mod_self]
  · next h => exact (Nat.mod_eq_of_lt (by omega)).symm

/-- The queue at the start. -/
theorem Queue.init_ok : Queue.init.Ok where
  head := queueSize_pos
  num := Nat.zero_le _
  tail := (Nat.zero_mod _).symm
  used i hi := absurd hi (Nat.not_lt_zero i)
  unused _ _ := rfl

/-- A queue that is not full takes a further element at its end. -/
theorem Queue.Ok.enqueue (hq : q.Ok) (hn : q.num < queueSize) (data : ℕ) :
    ∃ q1,q.enqueue data=some q1 ∧ q1.Ok ∧ q1.num=q.num+1 ∧ q1.list=q.list++[data] := by
  have hne : ∀ i < q.num,q.cell i ≠ q.tail := fun i hi he =>
    absurd (Queue.cell_inj (hi.trans hn) hn (he.trans hq.tail)) hi.ne
  have hfree : q.cells q.tail=none := hq.unused q.tail hne
  have hset : ∀ i < q.num,Function.update q.cells q.tail (some data) (q.cell i)=q.cells (q.cell i) :=
    fun i hi => Function.update_of_ne (hne i hi) _ _
  have hlast : Function.update q.cells q.tail (some data) (q.cell q.num)=some data := by
    rw [hq.tail,Function.update_self]
  refine ⟨_,by rw [Queue.enqueue,if_neg hn.ne,if_neg (not_not.2 hfree)],?_,rfl,?_⟩
  · refine ⟨hq.head,hn,?_,?_,?_⟩
    · show (if q.tail+1=queueSize then 0 else q.tail+1)=(q.head+(q.num+1))%queueSize
      rw [hq.tail]
      exact wrap_eq (q.head+q.num)
    · intro i hi
      obtain hi|rfl := Nat.lt_succ_iff_lt_or_eq.1 hi
      · exact fun he => hq.used i hi ((hset i hi).symm.trans he)
      · exact fun he => Option.some_ne_none data (hlast.symm.trans he)
    · intro j hj
      have hjt : j ≠ q.tail := fun he => hj q.num (Nat.lt_succ_self _) (hq.tail.symm.trans he.symm)
      exact (Function.update_of_ne hjt _ _).trans
        (hq.unused j fun i hi => hj i (Nat.lt_succ_of_lt hi))
  · show (List.range (q.num+1)).map _=_
    rw [List.range_succ,List.map_append,List.map_singleton]
    refine congrArg₂ (·++·) (List.map_congr_left fun i hi => ?_) ?_
    · exact congrArg (Option.getD · 0) (hset i (List.mem_range.1 hi))
    · exact congrArg (fun x : Option ℕ => [x.getD 0]) hlast

/-- A queue that is not empty gives its first element. -/
theorem Queue.Ok.dequeue (hq : q.Ok) (hn : q.num ≠ 0) :
    ∃ data q1,q.dequeue=(some data,q1) ∧ q1.Ok ∧ q.num=q1.num+1 ∧ q.list=data::q1.list := by
  obtain ⟨m,hm⟩ := Nat.exists_eq_succ_of_ne_zero hn
  have hmn : m < queueSize := by have := hq.num; omega
  have hfirst : q.cell 0=q.head := by rw [Queue.cell,Nat.add_zero,Nat.mod_eq_of_lt hq.head]
  obtain ⟨data,hdata⟩ := Option.ne_none_iff_exists'.1 (hfirst ▸ hq.used 0 (by omega))
  have hne : ∀ i < m,q.cell (i+1) ≠ q.head := fun i hi he =>
    absurd (Queue.cell_inj (by omega) queueSize_pos (he.trans hfirst.symm)) (Nat.succ_ne_zero i)
  have hlist : q.list=data::(List.range m).map fun i => (q.cells (q.cell (i+1))).getD 0 := by
    rw [Queue.list,hm,List.range_succ_eq_map,List.map_cons,List.map_map,hfirst,hdata]
    rfl
  by_cases h0 : m=0
  · subst h0
    refine ⟨data,⟨0,0,0,Function.update q.cells q.head none⟩,?_,?_,hm,hlist⟩
    · rw [Queue.dequeue,if_neg hn]
      simp only [hm,hdata]
      rfl
    · refine ⟨queueSize_pos,Nat.zero_le _,(Nat.zero_mod _).symm,
        fun i hi => absurd hi (Nat.not_lt_zero i),fun j _ => ?_⟩
      by_cases hj : j=q.head
      · rw [hj]
        exact Function.update_self _ _ _
      · refine (Function.update_of_ne hj _ _).trans ?_
        refine hq.unused j fun i hi he => hj ?_
        obtain rfl : i=0 := by omega
        exact he.symm.trans hfirst
  · let q1 : Queue := ⟨if q.head+1=queueSize then 0 else q.head+1,q.tail,m,
      Function.update q.cells q.head none⟩
    have hhead : q1.head=(q.head+1)%queueSize := by
      have hw := wrap_eq q.head
      rwa [Nat.mod_eq_of_lt hq.head] at hw
    have hcell : ∀ i,q1.cell i=q.cell (i+1) := by
      intro i
      rw [Queue.cell,hhead,Nat.mod_add_mod,Queue.cell]
      congr 1
      omega
    have hset : ∀ i < m,q1.cells (q1.cell i)=q.cells (q.cell (i+1)) := fun i hi => by
      rw [hcell]
      exact Function.update_of_ne (hne i hi) _ _
    refine ⟨data,q1,?_,?_,hm,?_⟩
    · rw [Queue.dequeue,if_neg hn]
      have hm1 : q.num-1=m := by omega
      simp only [hm1,h0,if_false,hdata]
      rfl
    · refine ⟨hhead ▸ Nat.mod_lt _ queueSize_pos,hmn.le,?_,?_,?_⟩
      · show q.tail=q1.cell m
        rw [hcell,hq.tail,hm]
      · intro i hi
        rw [hset i hi]
        exact hq.used (i+1) (hm ▸ Nat.succ_lt_succ hi)
      · intro j hj
        by_cases hjh : j=q.head
        · rw [hjh]
          exact Function.update_self _ _ _
        · refine (Function.update_of_ne hjh _ _).trans (hq.unused j fun i hi he => ?_)
          cases i with
          | zero => exact hjh (he.symm.trans hfirst)
          | succ i => exact hj i (show i < m by omega) ((hcell i).trans he)
    · rw [hlist,Queue.list]
      exact congrArg (data::·) (List.map_congr_left fun i hi =>
        congrArg (Option.getD · 0) (hset i (List.mem_range.1 hi)).symm)

end Ring

end StudyCode.ThreadQueue
