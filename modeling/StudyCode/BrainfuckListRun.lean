import StudyCode.BrainfuckListParse

/-!
# What the interpreter of brainfuck.c does

An instruction that ends does what its run does in the language, so a program
that ends or runs for ever does so in the language too. The other way round, a
difference that has wrapped is taken for a move out of the tape; without one,
a program that stays inside the tape is executed as the language says. No list
of instructions leads out of the tape.
-/

namespace StudyCode.BrainfuckList

open Brainfuck LoopCode

variable {input : ℕ → Option UInt8} {size : ℕ}

/-! ## What a run does -/

/-- A block of operations acts one after the other. -/
theorem acts_language (l : List Op) (x : Context) :
    (language input).acts l x=.ok (l.foldl (fun y op => runOp input op y) x) := by
  induction l generalizing x with
  | nil => rfl
  | cons op l ih => exact ih (runOp input op x)

/-- The last value written to a cell counts. -/
theorem setCell_setCell (x : Context) (v w : UInt8) : (x.setCell v).setCell w=x.setCell w := by
  simp [Context.setCell]

/-- A cell that was written reads back. -/
theorem cell_setCell (x : Context) (v : UInt8) : (x.setCell v).cell=v := by
  simp [Context.setCell,Context.cell]

/-- The last eight bits of a difference. -/
def low (d : BitVec 64) : UInt8 := UInt8.ofBitVec (d.setWidth 8)

/-- The low byte counts up with the difference. -/
theorem low_add (d : BitVec 64) : low (d+1)=low d+1 := by
  rw [low,BitVec.setWidth_add _ _ (by decide)]
  rfl

/-- The low byte counts down with the difference. -/
theorem low_sub (d : BitVec 64) : low (d-1)=low d-1 := by
  have h := low_add (d-1)
  rw [BitVec.sub_add_cancel] at h
  rw [h]
  grind

/-- Additions: the cell goes up by the difference. -/
theorem fold_increment {ops : List Op} (h : ∀ t ∈ ops,joins .increment t=true) (x : Context)
    (v : UInt8) (d : BitVec 64) :
    ops.foldl (fun y op => runOp input op y) (x.setCell (v+low d))=
      x.setCell (v+low (ops.foldl (countOne .increment) d)) := by
  induction ops generalizing d with
  | nil => rfl
  | cons t ops ih =>
    rw [List.foldl_cons,List.foldl_cons]
    rw [←ih fun u hu => h u (List.mem_cons_of_mem t hu)]
    congr 1
    have ht := h t List.mem_cons_self
    cases t <;> simp [joins] at ht
    · rw [countOne,if_pos rfl,low_add,runOp,setCell_setCell,cell_setCell]
      congr 1
      grind
    · rw [countOne,if_neg (by decide),low_sub,runOp,setCell_setCell,cell_setCell]
      congr 1
      grind

/-- Subtractions: the cell goes down by the difference. -/
theorem fold_decrement {ops : List Op} (h : ∀ t ∈ ops,joins .decrement t=true) (x : Context)
    (v : UInt8) (d : BitVec 64) :
    ops.foldl (fun y op => runOp input op y) (x.setCell (v-low d))=
      x.setCell (v-low (ops.foldl (countOne .decrement) d)) := by
  induction ops generalizing d with
  | nil => rfl
  | cons t ops ih =>
    rw [List.foldl_cons,List.foldl_cons]
    rw [←ih fun u hu => h u (List.mem_cons_of_mem t hu)]
    congr 1
    have ht := h t List.mem_cons_self
    cases t <;> simp [joins] at ht
    · rw [countOne,if_neg (by decide),low_sub,runOp,setCell_setCell,cell_setCell]
      congr 1
      grind
    · rw [countOne,if_pos rfl,low_add,runOp,setCell_setCell,cell_setCell]
      congr 1
      grind

/-- The sum of a run of moves, in the direction of the first. -/
def net (type : Op) (k : ℤ) (ops : List Op) : ℤ :=
  ops.foldl (fun k t => if t=type then k+1 else k-1) k

/-- The net of a run is at most its length. -/
theorem net_bounds (type : Op) (k : ℤ) (ops : List Op) :
    k-ops.length ≤ net type k ops ∧ net type k ops ≤ k+ops.length := by
  induction ops generalizing k with
  | nil => simp [net]
  | cons t ops ih =>
    have hrest := ih (if t=type then k+1 else k-1)
    have hnet : net type k (t::ops)=net type (if t=type then k+1 else k-1) ops := rfl
    rw [hnet,List.length_cons]
    push_cast
    split_ifs at hrest ⊢ <;> omega

/-- The difference that is counted is the net of the run. -/
theorem difference_net (type : Op) (k : ℤ) (ops : List Op) :
    ops.foldl (countOne type) (BitVec.ofInt 64 k)=BitVec.ofInt 64 (net type k ops) := by
  induction ops generalizing k with
  | nil => rfl
  | cons t ops ih =>
    have hnet : net type k (t::ops)=net type (if t=type then k+1 else k-1) ops := rfl
    rw [hnet,←ih,List.foldl_cons,countOne]
    congr 1
    by_cases ht : t=type
    · rw [if_pos ht,if_pos ht,BitVec.ofInt_add]
      rfl
    · rw [if_neg ht,if_neg ht,Int.sub_eq_add_neg,BitVec.ofInt_add,BitVec.ofInt_neg,
        ←BitVec.sub_eq_add_neg]
      rfl

/-- The direction of a move. -/
def direction : Op → ℤ
  | .forward => 1
  | .backward => -1
  | _ => 0

/-- Moves: the index goes by the sum of the run. -/
theorem fold_moves {type : Op} (htype : type=.forward ∨ type=.backward) {ops : List Op}
    (h : ∀ t ∈ ops,joins type t=true) (x : Context) (i k : ℤ) :
    ops.foldl (fun y op => runOp input op y) {x with tapeIndex := i+direction type*k}=
      {x with tapeIndex := i+direction type*net type k ops} := by
  induction ops generalizing k with
  | nil => rfl
  | cons t ops ih =>
    have hnet : net type k (t::ops)=net type (if t=type then k+1 else k-1) ops := rfl
    rw [hnet,List.foldl_cons,←ih fun u hu => h u (List.mem_cons_of_mem t hu)]
    congr 1
    have ht := h t List.mem_cons_self
    obtain rfl | rfl := htype
    all_goals
      cases t <;> simp [joins] at ht
      all_goals
        simp only [runOp,direction,reduceCtorEq,if_false,if_true]
        congr 1
        omega

/-- A run of outputs writes the cell as often. -/
theorem fold_output {ops : List Op} (h : ∀ t ∈ ops,joins .output t=true) (x : Context) :
    ops.foldl (fun y op => runOp input op y) x=
      {x with out := x.out++List.replicate ops.length x.cell} := by
  induction ops generalizing x with
  | nil => simp
  | cons t ops ih =>
    have ht := h t List.mem_cons_self
    cases t <;> simp [joins] at ht
    rw [List.foldl_cons,ih fun u hu => h u (List.mem_cons_of_mem _ hu)]
    simp only [runOp,Context.cell,List.append_assoc,List.length_cons,List.replicate_succ,
      List.cons_append,List.nil_append]

/-- A run of inputs reads as often. -/
theorem fold_input {ops : List Op} (h : ∀ t ∈ ops,joins .input t=true) (x : Context) :
    ops.foldl (fun y op => runOp input op y) x=(readOne input)^[ops.length] x := by
  induction ops generalizing x with
  | nil => rfl
  | cons t ops ih =>
    have ht := h t List.mem_cons_self
    cases t <;> simp [joins] at ht
    rw [List.foldl_cons,ih fun u hu => h u (List.mem_cons_of_mem _ hu)]
    rfl

/-- The difference of a run of outputs or inputs is their number. -/
theorem difference_same {type : Op} (htype : type=.output ∨ type=.input) {ops : List Op}
    (h : ∀ t ∈ ops,joins type t=true) (m : ℕ) :
    ops.foldl (countOne type) (BitVec.ofNat 64 m)=BitVec.ofNat 64 (m+ops.length) := by
  induction ops generalizing m with
  | nil => rfl
  | cons t ops ih =>
    have ht : t=type := by
      have ht := h t List.mem_cons_self
      obtain rfl | rfl := htype <;> exact of_decide_eq_true ht
    rw [List.foldl_cons,countOne,if_pos ht,List.length_cons]
    have hone : BitVec.ofNat 64 m+1=BitVec.ofNat 64 (m+1) := (BitVec.ofNat_add m 1).symm
    rw [hone,ih fun u hu => h u (List.mem_cons_of_mem t hu)]
    congr 1
    omega

/-- Reading leaves the position. -/
theorem inside_readOne (n : ℕ) (x : Context) :
    ((readOne input)^[n] x).tapeIndex=x.tapeIndex := by
  induction n generalizing x with
  | zero => rfl
  | succ n ih => exact ih (readOne input x)

/-- A run that only counts up holds its length. -/
theorem toNat_same {type : Op} (htype : type=.output ∨ type=.input) {bound : ℕ}
    (hbound : bound < 2^63) {ops : List Op} (h : Joined bound (type,ops)) :
    (compress (type,ops)).difference.toNat=ops.length+1 := by
  have hd : (compress (type,ops)).difference=BitVec.ofNat 64 (1+ops.length) :=
    difference_same htype h.joins 1
  have hs : ops.length < bound := h.short
  rw [hd,BitVec.toNat_ofNat,Nat.mod_eq_of_lt (by omega)]
  omega

/-- A difference of a run of moves that has not wrapped is the sum of the run. -/
theorem toNat_net {type : Op} {bound : ℕ} (hbound : bound < 2^63) {ops : List Op}
    (h : Joined bound (type,ops)) (hd : (compress (type,ops)).difference.toNat < 2^63) :
    net type 1 ops=(compress (type,ops)).difference.toNat := by
  have hnet : (compress (type,ops)).difference=BitVec.ofInt 64 (net type 1 ops) :=
    difference_net type 1 ops
  have hb := net_bounds type 1 ops
  have hs : ops.length < bound := h.short
  rw [hnet,BitVec.toNat_ofInt] at hd ⊢
  omega

/-! ## Instructions against runs -/

/-- An access that succeeds is inside of the tape. -/
theorem access_eq_ok {x y z : Context} (h : access size x y=.ok z) : x.Inside size ∧ y=z := by
  unfold access at h
  split_ifs at h with hx
  exact ⟨hx,by injection h⟩

/-- A number in the range of an int stays. -/
theorem toInt_of_range {v : ℤ} (h : -2^31 ≤ v ∧ v < 2^31) : toInt v=v := by
  unfold toInt
  omega

/-- How far a move may reach on a tape of this size. -/
theorem moveLimit_eq (hsize : size ≤ 2^31-1) : moveLimit size=2^31-1-size := by
  unfold moveLimit
  omega

/-- The first command of a run of moves. -/
theorem runOp_move {type : Op} (htype : type=.forward ∨ type=.backward) (x : Context) :
    runOp input type x={x with tapeIndex := x.tapeIndex+direction type*1} := by
  obtain rfl | rfl := htype <;> simp [runOp,direction,Int.sub_eq_add_neg]

/-- A run of moves goes as far as its net. -/
theorem acts_move {type : Op} (htype : type=.forward ∨ type=.backward) {bound : ℕ} {ops : List Op}
    (h : Joined bound (type,ops)) (x : Context) :
    (language input).acts (type::ops) x=
      .ok {x with tapeIndex := x.tapeIndex+direction type*net type 1 ops} := by
  rw [acts_language,List.foldl_cons,runOp_move htype,fold_moves htype h.joins]

/-- A run of increments adds its difference to the cell. -/
theorem acts_increment {bound : ℕ} {ops : List Op} (h : Joined bound (.increment,ops))
    (x : Context) : (language input).acts (.increment::ops) x=
      .ok (x.setCell (x.cell+low (compress (.increment,ops)).difference)) := by
  rw [acts_language,List.foldl_cons]
  exact congrArg _ (fold_increment h.joins x x.cell 1)

/-- A run of decrements takes its difference from the cell. -/
theorem acts_decrement {bound : ℕ} {ops : List Op} (h : Joined bound (.decrement,ops))
    (x : Context) : (language input).acts (.decrement::ops) x=
      .ok (x.setCell (x.cell-low (compress (.decrement,ops)).difference)) := by
  rw [acts_language,List.foldl_cons]
  exact congrArg _ (fold_decrement h.joins x x.cell 1)

/-- A run of outputs. -/
theorem acts_output {bound : ℕ} {ops : List Op} (h : Joined bound (.output,ops)) (x : Context) :
    (language input).acts (.output::ops) x=
      .ok {x with out := x.out++List.replicate (ops.length+1) x.cell} := by
  have hops : ∀ t ∈ Op.output::ops,joins .output t=true := fun t ht => by
    obtain rfl | ht := List.mem_cons.1 ht
    · rfl
    · exact h.joins t ht
  rw [acts_language,fold_output hops]
  rfl

/-- A run of inputs. -/
theorem acts_input {bound : ℕ} {ops : List Op} (h : Joined bound (.input,ops)) (x : Context) :
    (language input).acts (.input::ops) x=.ok ((readOne input)^[ops.length+1] x) := by
  have hops : ∀ t ∈ Op.input::ops,joins .input t=true := fun t ht => by
    obtain rfl | ht := List.mem_cons.1 ht
    · rfl
    · exact h.joins t ht
  rw [acts_language,fold_input hops]
  rfl

/-- An instruction that does not stop the program does what its run does. -/
theorem executeRun_sound (hsize : size ≤ 2^31-1) {bound : ℕ} (hbound : bound < 2^63)
    {b : Op×List Op} (hb : Joined bound b) {x y : Context} (hx : x.Inside size)
    (h : executeRun size input (compress b) x=.ok y) :
    (language input).acts (b.1::b.2) x=.ok y := by
  obtain ⟨type,ops⟩ := b
  obtain ⟨hx0,hx1⟩ := hx
  have hlimit := moveLimit_eq hsize
  cases type with
  | increment =>
    rw [acts_increment hb]
    exact congrArg _ (access_eq_ok h).2
  | decrement =>
    rw [acts_decrement hb]
    exact congrArg _ (access_eq_ok h).2
  | forward =>
    rw [acts_move (Or.inl rfl) hb]
    simp only [executeRun,show (compress (Op.forward,ops)).type=.forward from rfl] at h
    split_ifs at h with hc
    push Not at hc
    obtain ⟨hc1,hc2⟩ := hc
    rw [hlimit] at hc1
    have hnet := toNat_net hbound hb (by omega)
    rw [toInt_of_range (by omega)] at h
    rw [hnet,direction,one_mul]
    exact h
  | backward =>
    rw [acts_move (Or.inr rfl) hb]
    simp only [executeRun,show (compress (Op.backward,ops)).type=.backward from rfl] at h
    split_ifs at h with hc
    push Not at hc
    obtain ⟨hc1,hc2⟩ := hc
    rw [hlimit] at hc1
    have hnet := toNat_net hbound hb (by omega)
    rw [BitVec.toInt_eq_toNat_of_lt (by omega)] at hc2
    rw [toInt_of_range (by omega)] at h
    rw [hnet,direction,neg_one_mul,←Int.sub_eq_add_neg]
    exact h
  | output =>
    rw [acts_output hb]
    have hd := toNat_same (Or.inl rfl) hbound hb
    simp only [executeRun,show (compress (Op.output,ops)).type=.output from rfl,hd] at h
    rw [if_neg (Nat.succ_ne_zero _)] at h
    exact congrArg _ (access_eq_ok h).2
  | input =>
    rw [acts_input hb]
    have hd := toNat_same (Or.inr rfl) hbound hb
    simp only [executeRun,show (compress (Op.input,ops)).type=.input from rfl,hd] at h
    rw [if_neg (Nat.succ_ne_zero _)] at h
    exact congrArg _ (access_eq_ok h).2

/-- A move whose difference has wrapped. -/
def Wrapped (r : Run) : Prop :=
  (r.type=.forward ∨ r.type=.backward) ∧ 2^63 ≤ r.difference.toNat

/-- A run that begins and ends in the tape is executed, unless its difference has
wrapped. -/
theorem executeRun_complete (hsize : 2*size ≤ 2^31-1) {bound : ℕ} (hbound : bound < 2^63)
    {b : Op×List Op} (hb : Joined bound b) (hw : ¬Wrapped (compress b)) {x y : Context}
    (hx : x.Inside size) (hy : y.Inside size) (h : (language input).acts (b.1::b.2) x=.ok y) :
    executeRun size input (compress b) x=.ok y := by
  obtain ⟨type,ops⟩ := b
  have hlimit : moveLimit size=2^31-1-size := moveLimit_eq (by omega)
  have haccess : ∀ z,access size x z=.ok z := fun z => if_pos hx
  cases type with
  | increment =>
    rw [acts_increment hb] at h
    exact (haccess _).trans h
  | decrement =>
    rw [acts_decrement hb] at h
    exact (haccess _).trans h
  | forward =>
    rw [acts_move (Or.inl rfl) hb] at h
    have hd : (compress (Op.forward,ops)).difference.toNat < 2^63 :=
      not_le.1 fun hle => hw ⟨Or.inl rfl,hle⟩
    rw [toNat_net hbound hb hd,direction,one_mul] at h
    have hyi : y.tapeIndex=x.tapeIndex+(compress (Op.forward,ops)).difference.toNat := by
      injection h with h
      rw [←h]
    obtain ⟨hx0,hx1⟩ := hx
    obtain ⟨hy0,hy1⟩ := hy
    simp only [executeRun,show (compress (Op.forward,ops)).type=.forward from rfl]
    rw [if_neg (by rw [hlimit]; omega),toInt_of_range (by omega)]
    exact h
  | backward =>
    rw [acts_move (Or.inr rfl) hb] at h
    have hd : (compress (Op.backward,ops)).difference.toNat < 2^63 :=
      not_le.1 fun hle => hw ⟨Or.inr rfl,hle⟩
    rw [toNat_net hbound hb hd,direction,neg_one_mul,←Int.sub_eq_add_neg] at h
    have hyi : y.tapeIndex=x.tapeIndex-(compress (Op.backward,ops)).difference.toNat := by
      injection h with h
      rw [←h]
    obtain ⟨hx0,hx1⟩ := hx
    obtain ⟨hy0,hy1⟩ := hy
    simp only [executeRun,show (compress (Op.backward,ops)).type=.backward from rfl]
    rw [if_neg (by rw [hlimit,BitVec.toInt_eq_toNat_of_lt (by omega)]; omega),
      toInt_of_range (by omega)]
    exact h
  | output =>
    rw [acts_output hb] at h
    have hd := toNat_same (Or.inl rfl) hbound hb
    simp only [executeRun,show (compress (Op.output,ops)).type=.output from rfl,hd]
    rw [if_neg (Nat.succ_ne_zero _)]
    exact (haccess _).trans h
  | input =>
    rw [acts_input hb] at h
    have hd := toNat_same (Or.inr rfl) hbound hb
    simp only [executeRun,show (compress (Op.input,ops)).type=.input from rfl,hd]
    rw [if_neg (Nat.succ_ne_zero _)]
    exact (haccess _).trans h

/-! ## The tape is not left -/

/-- No instruction leads out of the tape, whatever its difference is. -/
theorem executeRun_inside (hsize : size ≤ 2^31-1) (r : Run) {x y : Context}
    (hx : x.Inside size) (h : executeRun size input r x=.ok y) : y.Inside size := by
  have hlimit := moveLimit_eq hsize
  have hin := hx
  obtain ⟨hx0,hx1⟩ := hx
  obtain ⟨type,d⟩ := r
  cases type with
  | increment => exact (access_eq_ok h).2 ▸ hin
  | decrement => exact (access_eq_ok h).2 ▸ hin
  | forward =>
    simp only [executeRun] at h
    split_ifs at h with hc
    push Not at hc
    obtain ⟨hc1,hc2⟩ := hc
    rw [hlimit] at hc1
    rw [toInt_of_range (by omega)] at h
    injection h with h
    subst h
    constructor
    · change 0 ≤ x.tapeIndex+d.toNat
      omega
    · change x.tapeIndex+d.toNat < size
      omega
  | backward =>
    simp only [executeRun] at h
    split_ifs at h with hc
    push Not at hc
    obtain ⟨hc1,hc2⟩ := hc
    rw [hlimit] at hc1
    rw [BitVec.toInt_eq_toNat_of_lt (by omega)] at hc2
    rw [toInt_of_range (by omega)] at h
    injection h with h
    subst h
    constructor
    · change 0 ≤ x.tapeIndex-d.toNat
      omega
    · change x.tapeIndex-d.toNat < size
      omega
  | output =>
    simp only [executeRun] at h
    split_ifs at h with hc
    · injection h with h
      exact h ▸ hin
    · exact (access_eq_ok h).2 ▸ hin
  | input =>
    simp only [executeRun] at h
    split_ifs at h with hc
    · injection h with h
      exact h ▸ hin
    · rw [←(access_eq_ok h).2]
      unfold Context.Inside
      rw [inside_readOne]
      exact hin

/-- A run that starts inside of the tape does not access a cell outside. -/
theorem executeRun_access (r : Run) {x : Context} (hx : x.Inside size) {e : Stop}
    (h : executeRun size input r x=.error e) : e≠.outside := by
  have haccess : ∀ z,access size x z=.ok z := fun z => if_pos hx
  obtain ⟨type,d⟩ := r
  cases type with
  | increment => cases (haccess _).symm.trans h
  | decrement => cases (haccess _).symm.trans h
  | forward =>
    simp only [executeRun] at h
    split_ifs at h
    injection h with h
    exact h ▸ by decide
  | backward =>
    simp only [executeRun] at h
    split_ifs at h
    injection h with h
    exact h ▸ by decide
  | output =>
    simp only [executeRun] at h
    split_ifs at h
    cases (haccess _).symm.trans h
  | input =>
    simp only [executeRun] at h
    split_ifs at h
    cases (haccess _).symm.trans h

/-- A blank tape. -/
def blank : Context := ⟨fun _ => 0,0,0,[]⟩

/-- Whatever list of instructions is executed, the program makes no access outside of its
tape, and it ends inside. -/
theorem execute_inside (input : ℕ → Option UInt8) (hsize : size ≤ 2^31-1) (code : Code Run)
    (x : Context) (hx : x.Inside size) (n : ℕ) :
    (executor size input).exec n code x≠.fail .outside ∧
      ∀ y,(executor size input).exec n code x=.done y → y.Inside size := by
  have h := (executor size input).exec_inv (I:=fun x => x.Inside size) (Q:=fun e => e≠.outside)
    (fun r x y hx h => executeRun_inside hsize r hx h) (fun r x e hx h => executeRun_access r hx h)
    (fun x e hx h => by simp only [executor,if_pos hx] at h; cases h) n code x hx
  exact ⟨fun hf => h.2 .outside hf rfl,h.1⟩

/-- A difference of 2^64-1 does not leave the tape either. -/
theorem execute_inside_wrapped :
    (executor 30000 fun _ => none).exec 2 (.seq ⟨.forward,BitVec.allOnes 64⟩ .nil) blank≠
        .fail .outside ∧
      ∀ y,(executor 30000 fun _ => none).exec 2 (.seq ⟨.forward,BitVec.allOnes 64⟩ .nil) blank=
        .done y → y.Inside 30000 :=
  execute_inside (fun _ => none) (by decide) _ blank (by decide) 2

/-! ## Runs of programs -/

/-- The executor follows the language as long as it stays inside of the tape. -/
theorem follows_language (input : ℕ → Option UInt8) (hsize : size ≤ 2^31-1) {bound : ℕ} (hbound : bound < 2^63) :
    Follows ((executor size input).named compress) (language input).block (Joined bound)
      (fun x => x.Inside size) where
  keeps b x y hx h := executeRun_inside hsize (compress b) hx h
  act b hb x y hx h := executeRun_sound hsize hbound hb hx h
  test x b hx h := by
    change (if x.Inside size then Except.ok (decide (x.cell≠0)) else .error Stop.outside)=.ok b at h
    rw [if_pos hx] at h
    exact h

/-- On a bounded tape the operations do what they do on any, inside of it. -/
theorem acts_bounded {l : List Op} {x y : Context} (h : (bounded size input).acts l x=.ok y) :
    (language input).acts l x=.ok y ∧ (l≠[] → x.Inside size ∧ y.Inside size) := by
  induction l generalizing x with
  | nil => exact ⟨h,fun hn => absurd rfl hn⟩
  | cons op l ih =>
    rw [Machine.acts] at h
    by_cases hin : x.Inside size ∧ (runOp input op x).Inside size
    · have hact : (bounded size input).act op x=.ok (runOp input op x) := if_pos hin
      rw [hact] at h
      obtain ⟨hl,hlast⟩ := ih h
      refine ⟨hl,fun _ => ⟨hin.1,?_⟩⟩
      cases l with
      | nil =>
        injection h with h
        exact h ▸ hin.2
      | cons op' l => exact (hlast (List.cons_ne_nil op' l)).2
    · have hact : (bounded size input).act op x=.error .outside := if_neg hin
      rw [hact] at h
      cases h

/-- The language on a bounded tape follows the executor where no run wraps around. -/
theorem follows_executor (input : ℕ → Option UInt8) (hsize : 2*size ≤ 2^31-1) {bound : ℕ} (hbound : bound < 2^63) :
    Follows (bounded size input).block ((executor size input).named compress)
      (fun b => Joined bound b ∧ ¬Wrapped (compress b)) (fun _ => True) where
  keeps _ _ _ _ _ := trivial
  act b hb x y _ h := by
    obtain ⟨hl,hin⟩ := acts_bounded h
    obtain ⟨hx,hy⟩ := hin (List.cons_ne_nil _ _)
    exact executeRun_complete hsize hbound hb.1 hb.2 hx hy hl
  test x b _ h := h

/-- The runs of a named program end as the program does. -/
theorem named_ends (g : Code (Op×List Op)) (x y : Context) :
    (executor size input).Ends (g.map compress) x y ↔
      ((executor size input).named compress).Ends g x y := by
  unfold Machine.Ends
  simp only [Machine.exec_map]

/-- The runs of a named program go on as the program does. -/
theorem named_diverges (g : Code (Op×List Op)) (x : Context) :
    (executor size input).Diverges (g.map compress) x ↔
      ((executor size input).named compress).Diverges g x := by
  unfold Machine.Diverges
  simp only [Machine.exec_map]

/-- What the interpreter does with a text is what the program does that the text spells:
where it ends, the program ends in the same state, and where it goes on for ever, so does
the program. -/
theorem execute_sound (input : ℕ → Option UInt8) (size : ℕ) (text : List UInt8) (x : Context)
    (h0 : 0 ∉ text) (hlen : text.length < 2^31) (hsize : size ≤ 2^31-1) (hx : x.Inside size) :
    (∃ p,Spells text p) ∧ ∃ code,parseString text=some code ∧ ∀ p,Spells text p →
      (∀ y,(executor size input).Ends code x y → (language input).Ends p x y) ∧
      ((executor size input).Diverges code x → (language input).Diverges p x) := by
  refine ⟨exists_spells text,?_⟩
  obtain ⟨code,hparse,hruns⟩ := parseString_runs h0
  refine ⟨code,hparse,fun p hp => ?_⟩
  obtain ⟨g,rfl,rfl,hall⟩ := hruns p hp
  have hf := follows_language input hsize (show text.length < 2^63 by omega)
  refine ⟨fun y hy => ?_,fun hd => ?_⟩
  · rw [←Machine.block_ends]
    exact hf.ends hall hx ((named_ends g x y).1 hy)
  · rw [←Machine.block_diverges]
    exact hf.diverges hall hx ((named_diverges g x).1 hd)

/-- The text `+[` is read although its loop is open. -/
theorem execute_sound_open : (∃ p,Spells [43,91] p) ∧ ∃ code,parseString [43,91]=some code ∧
    ∀ p,Spells [43,91] p →
      (∀ y,(executor 30000 fun _ => none).Ends code blank y →
        (language fun _ => none).Ends p blank y) ∧
      ((executor 30000 fun _ => none).Diverges code blank →
        (language fun _ => none).Diverges p blank) :=
  execute_sound (fun _ => none) 30000 [43,91] blank (by decide) (by decide) (by decide) (by decide)

/-- A move whose difference has wrapped ends the program, wherever it starts. -/
theorem executeRun_wrapped (hsize : size ≤ 2^31-1) {r : Run} (hr : Wrapped r) (x : Context) :
    ∃ e,executeRun size input r x=.error e := by
  have hlimit := moveLimit_eq hsize
  obtain ⟨type,d⟩ := r
  obtain ⟨htype,hd⟩ := hr
  change 2^63 ≤ d.toNat at hd
  obtain htype | htype := htype
  all_goals
    cases htype
    simp only [executeRun]
    rw [if_pos (Or.inl (by rw [hlimit]; omega))]
    exact ⟨_,rfl⟩

/-- A program that stays inside the tape in the language is executed as the language says,
as long as no move of the list has a difference that has wrapped; a move that has ends the
program wherever it starts. -/
theorem execute_complete (input : ℕ → Option UInt8) (size : ℕ) (text : List UInt8) (x : Context)
    (h0 : 0 ∉ text) (hlen : text.length < 2^31) (hsize : 2*size ≤ 2^31-1) :
    ∃ code,parseString text=some code ∧ (code.All (fun r => ¬Wrapped r) → ∀ p,Spells text p →
      (∀ y,(bounded size input).Ends p x y → (executor size input).Ends code x y) ∧
      ((bounded size input).Diverges p x → (executor size input).Diverges code x)) ∧
      ∀ r,Wrapped r → ∀ y,∃ e,executeRun size input r y=.error e := by
  obtain ⟨code,hparse,hruns⟩ := parseString_runs h0
  refine ⟨code,hparse,fun hw p hp => ?_,fun r hr y => executeRun_wrapped (by omega) hr y⟩
  obtain ⟨g,rfl,rfl,hall⟩ := hruns p hp
  have hf := follows_executor input hsize (show text.length < 2^63 by omega)
  have hboth := hall.and hw.of_map
  refine ⟨fun y hy => ?_,fun hd => ?_⟩
  · rw [named_ends]
    exact hf.ends hboth trivial ((Machine.block_ends _ g x y).2 hy)
  · rw [named_diverges]
    exact hf.diverges hboth trivial ((Machine.block_diverges _ g x).2 hd)

/-- The text `><+` has no run that wraps around. -/
theorem execute_complete_moves : ∃ code,parseString [62,60,43]=some code ∧
    (code.All (fun r => ¬Wrapped r) → ∀ p,Spells [62,60,43] p →
      (∀ y,(bounded 30000 fun _ => none).Ends p blank y →
        (executor 30000 fun _ => none).Ends code blank y) ∧
      ((bounded 30000 fun _ => none).Diverges p blank →
        (executor 30000 fun _ => none).Diverges code blank)) ∧
      ∀ r,Wrapped r → ∀ y,∃ e,executeRun 30000 (fun _ => none) r y=.error e :=
  execute_complete (fun _ => none) 30000 [62,60,43] blank (by decide) (by decide) (by decide)

/-! ## The circular tape -/

/-- A program in the form of the other interpreter's language. -/
def progOf : Code Op → Prog
  | .nil => .nil
  | .seq op rest => .seq op (progOf rest)
  | .loop body rest => .loop (progOf body) (progOf rest)

/-- A context and a circular tape with the same cells. -/
structure Matches (x : Context) (t : Tape) : Prop where
  /-- The current cell. -/
  index : x.tapeIndex=t.pos.val
  /-- The cells. -/
  cells : ∀ i : Fin 30000,x.tape i.val=t.cells i
  /-- Characters read. -/
  reads : x.reads=t.reads
  /-- Characters written. -/
  out : x.out=t.out

/-- Tapes that match show the same cell. -/
theorem Matches.cell {x : Context} {t : Tape} (h : Matches x t) : x.cell=t.cell := by
  rw [Context.cell,Tape.cell,h.index,h.cells]

/-- Tapes that match still do when the same value is written. -/
theorem Matches.setCell {x : Context} {t : Tape} (h : Matches x t) (v : UInt8) :
    Matches (x.setCell v) (t.setCell v) := by
  refine ⟨h.index,fun i => ?_,h.reads,h.out⟩
  change Function.update x.tape x.tapeIndex v i.val=Function.update t.cells t.pos v i
  by_cases hi : i=t.pos
  · rw [hi,Function.update_self,h.index,Function.update_self]
  · have hne : (i.val : ℤ)≠x.tapeIndex := fun he => hi (Fin.ext (by
      rw [h.index] at he
      exact_mod_cast he))
    rw [Function.update_of_ne hi,Function.update_of_ne hne,h.cells]

/-- A command that stays inside the tape does the same on the circular one. -/
theorem Matches.act {x y : Context} {t : Tape} (h : Matches x t) {op : Op}
    (hact : (bounded 30000 input).act op x=.ok y) : Matches y (op.run input t) := by
  simp only [bounded] at hact
  split_ifs at hact with hin
  injection hact with hact
  subst hact
  obtain ⟨hx,hy0,hy1⟩ := hin
  have hidx := h.index
  have hpos := t.pos.isLt
  cases op with
  | forward =>
    change 0 ≤ x.tapeIndex+1 at hy0
    change x.tapeIndex+1 < (30000 : ℕ) at hy1
    refine ⟨?_,h.cells,h.reads,h.out⟩
    change x.tapeIndex+1=((t.pos+1 : Fin 30000).val : ℤ)
    rw [Fin.val_add,Fin.val_one]
    omega
  | backward =>
    change 0 ≤ x.tapeIndex-1 at hy0
    refine ⟨?_,h.cells,h.reads,h.out⟩
    change x.tapeIndex-1=((t.pos-1 : Fin 30000).val : ℤ)
    rw [Fin.val_sub,Fin.val_one]
    omega
  | increment =>
    change Matches (x.setCell (x.cell+1)) (t.setCell (t.cell+1))
    rw [h.cell]
    exact h.setCell _
  | decrement =>
    change Matches (x.setCell (x.cell-1)) (t.setCell (t.cell-1))
    rw [h.cell]
    exact h.setCell _
  | output =>
    refine ⟨h.index,h.cells,h.reads,?_⟩
    change x.out++[x.cell]=t.out++[t.cell]
    rw [h.out,h.cell]
  | input =>
    have hset := h.setCell (stored (input t.reads))
    refine ⟨h.index,fun i => ?_,?_,h.out⟩
    · change (x.setCell (stored (input x.reads))).tape i.val=_
      rw [h.reads]
      exact hset.cells i
    · change x.reads+1=t.reads+1
      rw [h.reads]

/-- The language that walks over program trees reaches the end of a program that ends
inside the tape, with the loops around it as they were. -/
theorem bounded_steps (n : ℕ) (c : Code Op) (x y : Context)
    (h : (bounded 30000 input).exec n c x=.done y) (fs : List (Prog × Prog)) (t : Tape)
    (ht : Matches x t) :
    ∃ m u,Matches y u ∧ (Ref.step input)^[m] ⟨progOf c,fs,t⟩=⟨.nil,fs,u⟩ := by
  induction n generalizing c x y fs t with
  | zero => simp [Machine.exec] at h
  | succ n ih =>
    cases c with
    | nil =>
      simp only [Machine.exec,Result.done.injEq] at h
      exact ⟨0,t,h ▸ ht,rfl⟩
    | seq op rest =>
      rw [Machine.exec] at h
      cases hact : (bounded 30000 input).act op x with
      | error e => simp [hact] at h
      | ok x1 =>
        rw [hact] at h
        obtain ⟨m,u,hu,hm⟩ := ih rest x1 y h fs _ (ht.act hact)
        exact ⟨m+1,u,hu,by rw [Function.iterate_succ_apply]; exact hm⟩
    | loop body rest =>
      rw [Machine.exec] at h
      have hstep : ∀ v : Tape,v.cell=0 → Ref.step input ⟨progOf (.loop body rest),fs,v⟩=
          ⟨progOf rest,fs,v⟩ := fun v hv => if_pos hv
      have henter : t.cell≠0 → Ref.step input ⟨progOf (.loop body rest),fs,t⟩=
          ⟨progOf body,(progOf body,progOf rest)::fs,t⟩ := fun hv => if_neg hv
      cases htest : (bounded 30000 input).test x with
      | error e => simp [htest] at h
      | ok b =>
        rw [htest] at h
        have hb : b=decide (x.cell≠0) := by
          simp only [bounded] at htest
          split_ifs at htest
          injection htest with htest
          exact htest.symm
        cases b with
        | false =>
          have hzero : t.cell=0 := by
            rw [←ht.cell]
            simpa using hb
          obtain ⟨m,u,hu,hm⟩ := ih rest x y h fs t ht
          exact ⟨m+1,u,hu,by rw [Function.iterate_succ_apply,hstep t hzero]; exact hm⟩
        | true =>
          have hnz : t.cell≠0 := by
            rw [←ht.cell]
            simpa using hb
          dsimp only at h
          cases hbody : (bounded 30000 input).exec n body x with
          | more => simp [hbody] at h
          | fail e => simp [hbody] at h
          | done x1 =>
            rw [hbody] at h
            obtain ⟨m1,u1,hu1,hm1⟩ :=
              ih body x x1 hbody ((progOf body,progOf rest)::fs) t ht
            obtain ⟨m2,u,hu,hm2⟩ := ih (.loop body rest) x1 y h fs u1 hu1
            have hpass : (Ref.step input)^[m1+1] ⟨progOf (.loop body rest),fs,t⟩=
                ⟨.nil,(progOf body,progOf rest)::fs,u1⟩ := by
              rw [Function.iterate_succ_apply,henter hnz,hm1]
            -- at the end of the body the tree is at the head of the loop or behind it
            by_cases hz : u1.cell=0
            · cases m2 with
              | zero => cases congrArg Ref.cur hm2
              | succ m2 =>
                rw [Function.iterate_succ_apply,hstep u1 hz] at hm2
                refine ⟨m2+1+(m1+1),u,hu,?_⟩
                have hleave : Ref.step input ⟨.nil,(progOf body,progOf rest)::fs,u1⟩=
                    ⟨progOf rest,fs,u1⟩ := if_pos hz
                rw [Function.iterate_add_apply,hpass,Function.iterate_succ_apply,hleave,hm2]
            · have hagain : Ref.step input ⟨.nil,(progOf body,progOf rest)::fs,u1⟩=
                  ⟨progOf (.loop body rest),fs,u1⟩ := if_neg hz
              refine ⟨m2+1+(m1+1),u,hu,?_⟩
              rw [Function.iterate_add_apply,hpass,Function.iterate_succ_apply,hagain,hm2]

/-- The reference machine is its step, repeated. -/
theorem refAfter_iterate (p : Prog) (n : ℕ) :
    refAfter input p n=(Ref.step input)^[n] ⟨p,[],⟨fun _ => 0,0,0,[]⟩⟩ := by
  induction n with
  | zero => rfl
  | succ n ih => rw [Function.iterate_succ_apply',←ih,refAfter]

/-- A program that ends inside the tape, started on a blank one, ends in this interpreter
and in the language of the other interpreter with the same cells, reads and output. -/
theorem execute_circular (input : ℕ → Option UInt8) (text : List UInt8) (h0 : 0 ∉ text)
    (hlen : text.length < 2^31) :
    ∃ code,parseString text=some code ∧ (code.All (fun r => ¬Wrapped r) → ∀ p,Spells text p →
      ∀ y,(bounded 30000 input).Ends p blank y → (executor 30000 input).Ends code blank y ∧
        ∃ n,(refAfter input (progOf p) n).halted ∧
          Matches y (refAfter input (progOf p) n).tape) := by
  obtain ⟨code,hparse,hruns⟩ := parseString_runs h0
  refine ⟨code,hparse,fun hw p hp y hy => ⟨?_,?_⟩⟩
  · obtain ⟨g,rfl,rfl,hall⟩ := hruns p hp
    have hf := follows_executor input (show 2*30000 ≤ 2^31-1 by decide)
      (show text.length < 2^63 by omega)
    rw [named_ends]
    exact hf.ends (hall.and hw.of_map) trivial ((Machine.block_ends _ g blank y).2 hy)
  · obtain ⟨n,hn⟩ := hy
    obtain ⟨m,u,hu,hm⟩ := bounded_steps n p blank y hn [] ⟨fun _ => 0,0,0,[]⟩
      ⟨rfl,fun _ => rfl,rfl,rfl⟩
    refine ⟨m,?_,?_⟩
    · rw [refAfter_iterate,hm]
      exact ⟨rfl,rfl⟩
    · rw [refAfter_iterate,hm]
      exact hu

/-- The text `+.` ends on the reference machine too. -/
theorem execute_circular_plus : ∃ code,parseString [43,46]=some code ∧
    (code.All (fun r => ¬Wrapped r) → ∀ p,Spells [43,46] p →
      ∀ y,(bounded 30000 fun _ => none).Ends p blank y →
        (executor 30000 fun _ => none).Ends code blank y ∧
        ∃ n,(refAfter (fun _ => none) (progOf p) n).halted ∧
          Matches y (refAfter (fun _ => none) (progOf p) n).tape) :=
  execute_circular (fun _ => none) [43,46] (by decide) (by decide)

end StudyCode.BrainfuckList
