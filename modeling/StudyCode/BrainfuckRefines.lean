import StudyCode.Brainfuck

/-!
# When the machine runs the language

The position of the machine in its code is the text of what the language has
left to do, and its stack holds the positions of the open loops. Commands and
entered loops keep this relation. A loop that is passed over takes the
instruction behind it along, a loop that is left keeps its stack entry, and
an address that char cannot hold is lost. The machine does what the program
means as long as the program stays clear of the three.
-/

namespace StudyCode.Brainfuck

variable {k : CharKind} {input : ℕ → Option UInt8}

/-- The text behind the program in hand: the end of every open loop and what
follows it. -/
def tailOf : List (Prog × Prog) → List UInt8
  | [] => []
  | (_,rest)::fs => 93::rest.render++tailOf fs

/-- The state of a program is clear of the faults of the machine. A loop that
is passed over is the end of a text that leaves one more cell of the code
segment free; a loop that is left is the end of the text; and a loop that is
run again starts where char can hold the address before it. -/
structure Clear (k : CharKind) (len : ℕ) (r : Ref) : Prop where
  /-- The head of a loop on a zero cell. -/
  skip : ∀ body rest,r.cur=.loop body rest → r.tape.cell=0 →
    rest.render++tailOf r.frames=[] ∧ len+1 < codeSegmentSize
  /-- The end of a body on a zero cell. -/
  leave : ∀ body rest fs,r.cur=.nil → r.frames=(body,rest)::fs → r.tape.cell=0 →
    rest.render++tailOf fs=[]
  /-- The end of a body on another cell. -/
  again : ∀ body rest fs,r.cur=.nil → r.frames=(body,rest)::fs → r.tape.cell≠0 →
    toChar k ((len : ℤ)-((Prog.loop body rest).render++tailOf fs).length-1)=
      (len : ℤ)-((Prog.loop body rest).render++tailOf fs).length-1

/-! ## The relation -/

/-- The machine's tape is the tape of the language. -/
structure TapeOk (vm : Vm) (t : Tape) : Prop where
  /-- The current cell. -/
  bp : vm.bp=t.pos.val
  /-- The cells. -/
  ds : ∀ i : Fin 30000,vm.ds i.val=t.cells i
  /-- Characters read. -/
  reads : vm.reads=t.reads
  /-- Characters written. -/
  out : vm.out=t.out

/-- The stack holds the address before each open loop, as char keeps it. -/
def StackOk (k : CharKind) (toks : List UInt8) (ss : ℕ → ℤ) : List (Prog × Prog) → Prop
  | [] => True
  | (body,rest)::fs => (∃ j : ℕ,j ≤ toks.length ∧
      toks.drop j=(Prog.loop body rest).render++tailOf fs ∧ ss fs.length=toChar k (j-1)) ∧
      StackOk k toks ss fs

/-- Open loops leave room on the stack for what is nested in them. -/
def DepthOk : List (Prog × Prog) → Prop
  | [] => True
  | (body,rest)::fs => fs.length+(Prog.loop body rest).depth ≤ stackSegmentSize ∧ DepthOk fs

/-- The machine stands where the language stands. -/
structure Sim (k : CharKind) (toks : List UInt8) (vm : Vm) (r : Ref) : Prop where
  /-- The code. -/
  cs : vm.cs=toks
  /-- The position. -/
  ip : ∃ i : ℕ,vm.ip=i ∧ i ≤ toks.length ∧ toks.drop i=r.cur.render++tailOf r.frames
  /-- One stack entry for each open loop. -/
  sp : vm.sp=r.frames.length
  /-- The stack entries. -/
  stack : StackOk k toks vm.ss r.frames
  /-- Room for the program in hand. -/
  room : r.frames.length+r.cur.depth ≤ stackSegmentSize
  /-- Room for the open loops. -/
  rooms : DepthOk r.frames
  /-- The tape. -/
  tape : TapeOk vm r.tape

/-- Both have ended with the same output. -/
structure Ended (vm : Vm) (r : Ref) : Prop where
  /-- The machine has stopped. -/
  vm_halted : vm.halted
  /-- The program has ended. -/
  ref_halted : r.halted
  /-- The outputs agree. -/
  out : vm.out=r.tape.out

/-- The machine and the reference show the same cell. -/
theorem TapeOk.cell {vm : Vm} {t : Tape} (h : TapeOk vm t) : vm.cell=t.cell := by
  unfold Vm.cell Tape.cell
  rw [h.bp,h.ds]

/-- They still do when the same value is written. -/
theorem TapeOk.setCell {vm : Vm} {t : Tape} (h : TapeOk vm t) (v : UInt8) :
    TapeOk (vm.setCell v) (t.setCell v) := by
  refine ⟨h.bp,fun i => ?_,h.reads,h.out⟩
  change (if i.val=vm.bp then v else vm.ds i.val)=Function.update t.cells t.pos v i
  by_cases hi : i=t.pos
  · rw [hi,Function.update_self,if_pos h.bp.symm]
  · rw [Function.update_of_ne hi,if_neg fun he => hi (Fin.ext (he.trans h.bp)),h.ds]

/-- The callback of a command does what the command means. -/
theorem TapeOk.dispatch {vm : Vm} {t : Tape} (h : TapeOk vm t) (op : Op) :
    ∃ vm',dispatch k input op.token vm=some vm' ∧ vm'.cs=vm.cs ∧ vm'.ip=vm.ip ∧ vm'.ss=vm.ss ∧
      vm'.sp=vm.sp ∧ TapeOk vm' (op.run input t) := by
  cases op with
  | forward =>
    refine ⟨vmForward vm,rfl,rfl,rfl,rfl,rfl,⟨?_,h.ds,h.reads,h.out⟩⟩
    change (vm.bp+1)%dataSegmentSize=(t.pos+1).val
    rw [h.bp,Fin.val_add,Fin.val_one,dataSegmentSize]
  | backward =>
    refine ⟨vmBackward vm,rfl,?_⟩
    have hpos : (vm.bp+dataSegmentSize-1)%dataSegmentSize=(t.pos-1).val := by
      rw [h.bp,Fin.val_sub,Fin.val_one,dataSegmentSize]
      congr 1
      omega
    unfold vmBackward
    rw [hpos]
    exact ⟨rfl,rfl,rfl,rfl,⟨rfl,h.ds,h.reads,h.out⟩⟩
  | increment =>
    refine ⟨vmIncrement vm,rfl,rfl,rfl,rfl,rfl,?_⟩
    unfold vmIncrement
    rw [h.cell]
    exact h.setCell _
  | decrement =>
    refine ⟨vmDecrement vm,rfl,rfl,rfl,rfl,rfl,?_⟩
    unfold vmDecrement
    rw [h.cell]
    exact h.setCell _
  | output =>
    refine ⟨vmOutput vm,rfl,rfl,rfl,rfl,rfl,⟨h.bp,h.ds,h.reads,?_⟩⟩
    change vm.out++[vm.cell]=t.out++[t.cell]
    rw [h.out,h.cell]
  | input =>
    refine ⟨vmInput input vm,rfl,rfl,rfl,rfl,rfl,?_⟩
    have hs := h.setCell (stored (input t.reads))
    unfold vmInput
    rw [h.reads]
    exact ⟨hs.bp,hs.ds,rfl,hs.out⟩

/-- No token is the end of the code. -/
theorem token_ne_zero (op : Op) : op.token≠0 := by
  cases op <;> decide

/-! ## Positions in the code -/

/-- The code at the position of the rest is its first token. -/
theorem code_of_drop {toks rest : List UInt8} {i : ℕ} {t : UInt8} (hl : toks.length < codeSegmentSize)
    (h : toks.drop i=t::rest) : code toks i=some t ∧ toks.drop (i+1)=rest ∧ i+1 ≤ toks.length := by
  have hi : i < toks.length := by
    by_contra hn
    rw [List.drop_of_length_le (not_lt.mp hn)] at h
    cases h
  rw [List.drop_eq_getElem_cons hi] at h
  obtain ⟨ht,hr⟩ := List.cons.inj h
  refine ⟨?_,hr,hi⟩
  unfold code
  rw [if_pos (hi.trans hl),List.getD_eq_getElem?_getD,List.getElem?_eq_getElem hi,←ht]
  rfl

/-- Behind the tokens the code is zero. -/
theorem code_of_end {toks : List UInt8} {i : ℕ} (hi : i < codeSegmentSize) (hl : toks.length ≤ i) :
    code toks i=some 0 := by
  unfold code
  rw [if_pos hi,List.getD_eq_getElem?_getD,List.getElem?_eq_none_iff.mpr hl]
  rfl

/-- The rest of the code tells the position. -/
theorem drop_length {toks rest : List UInt8} {i : ℕ} (hi : i ≤ toks.length)
    (h : toks.drop i=rest) : i=toks.length-rest.length := by
  have := congrArg List.length h
  rw [List.length_drop] at this
  omega

/-- The skipping loop passes over one character. -/
theorem skipLoop_cons {toks rest : List UInt8} {i fuel : ℕ} {t : UInt8} {c : ℤ}
    (hl : toks.length < codeSegmentSize) (h : toks.drop i=t::rest) (ht : t≠0) (hc : c≠0) :
    skipLoop toks (fuel+1) i c=
      skipLoop toks fuel (i+1) (if t=91 then c+1 else if t=93 then c-1 else c) := by
  rw [skipLoop,(code_of_drop hl h).1]
  exact if_pos ⟨ht,hc⟩

/-- The skipping loop passes over a program with its count unchanged. -/
theorem skipLoop_render (p : Prog) {toks rest : List UInt8} {i n : ℕ} {c : ℤ}
    (hl : toks.length < codeSegmentSize) (h : toks.drop i=p.render++rest) (hc : 0 < c) :
    skipLoop toks (n+p.render.length) i c=skipLoop toks n (i+p.render.length) c ∧
      toks.drop (i+p.render.length)=rest := by
  induction p generalizing i n c rest with
  | nil => exact ⟨rfl,h⟩
  | seq op p ih =>
    obtain ⟨-,hd,-⟩ := code_of_drop hl h
    obtain ⟨hs,hr⟩ := ih (n:=n) hd hc
    have hlen : (Prog.seq op p).render.length=p.render.length+1 := rfl
    have h91 : op.token≠91 := by cases op <;> decide
    have h93 : op.token≠93 := by cases op <;> decide
    rw [hlen,←Nat.add_assoc,skipLoop_cons hl h (token_ne_zero op) hc.ne',if_neg h91,if_neg h93,hs]
    exact ⟨by congr 1;omega,by rw [←hr];congr 1;omega⟩
  | loop body p ihb ihp =>
    have h1 : toks.drop i=91::(body.render++(93::(p.render++rest))) := by
      rw [h]
      simp [Prog.render]
    obtain ⟨-,hd1,-⟩ := code_of_drop hl h1
    obtain ⟨hsb,hdb⟩ := ihb (n:=n+p.render.length+1) (c:=c+1) hd1 (by omega)
    obtain ⟨-,hd2,-⟩ := code_of_drop hl hdb
    obtain ⟨hsp,hdp⟩ := ihp (n:=n) (c:=c) hd2 hc
    have hlen : n+(Prog.loop body p).render.length=
        n+p.render.length+1+body.render.length+1 := by
      simp only [Prog.render,List.cons_append,List.length_cons,List.length_append]
      omega
    have hpos : i+(Prog.loop body p).render.length=i+1+body.render.length+1+p.render.length := by
      simp only [Prog.render,List.cons_append,List.length_cons,List.length_append]
      omega
    rw [hlen,hpos,skipLoop_cons hl h1 (by decide) hc.ne',if_pos rfl,hsb,
      skipLoop_cons hl hdb (by decide) (by omega),if_neg (by decide),if_pos rfl]
    have hcc : c+1-1=c := by omega
    rw [hcc,hsp]
    exact ⟨rfl,hdp⟩

/-- A program without tokens is empty. -/
theorem render_eq_nil {p : Prog} (h : p.render=[]) : p=.nil := by
  cases p with
  | nil => rfl
  | seq op p => cases h
  | loop b p => cases h

/-- Without tokens behind it, no loop is open. -/
theorem tailOf_eq_nil {fs : List (Prog × Prog)} (h : tailOf fs=[]) : fs=[] := by
  cases fs with
  | nil => rfl
  | cons f fs => cases h

/-- Nothing left to do is the end of the program. -/
theorem halted_of_nil {r : Ref} (h : r.cur.render++tailOf r.frames=[]) : r.halted := by
  obtain ⟨hc,hf⟩ := List.append_eq_nil_iff.mp h
  exact ⟨render_eq_nil hc,tailOf_eq_nil hf⟩

/-- The code that is fetched at a position. -/
theorem fetch_eq {vm : Vm} {i : ℕ} (h : vm.ip=i) : fetch vm=code vm.cs i := by
  unfold fetch
  rw [h,if_pos (Int.natCast_nonneg i),Int.toNat_natCast]

/-- A step does what the token says and goes on behind it. -/
theorem step_of_fetch {vm vm' : Vm} {t : UInt8} (hf : fetch vm=some t) (ht : t≠0)
    (hd : dispatch k input t vm=some vm') : step k input vm=some {vm' with ip := vm'.ip+1} := by
  unfold step
  rw [hf]
  dsimp only
  rw [if_neg ht,hd]

/-- The stack of the open loops depends on its own cells only. -/
theorem StackOk.congr {toks : List UInt8} {ss ss' : ℕ → ℤ} {fs : List (Prog × Prog)}
    (h : StackOk k toks ss fs) (he : ∀ j < fs.length,ss' j=ss j) : StackOk k toks ss' fs := by
  induction fs with
  | nil => trivial
  | cons f fs ih =>
    obtain ⟨⟨j,hj,hd,hs⟩,hr⟩ := h
    refine ⟨⟨j,hj,hd,?_⟩,ih hr fun x hx => he x (Nat.lt_succ_of_lt hx)⟩
    rw [he _ (Nat.lt_succ_self _)]
    exact hs

section Step

variable {toks : List UInt8} {vm : Vm} {r : Ref}

/-- A command. -/
theorem Sim.seq {op : Op} {rest : Prog} (h : Sim k toks vm r) (hl : toks.length < codeSegmentSize)
    (hc : r.cur=.seq op rest) :
    ∃ vm',step k input vm=some vm' ∧ Sim k toks vm' (r.step input) := by
  obtain ⟨i,hi,-,hd⟩ := h.ip
  rw [hc] at hd
  obtain ⟨hcode,hd',hi'⟩ := code_of_drop hl hd
  have hf : fetch vm=some op.token := by rw [fetch_eq hi,h.cs,hcode]
  obtain ⟨vm',hdis,hcs,hip,hss,hsp,ht⟩ := (h.tape.dispatch op : ∃ vm',dispatch k input op.token vm=some vm' ∧ _)
  refine ⟨_,step_of_fetch hf (token_ne_zero op) hdis,?_⟩
  have hstep : r.step input={r with cur := rest,tape := op.run input r.tape} := by
    unfold Ref.step
    rw [hc]
  have hroom := h.room
  rw [hc] at hroom
  rw [hstep]
  refine ⟨hcs.trans h.cs,⟨i+1,?_,hi',hd'⟩,hsp.trans h.sp,?_,hroom,h.rooms,⟨ht.bp,ht.ds,ht.reads,ht.out⟩⟩
  · change vm'.ip+1=_
    rw [hip,hi]
    push_cast
    rfl
  · change StackOk k toks vm'.ss r.frames
    rw [hss]
    exact h.stack

/-- A loop whose body is entered. -/
theorem Sim.enter {body rest : Prog} (h : Sim k toks vm r) (hl : toks.length < codeSegmentSize)
    (hc : r.cur=.loop body rest) (hz : r.tape.cell≠0) :
    ∃ vm',step k input vm=some vm' ∧ Sim k toks vm' (r.step input) := by
  obtain ⟨i,hi,hile,hd⟩ := h.ip
  rw [hc] at hd
  have hd1 : toks.drop i=91::(body.render++tailOf ((body,rest)::r.frames)) := by
    rw [hd]
    simp [Prog.render,tailOf]
  obtain ⟨hcode,hd',hi'⟩ := code_of_drop hl hd1
  have hf : fetch vm=some 91 := by rw [fetch_eq hi,h.cs,hcode]
  have hroom : r.frames.length+max (body.depth+1) rest.depth ≤ stackSegmentSize := by
    have hroom := h.room
    rw [hc] at hroom
    exact hroom
  have hsp : vm.sp < stackSegmentSize := by
    rw [h.sp]
    omega
  have hdis : dispatch k input 91 vm=some {vm with
      ss := fun i => if i=vm.sp then toChar k (vm.ip-1) else vm.ss i
      sp := vm.sp+1} := by
    change vmWhileEntry k vm=_
    unfold vmWhileEntry
    rw [h.tape.cell,if_pos hz,if_pos hsp]
  have hstep : r.step input={r with cur := body,frames := (body,rest)::r.frames} := by
    unfold Ref.step
    rw [hc]
    exact if_neg hz
  refine ⟨_,step_of_fetch hf (by decide) hdis,?_⟩
  rw [hstep]
  refine ⟨h.cs,⟨i+1,?_,hi',hd'⟩,?_,⟨⟨i,hile,hd,?_⟩,h.stack.congr fun j hj => ?_⟩,?_,⟨hroom,h.rooms⟩,
    ⟨h.tape.bp,h.tape.ds,h.tape.reads,h.tape.out⟩⟩
  · change vm.ip+1=_
    rw [hi]
    push_cast
    rfl
  · change vm.sp+1=r.frames.length+1
    rw [h.sp]
  · change (if r.frames.length=vm.sp then _ else _)=_
    rw [if_pos h.sp.symm,hi]
  · change (if j=vm.sp then _ else _)=_
    rw [h.sp]
    exact if_neg hj.ne
  · change r.frames.length+1+body.depth ≤ _
    omega

/-- A loop that is passed over at the end of the text. -/
theorem Sim.skip {body rest : Prog} (h : Sim k toks vm r) (hl : toks.length+1 < codeSegmentSize)
    (hc : r.cur=.loop body rest) (hz : r.tape.cell=0) (hend : rest.render++tailOf r.frames=[]) :
    ∃ vm',step k input vm=some vm' ∧ Ended vm' (r.step input) := by
  obtain ⟨i,hi,hile,hd⟩ := h.ip
  rw [hc] at hd
  have hl' : toks.length < codeSegmentSize := by omega
  have hd1 : toks.drop i=91::(body.render++93::[]) := by
    rw [hd,←hend]
    simp [Prog.render]
  obtain ⟨hcode,hdb,hib⟩ := code_of_drop hl' hd1
  have hf : fetch vm=some 91 := by rw [fetch_eq hi,h.cs,hcode]
  have hlen : body.render.length+2 ≤ toks.length := by
    have := congrArg List.length hd1
    simp only [List.length_drop,List.length_cons,List.length_append,List.length_nil] at this
    omega
  obtain ⟨m,hm⟩ : ∃ m,codeSegmentSize+1=m+1+1+body.render.length :=
    ⟨codeSegmentSize-1-body.render.length,by omega⟩
  obtain ⟨hs,hd2⟩ := skipLoop_render body (n:=m+1+1) (c:=1) hl' hdb (by decide)
  obtain ⟨-,hd3,hi3⟩ := code_of_drop hl' hd2
  have hpos : i+1+body.render.length+1=toks.length := by
    have := drop_length hi3 hd3
    simpa using this
  have hskip : skipLoop vm.cs (codeSegmentSize+1) (vm.ip.toNat+1) 1=some toks.length := by
    rw [h.cs,hi,Int.toNat_natCast,hm,hs,skipLoop_cons hl' hd2 (by decide) (by decide),
      if_neg (by decide),if_pos rfl,hpos,skipLoop,code_of_end hl' (Nat.le_refl _)]
    exact if_neg (by simp)
  have hdis : dispatch k input 91 vm=some {vm with ip := toks.length} := by
    change vmWhileEntry k vm=_
    unfold vmWhileEntry
    rw [h.tape.cell,if_neg (not_not.mpr hz),hskip]
  have hstep : r.step input={r with cur := rest} := by
    unfold Ref.step
    rw [hc]
    exact if_pos hz
  refine ⟨_,step_of_fetch hf (by decide) hdis,?_⟩
  rw [hstep]
  refine ⟨?_,halted_of_nil hend,h.tape.out⟩
  have hip : ((toks.length : ℤ)+1)=((toks.length+1 : ℕ) : ℤ) := by push_cast;rfl
  change fetch {vm with ip := (toks.length : ℤ)+1}=some 0
  rw [hip,fetch_eq rfl]
  change code vm.cs (toks.length+1)=_
  rw [h.cs]
  exact code_of_end hl (Nat.le_succ _)

/-- The end of a body, from where the loop is run again. -/
theorem Sim.again {body rest : Prog} {fs : List (Prog × Prog)} (h : Sim k toks vm r)
    (hl : toks.length < codeSegmentSize) (hc : r.cur=.nil) (hfs : r.frames=(body,rest)::fs)
    (hz : r.tape.cell≠0)
    (hfit : toChar k ((toks.length : ℤ)-((Prog.loop body rest).render++tailOf fs).length-1)=
      (toks.length : ℤ)-((Prog.loop body rest).render++tailOf fs).length-1) :
    ∃ vm',step k input vm=some vm' ∧ Sim k toks vm' (r.step input) := by
  obtain ⟨i,hi,hile,hd⟩ := h.ip
  rw [hc,hfs] at hd
  obtain ⟨hcode,-,-⟩ := code_of_drop hl (show toks.drop i=93::(rest.render++tailOf fs) from hd)
  have hf : fetch vm=some 93 := by rw [fetch_eq hi,h.cs,hcode]
  have hsp : vm.sp=fs.length+1 := by
    rw [h.sp,hfs]
    rfl
  have hstack := h.stack
  have hrooms := h.rooms
  rw [hfs] at hstack hrooms
  obtain ⟨⟨j,hj,hdj,hsj⟩,hstack⟩ := hstack
  have hjpos : (j : ℤ)=(toks.length : ℤ)-((Prog.loop body rest).render++tailOf fs).length := by
    have := congrArg List.length hdj
    rw [List.length_drop] at this
    omega
  rw [←hjpos] at hfit
  have hdis : dispatch k input 93 vm=some {vm with sp := fs.length,ip := j-1} := by
    change vmWhileExit vm=_
    unfold vmWhileExit
    rw [h.tape.cell,if_pos hz,if_pos (by omega),hsp,Nat.add_sub_cancel,hsj,hfit]
  have hstep : r.step input={r with cur := .loop body rest,frames := fs} := by
    unfold Ref.step
    rw [hc,hfs]
    exact if_neg hz
  refine ⟨_,step_of_fetch hf (by decide) hdis,?_⟩
  rw [hstep]
  refine ⟨h.cs,⟨j,?_,hj,hdj⟩,rfl,hstack,hrooms.1,hrooms.2,⟨h.tape.bp,h.tape.ds,h.tape.reads,h.tape.out⟩⟩
  change ((j : ℤ)-1)+1=j
  omega

/-- The end of a body at the end of the text, from where the loop is left. -/
theorem Sim.leave {body rest : Prog} {fs : List (Prog × Prog)} (h : Sim k toks vm r)
    (hl : toks.length < codeSegmentSize) (hc : r.cur=.nil) (hfs : r.frames=(body,rest)::fs)
    (hz : r.tape.cell=0) (hend : rest.render++tailOf fs=[]) :
    ∃ vm',step k input vm=some vm' ∧ Ended vm' (r.step input) := by
  obtain ⟨i,hi,hile,hd⟩ := h.ip
  rw [hc,hfs] at hd
  obtain ⟨hcode,hd',hi'⟩ := code_of_drop hl (show toks.drop i=93::(rest.render++tailOf fs) from hd)
  have hf : fetch vm=some 93 := by rw [fetch_eq hi,h.cs,hcode]
  have hdis : dispatch k input 93 vm=some vm := by
    change vmWhileExit vm=_
    unfold vmWhileExit
    rw [h.tape.cell,if_neg (not_not.mpr hz)]
  have hstep : r.step input={r with cur := rest,frames := fs} := by
    unfold Ref.step
    rw [hc,hfs]
    exact if_pos hz
  refine ⟨_,step_of_fetch hf (by decide) hdis,?_⟩
  rw [hstep]
  refine ⟨?_,halted_of_nil hend,h.tape.out⟩
  have hip : vm.ip+1=((i+1 : ℕ) : ℤ) := by rw [hi];push_cast;rfl
  have hpos : i+1=toks.length := by
    have := drop_length hi' hd'
    rw [hend] at this
    simpa using this
  change fetch {vm with ip := vm.ip+1}=some 0
  rw [hip,fetch_eq rfl]
  change code vm.cs (i+1)=_
  rw [h.cs]
  exact code_of_end (by omega) (by omega)

/-- A program that has ended stops the machine. -/
theorem Sim.halted (h : Sim k toks vm r) (hl : toks.length < codeSegmentSize) (hr : r.halted) :
    vm.halted := by
  obtain ⟨i,hi,hile,hd⟩ := h.ip
  rw [hr.1,hr.2] at hd
  have hpos : i=toks.length := by
    have := drop_length hile hd
    simpa [Prog.render,tailOf] using this
  unfold Vm.halted
  rw [fetch_eq hi,h.cs]
  exact code_of_end (by omega) (by omega)

/-- A program that has not ended keeps the machine running. -/
theorem Sim.running (h : Sim k toks vm r) (hl : toks.length < codeSegmentSize) (hr : ¬r.halted) :
    ¬vm.halted := by
  obtain ⟨i,hi,hile,hd⟩ := h.ip
  have hnz : ∀ t rest,r.cur.render++tailOf r.frames=t::rest → t≠0 := by
    intro t rest ht
    cases hc : r.cur with
    | nil =>
      cases hf : r.frames with
      | nil => exact absurd ⟨hc,hf⟩ hr
      | cons f fs =>
        rw [hc,hf] at ht
        rw [←(List.cons.inj ht).1]
        decide
    | seq op p =>
      rw [hc] at ht
      rw [←(List.cons.inj ht).1]
      exact token_ne_zero op
    | loop b p =>
      rw [hc] at ht
      rw [←(List.cons.inj ht).1]
      decide
  cases hx : r.cur.render++tailOf r.frames with
  | nil => exact absurd (halted_of_nil hx) hr
  | cons t rest =>
    obtain ⟨hcode,-,-⟩ := code_of_drop hl (hd.trans hx)
    unfold Vm.halted
    rw [fetch_eq hi,h.cs,hcode]
    exact fun he => hnz t rest hx (Option.some.inj he)

/-- A machine that has halted stays. -/
theorem step_halted (h : vm.halted) : step k input vm=some vm := by
  unfold step
  rw [h]
  exact if_pos rfl

/-- The reference stays where it has halted. -/
theorem Ref.step_halted (h : r.halted) : r.step input=r := by
  unfold Ref.step
  rw [h.1,h.2]

/-- One step of both, from a state that is clear. -/
theorem Sim.step (h : Sim k toks vm r) (hl : toks.length < codeSegmentSize)
    (hc : Clear k toks.length r) :
    ∃ vm',Brainfuck.step k input vm=some vm' ∧
      (Sim k toks vm' (r.step input) ∨ Ended vm' (r.step input)) := by
  cases hcur : r.cur with
  | seq op rest =>
    obtain ⟨vm',hs,hS⟩ := h.seq hl hcur
    exact ⟨vm',hs,Or.inl hS⟩
  | loop body rest =>
    by_cases hz : r.tape.cell=0
    · obtain ⟨hend,hlen⟩ := hc.skip body rest hcur hz
      obtain ⟨vm',hs,hE⟩ := h.skip hlen hcur hz hend
      exact ⟨vm',hs,Or.inr hE⟩
    · obtain ⟨vm',hs,hS⟩ := h.enter hl hcur hz
      exact ⟨vm',hs,Or.inl hS⟩
  | nil =>
    cases hfs : r.frames with
    | nil =>
      have hr : r.halted := ⟨hcur,hfs⟩
      rw [Ref.step_halted hr]
      exact ⟨vm,step_halted (h.halted hl hr),Or.inl h⟩
    | cons f fs =>
      obtain ⟨body,rest⟩ := f
      by_cases hz : r.tape.cell=0
      · obtain ⟨vm',hs,hE⟩ := h.leave hl hcur hfs hz (hc.leave body rest fs hcur hfs hz)
        exact ⟨vm',hs,Or.inr hE⟩
      · obtain ⟨vm',hs,hS⟩ := h.again hl hcur hfs hz (hc.again body rest fs hcur hfs hz)
        exact ⟨vm',hs,Or.inl hS⟩

end Step

/-! ## Runs -/

/-- Brackets of a program match. -/
theorem count_render (p : Prog) : p.render.count 91=p.render.count 93 := by
  induction p with
  | nil => rfl
  | seq op p ih =>
    have h91 : op.token≠91 := by cases op <;> decide
    have h93 : op.token≠93 := by cases op <;> decide
    rw [Prog.render,List.count_cons_of_ne h91,List.count_cons_of_ne h93,ih]
  | loop b p ihb ihp =>
    simp only [Prog.render,List.cons_append,List.count_cons,List.count_append,ihb,ihp]
    simp
    omega

/-- Behind an open loop stands one bracket more that closes. -/
theorem count_tailOf (fs : List (Prog × Prog)) :
    (tailOf fs).count 93=(tailOf fs).count 91+fs.length := by
  induction fs with
  | nil => rfl
  | cons f fs ih =>
    simp only [tailOf,List.cons_append,List.count_cons,List.count_append,ih,count_render]
    simp
    omega

/-- The loops that are open at a position are those of the language. -/
theorem Sim.openAt {p : Prog} {vm : Vm} {r : Ref} (h : Sim k p.render vm r) :
    (vm.sp : ℤ)=openAt p.render vm.ip.toNat := by
  obtain ⟨i,hi,-,hd⟩ := h.ip
  rw [hi,Int.toNat_natCast,h.sp]
  unfold Brainfuck.openAt
  have hall := count_render p
  have h1 : (p.render.take i++p.render.drop i).count 91=_ := List.count_append
  have h2 : (p.render.take i++p.render.drop i).count 93=_ := List.count_append
  rw [List.take_append_drop,hd,List.count_append] at h1 h2
  have hc := count_render r.cur
  have ht := count_tailOf r.frames
  omega

/-- The machine after any number of turns. -/
theorem vmAfter_sim {file : List UInt8} {p : Prog} (hf : file.filter isToken=p.render)
    (hl : p.render.length < codeSegmentSize) (hd : p.depth ≤ stackSegmentSize)
    (hc : ∀ n,Clear k p.render.length (refAfter input p n)) (n : ℕ) :
    ∃ vm,vmAfter k input file n=some vm ∧
      (Sim k p.render vm (refAfter input p n) ∨ Ended vm (refAfter input p n)) := by
  induction n with
  | zero =>
    refine ⟨⟨p.render,0,fun _ => 0,0,fun _ => 0,0,0,[]⟩,?_,Or.inl ?_⟩
    · unfold vmAfter setup
      rw [hf]
      exact if_pos hl.le
    · refine ⟨rfl,⟨0,rfl,Nat.zero_le _,?_⟩,rfl,trivial,?_,trivial,⟨rfl,fun _ => rfl,rfl,rfl⟩⟩
      · exact (List.append_nil _).symm
      · exact (Nat.zero_add _).trans_le hd
  | succ n ih =>
    obtain ⟨vm,hv,hrel⟩ := ih
    rw [vmAfter,hv]
    rcases hrel with hS|hE
    · exact hS.step hl (hc n)
    · refine ⟨vm,step_halted hE.vm_halted,Or.inr ?_⟩
      rw [refAfter,Ref.step_halted hE.ref_halted]
      exact hE

/-- On every host, for every program of at most 29999 characters with loops
nested at most 1000 deep, every file that contains it among other characters
than NUL, and every input: as long as the program stays clear, the machine
does what the program means. -/
theorem refines_of_clear (k : CharKind) (input : ℕ → Option UInt8) (file : List UInt8) (p : Prog)
    (hf : file.filter isToken=p.render) (hl : p.render.length ≤ 29999) (hd : p.depth ≤ 1000)
    (hc : ∀ n,Clear k p.render.length (refAfter input p n)) : Refines k input file p := by
  have hl' : p.render.length < codeSegmentSize := Nat.lt_succ_of_le hl
  have hsim := fun n => vmAfter_sim hf hl' hd hc n
  have hout : ∀ n vm,vmAfter k input file n=some vm → vm.out=(refAfter input p n).tape.out := by
    intro n vm hv
    obtain ⟨vm',hv',hrel⟩ := hsim n
    rw [hv] at hv'
    obtain rfl := Option.some.inj hv'
    exact hrel.elim (fun hS => hS.tape.out) fun hE => hE.out
  have hhalt : ∀ n vm,vmAfter k input file n=some vm → (vm.halted ↔ (refAfter input p n).halted) := by
    intro n vm hv
    obtain ⟨vm',hv',hrel⟩ := hsim n
    rw [hv] at hv'
    obtain rfl := Option.some.inj hv'
    rcases hrel with hS|hE
    · exact ⟨fun hh => not_not.mp fun hn => hS.running hl' hn hh,hS.halted hl'⟩
    · exact ⟨fun _ => hE.ref_halted,fun _ => hE.vm_halted⟩
  refine ⟨fun n => ?_,fun out => ⟨?_,?_⟩,fun out => ⟨?_,?_⟩,fun n vm hv hn => ?_⟩
  · obtain ⟨vm,hv,-⟩ := hsim n
    exact ⟨vm,hv⟩
  · rintro ⟨n,vm,hv,hh,ho⟩
    exact ⟨n,(hhalt n vm hv).mp hh,(hout n vm hv).symm.trans ho⟩
  · rintro ⟨n,hh,ho⟩
    obtain ⟨vm,hv,-⟩ := hsim n
    exact ⟨n,vm,hv,(hhalt n vm hv).mpr hh,(hout n vm hv).trans ho⟩
  · rintro ⟨n,vm,hv,ho⟩
    exact ⟨n,(hout n vm hv).symm.trans ho⟩
  · rintro ⟨n,ho⟩
    obtain ⟨vm,hv,-⟩ := hsim n
    exact ⟨n,vm,hv,(hout n vm hv).trans ho⟩
  · obtain ⟨vm',hv',hrel⟩ := hsim n
    rw [hv] at hv'
    obtain rfl := Option.some.inj hv'
    rcases hrel with hS|hE
    · exact hS.openAt
    · exact absurd hE.vm_halted hn

/-- Brackets match from a position with n open loops on. -/
def balanced : ℕ → List UInt8 → Bool
  | n,[] => n=0
  | n,t::l =>
    if t=91 then balanced (n+1) l
    else if t=93 then 0 < n && balanced (n-1) l
    else balanced n l

/-- The text behind n open loops is that of n+1 programs with a closing
bracket between each two. -/
theorem exists_renders (l : List UInt8) (hl : ∀ t ∈ l,isToken t=true ∧ t≠0) (n : ℕ)
    (h : balanced n l=true) :
    ∃ (p : Prog) (fs : List (Prog × Prog)),fs.length=n ∧ l=p.render++tailOf fs := by
  induction l generalizing n with
  | nil => exact ⟨.nil,[],(of_decide_eq_true h).symm,rfl⟩
  | cons t l ih =>
    have ih' := fun m => ih (fun u hu => hl u (List.mem_cons_of_mem t hu)) m
    obtain ⟨ht,ht0⟩ := hl t List.mem_cons_self
    rw [balanced] at h
    split at h
    case isTrue h91 =>
      obtain ⟨body,fs,hfs,rfl⟩ := ih' (n+1) h
      cases fs with
      | nil => cases hfs
      | cons f fs =>
        refine ⟨.loop body f.2,fs,Nat.succ.inj hfs,?_⟩
        rw [h91]
        simp [Prog.render,tailOf]
    case isFalse h91 =>
      split at h
      case isTrue h93 =>
        obtain ⟨hn,hb⟩ := Bool.and_eq_true_iff.mp h
        obtain ⟨p,fs,hfs,rfl⟩ := ih' (n-1) hb
        have hn' := of_decide_eq_true hn
        exact ⟨.nil,(.nil,p)::fs,by rw [List.length_cons,hfs];omega,by rw [h93];rfl⟩
      case isFalse h93 =>
        obtain ⟨p,fs,hfs,rfl⟩ := ih' n h
        have hop : ∃ op : Op,op.token=t := by
          have hm : t ∈ [62,60,43,45,46,44,91,93,0] := of_decide_eq_true ht
          simp only [List.mem_cons,List.not_mem_nil,or_false] at hm
          rcases hm with rfl|rfl|rfl|rfl|rfl|rfl|rfl|rfl|rfl
          · exact ⟨.forward,rfl⟩
          · exact ⟨.backward,rfl⟩
          · exact ⟨.increment,rfl⟩
          · exact ⟨.decrement,rfl⟩
          · exact ⟨.output,rfl⟩
          · exact ⟨.input,rfl⟩
          · exact absurd rfl h91
          · exact absurd rfl h93
          · exact absurd rfl ht0
        obtain ⟨op,rfl⟩ := hop
        exact ⟨.seq op p,fs,hfs,rfl⟩

/-- Every text of tokens whose brackets match is the text of a program. -/
theorem exists_render (l : List UInt8) (hl : ∀ t ∈ l,isToken t=true ∧ t≠0)
    (h : balanced 0 l=true) : ∃ p : Prog,p.render=l := by
  obtain ⟨p,fs,hfs,rfl⟩ := exists_renders l hl 0 h
  obtain rfl := List.length_eq_zero_iff.mp hfs
  exact ⟨p,(List.append_nil _).symm⟩

/-! ## A clear run and a run that is not -/

/-- An operation does not overflow the stack. -/
theorem clear_seq {len : ℕ} {r : Ref} {op : Op} {rest : Prog} (h : r.cur=.seq op rest) :
    Clear k len r := by
  refine ⟨fun _ _ hc => ?_,fun _ _ _ hc => ?_,fun _ _ _ hc => ?_⟩
  all_goals
    rw [h] at hc
    cases hc

/-- A loop that is entered is not skipped. -/
theorem clear_enter {len : ℕ} {r : Ref} {body rest : Prog} (h : r.cur=.loop body rest)
    (hz : r.tape.cell≠0) : Clear k len r := by
  refine ⟨fun _ _ _ h0 => absurd h0 hz,fun _ _ _ hc => ?_,fun _ _ _ hc => ?_⟩
  all_goals
    rw [h] at hc
    cases hc

/-- A reference that has halted does nothing unclear. -/
theorem clear_halted {len : ℕ} {r : Ref} (h : r.halted) : Clear k len r := by
  refine ⟨fun _ _ hc => ?_,fun _ _ _ _ hf => ?_,fun _ _ _ _ hf => ?_⟩
  · rw [h.1] at hc
    cases hc
  all_goals
    rw [h.2] at hf
    cases hf

/-- Behind its end the reference stays. -/
theorem refAfter_halted {p : Prog} {m : ℕ} (h : (refAfter input p m).halted) (n : ℕ) :
    refAfter input p (m+n)=refAfter input p m := by
  induction n with
  | zero => rfl
  | succ n ih =>
    rw [←Nat.add_assoc,refAfter,ih,Ref.step_halted h]

/-- The program that copies its input up to the first zero. -/
def copyProg : Prog := .seq .input (.loop (.seq .output (.seq .input .nil)) .nil)

/-- Two characters and a zero. -/
def twoChars : ℕ → Option UInt8
  | 0 => some 65
  | 1 => some 66
  | _ => some 0

/-- The copy of two characters runs as the language says. -/
theorem refines_of_clear_copy :
    Refines .signed twoChars [44,91,46,44,32,93,10] copyProg := by
  refine refines_of_clear .signed twoChars [44,91,46,44,32,93,10] copyProg (by decide) (by decide)
    (by decide) fun n => ?_
  match n with
  | 0 => exact clear_seq rfl
  | 1 => exact clear_enter rfl (by decide)
  | 2 => exact clear_seq rfl
  | 3 => exact clear_seq rfl
  | 4 =>
    refine ⟨fun _ _ hc => (by cases hc),fun _ _ _ _ _ hz => absurd hz (by decide),?_⟩
    intro body rest fs _ hf _
    cases hf
    decide
  | 5 => exact clear_enter rfl (by decide)
  | 6 => exact clear_seq rfl
  | 7 => exact clear_seq rfl
  | 8 =>
    refine ⟨fun _ _ hc => (by cases hc),?_,fun _ _ _ _ _ hz => absurd (by decide) hz⟩
    intro body rest fs _ hf _
    cases hf
    rfl
  | n+9 =>
    rw [Nat.add_comm n 9,refAfter_halted ⟨rfl,rfl⟩]
    exact clear_halted ⟨rfl,rfl⟩

/-- A loop that is passed over, and then the number one written. -/
def skipProg : Prog := .loop .nil (.seq .increment (.seq .output .nil))

/-- The machine passes over the increment as well and writes a zero. -/
theorem skipProg_not_refines : ¬Refines .signed (fun _ => none) [91,93,43,46] skipProg := by
  intro h
  obtain ⟨n,hh,ho⟩ := (h.ends [0]).mp ⟨2,_,rfl,rfl,rfl⟩
  match n with
  | 0 => cases hh.1
  | 1 => cases hh.1
  | 2 => cases hh.1
  | n+3 =>
    rw [Nat.add_comm n 3,refAfter_halted ⟨rfl,rfl⟩] at ho
    exact absurd ho (by decide)

end StudyCode.Brainfuck
