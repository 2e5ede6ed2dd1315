import StudyCode.Runs

/-!
# Splitting a command line in place

`execute_line` reads a line to its NUL and notes where each run of characters
starts. The blank behind a run becomes a NUL when the run is noted. The table
of arguments has 16 entries, and the reading stops when it is full.
-/

namespace StudyCode.CliSimple

open Runs

/-! ## The program -/

/-- `whitespace`: a space or a tab. -/
def whitespace (c : UInt8) : Bool := c==32 || c==9

/-- Entries of cmd_argv. -/
def argMax : ℕ := 16

/-- The variables of `execute_line`; pointers are places in the line. -/
structure Line where
  /-- The characters with the NUL. -/
  buf : List UInt8
  /-- Start of the current run. -/
  s : ℕ
  /-- The place that is read. -/
  t : ℕ
  /-- 0 in a run, 1 behind one. -/
  state : ℕ
  /-- Number of arguments. -/
  cmdArgc : ℕ
  /-- The arguments as far as they have been written. -/
  cmdArgv : Vector (Option ℕ) argMax

/-- cmd_argv[ cmd_argc ]= s and cmd_argc++; outside of the table it has no value. -/
def Line.push (x : Line) : Option Line :=
  if h : x.cmdArgc < argMax then
    some {x with cmdArgv := x.cmdArgv.set x.cmdArgc (some x.s) h,cmdArgc := x.cmdArgc+1}
  else none

/-- The loop; the fuel bounds the number of turns. -/
def scan : ℕ → Line → Option Line
  | 0,_ => none
  | fuel+1,x => do
    let c ← x.buf[x.t]?
    if c=0 then x.push
    else if x.state=0 ∧ whitespace c=true then
      let y ← x.push
      let z : Line := {y with buf := y.buf.set y.t 0,state := 1}
      if argMax ≤ z.cmdArgc then some z else scan fuel {z with t := z.t+1}
    else if x.state=1 ∧ whitespace c=false then
      scan fuel {x with s := x.t,state := 0,t := x.t+1}
    else scan fuel {x with t := x.t+1}

/-- `execute_line` up to parse_ok. -/
def executeLine (fuel : ℕ) (line : List UInt8) : Option Line :=
  scan fuel ⟨line++[0],0,0,0,0,Vector.replicate argMax none⟩

/-! ## What the arguments should be -/

/-- The string at a place of a buffer; without a NUL it has no value. -/
def cString (buf : List UInt8) (p : ℕ) : Option (List UInt8) :=
  if 0 ∈ buf.drop p then some ((buf.drop p).takeWhile fun c => c != 0) else none

/-- The arguments are the first 16 runs of the line in order, each of them a
string in its place. -/
structure Splits (text : List UInt8) (x : Line) : Prop where
  /-- As many words as there is room for. -/
  argc : x.cmdArgc=min argMax (starts whitespace text).length
  /-- Each argument is a word. -/
  argv : ∀ k < x.cmdArgc,∃ p,(starts whitespace text)[k]?=some p ∧
    x.cmdArgv[k]?=some (some p) ∧ cString x.buf p=some (runAt whitespace text p)

/-! ## The buffer -/

variable {text buf : List UInt8} {x y : Line} {t p k fuel : ℕ}

/-- The ends of the runs in front of a place have become NUL. -/
def CutBelow (text : List UInt8) (t : ℕ) (buf : List UInt8) : Prop :=
  ∀ j,buf[j]?=if j < t ∧ endsRun whitespace text j=true then some 0 else (text++[0])[j]?

/-- A run ends inside of the text. -/
theorem endsRun_lt {j : ℕ} (h : endsRun whitespace text j=true) : j < text.length := by
  rw [endsRun,Bool.and_eq_true,Option.any_eq_true] at h
  obtain ⟨⟨a,ha,-⟩,-⟩ := h
  exact (List.getElem?_eq_some_iff.mp ha).1

/-- The buffer is one longer than the text. -/
theorem CutBelow.length (h : CutBelow text t buf) : buf.length=text.length+1 := by
  apply le_antisymm
  · have hend := h (text.length+1)
    have hout : (text++[0])[text.length+1]?=none := by
      rw [List.getElem?_eq_none_iff,List.length_append]
      exact le_rfl
    rw [if_neg (fun hj => absurd (endsRun_lt hj.2) (by omega)),hout] at hend
    exact List.getElem?_eq_none_iff.mp hend
  · by_contra hlt
    have hlast := h text.length
    rw [if_neg (fun hj => absurd (endsRun_lt hj.2) (by omega)),List.getElem?_append_right le_rfl,
      List.getElem?_eq_none_iff.mpr (by omega),Nat.sub_self] at hlast
    cases hlast

/-- At the place that is read the line is as it was. -/
theorem CutBelow.here (h : CutBelow text t buf) (ht : t < text.length) : buf[t]?=text[t]? := by
  rw [h t,if_neg (by omega),List.getElem?_append_left ht]

/-- A place that ends a run is cut. -/
theorem CutBelow.cut (h : CutBelow text t buf) (hend : endsRun whitespace text t=true) :
    CutBelow text (t+1) (buf.set t 0) := by
  intro j
  have hlen := h.length
  have hlt := endsRun_lt hend
  by_cases hj : j=t
  · rw [hj,List.getElem?_set_self (by omega),if_pos ⟨by omega,hend⟩]
  · have hiff : j < t+1 ∧ endsRun whitespace text j=true ↔
        j < t ∧ endsRun whitespace text j=true := by
      rw [and_congr_left_iff]
      intro _
      omega
    rw [List.getElem?_set_ne (Ne.symm hj),h j,if_congr hiff rfl rfl]

/-- Any other place stays. -/
theorem CutBelow.keep (h : CutBelow text t buf) (hend : endsRun whitespace text t≠true) :
    CutBelow text (t+1) buf := by
  intro j
  have hiff : j < t+1 ∧ endsRun whitespace text j=true ↔
      j < t ∧ endsRun whitespace text j=true := by
    constructor
    · rintro ⟨hj,he⟩
      refine ⟨?_,he⟩
      rcases Nat.lt_succ_iff_lt_or_eq.mp hj with hlt|rfl
      · exact hlt
      · exact absurd he hend
    · rintro ⟨hj,he⟩
      exact ⟨by omega,he⟩
  rw [h j,if_congr hiff rfl rfl]

/-- A run whose end has been passed is a string. -/
theorem CutBelow.cString (h : CutBelow text t buf) (h0 : 0 ∉ text)
    (hstart : startsRun whitespace text p=true) (hp : p ≤ text.length)
    (hend : p+(runAt whitespace text p).length < t ∨
      p+(runAt whitespace text p).length=text.length) :
    cString buf p=some (runAt whitespace text p) := by
  set w := runAt whitespace text p with hw
  have hsplit : buf.drop p=w++0::buf.drop (p+w.length+1) := by
    apply List.ext_getElem?
    intro i
    rw [List.getElem?_drop,h (p+i)]
    rcases lt_trichotomy i w.length with hi|rfl|hi
    · have hnot := not_sep_of_runAt (s:=whitespace) (l:=text) hi
      have hne : ¬endsRun whitespace text (p+i)=true := by
        intro he
        rw [endsRun,Bool.and_eq_true,Option.any_eq_true] at he
        obtain ⟨⟨a,ha,hs⟩,-⟩ := he
        rw [ha,Option.any_some,hs] at hnot
        cases hnot
      have hlen : p+w.length ≤ text.length := runAt_length_le hp
      rw [if_neg (fun hc => hne hc.2),List.getElem?_append_left (by omega),
        List.getElem?_append_left hi,getElem?_runAt hi]
    · rw [List.getElem?_append_right le_rfl,Nat.sub_self,List.getElem?_cons_zero]
      by_cases hlast : p+w.length=text.length
      · rw [if_neg (fun hc => absurd (endsRun_lt hc.2) (by omega)),hlast,
          List.getElem?_append_right le_rfl,Nat.sub_self]
        rfl
      · rw [if_pos ⟨hend.resolve_right hlast,endsRun_runAt hstart hlast hp⟩]
    · rw [List.getElem?_append_right hi.le,←h (p+i)]
      obtain ⟨d,rfl⟩ : ∃ d,i=w.length+d+1 := ⟨i-w.length-1,by omega⟩
      rw [show w.length+d+1-w.length=d+1 by omega,List.getElem?_cons_succ,List.getElem?_drop]
      congr 1
      omega
  have hnul : ∀ c ∈ w,(c != 0)=true := by
    intro c hc
    have hmem : c ∈ text.drop p := (List.takeWhile_sublist _).subset hc
    exact bne_iff_ne.mpr fun hz => h0 (hz ▸ List.mem_of_mem_drop hmem)
  rw [CliSimple.cString,hsplit,if_pos (List.mem_append_right _ List.mem_cons_self),
    List.takeWhile_append_of_pos hnul,List.takeWhile_cons_of_neg (by decide),List.append_nil]

/-! ## The scan -/

/-- At the head of the loop, behind the first character. In a run the start
that has been seen last is not yet an argument. -/
structure Inv (text : List UInt8) (x : Line) : Prop where
  /-- The first character was read. -/
  pos : 0 < x.t
  /-- The position is not behind the end. -/
  le : x.t ≤ text.length
  /-- The words before are cut. -/
  buf : CutBelow text x.t x.buf
  /-- The state tells whether the last character was blank. -/
  state : x.state=if (text[x.t-1]?).any whitespace=true then 1 else 0
  /-- The words that have begun. -/
  count : (startsBelow whitespace text x.t).length+x.state=x.cmdArgc+1
  /-- There is room for one more. -/
  argc : x.cmdArgc < argMax
  /-- Where the word began. -/
  start : x.state=0 → (startsBelow whitespace text x.t)[x.cmdArgc]?=some x.s
  /-- The arguments so far. -/
  argv : ∀ k < x.cmdArgc,x.cmdArgv[k]?=some (startsBelow whitespace text x.t)[k]?

/-- Where a word starts behind the first character. -/
theorem startsRun_pos (ht : 0 < t) {c : UInt8} (hc : text[t]?=some c) :
    startsRun whitespace text t=(!whitespace c && (text[t-1]?).any whitespace) := by
  have hne : (t==0)=false := beq_false_of_ne (by omega)
  rw [startsRun,hc,Option.any_some,hne,Bool.false_or]

/-- In a text of characters a place without a blank in front holds another one. -/
theorem any_not (ht : t < text.length) :
    (text[t]?).any (fun c => !whitespace c)= !(text[t]?).any whitespace := by
  rw [List.getElem?_eq_getElem ht,Option.any_some,Option.any_some]

/-- Where a word ends behind the first character. -/
theorem endsRun_pos (ht : t ≤ text.length) {c : UInt8} (hc : text[t]?=some c) (hpos : 0 < t) :
    endsRun whitespace text t=(whitespace c && !(text[t-1]?).any whitespace) := by
  rw [endsRun,hc,Option.any_some,any_not (by omega)]

/-- The run has been noted up to a place behind which nothing is needed. -/
theorem splits_of {n : ℕ} (h0 : 0 ∉ text) (hn : n ≤ text.length) (hcut : CutBelow text n x.buf)
    (hcount : (startsBelow whitespace text n).length=x.cmdArgc)
    (hargv : ∀ k < x.cmdArgc,x.cmdArgv[k]?=some (startsBelow whitespace text n)[k]?)
    (hends : ∀ p ∈ startsBelow whitespace text n,p+(runAt whitespace text p).length < n ∨
      p+(runAt whitespace text p).length=text.length)
    (hle : x.cmdArgc ≤ argMax) (hfull : n=text.length ∨ x.cmdArgc=argMax) : Splits text x := by
  constructor
  · have hprefix := (startsBelow_mono (s:=whitespace) (l:=text) hn).length_le
    rcases hfull with rfl|hmax
    · rw [starts,hcount]
      omega
    · rw [starts]
      omega
  · intro k hk
    have hget := List.getElem?_eq_getElem (hcount.symm ▸ hk)
    have hmem := List.mem_of_getElem? hget
    have hlt := lt_of_mem_startsBelow hmem
    refine ⟨_,(getElem?_starts hn (hcount.symm ▸ hk)).trans hget,(hargv k hk).trans
      (congrArg some hget),?_⟩
    exact hcut.cString h0 (startsRun_of_mem hmem) (by omega) (hends _ hmem)

/-- The entry that is pushed joins those in front of it. -/
theorem push_eq (h : x.cmdArgc < argMax) {ps : List ℕ} (hs : ps[x.cmdArgc]?=some x.s)
    (hargv : ∀ k < x.cmdArgc,x.cmdArgv[k]?=some ps[k]?) :
    ∃ argv,x.push=some {x with cmdArgv := argv,cmdArgc := x.cmdArgc+1} ∧
      ∀ k < x.cmdArgc+1,argv[k]?=some ps[k]? := by
  refine ⟨x.cmdArgv.set x.cmdArgc (some x.s) h,by rw [Line.push,dif_pos h],?_⟩
  intro k hk
  by_cases hkx : k=x.cmdArgc
  · rw [hkx,Vector.getElem?_set_self h,hs]
  · rw [Vector.getElem?_set_ne h (Ne.symm hkx)]
    exact hargv k (by omega)

/-- Between words the last character was blank. -/
theorem Inv.blank_of_one (h : Inv text x) (hstate : x.state=1) :
    (text[x.t-1]?).any whitespace=true := by
  by_contra hnot
  have hs := h.state
  rw [if_neg hnot] at hs
  omega

/-- In a word the last character was not blank. -/
theorem Inv.blank_of_zero (h : Inv text x) (hstate : x.state=0) :
    (text[x.t-1]?).any whitespace=false := by
  by_contra hnot
  have hs := h.state
  rw [if_pos (Bool.eq_true_of_not_eq_false hnot)] at hs
  omega

variable {c : UInt8}

/-- A character of the same kind as the one in front of it changes nothing. -/
theorem Inv.stay (h : Inv text x) (hc : text[x.t]?=some c)
    (hsame : (text[x.t-1]?).any whitespace=whitespace c) : Inv text {x with t := x.t+1} := by
  have hlt := (List.getElem?_eq_some_iff.mp hc).1
  have hend := endsRun_pos hlt.le hc h.pos
  have hstarts := startsBelow_succ (s:=whitespace) (l:=text) (n:=x.t)
  rw [hsame,Bool.and_not_self] at hend
  rw [startsRun_pos h.pos hc,hsame,Bool.not_and_self,if_neg Bool.false_ne_true,
    List.append_nil] at hstarts
  refine ⟨Nat.succ_pos _,hlt,h.buf.keep (ne_true_of_eq_false hend),?_,?_,h.argc,?_,?_⟩
  · dsimp only
    rw [Nat.add_sub_cancel,hc,Option.any_some,h.state,hsame]
  · dsimp only
    rw [hstarts,h.count]
  · dsimp only
    rw [hstarts]
    exact h.start
  · dsimp only
    rw [hstarts]
    exact h.argv

/-- A character behind a blank starts a run. -/
theorem Inv.begin (h : Inv text x) (hc : text[x.t]?=some c) (hstate : x.state=1)
    (hws : whitespace c=false) : Inv text {x with s := x.t,state := 0,t := x.t+1} := by
  have hlt := (List.getElem?_eq_some_iff.mp hc).1
  have hend := endsRun_pos hlt.le hc h.pos
  have hstarts := startsBelow_succ (s:=whitespace) (l:=text) (n:=x.t)
  have hcount := h.count
  have hlen : (startsBelow whitespace text x.t).length=x.cmdArgc := by omega
  rw [hws,Bool.false_and] at hend
  rw [startsRun_pos h.pos hc,hws,h.blank_of_one hstate,if_pos (by rfl)] at hstarts
  refine ⟨Nat.succ_pos _,hlt,h.buf.keep (ne_true_of_eq_false hend),?_,?_,h.argc,?_,?_⟩
  · dsimp only
    rw [Nat.add_sub_cancel,hc,Option.any_some,hws,if_neg Bool.false_ne_true]
  · dsimp only
    rw [hstarts,List.length_append,hlen]
    rfl
  · intro _
    dsimp only
    rw [hstarts,List.getElem?_append_right hlen.le,hlen,Nat.sub_self]
    rfl
  · intro k hk
    dsimp only at hk ⊢
    rw [hstarts,List.getElem?_append_left (by omega)]
    exact h.argv k hk

/-- What is known when a blank has ended a run. -/
structure Closed (text : List UInt8) (x y : Line) : Prop where
  /-- The position stays. -/
  t : y.t=x.t
  /-- The word has ended. -/
  state : y.state=1
  /-- One argument more. -/
  argc : y.cmdArgc=x.cmdArgc+1
  /-- The word is cut as well. -/
  buf : CutBelow text (x.t+1) y.buf
  /-- All words that have begun are arguments. -/
  count : (startsBelow whitespace text (x.t+1)).length=y.cmdArgc
  /-- The arguments so far. -/
  argv : ∀ k < y.cmdArgc,y.cmdArgv[k]?=some (startsBelow whitespace text (x.t+1))[k]?

/-- A blank behind a word ends it. -/
theorem Inv.close (h : Inv text x) (hc : text[x.t]?=some c) (hstate : x.state=0)
    (hws : whitespace c=true) : ∃ y,x.push=some y ∧
      Closed text x {y with buf := y.buf.set y.t 0,state := 1} := by
  have hlt := (List.getElem?_eq_some_iff.mp hc).1
  have hend := endsRun_pos hlt.le hc h.pos
  have hstarts := startsBelow_succ (s:=whitespace) (l:=text) (n:=x.t)
  have hcount := h.count
  rw [hws,h.blank_of_zero hstate,Bool.not_false,Bool.and_true] at hend
  rw [startsRun_pos h.pos hc,hws,Bool.not_true,Bool.false_and,if_neg Bool.false_ne_true,
    List.append_nil] at hstarts
  obtain ⟨argv,hpush,hargv⟩ := push_eq h.argc (h.start hstate) h.argv
  refine ⟨_,hpush,rfl,rfl,rfl,h.buf.cut hend,?_,?_⟩
  · dsimp only
    rw [hstarts]
    omega
  · dsimp only
    rw [hstarts]
    exact hargv

/-- With room in the table the scan goes on. -/
theorem Closed.inv (h : Closed text x y) (hc : text[x.t]?=some c) (hws : whitespace c=true)
    (hroom : y.cmdArgc < argMax) : Inv text {y with t := y.t+1} := by
  have hlt := (List.getElem?_eq_some_iff.mp hc).1
  have ht := h.t
  have hstate := h.state
  refine ⟨Nat.succ_pos _,?_,?_,?_,?_,hroom,?_,?_⟩
  · dsimp only
    omega
  · dsimp only
    rw [ht]
    exact h.buf
  · dsimp only
    rw [Nat.add_sub_cancel,ht,hc,Option.any_some,if_pos hws,hstate]
  · dsimp only
    rw [ht,h.count,hstate]
  · intro hz
    dsimp only at hz
    omega
  · dsimp only
    rw [ht]
    exact h.argv

/-- With the table full the text is split. -/
theorem Closed.splits (h : Closed text x y) (h0 : 0 ∉ text) (hc : text[x.t]?=some c)
    (hws : whitespace c=true) (hfull : y.cmdArgc=argMax) : Splits text y := by
  have hlt := (List.getElem?_eq_some_iff.mp hc).1
  refine splits_of h0 hlt h.buf h.count h.argv ?_ hfull.le (.inr hfull)
  intro p hp
  have hp2 := lt_of_mem_startsBelow hp
  have hrun := runAt_le_of_sep (s:=whitespace) (l:=text) (n:=x.t) (p:=p)
    (by rw [hc,Option.any_some,hws]) (by omega)
  omega

/-- At the end of the text the last run is noted. -/
theorem Inv.finish (h : Inv text x) (h0 : 0 ∉ text) (hend : x.t=text.length)
    (hstate : x.state=0) : ∃ y,x.push=some y ∧ Splits text y := by
  obtain ⟨argv,hpush,hargv⟩ := push_eq h.argc (h.start hstate) h.argv
  have hcount := h.count
  have hargc := h.argc
  refine ⟨_,hpush,splits_of (n:=x.t) h0 h.le h.buf ?_ hargv ?_ hargc (.inl hend)⟩
  · dsimp only
    omega
  · intro p hp
    have hlt := lt_of_mem_startsBelow hp
    have hrun := runAt_length_le (s:=whitespace) (l:=text) (p:=p) (by omega)
    omega

/-- From the head of the loop the scan splits the text. -/
theorem Inv.scan (h0 : 0 ∉ text) (hlast : (text[text.length-1]?).any whitespace=false)
    (h : Inv text x) (hfuel : text.length-x.t < fuel) :
    ∃ y,scan fuel x=some y ∧ Splits text y := by
  induction fuel generalizing x with
  | zero => omega
  | succ fuel ih =>
    rw [CliSimple.scan]
    rcases h.le.lt_or_eq with hlt|hend
    · obtain ⟨c,hc⟩ : ∃ c,text[x.t]?=some c := ⟨_,List.getElem?_eq_getElem hlt⟩
      have hc0 : c≠0 := fun hz => h0 (hz ▸ List.mem_of_getElem? hc)
      rw [h.buf.here hlt,hc,Option.bind_eq_bind,Option.bind_some,if_neg hc0]
      by_cases hclose : x.state=0 ∧ whitespace c=true
      · obtain ⟨y,hpush,hclosed⟩ := h.close hc hclose.1 hclose.2
        have hargc := hclosed.argc
        have hroom := h.argc
        rw [if_pos hclose,hpush]
        by_cases hfull : argMax ≤ y.cmdArgc
        · exact ⟨_,if_pos hfull,hclosed.splits h0 hc hclose.2 (by dsimp only at hargc ⊢; omega)⟩
        · have hnext := hclosed.inv hc hclose.2 (by dsimp only; omega)
          have ht : y.t=x.t := hclosed.t
          obtain ⟨z,hz,hsplits⟩ := ih hnext (by dsimp only; omega)
          exact ⟨z,(if_neg hfull).trans hz,hsplits⟩
      · rw [if_neg hclose]
        by_cases hbegin : x.state=1 ∧ whitespace c=false
        · rw [if_pos hbegin]
          exact ih (h.begin hc hbegin.1 hbegin.2) (by dsimp only; omega)
        · rw [if_neg hbegin]
          refine ih (h.stay hc ?_) (by dsimp only; omega)
          have hstate := h.state
          split at hstate
          · next hblank =>
            rw [hblank]
            exact (Bool.eq_true_of_not_eq_false fun hws => hbegin ⟨hstate,hws⟩).symm
          · next hblank =>
            rw [Bool.eq_false_of_not_eq_true hblank]
            exact (Bool.eq_false_of_not_eq_true fun hws => hclose ⟨hstate,hws⟩).symm
    · have hnul : x.buf[x.t]?=some 0 := by
        rw [h.buf x.t,if_neg (by omega),hend,List.getElem?_append_right le_rfl,Nat.sub_self]
        rfl
      have hstate := h.state
      rw [hend,hlast,if_neg Bool.false_ne_true] at hstate
      rw [hnul]
      exact h.finish h0 hend hstate

/-! ## The command line -/

/-- Behind the first character. -/
theorem inv_first {cs : List UInt8} (hws : whitespace c=false) :
    Inv (c::cs) ⟨c::cs++[0],0,1,0,0,Vector.replicate argMax none⟩ := by
  have hstart : startsBelow whitespace (c::cs) 1=[0] := by
    rw [startsBelow_succ,startsRun,List.getElem?_cons_zero,Option.any_some,hws]
    rfl
  refine ⟨Nat.one_pos,Nat.succ_pos _,?_,?_,?_,Nat.succ_pos 15,?_,?_⟩
  · intro j
    rw [if_neg]
    rintro ⟨hj,hend⟩
    obtain rfl : j=0 := by
      dsimp only at hj
      omega
    rw [endsRun,List.getElem?_cons_zero,Option.any_some,hws] at hend
    cases hend
  · dsimp only
    rw [Nat.sub_self,List.getElem?_cons_zero,Option.any_some,hws]
    rfl
  · dsimp only
    rw [hstart]
    rfl
  · intro _
    dsimp only
    rw [hstart]
    rfl
  · intro k hk
    cases hk

/-- A line without blanks at its ends is split into its runs, as many as there
is room for. -/
theorem executeLine_splits (text : List UInt8) (hne : text≠[]) (h0 : 0 ∉ text)
    (hfirst : ∀ c ∈ text.head?,whitespace c=false) (hlast : ∀ c ∈ text.getLast?,whitespace c=false) :
    ∀ fuel > text.length,∃ y,executeLine fuel text=some y ∧ Splits text y := by
  intro fuel hfuel
  obtain ⟨c,cs,rfl⟩ := List.exists_cons_of_ne_nil hne
  obtain ⟨fuel,rfl⟩ : ∃ k,fuel=k+1 := ⟨fuel-1,by omega⟩
  have hws : whitespace c=false := hfirst c rfl
  have hc0 : c≠0 := fun hz => h0 (hz ▸ List.mem_cons_self)
  have hend : ((c::cs)[(c::cs).length-1]?).any whitespace=false := by
    rw [←List.getLast?_eq_getElem?,List.getLast?_eq_getLast_of_ne_nil hne,Option.any_some]
    exact hlast _ (List.getLast?_eq_getLast_of_ne_nil hne)
  rw [List.length_cons] at hfuel
  have hrest : (c::cs).length-1 < fuel := by
    rw [List.length_cons]
    omega
  obtain ⟨y,hscan,hsplits⟩ := (inv_first hws).scan h0 hend hrest
  refine ⟨y,?_,hsplits⟩
  rw [executeLine,CliSimple.scan,List.cons_append,List.getElem?_cons_zero,Option.bind_eq_bind,
    Option.bind_some,if_neg hc0,if_neg (by simp [hws]),if_neg (by simp)]
  exact hscan

/-- A character that is there decides. -/
theorem whitespace_of_some {o : Option UInt8} (ho : o=some c) (hc : whitespace c=false) :
    ∀ a ∈ o,whitespace a=false := by
  intro a ha
  rw [ho] at ha
  obtain rfl := Option.some.inj ha
  exact hc

/-- The line `a b` has two words. -/
theorem executeLine_splits_two :
    ([97,32,98] : List UInt8)≠[] ∧ 0 ∉ ([97,32,98] : List UInt8) ∧
      (∀ c ∈ ([97,32,98] : List UInt8).head?,whitespace c=false) ∧
      (∀ c ∈ ([97,32,98] : List UInt8).getLast?,whitespace c=false) ∧
      ∃ y,executeLine 4 [97,32,98]=some y ∧ Splits [97,32,98] y :=
  ⟨by decide,by decide,whitespace_of_some rfl rfl,whitespace_of_some rfl rfl,
    executeLine_splits [97,32,98] (by decide) (by decide) (whitespace_of_some rfl rfl)
      (whitespace_of_some rfl rfl) 4 (by decide)⟩

end StudyCode.CliSimple
