import StudyCode.FloatToken

/-!
# Runs of the number lexer

The lexer is described by the text that is left. In front of a number it reads
every second character only, inside of one it reads on until the automaton
stops. The loop of `main` has a value exactly when the last token ends the text.
-/

namespace StudyCode.FloatToken

open Checked

/-! ## Tokens by the text alone -/

/-- The way to the digit where a token begins: what is passed, the digit and
what follows. -/
def skip : List UInt8 → Option (List UInt8×UInt8×List UInt8)
  | [] => none
  | [c] => if isdigit c then some ([],c,[]) else none
  | c::d::s =>
    if isdigit c then some ([],c,d::s)
    else (skip s).map fun r => (c::d::r.1,r.2)

/-- The way to the end of a token: what is passed and what follows. -/
def munch : State → List UInt8 → Option (List UInt8×List UInt8)
  | q,[] => if move q 0=.st19 then some ([],[]) else none
  | q,c::s =>
    if move q c=.st19 then some ([],c::s)
    else (munch (move q c) s).map fun r => (c::r.1,r.2)

/-- The text in front of the next token, the token and what follows. -/
def tokenOf (s : List UInt8) : Option (List UInt8×List UInt8×List UInt8) :=
  (skip s).bind fun r => (munch .st13 r.2.2).map fun m => (r.1,r.2.1::m.1,m.2)

/-- What is skipped stands before the rest. -/
theorem skip_append {s g r : List UInt8} {c : UInt8} (h : skip s=some (g,c,r)) :
    s=g++c::r ∧ Even g.length := by
  fun_induction skip s generalizing g with
  | case1 => simp at h
  | case2 d hd =>
    simp only [Option.some.injEq,Prod.mk.injEq] at h
    obtain ⟨rfl,rfl,rfl⟩ := h
    exact ⟨rfl,by simp⟩
  | case3 d hd => simp at h
  | case4 d e s hd =>
    simp only [Option.some.injEq,Prod.mk.injEq] at h
    obtain ⟨rfl,rfl,rfl⟩ := h
    exact ⟨rfl,by simp⟩
  | case5 d e s hd ih =>
    obtain ⟨⟨g',c',r'⟩,hs,heq⟩ := Option.map_eq_some_iff.mp h
    simp only [Prod.mk.injEq] at heq
    obtain ⟨rfl,rfl,rfl⟩ := heq
    obtain ⟨rfl,heven⟩ := ih hs
    refine ⟨rfl,?_⟩
    rw [List.length_cons,List.length_cons]
    exact heven.add (by decide : Even 2)

/-- The longest token stands before the rest. -/
theorem munch_append {q : State} {s u r : List UInt8} (h : munch q s=some (u,r)) :
    s=u++r ∧ move (u.foldl move q) (r.headD 0)=.st19 := by
  fun_induction munch q s generalizing u with
  | case1 q hq =>
    simp only [Option.some.injEq,Prod.mk.injEq] at h
    obtain ⟨rfl,rfl⟩ := h
    exact ⟨rfl,hq⟩
  | case2 q hq => simp at h
  | case3 q c s hq =>
    simp only [Option.some.injEq,Prod.mk.injEq] at h
    obtain ⟨rfl,rfl⟩ := h
    exact ⟨rfl,hq⟩
  | case4 q c s hq ih =>
    obtain ⟨⟨u',r'⟩,hs,heq⟩ := Option.map_eq_some_iff.mp h
    simp only [Prod.mk.injEq] at heq
    obtain ⟨rfl,rfl⟩ := heq
    obtain ⟨rfl,hend⟩ := ih hs
    exact ⟨rfl,hend⟩

/-- The state behind a token that begins with a digit. -/
def stateAfter (u : List UInt8) : State := u.tail.foldl move .st13

/-- A token begins with a digit, an even number of characters is passed in front
of it, and the automaton stops behind it. -/
theorem tokenOf_append {s g u r : List UInt8} (h : tokenOf s=some (g,u,r)) :
    s=g++u++r ∧ Even g.length ∧ u ≠ [] ∧ move (stateAfter u) (r.headD 0)=.st19 := by
  obtain ⟨⟨g',c,t⟩,hskip,hmap⟩ := Option.bind_eq_some_iff.mp h
  obtain ⟨⟨v,r'⟩,hmunch,heq⟩ := Option.map_eq_some_iff.mp hmap
  simp only [Prod.mk.injEq] at heq
  obtain ⟨rfl,rfl,rfl⟩ := heq
  obtain ⟨rfl,heven⟩ := skip_append hskip
  obtain ⟨rfl,hend⟩ := munch_append hmunch
  exact ⟨by simp,heven,by simp,hend⟩

/-! ## The token buffer -/

/-- The copying loop has a value exactly when the token fits. -/
theorem copy_turns (u a b pre post : List UInt8) (hlen : a.length+b.length < 2^31) :
    turns (copyTurn (pre++u++post)) u.length pre.length (a++b,(a.length : ℤ))=
      if u.length ≤ b.length then some (a++u++b.drop u.length,((a.length+u.length : ℕ) : ℤ))
      else none := by
  induction u generalizing a b pre with
  | nil => simp [turns]
  | cons c u ih =>
    have hcell : cellAt (pre++c::u++post) pre.length=some c := by
      rw [List.append_assoc]
      exact cellAt_length pre (u++post) c
    cases b with
    | nil =>
      have hput : putAt a (a.length : ℤ) c=none := by
        rw [putAt,if_neg (by omega)]
      simp [turns,copyTurn,hput]
    | cons d b =>
      have hput := putAt_length a b d c
      have hadd : addInt (a.length : ℤ) 1=some (((a++[c]).length : ℕ) : ℤ) := by
        rw [List.length_cons] at hlen
        rw [addInt_one (by omega),List.length_append,List.length_singleton]
      have hnext : ((pre.length : ℤ)+1)=(((pre++[c]).length : ℕ) : ℤ) := by simp
      have hrest := ih (a++[c]) b (pre++[c]) (by simp at hlen ⊢; omega)
      simp only [List.append_assoc,List.singleton_append] at hrest
      rw [List.length_cons,turns,copyTurn,hcell]
      simp only [Option.bind_eq_bind,Option.bind_some,hput,hadd,hnext]
      simpa [Nat.add_assoc,Nat.add_comm 1] using hrest

/-- `gettoken` copies the token when it is shorter than the buffer. -/
theorem gettoken_eq {tokenBuf : List UInt8} (hbuf : tokenBuf.length=128)
    (pre u post : List UInt8) :
    gettoken (pre++u++post) ⟨(pre.length : ℤ)+u.length-1,pre.length,tokenBuf⟩=
      if u.length < 128 then
        some ⟨(pre.length : ℤ)+u.length-1,pre.length,u++0::tokenBuf.drop (u.length+1)⟩
      else none := by
  have hcopy := copy_turns u [] tokenBuf pre post (by simp [hbuf])
  have hturns : ((pre.length : ℤ)+u.length-1+1-pre.length).toNat=u.length := by omega
  rw [List.nil_append,List.nil_append,List.length_nil,Nat.zero_add,hbuf] at hcopy
  rw [gettoken,forUp,hturns,show (0 : ℤ)=((0 : ℕ) : ℤ) from rfl,hcopy]
  by_cases hlt : u.length < 128
  · have hdrop : tokenBuf.drop u.length=tokenBuf[u.length]::tokenBuf.drop (u.length+1) :=
      List.drop_eq_getElem_cons (by omega)
    rw [if_pos hlt.le,if_pos hlt,hdrop,Option.bind_eq_bind,Option.bind_some,putAt_length]
    rfl
  · rw [if_neg hlt]
    split
    · rename_i hle
      have hput : putAt (u++tokenBuf.drop u.length) (u.length : ℤ) 0=none := by
        have hend : (u++tokenBuf.drop u.length).length=u.length := by
          rw [List.length_append,List.length_drop]
          omega
        rw [putAt,if_neg (by omega)]
      rw [Option.bind_eq_bind,Option.bind_some,hput]
      rfl
    · rfl

/-- What is printed ends at the zero. -/
theorem printed_eq {u : List UInt8} (hu : ∀ c ∈ u,c ≠ 0) (f p : ℤ) (r : List UInt8) :
    printed ⟨f,p,u++0::r⟩=u :=
  takeWhile_terminated hu r

/-! ## The automaton -/

variable {st : ℤ} {tokenBuf : List UInt8}

/-- A position that is an int is reached. -/
theorem addInt_position {n : ℕ} (h : n < 2^31) : addInt ((n : ℤ)-1) 1=some (n : ℤ) := by
  rw [addInt,sub_add_cancel,if_pos (by omega)]

/-- The next character is read. -/
theorem nextchar_eq (pre post : List UInt8) (c : UInt8) (h : pre.length < 2^31) :
    nextchar (pre++c::post) ⟨(pre.length : ℤ)-1,st,tokenBuf⟩=
      some (c,⟨pre.length,st,tokenBuf⟩) := by
  rw [nextchar,addInt_position h,Option.bind_eq_bind,Option.bind_some,cellAt_length]
  rfl

/-- There is nothing to read behind the buffer. -/
theorem nextchar_behind {cbuf : List UInt8} {n : ℕ} (h : cbuf.length ≤ n+1) :
    nextchar cbuf ⟨n,st,tokenBuf⟩=none := by
  have hnone : cellAt cbuf ((n : ℤ)+1)=none := by
    rw [show (n : ℤ)+1=((n+1 : ℕ) : ℤ) by push_cast; rfl,cellAt_natCast,
      List.getElem?_eq_none h]
  rw [nextchar,addInt]
  dsimp only
  split
  · rw [Option.bind_eq_bind,Option.bind_some,hnone]
    rfl
  · rfl

/-- The position moves on by two. -/
theorem next_eq {n : ℕ} (h : n+1 < 2^31) :
    next ⟨n,st,tokenBuf⟩=some ⟨((n+2 : ℕ) : ℤ)-1,st,tokenBuf⟩ := by
  have hcast : (n : ℤ)+1=((n+2 : ℕ) : ℤ)-1 := by
    push_cast
    ring
  rw [next,addInt,if_pos (by dsimp only; omega),←hcast]
  rfl

/-- The position moves back by one. -/
theorem back_eq {n : ℕ} (h : n < 2^31) :
    back ⟨n,st,tokenBuf⟩=some ⟨(n : ℤ)-1,st,tokenBuf⟩ := by
  rw [back,addInt,if_pos (by dsimp only; omega)]
  rfl

/-- No move leads back to the start. -/
theorem move_ne_st12 {q : State} (hq : q ≠ .st12) (c : UInt8) : move q c ≠ .st12 := by
  cases q <;> simp only [move] <;> first | exact absurd rfl hq | (split_ifs <;> decide) | decide

/-- A round inside of a token. -/
theorem tokenLoop_inside {q : State} (hq : q ≠ .st12) (hq' : q ≠ .st19) (cbuf : List UInt8)
    (fuel : ℕ) (x : Lexer) :
    tokenLoop cbuf (fuel+1) q x=
      (nextchar cbuf x).bind fun r => tokenLoop cbuf fuel (move q r.1) r.2 := by
  cases q <;> first | exact absurd rfl hq | exact absurd rfl hq' | rfl

/-- Inside of a number the lexer goes to the end of the token. -/
theorem inside_eq {q : State} (hq : q ≠ .st12) (hq' : q ≠ .st19) (pre s : List UInt8) {fuel : ℕ}
    (hf : s.length+2 ≤ fuel) (hint : pre.length+s.length < 2^31) :
    tokenLoop (pre++s++[0]) fuel q ⟨(pre.length : ℤ)-1,st,tokenBuf⟩=
      (munch q s).bind fun m =>
        gettoken (pre++s++[0]) ⟨((pre.length+m.1.length : ℕ) : ℤ)-1,st,tokenBuf⟩ := by
  induction s generalizing q pre fuel with
  | nil =>
    obtain ⟨n,rfl⟩ : ∃ n,fuel=n+2 := ⟨fuel-2,by omega⟩
    rw [List.append_nil,tokenLoop_inside hq hq',nextchar_eq _ _ _ hint,munch,Option.bind_some]
    dsimp only
    by_cases hend : move q 0=.st19
    · rw [hend,if_pos rfl,tokenLoop,back_eq (n := pre.length) hint]
      rfl
    · rw [if_neg hend,tokenLoop_inside (move_ne_st12 hq 0) hend,nextchar_behind (by simp)]
      rfl
  | cons c s ih =>
    rw [List.length_cons] at hf hint
    obtain ⟨n,rfl⟩ : ∃ n,fuel=n+2 := ⟨fuel-2,by omega⟩
    rw [List.append_assoc,List.cons_append,tokenLoop_inside hq hq',
      nextchar_eq _ _ _ (by omega),munch,Option.bind_some]
    dsimp only
    by_cases hend : move q c=.st19
    · rw [hend,if_pos rfl,tokenLoop,back_eq (by omega)]
      rfl
    · have hpos : (pre.length : ℤ)=((pre++[c]).length : ℤ)-1 := by simp
      have hbuf : pre++c::(s++[0])=pre++[c]++s++[0] := by simp
      rw [if_neg hend,hpos,hbuf,ih (move_ne_st12 hq c) hend (pre++[c]) (by omega)
        (by rw [List.length_append,List.length_singleton]; omega)]
      cases munch (move q c) s with
      | none => rfl
      | some m => simp [Nat.add_assoc,Nat.add_comm 1]

/-- A round at the front of a token. -/
theorem tokenLoop_front (pre post : List UInt8) (c : UInt8) (h : pre.length < 2^31) (fuel : ℕ) :
    tokenLoop (pre++c::post) (fuel+1) .st12 ⟨(pre.length : ℤ)-1,st,tokenBuf⟩=
      if isdigit c then
        tokenLoop (pre++c::post) fuel .st13 ⟨pre.length,pre.length,tokenBuf⟩
      else (next ⟨pre.length,pre.length,tokenBuf⟩).bind
        (tokenLoop (pre++c::post) fuel .st12) := by
  rw [tokenLoop,nextchar_eq _ _ _ h]
  rfl

/-- A character passed in front of the end of the buffer leads behind it. -/
theorem tokenLoop_behind {cbuf : List UInt8} {n : ℕ} (h : cbuf.length ≤ n+2) (fuel : ℕ) :
    (next ⟨n,st,tokenBuf⟩).bind (tokenLoop cbuf fuel .st12)=none := by
  cases fuel with
  | zero => cases next ⟨n,st,tokenBuf⟩ <;> rfl
  | succ fuel =>
    have hread : nextchar cbuf ⟨((n+1 : ℕ) : ℤ),st,tokenBuf⟩=none := nextchar_behind h
    rw [Nat.cast_add,Nat.cast_one] at hread
    rw [next]
    cases hadd : addInt (n : ℤ) 1 with
    | none => rfl
    | some f =>
      obtain rfl := (addInt_eq_some hadd).1
      rw [Option.bind_eq_bind,Option.bind_some,Option.bind_some,tokenLoop,hread]
      rfl

/-- From the first digit of a number the lexer goes to the end of the token. -/
theorem front_digit (pre : List UInt8) {c : UInt8} (s : List UInt8) (hc : isdigit c=true)
    {fuel : ℕ} (hf : s.length+3 ≤ fuel) (hint : pre.length+(s.length+1) < 2^31) :
    tokenLoop (pre++c::s++[0]) fuel .st12 ⟨(pre.length : ℤ)-1,st,tokenBuf⟩=
      (munch .st13 s).bind fun m => gettoken (pre++c::s++[0])
        ⟨((pre.length+(c::m.1).length : ℕ) : ℤ)-1,pre.length,tokenBuf⟩ := by
  obtain ⟨n,rfl⟩ : ∃ n,fuel=n+1 := ⟨fuel-1,by omega⟩
  have hlen : (pre++[c]).length=pre.length+1 := by simp
  have hbuf : pre++c::(s++[0])=pre++[c]++s++[0] := by simp
  have hpos : (⟨pre.length,pre.length,tokenBuf⟩ : Lexer)=
      ⟨((pre++[c]).length : ℤ)-1,pre.length,tokenBuf⟩ := by simp
  rw [List.append_assoc,List.cons_append,tokenLoop_front _ _ _ (by omega),if_pos hc,hbuf,hpos,
    inside_eq (by decide) (by decide) (pre++[c]) s (by omega) (by omega)]
  refine congrArg (Option.bind (munch .st13 s)) (funext fun m => ?_)
  rw [hlen,List.length_cons,Nat.add_assoc,Nat.add_comm 1]

/-- The lexer on the text that is left goes to the token of that text. -/
theorem front_eq (pre s : List UInt8) {fuel : ℕ} (hf : s.length+3 ≤ fuel)
    (hint : pre.length+s.length < 2^31) :
    tokenLoop (pre++s++[0]) fuel .st12 ⟨(pre.length : ℤ)-1,st,tokenBuf⟩=
      (tokenOf s).bind fun r =>
        gettoken (pre++s++[0]) ⟨((pre.length+r.1.length+r.2.1.length : ℕ) : ℤ)-1,
          ((pre.length+r.1.length : ℕ) : ℤ),tokenBuf⟩ := by
  unfold tokenOf
  fun_induction skip s generalizing pre fuel st with
  | case1 =>
    obtain ⟨n,rfl⟩ : ∃ n,fuel=n+1 := ⟨fuel-1,by omega⟩
    rw [List.append_nil,tokenLoop_front _ _ _ (by simpa using hint),if_neg (by decide),
      tokenLoop_behind (by simp)]
    rfl
  | case2 c hc =>
    rw [front_digit pre [] hc (by simp at hf ⊢; omega) (by simpa using hint),Option.bind_some,
      Option.bind_map]
    rfl
  | case3 c hc =>
    obtain ⟨n,rfl⟩ : ∃ n,fuel=n+1 := ⟨fuel-1,by omega⟩
    rw [List.append_assoc,List.cons_append,tokenLoop_front _ _ _ (by omega),if_neg hc,
      tokenLoop_behind (by simp)]
    rfl
  | case4 c d s hc =>
    rw [List.length_cons] at hf hint
    rw [front_digit pre (d::s) hc (by omega) hint,Option.bind_some,Option.bind_map]
    rfl
  | case5 c d s hc ih =>
    rw [List.length_cons,List.length_cons] at hf hint
    obtain ⟨n,rfl⟩ : ∃ n,fuel=n+1 := ⟨fuel-1,by omega⟩
    have hlen : (pre++[c,d]).length=pre.length+2 := by simp
    have hbuf : pre++c::(d::s++[0])=pre++[c,d]++s++[0] := by simp
    rw [List.append_assoc,List.cons_append,tokenLoop_front _ _ _ (by omega),if_neg hc,
      next_eq (by omega),Option.bind_some,hbuf,←hlen,ih (pre++[c,d]) (by omega) (by omega)]
    cases skip s with
    | none => rfl
    | some r =>
      simp only [Option.bind_some,Option.map_some,Option.bind_map]
      refine congrArg (Option.bind (munch .st13 r.2.2)) (funext fun m => ?_)
      have hshift : pre.length+2+r.1.length=pre.length+(r.1.length+1+1) := by omega
      simp only [Function.comp_apply,List.length_cons,hlen,hshift]

/-- `nexttoken` on the text that is left. -/
theorem nexttoken_eq (hbuf : tokenBuf.length=128) (pre s : List UInt8) {fuel : ℕ}
    (hf : s.length+3 ≤ fuel) (hint : pre.length+s.length < 2^31) :
    nexttoken fuel (pre++s++[0]) ⟨(pre.length : ℤ)-1,st,tokenBuf⟩=
      (tokenOf s).bind fun r =>
        if r.2.1.length < 128 then
          some ⟨((pre.length+r.1.length+r.2.1.length : ℕ) : ℤ)-1,
            ((pre.length+r.1.length : ℕ) : ℤ),r.2.1++0::tokenBuf.drop (r.2.1.length+1)⟩
        else none := by
  rw [nexttoken,front_eq pre s hf hint]
  cases htok : tokenOf s with
  | none => rfl
  | some r =>
    obtain ⟨g,u,t⟩ := r
    obtain ⟨rfl,-⟩ := tokenOf_append htok
    have hcopy := gettoken_eq hbuf (pre++g) u (t++[0])
    have hcells : pre++(g++u++t)++[0]=pre++g++u++(t++[0]) := by simp
    have hpos : ((pre.length+g.length+u.length : ℕ) : ℤ)=((pre++g).length : ℤ)+u.length := by
      simp
    rw [Option.bind_some,Option.bind_some,hcells,hpos,←List.length_append]
    exact hcopy

/-! ## The loop of `main` -/

/-- The tokens of a run that ends with the text. -/
inductive Runs : List UInt8 → List (List UInt8) → Prop
  /-- The last token ends the text. -/
  | last {s g u : List UInt8} : tokenOf s=some (g,u,[]) → u.length < 128 → Runs s [u]
  /-- Something follows the token. -/
  | more {s g u r : List UInt8} {us : List (List UInt8)} : tokenOf s=some (g,u,r) → r ≠ [] →
      u.length < 128 → Runs r us → Runs s (u::us)

/-- A run prints the first token and runs on behind it. -/
theorem runs_iff {s g u r : List UInt8} (h : tokenOf s=some (g,u,r)) (us : List (List UInt8)) :
    Runs s us ↔ u.length < 128 ∧ (r=[] ∧ us=[u] ∨ r ≠ [] ∧ ∃ vs,Runs r vs ∧ us=u::vs) := by
  constructor
  · intro hruns
    cases hruns with
    | last h' hlen =>
      rw [h] at h'
      simp only [Option.some.injEq,Prod.mk.injEq] at h'
      obtain ⟨rfl,rfl,rfl⟩ := h'
      exact ⟨hlen,.inl ⟨rfl,rfl⟩⟩
    | more h' hr hlen hrest =>
      rw [h] at h'
      simp only [Option.some.injEq,Prod.mk.injEq] at h'
      obtain ⟨rfl,rfl,rfl⟩ := h'
      exact ⟨hlen,.inr ⟨hr,_,hrest,rfl⟩⟩
  · rintro ⟨hlen,⟨rfl,rfl⟩|⟨hr,vs,hrest,rfl⟩⟩
    · exact .last h hlen
    · exact .more h hr hlen hrest

/-- The length of the text in the buffer. -/
theorem strlen_eq {s : List UInt8} (hs : ∀ c ∈ s,c ≠ 0) : strlen (s++[0])=s.length := by
  rw [strlen,takeWhile_terminated hs]

/-- The test of `main` behind a token: nothing is left. -/
theorem atEnd_iff {n k : ℕ} (h1 : 1 ≤ n) (hint : n < 2^31) :
    (((n : ℤ)-1)%2^64).toNat ≥ sizePred (n+k) ↔ k=0 := by
  rw [sizePred,if_neg (by omega),Int.emod_eq_of_lt (by omega) (by omega)]
  omega

/-- The loop ends with the tokens of the run. -/
theorem mainLoop_eq_some_iff {pre s : List UInt8} (hs : ∀ c ∈ pre++s,c ≠ 0)
    (hbuf : tokenBuf.length=128) {fuel : ℕ} (hf : s.length+4 ≤ fuel)
    (hint : pre.length+s.length < 2^31) (us : List (List UInt8)) :
    mainLoop (pre++s++[0]) fuel ⟨(pre.length : ℤ)-1,st,tokenBuf⟩=some us ↔ Runs s us := by
  induction hn : s.length using Nat.strong_induction_on
    generalizing pre s fuel st tokenBuf us with
  | _ n ih =>
    obtain ⟨k,rfl⟩ : ∃ k,fuel=k+1 := ⟨fuel-1,by omega⟩
    rw [mainLoop,nexttoken_eq hbuf pre s (by omega) hint]
    cases htok : tokenOf s with
    | none =>
      constructor
      · intro h
        simp at h
      · intro h
        cases h with
        | last h => simp [htok] at h
        | more h => simp [htok] at h
    | some r =>
      obtain ⟨g,u,t⟩ := r
      obtain ⟨rfl,-,hne,-⟩ := tokenOf_append htok
      have hpos := List.length_pos_iff.mpr hne
      have hlen : (g++u++t).length=g.length+u.length+t.length := by
        simp only [List.length_append]
      rw [runs_iff htok,Option.bind_some]
      dsimp only
      by_cases hshort : u.length < 128
      · have hstr : strlen (pre++(g++u++t)++[0])=pre.length+g.length+u.length+t.length := by
          rw [strlen_eq hs,List.length_append,hlen]
          omega
        have hprint : ∀ f p r,printed ⟨f,p,u++0::r⟩=u :=
          printed_eq fun c hc => hs c (by simp [hc])
        have hiff : ((((pre.length+g.length+u.length : ℕ) : ℤ)-1)%2^64).toNat ≥
            sizePred (pre.length+g.length+u.length+t.length) ↔ t=[] :=
          (atEnd_iff (by omega) (by omega)).trans List.length_eq_zero_iff
        rw [if_pos hshort,Option.bind_eq_bind,Option.bind_some,hprint,hstr]
        dsimp only
        by_cases ht : t=[]
        · rw [if_pos (hiff.mpr ht)]
          simp [ht,hshort,eq_comm]
        · have hcells : pre++(g++u++t)++[0]=pre++g++u++t++[0] := by simp
          have hpre : pre.length+g.length+u.length=(pre++g++u).length := by
            simp only [List.length_append]
          have hrest : ∀ vs,mainLoop (pre++g++u++t++[0]) k ⟨((pre++g++u).length : ℤ)-1,
              ((pre.length+g.length : ℕ) : ℤ),u++0::tokenBuf.drop (u.length+1)⟩=some vs ↔
              Runs t vs := by
            intro vs
            refine ih t.length (by omega) (by simpa using hs) ?_ (by omega) (by omega) vs rfl
            rw [List.length_append,List.length_cons,List.length_drop]
            omega
          rw [if_neg (mt hiff.mp ht),hcells,hpre]
          simp only [Option.bind_eq_bind,Option.bind_eq_some_iff,hrest]
          simp [ht,hshort,eq_comm]
      · rw [if_neg hshort]
        simp [hshort]

/-! ## Texts that are too long -/

/-- Where the cursor can be in a state. -/
def Placed : State → ℤ → Prop
  | .st12,f => -1 ≤ f
  | .st19,f => 1 ≤ f ∧ f < 2^31
  | _,f => 0 ≤ f ∧ f < 2^31

/-- A character that was read stands at an int. -/
theorem nextchar_placed {cbuf : List UInt8} {x : Lexer} {r : UInt8×Lexer}
    (h : nextchar cbuf x=some r) : r.2.forward=x.forward+1 ∧ r.2.forward < 2^31 := by
  obtain ⟨f,hadd,hcell⟩ := Option.bind_eq_some_iff.mp h
  obtain ⟨c,-,heq⟩ := Option.bind_eq_some_iff.mp hcell
  obtain ⟨hf,-,hlt⟩ := addInt_eq_some hadd
  obtain rfl := Option.some.inj heq
  exact ⟨hf,hlt⟩

/-- Copying the token leaves the position. -/
theorem gettoken_forward {cbuf : List UInt8} {x y : Lexer} (h : gettoken cbuf x=some y) :
    y.forward=x.forward := by
  obtain ⟨r,-,hput⟩ := Option.bind_eq_some_iff.mp h
  obtain ⟨b,-,heq⟩ := Option.bind_eq_some_iff.mp hput
  rw [←Option.some.inj heq]

/-- The cursor stays in its range. -/
theorem tokenLoop_placed {cbuf : List UInt8} {fuel : ℕ} {q : State} {x y : Lexer}
    (hx : Placed q x.forward) (h : tokenLoop cbuf fuel q x=some y) :
    0 ≤ y.forward ∧ y.forward+1 < 2^31 := by
  induction fuel generalizing q x with
  | zero => simp [tokenLoop] at h
  | succ fuel ih =>
    by_cases h12 : q=.st12
    · subst h12
      rw [tokenLoop] at h
      obtain ⟨r,hread,hrest⟩ := Option.bind_eq_some_iff.mp h
      obtain ⟨hr,hlt⟩ := nextchar_placed hread
      have hx : -1 ≤ x.forward := hx
      dsimp only at hrest
      split at hrest
      · have hplaced : Placed .st13 r.2.forward := ⟨by omega,hlt⟩
        exact ih (x := ⟨r.2.forward,r.2.forward,r.2.tokenBuf⟩) hplaced hrest
      · obtain ⟨z,hnext,hloop⟩ := Option.bind_eq_some_iff.mp hrest
        obtain ⟨f,hadd,heq⟩ := Option.bind_eq_some_iff.mp hnext
        obtain ⟨hf,-⟩ := addInt_eq_some hadd
        obtain rfl := Option.some.inj heq
        refine ih (q := .st12) ?_ hloop
        show -1 ≤ f
        dsimp only at hf
        omega
    by_cases h19 : q=.st19
    · subst h19
      obtain ⟨z,hback,htoken⟩ := Option.bind_eq_some_iff.mp h
      obtain ⟨f,hadd,heq⟩ := Option.bind_eq_some_iff.mp hback
      obtain ⟨hf,-⟩ := addInt_eq_some hadd
      obtain rfl := Option.some.inj heq
      have hkeep := gettoken_forward htoken
      have hx : 1 ≤ x.forward ∧ x.forward < 2^31 := hx
      dsimp only at hkeep
      omega
    · rw [tokenLoop_inside h12 h19] at h
      obtain ⟨r,hread,hloop⟩ := Option.bind_eq_some_iff.mp h
      obtain ⟨hr,hlt⟩ := nextchar_placed hread
      have h0 : 0 ≤ x.forward := by
        cases q <;> first | exact absurd rfl h12 | exact absurd rfl h19 | exact hx.1
      refine ih ?_ hloop
      cases hq : move q r.1 with
      | st12 => exact absurd hq (move_ne_st12 h12 _)
      | st19 => exact ⟨by omega,hlt⟩
      | _ => exact ⟨by omega,hlt⟩

/-- A loop that ends has reached the end of the text by an int. -/
theorem mainLoop_short {cbuf : List UInt8} {fuel : ℕ} {x : Lexer} {us : List (List UInt8)}
    (hx : -1 ≤ x.forward) (h : mainLoop cbuf fuel x=some us) : strlen cbuf < 2^31 := by
  induction fuel generalizing x us with
  | zero => simp [mainLoop] at h
  | succ fuel ih =>
    obtain ⟨y,htoken,hrest⟩ := Option.bind_eq_some_iff.mp h
    obtain ⟨h0,hlt⟩ := tokenLoop_placed (q := .st12) hx htoken
    split at hrest
    · rename_i hend
      rw [Int.emod_eq_of_lt h0 (by omega),sizePred] at hend
      split at hend <;> omega
    · obtain ⟨vs,hloop,-⟩ := Option.bind_eq_some_iff.mp hrest
      exact ih (by omega) hloop

end StudyCode.FloatToken
