import StudyCode.DisposeString

/-!
# The two tokenisers of the port list parser

One loop counts the tokens and the other cuts the buffer and lists where the
tokens begin. Both are described by the tokens of the text, so the list has as
many cells as the count says unless the count overflows.
-/

namespace StudyCode.DisposeString

open Checked

/-! ## Texts as tokens -/

/-- A text is one token, or a token, a delimiter and a text. -/
theorem tokens_induct {d : UInt8} {P : List UInt8 → Prop} (hone : ∀ t,d ∉ t → P t)
    (hmore : ∀ t s,d ∉ t → P s → P (t++d::s)) (s : List UInt8) : P s := by
  induction hn : s.length using Nat.strong_induction_on generalizing s with
  | _ n ih =>
    by_cases hd : d ∈ s
    · obtain ⟨t,u,rfl,ht⟩ := List.eq_append_cons_of_mem hd
      refine hmore t u ht (ih u.length ?_ u rfl)
      rw [←hn,List.length_append,List.length_cons]
      omega
    · exact hone s hd

/-- Tokens with a terminator behind each of them. -/
def cut (ts : List (List UInt8)) : List UInt8 := ts.flatMap (·++[0])

/-- No tokens leave nothing. -/
@[simp] theorem cut_nil : cut []=[] := rfl

/-- A token is followed by a zero. -/
@[simp] theorem cut_cons (t : List UInt8) (ts : List (List UInt8)) :
    cut (t::ts)=t++0::cut ts := by
  simp [cut]

/-! ## The count of the tokens -/

/-- What `get_token_count` does with the tokens of a text. -/
def tally : ℤ → List (List UInt8) → Option (ℤ×ℤ)
  | count,[] => some (0,count)
  | count,t::ts =>
    if t=[] then some (-1,count) else (addInt count 1).bind fun count => tally count ts

/-- A count that ends has seen all tokens or an empty one. -/
theorem tally_eq_some {n : ℕ} {ts : List (List UInt8)} {r : ℤ×ℤ} (h : tally n ts=some r) :
    (∀ t ∈ ts,t ≠ []) ∧ r=(0,(n : ℤ)+ts.length) ∨ [] ∈ ts ∧ r.1= -1 := by
  induction ts generalizing n with
  | nil =>
    obtain rfl : (0,(n : ℤ))=r := by simpa [tally] using h
    simp
  | cons t ts ih =>
    rw [tally] at h
    split at h
    · rename_i hnil
      obtain rfl : (-1,(n : ℤ))=r := by simpa using h
      exact .inr ⟨by simp [hnil],rfl⟩
    · rename_i hne
      obtain ⟨m,hm,hr⟩ := Option.bind_eq_some_iff.mp h
      have hval : m=((n+1 : ℕ) : ℤ) := (addInt_eq_some hm).1
      rw [hval] at hr
      rcases ih hr with ⟨hall,heq⟩|⟨hmem,hneg⟩
      · refine .inl ⟨List.forall_mem_cons.mpr ⟨hne,hall⟩,?_⟩
        rw [heq,List.length_cons]
        push_cast
        ring_nf
      · exact .inr ⟨List.mem_cons_of_mem _ hmem,hneg⟩

/-- The count overflows exactly when it reaches 2^31 before an empty token. -/
theorem tally_eq_none_iff {n : ℕ} (hn : n < 2^31) (ts : List (List UInt8)) :
    tally n ts=none ↔ 2^31 ≤ n+ts.length ∧ ∀ t ∈ ts.take (2^31-n),t ≠ [] := by
  induction ts generalizing n with
  | nil =>
    simp only [tally,reduceCtorEq,false_iff,List.length_nil]
    omega
  | cons t ts ih =>
    obtain ⟨m,hm⟩ : ∃ m,2^31-n=m+1 := ⟨2^31-n-1,by omega⟩
    rw [tally,hm,List.take_succ_cons,List.forall_mem_cons,List.length_cons]
    by_cases ht : t=[]
    · simp [ht]
    rw [if_neg ht]
    by_cases hlast : n+1=2^31
    · have hadd : addInt (n : ℤ) 1=none := by
        rw [addInt,if_neg (by omega)]
      have hzero : m=0 := by omega
      simp only [hadd,hzero,ht,Option.bind_none,List.take_zero,ne_eq,not_false_eq_true,
        List.not_mem_nil,false_implies,implies_true,and_true,true_iff]
      omega
    · rw [addInt_one (by omega),Option.bind_some,ih (by omega),show 2^31-(n+1)=m by omega,
        show n+1+ts.length=n+(ts.length+1) by omega]
      simp [ht]

variable {d : UInt8}

/-- A loop that goes on at every character but NUL and the separator goes on
over a token. -/
theorem loop_token {β : Type*} (loop : ℕ → List UInt8 → ℤ → β)
    (hstep : ∀ fuel buf i c,cellAt buf i=some c → c ≠ 0 → c ≠ d →
      loop (fuel+1) buf i=loop fuel buf (i+1)) {pre t rest : List UInt8}
    (ht : ∀ c ∈ t,c ≠ 0 ∧ c ≠ d) (fuel : ℕ) :
    loop (t.length+fuel) (pre++t++rest) pre.length=loop fuel (pre++t++rest) (pre++t).length := by
  induction t generalizing pre with
  | nil => simp
  | cons c t ih =>
    obtain ⟨⟨h0,hd⟩,htail⟩ := List.forall_mem_cons.mp ht
    have hrest : loop (t.length+fuel) (pre++[c]++t++rest) (pre++[c]).length=
        loop fuel (pre++[c]++t++rest) (pre++[c]++t).length := ih htail
    have hcell : cellAt (pre++c::t++rest) pre.length=some c := by
      rw [List.append_assoc]
      exact cellAt_length pre (t++rest) c
    have hlen : ((pre++[c]).length : ℤ)=pre.length+1 := by simp
    rw [List.append_assoc pre,List.singleton_append,hlen] at hrest
    rw [List.length_cons,Nat.add_right_comm,hstep _ _ _ c hcell h0 hd]
    exact hrest

/-- Characters of a token are passed. -/
theorem countLoop_token {pre t rest : List UInt8} (ht : ∀ c ∈ t,c ≠ 0 ∧ c ≠ d) (fuel : ℕ)
    (ptr2 count : ℤ) :
    countLoop (pre++t++rest) d (t.length+fuel) pre.length ptr2 count=
      countLoop (pre++t++rest) d fuel (pre++t).length ptr2 count := by
  refine loop_token (fun fuel buf i => countLoop buf d fuel i ptr2 count) ?_ ht fuel
  intro fuel buf i c hcell h0 hd
  rw [countLoop,hcell]
  simp [h0,hd]

/-- The loop of `get_token_count` tallies the tokens. -/
theorem countLoop_eq (hd : d ≠ 0) {s : List UInt8} (hs : ∀ c ∈ s,c ≠ 0) (pre post : List UInt8)
    {fuel : ℕ} (hf : s.length < fuel) (count : ℤ) :
    countLoop (pre++s++0::post) d fuel pre.length pre.length count=tally count (s.splitOn d) := by
  induction s using tokens_induct (d := d) generalizing pre fuel count with
  | hone t ht =>
    have hchars : ∀ c ∈ t,c ≠ 0 ∧ c ≠ d := fun c hc => ⟨hs c hc,fun h => ht (h ▸ hc)⟩
    obtain ⟨n,rfl⟩ : ∃ n,fuel=t.length+(n+1) := ⟨fuel-t.length-1,by omega⟩
    have hcell : cellAt (pre++t++0::post) (pre++t).length=some 0 := cellAt_length _ _ _
    have hsame : ((pre++t).length : ℤ)=pre.length ↔ t=[] := by simp
    rw [countLoop_token hchars,countLoop,hcell,List.splitOn_eq_singleton ht]
    by_cases hnil : t=[]
    · simp [tally,hnil]
    · simp only [Option.bind_eq_bind,Option.bind_some,ne_eq,not_true_eq_false,if_false,
        hsame,hnil,tally]
  | hmore t s ht ih =>
    have hchars : ∀ c ∈ t,c ≠ 0 ∧ c ≠ d :=
      fun c hc => ⟨hs c (List.mem_append_left _ hc),fun h => ht (h ▸ hc)⟩
    rw [List.length_append,List.length_cons] at hf
    obtain ⟨n,rfl⟩ : ∃ n,fuel=t.length+(n+1) := ⟨fuel-t.length-1,by omega⟩
    have hbuf : pre++(t++d::s)++0::post=pre++t++d::(s++0::post) := by simp
    have hcell : cellAt (pre++t++d::(s++0::post)) (pre++t).length=some d := cellAt_length _ _ _
    have hsame : ((pre++t).length : ℤ)=pre.length ↔ t=[] := by simp
    rw [hbuf,countLoop_token hchars,countLoop,hcell,List.splitOn_append_cons_self_of_not_mem ht,
      tally]
    by_cases hnil : t=[]
    · simp [hd,hnil]
    · have hnext : ((pre++t++[d]).length : ℤ)=(pre++t).length+1 := by
        rw [List.length_append,List.length_singleton,Nat.cast_add,Nat.cast_one]
      have hshift : pre++t++[d]++s++0::post=pre++t++d::(s++0::post) := by simp
      have hrest : ∀ m : ℤ,countLoop (pre++t++d::(s++0::post)) d n ((pre++t).length+1)
          ((pre++t).length+1) m=tally m (s.splitOn d) := by
        intro m
        rw [←hshift,←hnext]
        exact ih (fun c hc => hs c (by simp [hc])) (pre++t++[d]) (by omega) m
      simp only [Option.bind_eq_bind,Option.bind_some,ne_eq,hd,not_false_eq_true,if_true,
        hsame,hnil,if_false,hrest]

/-! ## The list of the tokens -/

/-- Characters of a token are passed. -/
theorem listLoop_token {pre t rest : List UInt8} (ht : ∀ c ∈ t,c ≠ 0 ∧ c ≠ d) (fuel : ℕ)
    (tokenList : Block ℤ) (ptr2 count : ℤ) :
    listLoop d (t.length+fuel) (pre++t++rest) tokenList pre.length ptr2 count=
      listLoop d fuel (pre++t++rest) tokenList (pre++t).length ptr2 count := by
  refine loop_token (fun fuel buf i => listLoop d fuel buf tokenList i ptr2 count) ?_ ht fuel
  intro fuel buf i c hcell h0 hd
  rw [listLoop,hcell]
  simp [h0,hd]

/-- Where the tokens begin that are listed from a cell on; the cells before are kept. -/
def Lists (old new : Block ℤ) (n p : ℕ) (ts : List (List UInt8)) : Prop :=
  new.size=old.size ∧ (∀ k < n,new.cell k=old.cell k) ∧
    ∀ k < ts.length,new.cell (n+k)=((p+(cut (ts.take k)).length : ℕ) : ℤ)

/-- The first token is stored before the others. -/
theorem Lists.cons {old new : Block ℤ} {n p : ℕ} {t : List UInt8} {ts : List (List UInt8)}
    (h : Lists ⟨old.size,Function.update old.cell n (p : ℤ)⟩ new (n+1) (p+t.length+1) ts) :
    Lists old new n p (t::ts) := by
  obtain ⟨hsize,hold,hnew⟩ := h
  refine ⟨hsize,?_,?_⟩
  · intro k hk
    rw [hold k (by omega)]
    exact Function.update_of_ne hk.ne _ _
  · intro k hk
    cases k with
    | zero =>
      rw [Nat.add_zero,hold n (by omega)]
      simp
    | succ k =>
      rw [show n+(k+1)=n+1+k by omega,hnew k (by simpa using hk),List.take_succ_cons,cut_cons,
        List.length_append,List.length_cons]
      push_cast
      ring

/-- The loop of `get_token_list` cuts the buffer and lists the tokens when the
list has room for them. -/
theorem listLoop_spec (hd : d ≠ 0) {s : List UInt8} (hs : ∀ c ∈ s,c ≠ 0)
    (pre post : List UInt8) {fuel : ℕ} (hf : s.length < fuel) {tokenList : Block ℤ} {n : ℕ}
    (hroom : n+(s.splitOn d).length ≤ tokenList.size) (hint : n+(s.splitOn d).length ≤ 256) :
    ∃ l,listLoop d fuel (pre++s++0::post) tokenList pre.length pre.length n=
        some (pre++cut (s.splitOn d)++post,l) ∧
      Lists tokenList l n pre.length (s.splitOn d) := by
  induction s using tokens_induct (d := d) generalizing pre fuel tokenList n with
  | hone t ht =>
    have hchars : ∀ c ∈ t,c ≠ 0 ∧ c ≠ d := fun c hc => ⟨hs c hc,fun h => ht (h ▸ hc)⟩
    obtain ⟨m,rfl⟩ : ∃ m,fuel=t.length+(m+1) := ⟨fuel-t.length-1,by omega⟩
    have hcell : cellAt (pre++t++0::post) (pre++t).length=some 0 := cellAt_length _ _ _
    rw [List.splitOn_eq_singleton ht] at hroom hint ⊢
    have hwrite := tokenList.write_natCast (n := n) (by simpa using hroom) (pre.length : ℤ)
    refine ⟨⟨tokenList.size,Function.update tokenList.cell n (pre.length : ℤ)⟩,?_,
      Lists.cons ⟨rfl,fun _ _ => rfl,fun k hk => absurd hk (Nat.not_lt_zero k)⟩⟩
    have hcut : pre++cut [t]++post=pre++t++0::post := by simp
    rw [listLoop_token hchars,listLoop,hcell,hcut,Option.bind_eq_bind,Option.bind_some,
      if_neg (not_not_intro rfl),hwrite]
    rfl
  | hmore t s ht ih =>
    have hchars : ∀ c ∈ t,c ≠ 0 ∧ c ≠ d :=
      fun c hc => ⟨hs c (List.mem_append_left _ hc),fun h => ht (h ▸ hc)⟩
    rw [List.splitOn_append_cons_self_of_not_mem ht] at hroom hint ⊢
    rw [List.length_cons] at hroom hint
    rw [List.length_append,List.length_cons] at hf
    obtain ⟨m,rfl⟩ : ∃ m,fuel=t.length+(m+1) := ⟨fuel-t.length-1,by omega⟩
    have hbuf : pre++(t++d::s)++0::post=pre++t++d::(s++0::post) := by simp
    have hcell : cellAt (pre++t++d::(s++0::post)) (pre++t).length=some d := cellAt_length _ _ _
    have hput := putAt_length (pre++t) (s++0::post) d 0
    have hwrite := tokenList.write_natCast (n := n) (by omega) (pre.length : ℤ)
    have hadd := addInt_one (n := n) (by omega)
    have hnext : ((pre++t++[0]).length : ℤ)=(pre++t).length+1 := by
      rw [List.length_append,List.length_singleton,Nat.cast_add,Nat.cast_one]
    have hshift : pre++t++[0]++s++0::post=pre++t++0::(s++0::post) := by simp
    obtain ⟨l,hl,hlists⟩ := ih (fun c hc => hs c (by simp [hc])) (pre++t++[0])
      (show s.length < m by omega)
      (show n+1+_ ≤ (⟨tokenList.size,Function.update tokenList.cell n (pre.length : ℤ)⟩ :
        Block ℤ).size by simpa [Nat.add_assoc,Nat.add_comm 1] using hroom) (by omega)
    rw [hshift,hnext] at hl
    rw [List.length_append,List.length_append,List.length_singleton] at hlists
    refine ⟨l,?_,Lists.cons hlists⟩
    rw [hbuf,listLoop_token hchars,listLoop,hcell]
    simp only [Option.bind_eq_bind,Option.bind_some,ne_eq,hd,not_false_eq_true,if_true,hput,
      hwrite,hadd,hl]
    simp

end StudyCode.DisposeString
