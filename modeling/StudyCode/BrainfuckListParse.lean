import Mathlib.Data.List.TakeWhile
import StudyCode.BrainfuckList

/-!
# The lists that brainfuck.c makes of a text

The parser cuts a program into runs of commands, each kept as one instruction.
Comments end a run, brackets missing at the end are added, and a closing
bracket without an opening one ends the text; so every text spells a program.
The parser of strings and the parser of streams make the same list.
-/

namespace StudyCode.BrainfuckList

open Brainfuck LoopCode

/-! ## Runs of the text -/

/-- The instruction for a run: a command and those that follow it. -/
def compress (b : Op×List Op) : Run := ⟨b.1,b.2.foldl (countOne b.1) 1⟩

/-- The commands of a run belong together, and there are not too many. -/
structure Joined (bound : ℕ) (b : Op×List Op) : Prop where
  /-- They belong together. -/
  joins : ∀ t ∈ b.2,joins b.1 t=true
  /-- Their number. -/
  short : b.2.length < bound

/-- A character that is read as an operation is its token. -/
theorem tokenOp_eq {c : UInt8} {t : Op} (h : tokenOp c=some t) : c=t.token := by
  unfold tokenOp at h
  split_ifs at h with h1 h2 h3 h4 h5 h6
  all_goals
    cases h
    assumption

/-- A token is read as its operation. -/
theorem tokenOp_token (t : Op) : tokenOp t.token=some t := by
  cases t <;> rfl

/-- The count takes the tokens that join the run and stops behind them. -/
theorem countRun_spec (type : Op) (d : BitVec 64) (str : List UInt8) :
    ∃ (ops : List Op) (rest : List UInt8),countRun type d str=(ops.foldl (countOne type) d,rest) ∧
      str=ops.map Op.token++rest ∧ ∀ t ∈ ops,joins type t=true := by
  induction str generalizing d with
  | nil => exact ⟨[],[],rfl,rfl,fun t ht => absurd ht List.not_mem_nil⟩
  | cons c str ih =>
    have hstop : ∃ (ops : List Op) (rest : List UInt8),(d,c::str)=(ops.foldl (countOne type) d,rest) ∧
        c::str=ops.map Op.token++rest ∧ ∀ t ∈ ops,joins type t=true :=
      ⟨[],c::str,rfl,rfl,fun t ht => absurd ht List.not_mem_nil⟩
    rw [countRun]
    cases ht : tokenOp c with
    | none => exact hstop
    | some t =>
      dsimp only
      by_cases hj : joins type t=true
      · rw [if_pos hj]
        obtain ⟨ops,rest,hrun,hstr,hops⟩ := ih (countOne type d t)
        refine ⟨t::ops,rest,hrun,?_,fun u hu => ?_⟩
        · rw [tokenOp_eq ht,hstr]
          rfl
        · obtain rfl | hu := List.mem_cons.1 hu
          · exact hj
          · exact hops u hu
      · rw [if_neg hj]
        exact hstop

/-! ## Texts of programs -/

/-- A token of an operation is a token of the text. -/
theorem tokens_token (op : Op) (text : List UInt8) :
    tokens (op.token::text)=op.token::tokens text := by
  cases op <;> rfl

/-- Tokens in front of a text. -/
theorem tokens_map (ops : List Op) (text : List UInt8) :
    tokens (ops.map Op.token++text)=ops.map Op.token++tokens text := by
  induction ops with
  | nil => rfl
  | cons op ops ih => rw [List.map_cons,List.cons_append,tokens_token,ih,List.cons_append]

/-- Other characters are skipped. -/
theorem tokens_other {c : UInt8} (h : tokenOp c=none) (h1 : c≠91) (h2 : c≠93)
    (text : List UInt8) : tokens (c::text)=tokens text := by
  refine List.filter_cons_of_neg ?_
  unfold tokenOp at h
  split_ifs at h with h3 h4 h5 h6 h7 h8
  simp [h1,h2,h3,h4,h5,h6,h7,h8]

/-- A text behind which a loop or the text ends. -/
def Closes (tail : List UInt8) : Prop := tail=[] ∨ tail.head?=some 93

/-- A text that begins with an operation spells a program that does. -/
theorem render_seq {op : Op} {l tail : List UInt8} {p : Code Op}
    (h : op.token::l=render p++tail) (htail : Closes tail) :
    ∃ q,p=.seq op q ∧ l=render q++tail := by
  cases p with
  | nil =>
    obtain rfl | hc := htail
    · cases h
    · rw [show tail=op.token::l from h.symm] at hc
      cases op <;> simp [Op.token] at hc
  | seq op' q =>
    obtain ⟨ht,hl⟩ := List.cons.inj h
    have hop : op=op' := Option.some.inj (by rw [←tokenOp_token,←tokenOp_token,ht])
    exact ⟨q,by rw [hop],hl⟩
  | loop body q =>
    obtain ⟨ht,-⟩ := List.cons.inj h
    cases op <;> simp [Op.token] at ht

/-- A text that begins with some operations spells a program that does. -/
theorem render_after {ops : List Op} {l tail : List UInt8} {p : Code Op}
    (h : ops.map Op.token++l=render p++tail) (htail : Closes tail) :
    ∃ q : Code Op,p=q.after ops ∧ l=render q++tail := by
  induction ops generalizing p with
  | nil => exact ⟨p,rfl,h⟩
  | cons op ops ih =>
    obtain ⟨q,rfl,hq⟩ := render_seq (l:=ops.map Op.token++l) h htail
    obtain ⟨r,rfl,hr⟩ := ih hq
    exact ⟨r,rfl,hr⟩

/-- A text that ends or closes a loop spells nothing before it. -/
theorem render_closes {l tail : List UInt8} {p : Code Op} (h : l=render p++tail)
    (hl : Closes l) : p=.nil ∧ l=tail := by
  cases p with
  | nil => exact ⟨rfl,h⟩
  | seq op q =>
    obtain rfl | hc := hl
    · cases h
    · rw [h] at hc
      cases op <;> simp [render,Op.token] at hc
  | loop body q =>
    obtain rfl | hc := hl
    · cases h
    · rw [h] at hc
      simp [render] at hc

/-- Closing brackets close. -/
theorem closes_replicate (k : ℕ) : Closes (List.replicate k 93) := by
  cases k with
  | zero => exact Or.inl rfl
  | succ k => exact Or.inr rfl

/-- A text that opens a loop spells a loop. -/
theorem render_loop {l tail : List UInt8} {p : Code Op} (h : 91::l=render p++tail)
    (htail : Closes tail) :
    ∃ body q,p=.loop body q ∧ l=render body++93::(render q++tail) := by
  cases p with
  | nil =>
    obtain rfl | hc := htail
    · cases h
    · rw [show tail=91::l from h.symm] at hc
      simp at hc
  | seq op q =>
    obtain ⟨ht,-⟩ := List.cons.inj h
    cases op <;> simp [Op.token] at ht
  | loop body q =>
    refine ⟨body,q,rfl,?_⟩
    rw [(List.cons.inj h).2]
    simp

/-- Behind the body of a loop stands the closing bracket, or one of those that are
missing at the end. -/
theorem tail_closed {rest l : List UInt8} {k : ℕ} (hrest : Closes rest)
    (h : tokens rest++List.replicate k 93=93::l) :
    ∃ m,tokens rest.tail++List.replicate m 93=l := by
  obtain rfl | hc := hrest
  · cases k with
    | zero => cases h
    | succ k => exact ⟨k,(List.cons.inj h).2⟩
  · cases rest with
    | nil => cases hc
    | cons c rest =>
      cases Option.some.inj hc
      exact ⟨k,(List.cons.inj h).2⟩

/-! ## The list of instructions -/

/-- The parser makes the list of a program out of its text, with comments in it and with
brackets missing at the end. -/
theorem parse_spec (fuel : ℕ) (text : List UInt8) (hfuel : text.length < fuel) (p : Code Op)
    (tail : List UInt8) (k : ℕ) (h : tokens text++List.replicate k 93=render p++tail)
    (htail : Closes tail) :
    ∃ (g : Code (Op×List Op)) (rest : List UInt8) (m : ℕ),
      parseSubstring fuel text=some (g.map compress,rest) ∧ g.flatten=p ∧
      g.All (Joined text.length) ∧ rest.length ≤ text.length ∧ Closes rest ∧
      tokens rest++List.replicate m 93=tail := by
  induction fuel generalizing text p tail k with
  | zero => omega
  | succ fuel ih =>
    cases text with
    | nil =>
      obtain ⟨rfl,hk⟩ := render_closes h (closes_replicate k)
      exact ⟨.nil,[],k,rfl,rfl,trivial,le_refl 0,Or.inl rfl,hk⟩
    | cons c str =>
      have hstr : str.length < fuel := by
        rw [List.length_cons] at hfuel
        omega
      rw [parseSubstring]
      cases ht : tokenOp c with
      | some type =>
        dsimp only
        obtain ⟨ops,rest1,hrun,hsplit,hops⟩ := countRun_spec type 1 str
        have hlen : str.length=ops.length+rest1.length := by
          rw [hsplit,List.length_append,List.length_map]
        rw [tokenOp_eq ht,tokens_token,hsplit,tokens_map,List.cons_append,List.append_assoc] at h
        obtain ⟨q,rfl,hq⟩ := render_seq h htail
        obtain ⟨r,rfl,hr⟩ := render_after hq htail
        obtain ⟨g,rest,m,hg,hflat,hall,hle,hcl,hrest⟩ := ih rest1 (by omega) r tail k hr htail
        refine ⟨.seq (type,ops) g,rest,m,?_,?_,⟨⟨hops,?_⟩,hall.imp fun b hb => ⟨hb.joins,?_⟩⟩,?_,
          hcl,hrest⟩
        · rw [hrun]
          simp only [hg]
          rfl
        · rw [Code.flatten,hflat]
        · change ops.length < (c::str).length
          rw [List.length_cons]
          omega
        · have := hb.short
          rw [List.length_cons]
          omega
        · rw [List.length_cons]
          omega
      | none =>
        dsimp only
        by_cases h1 : c=91
        · rw [if_pos h1]
          subst h1
          have htok : tokens (91::str)=91::tokens str := rfl
          rw [htok,List.cons_append] at h
          obtain ⟨body,q,rfl,hl⟩ := render_loop h htail
          obtain ⟨gb,rest1,m1,hgb,hfb,hab,hleb,hcb,hrb⟩ :=
            ih str hstr body (93::(render q++tail)) k hl (Or.inr rfl)
          obtain ⟨m2,hm2⟩ := tail_closed hcb hrb
          have htl : rest1.tail.length ≤ rest1.length := by
            rw [List.length_tail]
            omega
          obtain ⟨gq,rest,m,hgq,hfq,haq,hleq,hcq,hrq⟩ :=
            ih rest1.tail (by omega) q tail m2 hm2 htail
          refine ⟨.loop gb gq,rest,m,?_,?_,⟨hab.imp fun b hb => ⟨hb.joins,?_⟩,
            haq.imp fun b hb => ⟨hb.joins,?_⟩⟩,?_,hcq,hrq⟩
          · rw [hgb]
            simp only [Option.bind_eq_bind,Option.bind_some,hgq]
            rfl
          · rw [Code.flatten,hfb,hfq]
          · have := hb.short
            rw [List.length_cons]
            omega
          · have := hb.short
            rw [List.length_cons]
            omega
          · rw [List.length_cons]
            omega
        · rw [if_neg h1]
          by_cases h2 : c=93
          · rw [if_pos h2]
            subst h2
            obtain ⟨rfl,hk⟩ := render_closes h (Or.inr rfl)
            exact ⟨.nil,93::str,k,rfl,rfl,trivial,le_refl _,Or.inr rfl,hk⟩
          · rw [if_neg h2]
            rw [tokens_other ht h1 h2] at h
            obtain ⟨g,rest,m,hg,hflat,hall,hle,hcl,hrest⟩ := ih str hstr p tail k h htail
            refine ⟨g,rest,m,hg,hflat,hall.imp fun b hb => ⟨hb.joins,?_⟩,?_,hcl,hrest⟩
            · have := hb.short
              rw [List.length_cons]
              omega
            · rw [List.length_cons]
              omega

/-- brainfuck_parse_string on a text without a zero. -/
theorem parseString_spec {text : List UInt8} (h0 : 0 ∉ text) (p : Code Op) (tail : List UInt8)
    (k : ℕ) (h : tokens text++List.replicate k 93=render p++tail) (htail : Closes tail) :
    ∃ g : Code (Op×List Op),parseString text=some (g.map compress) ∧ g.flatten=p ∧
      g.All (Joined text.length) := by
  have htext : text.takeWhile (·≠0)=text := by
    rw [List.takeWhile_eq_self_iff]
    intro c hc
    exact decide_eq_true fun he => h0 (he ▸ hc)
  obtain ⟨g,rest,m,hg,hflat,hall,-,-,-⟩ :=
    parse_spec (text.length+1) text (Nat.lt_succ_self _) p tail k h htail
  refine ⟨g,?_,hflat,hall⟩
  simp only [parseString,htext,hg]
  rfl

/-! ## What a text spells -/

/-- A text is the text of a program with brackets missing at the end, and anything behind
a closing bracket that has no opening one. -/
def Spells (text : List UInt8) (p : Code Op) : Prop :=
  ∃ tail k,Closes tail ∧ tokens text++List.replicate k 93=render p++tail

/-- Every token but a bracket stands for an operation. -/
theorem exists_tokenOp {c : UInt8} (h : c ∈ [43,45,62,60,46,44,91,93]) (h1 : c≠91) (h2 : c≠93) :
    ∃ op : Op,c=op.token := by
  cases ht : tokenOp c with
  | some op => exact ⟨op,tokenOp_eq ht⟩
  | none =>
    unfold tokenOp at ht
    split_ifs at ht
    simp_all

/-- Characters that mean something spell a program, with brackets added only when nothing
is left over. -/
theorem exists_render (n : ℕ) (l : List UInt8) (hn : l.length < n)
    (hl : ∀ c ∈ l,c ∈ [43,45,62,60,46,44,91,93]) :
    ∃ p tail k,l++List.replicate k 93=render p++tail ∧ Closes tail ∧ (k=0 ∨ tail=[]) := by
  induction n generalizing l with
  | zero => omega
  | succ n ih =>
    cases l with
    | nil => exact ⟨.nil,[],0,rfl,Or.inl rfl,Or.inl rfl⟩
    | cons c l =>
      have hlen : l.length < n := by
        rw [List.length_cons] at hn
        omega
      have hrest : ∀ d ∈ l,d ∈ [43,45,62,60,46,44,91,93] :=
        fun d hd => hl d (List.mem_cons_of_mem c hd)
      by_cases h2 : c=93
      · exact ⟨.nil,c::l,0,by simp [render],Or.inr (by rw [h2]; rfl),Or.inl rfl⟩
      by_cases h1 : c=91
      · obtain ⟨body,tail,k,hb,hc,hk⟩ := ih l hlen hrest
        obtain rfl | hc := hc
        · refine ⟨.loop body .nil,[],k+1,?_,Or.inl rfl,Or.inr rfl⟩
          rw [List.replicate_succ',List.cons_append,←List.append_assoc,hb,h1]
          simp [render]
        · cases tail with
          | nil => cases hc
          | cons d tail =>
            cases Option.some.inj hc
            have hk0 : k=0 := hk.resolve_right (List.cons_ne_nil _ _)
            rw [hk0,List.replicate_zero,List.append_nil] at hb
            have htail : tail.length < n := by
              have := congrArg List.length hb
              rw [List.length_append,List.length_cons] at this
              omega
            obtain ⟨q,tail2,k2,hq,hc2,hk2⟩ := ih tail htail fun d hd => hrest d (by
              rw [hb]
              exact List.mem_append_right _ (List.mem_cons_of_mem _ hd))
            refine ⟨.loop body q,tail2,k2,?_,hc2,hk2⟩
            rw [h1,hb,render,List.cons_append,List.append_assoc,List.cons_append,hq]
            simp
      · obtain ⟨op,rfl⟩ := exists_tokenOp (hl c List.mem_cons_self) h1 h2
        obtain ⟨p,tail,k,hp,hc,hk⟩ := ih l hlen hrest
        exact ⟨.seq op p,tail,k,by rw [List.cons_append,hp]; rfl,hc,hk⟩

/-- Every text spells some program. -/
theorem exists_spells (text : List UInt8) : ∃ p,Spells text p := by
  obtain ⟨p,tail,k,h,hc,-⟩ := exists_render _ (tokens text) (Nat.lt_succ_self _) fun c hc =>
    of_decide_eq_true (List.mem_filter.1 hc).2
  exact ⟨p,tail,k,hc,h⟩

/-- Every text is parsed, and every program that it spells is cut into its runs. -/
theorem parseString_runs {text : List UInt8} (h0 : 0 ∉ text) :
    ∃ code,parseString text=some code ∧ ∀ p,Spells text p →
      ∃ g : Code (Op×List Op),code=g.map compress ∧ g.flatten=p ∧ g.All (Joined text.length) := by
  obtain ⟨p0,tail0,k0,htail0,hp0⟩ := exists_spells text
  obtain ⟨g0,hparse0,-,-⟩ := parseString_spec h0 p0 tail0 k0 hp0 htail0
  refine ⟨g0.map compress,hparse0,fun p hp => ?_⟩
  obtain ⟨tail,k,htail,h⟩ := hp
  obtain ⟨g,hparse,hflat,hall⟩ := parseString_spec h0 p tail k h htail
  exact ⟨g,Option.some.inj (hparse0.symm.trans hparse),hflat,hall⟩

/-! ## Streams -/

/-- The count on a stream is the count on the text. -/
theorem countStream_eq (type : Op) (d : BitVec 64) {stream : List UInt8} (h : eof ∉ stream) :
    countStream eof type d stream=countRun type d stream := by
  induction stream generalizing d with
  | nil => rfl
  | cons c stream ih =>
    have hc : c≠eof := fun he => h (he ▸ List.mem_cons_self)
    have hunget : ungetc c stream=c::stream := if_neg hc
    rw [countStream,countRun]
    cases ht : tokenOp c with
    | none =>
      dsimp only
      rw [hunget]
    | some t =>
      dsimp only
      by_cases hj : joins type t=true
      · rw [if_pos hj,if_pos ⟨hc,hj⟩]
        exact ih (countOne type d t) fun hm => h (List.mem_cons_of_mem c hm)
      · rw [if_neg hj,if_neg fun hb => hj hb.2,hunget]

/-- The count leaves the rest of the text. -/
theorem countRun_suffix (type : Op) (d : BitVec 64) (str : List UInt8) :
    (countRun type d str).2 <:+ str := by
  obtain ⟨ops,rest,hrun,hstr,-⟩ := countRun_spec type d str
  rw [hrun]
  exact ⟨ops.map Op.token,hstr.symm⟩

/-- The parser leaves the rest of the text. -/
theorem parseSubstring_suffix {fuel : ℕ} {str rest : List UInt8} {code : Code Run}
    (h : parseSubstring fuel str=some (code,rest)) : rest <:+ str := by
  induction fuel generalizing str rest code with
  | zero => cases h
  | succ fuel ih =>
    cases str with
    | nil =>
      cases h
      exact List.suffix_refl []
    | cons c str =>
      rw [parseSubstring] at h
      have hstr : str <:+ c::str := List.suffix_cons c str
      cases ht : tokenOp c with
      | some type =>
        rw [ht] at h
        simp only [Option.bind_eq_bind,Option.bind_eq_some_iff] at h
        obtain ⟨⟨next,rest1⟩,hnext,hr⟩ := h
        cases hr
        exact (ih hnext).trans ((countRun_suffix type 1 str).trans hstr)
      | none =>
        rw [ht] at h
        dsimp only at h
        split_ifs at h with h1 h2
        · simp only [Option.bind_eq_bind,Option.bind_eq_some_iff] at h
          obtain ⟨⟨body,rest1⟩,hbody,⟨next,rest2⟩,hnext,hr⟩ := h
          cases hr
          exact (ih hnext).trans ((List.tail_suffix rest1).trans ((ih hbody).trans hstr))
        · cases h
          exact List.suffix_refl _
        · exact (ih h).trans hstr

/-- The parser of streams makes the same list; it has read the closing bracket at which it
returns, the parser of strings has not. -/
theorem parseStreamUntil_eq (fuel : ℕ) {stream : List UInt8} (h : eof ∉ stream) :
    parseStreamUntil eof fuel stream=
      (parseSubstring fuel stream).map fun r => (r.1,r.2.tail) := by
  induction fuel generalizing stream with
  | zero => rfl
  | succ fuel ih =>
    cases stream with
    | nil => rfl
    | cons c stream =>
      have hc : c≠eof := fun he => h (he ▸ List.mem_cons_self)
      have hstream : eof ∉ stream := fun hm => h (List.mem_cons_of_mem c hm)
      rw [parseStreamUntil,parseSubstring]
      have hfgetc : fgetc (c::stream)=(c,stream) := rfl
      rw [hfgetc]
      dsimp only
      rw [if_neg hc]
      cases ht : tokenOp c with
      | some type =>
        dsimp only
        rw [countStream_eq type 1 hstream,
          ih fun hm => hstream ((countRun_suffix type 1 stream).mem hm)]
        cases parseSubstring fuel (countRun type 1 stream).2 <;> rfl
      | none =>
        dsimp only
        by_cases h1 : c=91
        · rw [if_pos h1,if_pos h1,ih hstream]
          cases hbody : parseSubstring fuel stream with
          | none => rfl
          | some r =>
            obtain ⟨body,rest⟩ := r
            have hrest : eof ∉ rest.tail := fun hm =>
              hstream (((List.tail_suffix rest).trans (parseSubstring_suffix hbody)).mem hm)
            simp only [Option.map_some,Option.bind_eq_bind,Option.bind_some,ih hrest]
            cases parseSubstring fuel rest.tail <;> rfl
        · rw [if_neg h1,if_neg h1]
          by_cases h2 : c=93
          · rw [if_pos h2,if_pos h2]
            rfl
          · rw [if_neg h2,if_neg h2]
            exact ih hstream

/-- A file and a string with the same text give the same list. -/
theorem parseStream_eq_parseString (text : List UInt8) (h0 : 0 ∉ text) (heof : eof ∉ text)
    (_hlen : text.length < 2^31) :
    parseStream text=parseString text ∧ (parseStream text).isSome=true := by
  have htext : text.takeWhile (·≠0)=text := by
    rw [List.takeWhile_eq_self_iff]
    intro c hc
    exact decide_eq_true fun he => h0 (he ▸ hc)
  have heq : parseStream text=parseString text := by
    rw [parseStream,parseString,parseStreamUntil_eq _ heof,Option.map_map,htext]
    rfl
  obtain ⟨code,hcode,-⟩ := parseString_runs h0
  exact ⟨heq,by rw [heq,hcode]; rfl⟩

/-- Both parsers read `[++]` alike. -/
theorem parseStream_eq_parseString_loop :
    parseStream [91,43,43,93]=parseString [91,43,43,93] ∧
      (parseStream [91,43,43,93]).isSome=true :=
  parseStream_eq_parseString [91,43,43,93] (by decide) (by decide) (by decide)

end StudyCode.BrainfuckList
