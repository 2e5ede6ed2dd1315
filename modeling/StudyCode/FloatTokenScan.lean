import StudyCode.FloatTokenRun
import StudyCode.MaximalMunch

/-!
# What the number lexer prints

The lexer prints the numbers that a scan by maximal munch finds exactly when
the text ends with a number, the stretches between numbers have even lengths,
and none of them begins with a character that the automaton takes for a part
of the number in front of it.
-/

namespace StudyCode.FloatToken

open MaximalMunch

/-! ## Numbers -/

/-- `[0-9]+`. -/
def digits : RegularExpression UInt8 := many (oneOf [48,49,50,51,52,53,54,55,56,57])

/-- `[0-9]+(.[0-9]+)?([eE][+-]?[0-9]+)?`. -/
def number : RegularExpression UInt8 :=
  digits*(1+.char 46*digits)*(1+oneOf [101,69]*(1+oneOf [43,45])*digits)

/-- One or more digits. -/
def Digits (d : List UInt8) : Prop := d ≠ [] ∧ ∀ c ∈ d,isdigit c=true

/-- The ten digits. -/
theorem isdigit_iff_mem (c : UInt8) :
    isdigit c=true ↔ c ∈ ([48,49,50,51,52,53,54,55,56,57] : List UInt8) := by
  simp only [isdigit,decide_eq_true_eq,UInt8.le_iff_toNat_le,List.mem_cons,List.not_mem_nil,
    ←UInt8.toNat_inj,UInt8.reduceToNat,or_false]
  omega

/-- Words of digits. -/
theorem mem_digits {d : List UInt8} : d ∈ digits.matches' ↔ Digits d := by
  rw [digits,mem_many_oneOf,Digits]
  simp only [isdigit_iff_mem]

/-- A fraction, or nothing. -/
def Fraction (f : List UInt8) : Prop := f=[] ∨ ∃ d,f=46::d ∧ Digits d

/-- An exponent, or nothing. -/
def Exponent (x : List UInt8) : Prop :=
  x=[] ∨ ∃ e s d,x=e::(s++d) ∧ (e=101 ∨ e=69) ∧ (s=[] ∨ s=[43] ∨ s=[45]) ∧ Digits d

/-- Words that are a fraction. -/
theorem mem_fraction {f : List UInt8} :
    f ∈ (1+.char 46*digits : RegularExpression UInt8).matches' ↔ Fraction f := by
  rw [RegularExpression.matches'_add,RegularExpression.matches'_mul,Language.mem_add,
    Language.mem_mul]
  refine or_congr Iff.rfl ⟨?_,?_⟩
  · rintro ⟨a,rfl,d,hd,rfl⟩
    exact ⟨d,rfl,mem_digits.mp hd⟩
  · rintro ⟨d,rfl,hd⟩
    exact ⟨[46],rfl,d,mem_digits.mpr hd,rfl⟩

/-- Words that are a sign. -/
theorem mem_sign {s : List UInt8} :
    s ∈ (1+oneOf [43,45] : RegularExpression UInt8).matches' ↔ s=[] ∨ s=[43] ∨ s=[45] := by
  rw [RegularExpression.matches'_add,Language.mem_add,mem_oneOf]
  refine or_congr Iff.rfl ?_
  simp

/-- Words that are an exponent. -/
theorem mem_exponent {x : List UInt8} :
    x ∈ (1+oneOf [101,69]*(1+oneOf [43,45])*digits : RegularExpression UInt8).matches' ↔
      Exponent x := by
  rw [RegularExpression.matches'_add,RegularExpression.matches'_mul,
    RegularExpression.matches'_mul,Language.mem_add,Language.mem_mul]
  refine or_congr Iff.rfl ⟨?_,?_⟩
  · rintro ⟨a,ha,d,hd,rfl⟩
    obtain ⟨b,hb,s,hs,rfl⟩ := Language.mem_mul.mp ha
    obtain ⟨e,he,rfl⟩ := mem_oneOf.mp hb
    exact ⟨e,s,d,by simp,by simpa using he,mem_sign.mp hs,mem_digits.mp hd⟩
  · rintro ⟨e,s,d,rfl,he,hs,hd⟩
    have hmark : [e] ∈ (oneOf [101,69]).matches' := mem_oneOf.mpr ⟨e,by simpa using he,rfl⟩
    exact ⟨[e]++s,Language.append_mem_mul hmark (mem_sign.mpr hs),d,mem_digits.mpr hd,by simp⟩

/-- Words that are a number. -/
theorem mem_number {t : List UInt8} :
    t ∈ number.matches' ↔ ∃ i f x,Digits i ∧ Fraction f ∧ Exponent x ∧ t=i++f++x := by
  rw [number,RegularExpression.matches'_mul,RegularExpression.matches'_mul,Language.mem_mul]
  constructor
  · rintro ⟨a,ha,x,hx,rfl⟩
    obtain ⟨i,hi,f,hf,rfl⟩ := Language.mem_mul.mp ha
    exact ⟨i,f,x,mem_digits.mp hi,mem_fraction.mp hf,mem_exponent.mp hx,rfl⟩
  · rintro ⟨i,f,x,hi,hf,hx,rfl⟩
    exact ⟨i++f,Language.append_mem_mul (mem_digits.mpr hi) (mem_fraction.mpr hf),x,
      mem_exponent.mpr hx,rfl⟩

/-! ## Numbers and the automaton -/

/-- Digits keep the states where a number may end. -/
theorem foldl_move_digits {q : State} (hq : q=.st13 ∨ q=.st15 ∨ q=.st18) {d : List UInt8}
    (hd : ∀ c ∈ d,isdigit c=true) : d.foldl move q=q := by
  induction d with
  | nil => rfl
  | cons c d ih =>
    obtain ⟨hc,htail⟩ := List.forall_mem_cons.mp hd
    have hmove : move q c=q := by
      rcases hq with rfl|rfl|rfl <;> simp [move,hc]
    rw [List.foldl_cons,hmove,ih htail]

/-- The digits that a point, a mark or a sign waits for. -/
theorem foldl_move_first {q q' : State} (hq' : q'=.st13 ∨ q'=.st15 ∨ q'=.st18)
    (hmove : ∀ c,isdigit c=true → move q c=q') {d : List UInt8} (hd : Digits d) :
    d.foldl move q=q' := by
  obtain ⟨hne,hall⟩ := hd
  cases d with
  | nil => exact absurd rfl hne
  | cons c d =>
    obtain ⟨hc,htail⟩ := List.forall_mem_cons.mp hall
    rw [List.foldl_cons,hmove c hc,foldl_move_digits hq' htail]

/-- Digits in front of the rest. -/
theorem stateAfter_append {i : List UInt8} (hi : Digits i) (r : List UInt8) :
    stateAfter (i++r)=r.foldl move .st13 := by
  obtain ⟨hne,hall⟩ := hi
  rw [stateAfter,List.tail_append_of_ne_nil hne,List.foldl_append,
    foldl_move_digits (.inl rfl) fun c hc => hall c (List.mem_of_mem_tail hc)]

/-- An exponent ends in its state. -/
theorem foldl_move_exponent {q : State} (hq : q=.st13 ∨ q=.st15) {e : UInt8} {s d : List UInt8}
    (he : e=101 ∨ e=69) (hs : s=[] ∨ s=[43] ∨ s=[45]) (hd : Digits d) :
    (e::(s++d)).foldl move q=.st18 := by
  have hmark : move q e=.st16 := by
    rcases hq with rfl|rfl <;> rcases he with rfl|rfl <;> rfl
  rw [List.foldl_cons,hmark,List.foldl_append]
  rcases hs with rfl|rfl|rfl
  · exact foldl_move_first (.inr (.inr rfl)) (fun c hc => by simp [move,hc]) hd
  · exact foldl_move_first (q := .st17) (.inr (.inr rfl)) (fun c hc => by simp [move,hc]) hd
  · exact foldl_move_first (q := .st17) (.inr (.inr rfl)) (fun c hc => by simp [move,hc]) hd

/-- The three kinds of numbers and the states behind them. -/
theorem number_cases {t : List UInt8} (h : t ∈ number.matches') :
    (stateAfter t=.st13 ∧ ∀ c ∈ t,isdigit c=true) ∨
      (stateAfter t=.st15 ∧ 46 ∈ t ∧ 101 ∉ t ∧ 69 ∉ t) ∨
      (stateAfter t=.st18 ∧ (101 ∈ t ∨ 69 ∈ t)) := by
  obtain ⟨i,f,x,hi,hf,hx,rfl⟩ := mem_number.mp h
  have hfstate : f=[] ∧ f.foldl move .st13=.st13 ∨
      (∃ d,f=46::d ∧ Digits d) ∧ f.foldl move .st13=.st15 := by
    rcases hf with rfl|⟨d,rfl,hd⟩
    · exact .inl ⟨rfl,rfl⟩
    · exact .inr ⟨⟨d,rfl,hd⟩,
        foldl_move_first (q := .st14) (.inr (.inl rfl)) (fun c hc => by simp [move,hc]) hd⟩
  rw [List.append_assoc,stateAfter_append hi,List.foldl_append]
  rcases hx with rfl|⟨e,s,d,rfl,he,hs,hd⟩
  · rcases hfstate with ⟨rfl,hq⟩|⟨⟨d,rfl,hd⟩,hq⟩
    · exact .inl ⟨hq,by simpa using hi.2⟩
    · have hnone : ∀ c,isdigit c=false → c ≠ 46 → c ∉ i++(46::d++[]) := by
        intro c hc hne hmem
        simp only [List.append_nil,List.mem_append,List.mem_cons] at hmem
        rcases hmem with hmem|hmem|hmem
        · simp [hi.2 c hmem] at hc
        · exact hne hmem
        · simp [hd.2 c hmem] at hc
      exact .inr (.inl ⟨hq,by simp,hnone 101 (by decide) (by decide),
        hnone 69 (by decide) (by decide)⟩)
  · have hq : f.foldl move .st13=.st13 ∨ f.foldl move .st13=.st15 :=
      hfstate.imp And.right And.right
    refine .inr (.inr ⟨foldl_move_exponent hq he hs hd,?_⟩)
    rcases he with rfl|rfl <;> simp

/-- The character is taken for a part of the number in front of it. -/
def GoesOn (t : List UInt8) (c : UInt8) : Prop :=
  c=46 ∧ (∀ x ∈ t,isdigit x=true) ∨ (c=101 ∨ c=69) ∧ 101 ∉ t ∧ 69 ∉ t

/-- The automaton stops behind a number at characters that are no digits and
do not go on. -/
theorem move_number {t : List UInt8} (h : t ∈ number.matches') (c : UInt8) :
    move (stateAfter t) c=.st19 ↔ ¬isdigit c=true ∧ ¬GoesOn t c := by
  have hmark : isdigit 101=false ∧ isdigit 69=false ∧ isdigit 46=false := by decide
  rcases number_cases h with ⟨hq,hall⟩|⟨hq,hpoint,h101,h69⟩|⟨hq,hexp⟩
  · have h101 : 101 ∉ t := fun hm => by simpa [hmark.1] using hall _ hm
    have h69 : 69 ∉ t := fun hm => by simpa [hmark.2.1] using hall _ hm
    rw [hq,move,GoesOn]
    by_cases hc : isdigit c=true
    · simp [hc]
    · by_cases he : c=101 ∨ c=69
      · simp [hc,he,h101,h69]
      · by_cases hp : c=46
        · simpa [hp,hmark] using hall
        · simp [hc,he,hp]
  · have hnot : ¬∀ x ∈ t,isdigit x=true := fun hall => by simpa [hmark.2.2] using hall _ hpoint
    rw [hq,move,GoesOn]
    by_cases hc : isdigit c=true
    · simp [hc]
    · by_cases he : c=101 ∨ c=69
      · simp [hc,he,h101,h69]
      · simp [hc,he,hnot]
  · have hnot : ¬∀ x ∈ t,isdigit x=true := by
      intro hall
      rcases hexp with hm|hm
      · simpa [hmark.1] using hall _ hm
      · simpa [hmark.2.1] using hall _ hm
    have hno : ¬(101 ∉ t ∧ 69 ∉ t) := by tauto
    rw [hq,move,GoesOn]
    by_cases hc : isdigit c=true
    · simp [hc]
    · simp [hc,hnot,hno]

/-- The states of a number go on. -/
theorem number_ne_st19 {t : List UInt8} (h : t ∈ number.matches') : stateAfter t ≠ .st19 := by
  rcases number_cases h with ⟨hq,-⟩|⟨hq,-⟩|⟨hq,-⟩ <;> simp [hq]

/-- A number begins with a digit. -/
theorem number_head {t : List UInt8} (h : t ∈ number.matches') :
    ∃ c v,t=c::v ∧ isdigit c=true := by
  obtain ⟨i,f,x,⟨hne,hall⟩,-,-,rfl⟩ := mem_number.mp h
  cases i with
  | nil => exact absurd rfl hne
  | cons c i => exact ⟨c,i++f++x,rfl,hall c List.mem_cons_self⟩

/-- A digit is a number. -/
theorem digit_mem_number {c : UInt8} (hc : isdigit c=true) : [c] ∈ number.matches' :=
  mem_number.mpr ⟨[c],[],[],⟨by simp,by simpa using hc⟩,.inl rfl,.inl rfl,rfl⟩

/-- The last state is not left. -/
theorem foldl_move_st19 (v : List UInt8) : v.foldl move .st19=.st19 := by
  induction v with
  | nil => rfl
  | cons c v ih => exact ih

/-- A number where the automaton stops is the longest one. -/
theorem longest_number {t r : List UInt8} (h : t ∈ number.matches')
    (hend : move (stateAfter t) (r.headD 0)=.st19) : Longest number.matches' t (t++r) := by
  obtain ⟨c,w,rfl,-⟩ := number_head h
  refine ⟨h,by simp,List.prefix_append _ _,fun u hu hmem => ?_⟩
  by_contra hlt
  obtain ⟨v,rfl⟩ := List.prefix_of_prefix_length_le (List.prefix_append (c::w) r) hu (by omega)
  cases v with
  | nil => simp at hlt
  | cons d v =>
    obtain ⟨k,hk⟩ := hu
    rw [List.append_assoc] at hk
    obtain rfl := List.append_cancel_left hk
    refine number_ne_st19 hmem ?_
    have hstep : stateAfter (c::w++d::v)=v.foldl move (move (stateAfter (c::w)) d) := by
      simp [stateAfter]
    rw [hstep,show move (stateAfter (c::w)) d=.st19 from hend,foldl_move_st19]

/-! ## Tokens of numbers -/

/-- The longest token ends where the state stops. -/
theorem munch_eq {q : State} {u r : List UInt8} (hq : u.foldl move q ≠ .st19)
    (hend : move (u.foldl move q) (r.headD 0)=.st19) : munch q (u++r)=some (u,r) := by
  induction u generalizing q with
  | nil =>
    cases r with
    | nil => exact if_pos hend
    | cons c r => exact if_pos hend
  | cons c u ih =>
    have hmove : move q c ≠ .st19 := by
      intro h
      rw [List.foldl_cons,h,foldl_move_st19] at hq
      exact hq rfl
    rw [List.cons_append,munch,if_neg hmove,ih hq hend]
    rfl

/-- A gap of even length leads to the digit behind it. -/
theorem skip_eq {c : UInt8} (hc : isdigit c=true) (r : List UInt8) :
    ∀ {g : List UInt8},(∀ d ∈ g,¬isdigit d=true) → Even g.length →
      skip (g++c::r)=some (g,c,r)
  | [],_,_ => by cases r <;> simp [skip,hc]
  | [_],_,heven => absurd heven (by simp)
  | a::b::g,hg,heven => by
    have hrest : skip (g++c::r)=some (g,c,r) := by
      refine skip_eq hc r (fun d hd => hg d (by simp [hd])) ?_
      rw [List.length_cons,List.length_cons,Nat.even_add_one,Nat.even_add_one,not_not] at heven
      exact heven
    have ha : ¬isdigit a=true := hg a List.mem_cons_self
    rw [List.cons_append,List.cons_append,skip,if_neg ha,hrest]
    rfl

/-- A number behind an even gap is the next token when the automaton stops
behind it. -/
theorem tokenOf_eq {g t r : List UInt8} (hg : ∀ c ∈ g,¬isdigit c=true) (heven : Even g.length)
    (ht : t ∈ number.matches') (hend : move (stateAfter t) (r.headD 0)=.st19) :
    tokenOf (g++t++r)=some (g,t,r) := by
  obtain ⟨c,v,rfl,hc⟩ := number_head ht
  have hmunch : munch .st13 (v++r)=some (v,r) := munch_eq (number_ne_st19 ht) hend
  rw [List.append_assoc,List.cons_append,tokenOf,skip_eq hc (v++r) hg heven,Option.bind_some,
    hmunch]
  rfl

/-! ## Texts that are read well -/

/-- Stretches of even length without digits in front of numbers up to the end,
none of which goes on with the number in front of it. -/
inductive Spaced : List UInt8 → Prop
  /-- The text ends with a number. -/
  | last {g t : List UInt8} : (∀ c ∈ g,¬isdigit c=true) → Even g.length →
      t ∈ number.matches' → Spaced (g++t)
  /-- Something follows the number. -/
  | more {g t s : List UInt8} {c : UInt8} : (∀ c ∈ g,¬isdigit c=true) → Even g.length →
      t ∈ number.matches' → ¬isdigit c=true → ¬GoesOn t c → Spaced (c::s) →
      Spaced (g++t++c::s)

/-- No number begins in a stretch without digits. -/
theorem scan_pass {g s : List UInt8} {ls : List (List UInt8)} (hg : ∀ c ∈ g,¬isdigit c=true)
    (h : Scan number.matches' s ls) : Scan number.matches' (g++s) ls := by
  refine h.pass fun c hc r t ht _ hpre => ?_
  obtain ⟨d,v,rfl,hd⟩ := number_head ht
  obtain ⟨rfl,-⟩ := List.cons_prefix_cons.mp hpre
  exact hg d hc hd

/-- The scan of such a text is its run. -/
theorem Spaced.runs {s : List UInt8} (h : Spaced s) :
    ∃ us,Scan number.matches' s us ∧ ((∀ u ∈ us,u.length < 128) → Runs s us) := by
  induction h with
  | @last g t hg heven ht =>
    have hend : move (stateAfter t) (([] : List UInt8).headD 0)=.st19 :=
      (move_number ht 0).mpr ⟨by decide,by simp [GoesOn]⟩
    have htok := tokenOf_eq hg heven ht hend
    have hscan := Scan.take (longest_number ht hend) .nil
    rw [List.append_nil] at htok hscan
    exact ⟨[t],scan_pass hg hscan,fun hlen => .last htok (hlen t (by simp))⟩
  | @more g t s c hg heven ht hc hgo _ ih =>
    obtain ⟨us,hscan,hruns⟩ := ih
    have hend : move (stateAfter t) ((c::s).headD 0)=.st19 := (move_number ht c).mpr ⟨hc,hgo⟩
    have htok := tokenOf_eq hg heven ht hend
    refine ⟨t::us,?_,fun hlen => ?_⟩
    · rw [List.append_assoc]
      exact scan_pass hg (.take (longest_number ht hend) hscan)
    · obtain ⟨hfirst,hrest⟩ := List.forall_mem_cons.mp hlen
      exact .more htok (by simp) hfirst (hruns hrest)

/-- The tokens of a run have no more digits than its text. -/
theorem Runs.countP_le {s : List UInt8} {us : List (List UInt8)} (h : Runs s us) :
    us.flatten.countP isdigit ≤ s.countP isdigit := by
  induction h with
  | last htok _ =>
    obtain ⟨rfl,-⟩ := tokenOf_append htok
    simp
  | more htok _ _ _ ih =>
    obtain ⟨rfl,-⟩ := tokenOf_append htok
    simp only [List.flatten_cons,List.countP_append]
    omega

/-- A run that loses no digit and whose tokens are numbers has stretches of
even length. -/
theorem Runs.spaced {s : List UInt8} {us : List (List UInt8)} (h : Runs s us)
    (hus : ∀ u ∈ us,u ∈ number.matches')
    (hcount : s.countP isdigit ≤ us.flatten.countP isdigit) : Spaced s := by
  induction h with
  | @last s g u htok _ =>
    obtain ⟨rfl,heven,-⟩ := tokenOf_append htok
    have hgap : g.countP isdigit=0 := by
      simp only [List.append_nil,List.countP_append,List.flatten_cons,List.flatten_nil] at hcount
      omega
    rw [List.append_nil]
    exact .last (List.countP_eq_zero.mp hgap) heven (hus u (by simp))
  | @more s g u r us htok hr _ hrest ih =>
    obtain ⟨rfl,heven,-,hend⟩ := tokenOf_append htok
    obtain ⟨hu,htail⟩ := List.forall_mem_cons.mp hus
    have hle := hrest.countP_le
    simp only [List.countP_append,List.flatten_cons] at hcount
    have hspaced := ih htail (by omega)
    have hgap : g.countP isdigit=0 := by omega
    cases r with
    | nil => exact absurd rfl hr
    | cons c r =>
      obtain ⟨hc,hgo⟩ := (move_number hu c).mp hend
      exact .more (List.countP_eq_zero.mp hgap) heven hu hc hgo hspaced

/-! ## The lexer -/

/-- The program ends, stays inside of its buffers, and prints the numbers of
the text. -/
def Meets (s : List UInt8) : Prop :=
  ∀ ls,Scan number.matches' s ls →
    ∀ fuel,s.length+4 ≤ fuel → mainLoop (s++[0]) fuel initial=some ls

/-- The numbers of the text are shorter than the token buffer. -/
def ShortNumbers (s : List UInt8) : Prop :=
  ∀ ls,Scan number.matches' s ls → ∀ t ∈ ls,t.length < 128

/-- The program on a text is the run of the text. -/
theorem mainLoop_initial_iff {s : List UInt8} (hs : ∀ c ∈ s,c ≠ 0) {fuel : ℕ}
    (hf : s.length+4 ≤ fuel) (hint : s.length < 2^31) (us : List (List UInt8)) :
    mainLoop (s++[0]) fuel initial=some us ↔ Runs s us := by
  have hbuf : (List.replicate 128 (0 : UInt8)).length=128 := List.length_replicate
  have hiff : mainLoop ([]++s++[0]) fuel
      ⟨(([] : List UInt8).length : ℤ)-1,0,List.replicate 128 0⟩=some us ↔ Runs s us :=
    mainLoop_eq_some_iff hs hbuf hf (by simpa using hint) us
  exact hiff

/-- The program prints the numbers of a text exactly when the text is spaced
and its positions are ints. -/
theorem meets_iff_spaced {s : List UInt8} (hs : ∀ c ∈ s,c ≠ 0) (hshort : ShortNumbers s) :
    Meets s ↔ s.length < 2^31 ∧ Spaced s := by
  constructor
  · intro hmeets
    obtain ⟨ls,hscan⟩ := exists_scan number.matches' s
    have hrun := hmeets ls hscan (s.length+4) le_rfl
    have hint : s.length < 2^31 := by
      rw [←strlen_eq hs]
      exact mainLoop_short (by decide) hrun
    have hruns := (mainLoop_initial_iff hs le_rfl hint ls).mp hrun
    have hcount := hscan.countP_flatten (p := isdigit) fun c hc => digit_mem_number hc
    exact ⟨hint,hruns.spaced hscan.words hcount.ge⟩
  · rintro ⟨hint,hspaced⟩ ls hscan fuel hf
    obtain ⟨us,hus,hruns⟩ := hspaced.runs
    obtain rfl := hscan.unique hus
    exact (mainLoop_initial_iff hs hf hint ls).mpr (hruns (hshort ls hscan))

/-- A short text has short numbers. -/
theorem shortNumbers_of_length {s : List UInt8} (h : s.length < 128) : ShortNumbers s :=
  fun _ hscan t ht => (hscan.length_le t ht).trans_lt h

/-- The text of the program is read well. -/
theorem meets_cbufText : Meets cbufText := by
  have hshort : ShortNumbers cbufText := shortNumbers_of_length (by decide)
  have hlast : Spaced ([106,106]++[55,55,56]) :=
    .last (by decide +kernel) (by decide) (by decide +kernel)
  have hmiddle : Spaced ((List.replicate 9 42++[107,108,106])++[49,50,46,50,101,50]++
      106::[106,55,55,56]) :=
    .more (by decide +kernel) (by decide) (by decide +kernel) (by decide) (by simp [GoesOn]) hlast
  have hfirst : Spaced ([]++[49,50,46,51]++42::(List.replicate 8 42++[107,108,106]++
      [49,50,46,50,101,50]++106::[106,55,55,56])) :=
    .more (by simp) (by decide) (by decide +kernel) (by decide) (by simp [GoesOn]) hmiddle
  exact (meets_iff_spaced (by decide +kernel) hshort).mpr ⟨by decide,hfirst⟩

/-- Behind `1` and a blank the digit `2` is passed, and the lexer reads behind
the terminator. -/
theorem not_meets_blank : ShortNumbers [49,32,50] ∧ ¬Meets [49,32,50] := by
  refine ⟨shortNumbers_of_length (by decide),fun hmeets => ?_⟩
  obtain ⟨ls,hscan⟩ := exists_scan number.matches' [49,32,50]
  have hrun := hmeets ls hscan 7 (by decide)
  have hnone : mainLoop ([49,32,50]++[0]) 7 initial=none := by decide +kernel
  rw [hnone] at hrun
  simp at hrun

end StudyCode.FloatToken
