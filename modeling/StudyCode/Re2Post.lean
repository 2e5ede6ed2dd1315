import Mathlib.Data.List.Basic
import Mathlib.Tactic

/-!
# From infix to postfix

The parser of the expressions counts the atoms and the alternatives of every
open parenthesis and writes the postfix form into a buffer of fixed size. The
expressions are given by syntax trees whose levels are those of the grammar, so
that a tree has one text. A string is the list of its bytes before the
terminating zero.
-/

namespace StudyCode.Re2Post

/-! ## The source -/

/-- Size of the static buffer. -/
def bufSize : ℕ := 8000

/-- Number of open parentheses that the array holds. -/
def parenSize : ℕ := 100

/-- The local variables of re2post. -/
structure Parse where
  /-- What has been written through dst. -/
  buf : List UInt8
  /-- Alternatives of the innermost parenthesis. -/
  nalt : ℕ
  /-- Atoms that are not yet joined. -/
  natom : ℕ
  /-- The saved counters, the innermost first. -/
  paren : List (ℕ×ℕ)
  deriving DecidableEq

/-- The variables before the loop. -/
def Parse.init : Parse := ⟨[],0,0,[]⟩

/-- The loop that writes one dot less than there are atoms. -/
def Parse.joined (s : Parse) : List UInt8 := s.buf++List.replicate (s.natom-1) 46

/-- The dot in front of a further atom. -/
def Parse.join (s : Parse) : Parse :=
  if 1 < s.natom then {s with buf := s.buf++[46],natom := s.natom-1} else s

/-- One character; none for a return of NULL. -/
def step (s : Parse) (c : UInt8) : Option Parse :=
  if c=40 then
    if parenSize ≤ s.paren.length then none
    else some ⟨s.join.buf,0,0,(s.nalt,s.join.natom)::s.paren⟩
  else if c=124 then
    if s.natom=0 then none else some {s with buf := s.joined,nalt := s.nalt+1,natom := 0}
  else if c=41 then
    match s.paren with
    | [] => none
    | (nalt,natom)::paren =>
      if s.natom=0 then none
      else some ⟨s.joined++List.replicate s.nalt 124,nalt,natom+1,paren⟩
  else if c=42 ∨ c=43 ∨ c=63 then
    if s.natom=0 then none else some {s with buf := s.buf++[c]}
  else some {s.join with buf := s.join.buf++[c],natom := s.join.natom+1}

/-- What a call of re2post comes to. -/
inductive Outcome where
  /-- The string in the buffer. -/
  | post (p : List UInt8)
  /-- NULL. -/
  | null
  /-- A write behind the buffer. -/
  | outside
  deriving DecidableEq

/-- The code behind the loop. -/
def finish (s : Parse) : Outcome :=
  if s.paren=[] then
    let out := s.joined++List.replicate s.nalt 124
    if out.length < bufSize then .post out else .outside
  else .null

/-- What has been written when a character makes the loop return NULL: a dot may
stand in front of a parenthesis that is one too many. -/
def Parse.left (s : Parse) (c : UInt8) : List UInt8 := if c=40 then s.join.buf else s.buf

/-- The loop over the expression. -/
def loop : Parse → List UInt8 → Outcome
  | s,[] => finish s
  | s,c::re =>
    match step s c with
    | none => if (s.left c).length ≤ bufSize then .null else .outside
    | some s1 => if s1.buf.length ≤ bufSize then loop s1 re else .outside

/-- re2post. -/
def re2post (re : List UInt8) : Outcome :=
  if bufSize/2 ≤ re.length then .null else loop .init re

/-! ## Expressions -/

/-- The levels of the grammar. -/
inductive Level where
  /-- A character or a parenthesis, with its repetitions. -/
  | atom
  /-- A concatenation. -/
  | cat
  /-- An alternation. -/
  | alt

/-- The repetitions. -/
inductive Rep where
  /-- Zero or more. -/
  | star
  /-- One or more. -/
  | plus
  /-- Zero or one. -/
  | quest

/-- The character of a repetition. -/
def Rep.char : Rep → UInt8
  | .star => 42
  | .plus => 43
  | .quest => 63

/-- A character that stands for itself. -/
def ordinary (c : UInt8) : Bool := c ∉ [40,124,41,42,43,63]

/-- The expressions. -/
inductive Syn : Level → Type
  /-- A character. -/
  | lit (c : UInt8) (h : ordinary c=true) : Syn .atom
  /-- A parenthesis. -/
  | group (a : Syn .alt) : Syn .atom
  /-- A repetition. -/
  | rep (op : Rep) (a : Syn .atom) : Syn .atom
  /-- A concatenation of one atom. -/
  | one (a : Syn .atom) : Syn .cat
  /-- A concatenation with a further atom. -/
  | more (c : Syn .cat) (a : Syn .atom) : Syn .cat
  /-- A single alternative. -/
  | single (c : Syn .cat) : Syn .alt
  /-- An alternative with those behind it. -/
  | bar (c : Syn .cat) (a : Syn .alt) : Syn .alt

namespace Syn

variable {l : Level}

/-- The text of an expression. -/
def print : {l : Level} → Syn l → List UInt8
  | _,lit c _ => [c]
  | _,group a => 40::(a.print++[41])
  | _,rep op a => a.print++[op.char]
  | _,one a => a.print
  | _,more c a => c.print++a.print
  | _,single c => c.print
  | _,bar c a => c.print++124::a.print

/-- The postfix form of an expression. -/
def post : {l : Level} → Syn l → List UInt8
  | _,lit c _ => [c]
  | _,group a => a.post
  | _,rep op a => a.post++[op.char]
  | _,one a => a.post
  | _,more c a => c.post++a.post++[46]
  | _,single c => c.post
  | _,bar c a => c.post++a.post++[124]

/-- Depth of the parentheses. -/
def depth : {l : Level} → Syn l → ℕ
  | _,lit _ _ => 0
  | _,group a => a.depth+1
  | _,rep _ a => a.depth
  | _,one a => a.depth
  | _,more c a => max c.depth a.depth
  | _,single c => c.depth
  | _,bar c a => max c.depth a.depth

/-- The atoms of the last concatenation that the counter holds behind the
expression. -/
def natom : {l : Level} → Syn l → ℕ
  | _,lit _ _ => 1
  | _,group _ => 1
  | _,rep _ _ => 1
  | _,one _ => 1
  | _,more _ _ => 2
  | _,single c => c.natom
  | _,bar _ a => a.natom

/-- The bars outside of the parentheses. -/
def nalt : {l : Level} → Syn l → ℕ
  | _,lit _ _ => 0
  | _,group _ => 0
  | _,rep _ _ => 0
  | _,one _ => 0
  | _,more _ _ => 0
  | _,single _ => 0
  | _,bar _ a => a.nalt+1

/-- What has been written behind the expression. -/
def written : {l : Level} → Syn l → List UInt8
  | _,lit c _ => [c]
  | _,group a => a.post
  | _,rep op a => a.post++[op.char]
  | _,one a => a.post
  | _,more c a => c.post++a.post
  | _,single c => c.written
  | _,bar c a => c.post++a.written

/-- A piece of a pattern is at least one atom. -/
theorem natom_pos (x : Syn l) : 1 ≤ x.natom := by
  induction x with
  | more => exact one_le_two
  | single _ ih => exact ih
  | bar _ _ _ ih => exact ih
  | _ => exact le_refl 1

/-- What is written for a sequence, and the dots behind it. -/
theorem post_cat (c : Syn .cat) : c.written++List.replicate (c.natom-1) 46=c.post := by
  cases c with
  | one a => exact List.append_nil _
  | more c a => rfl

/-- What is written for an alternative, and what is put behind it. -/
theorem post_alt : (a : Syn .alt) →
    a.written++List.replicate (a.natom-1) 46++List.replicate a.nalt 124=a.post
  | single c => by
    simp only [written,natom,nalt,List.replicate_zero,List.append_nil,post]
    exact post_cat c
  | bar c a => by
    simp only [written,natom,nalt,List.replicate_succ',post]
    rw [←post_alt a]
    simp only [List.append_assoc]

end Syn

/-! ## What is written -/

/-- The loop without the test of the buffer. -/
def steps : Parse → List UInt8 → Option Parse
  | s,[] => some s
  | s,c::re => (step s c).bind (steps · re)

/-- Steps one behind the other. -/
theorem steps_append (s : Parse) (x y : List UInt8) :
    steps s (x++y)=(steps s x).bind (steps · y) := by
  induction x generalizing s with
  | nil => rfl
  | cons c x ih =>
    simp only [List.cons_append,steps,Option.bind_assoc]
    exact Option.bind_congr fun s1 _ => ih s1

/-- The characters written, and those that the counters still stand for. -/
def Parse.weight (s : Parse) : ℕ :=
  s.buf.length+s.natom+s.nalt+(s.paren.map fun p => p.1+p.2).sum

/-- Joining two atoms keeps the weight. -/
theorem Parse.weight_join (s : Parse) : s.join.weight=s.weight := by
  unfold join
  split
  · simp only [weight,List.length_append,List.length_singleton]
    omega
  · rfl

/-- Joining two atoms leaves the alternatives. -/
theorem Parse.join_nalt (s : Parse) : s.join.nalt=s.nalt := by
  unfold join
  split <;> rfl

/-- Joining two atoms leaves the parentheses. -/
theorem Parse.join_paren (s : Parse) : s.join.paren=s.paren := by
  unfold join
  split <;> rfl

/-- The dot in front of a rejected parenthesis is one that the counters stand for. -/
theorem Parse.left_le (s : Parse) (c : UInt8) : (s.left c).length ≤ s.weight := by
  have hj := s.weight_join
  unfold left
  split
  · simp only [weight] at hj ⊢
    omega
  · simp only [weight]
    omega

/-- A character adds at most two. -/
theorem step_weight {s s1 : Parse} {c : UInt8} (h : step s c=some s1) :
    s1.weight ≤ s.weight+2 := by
  have hj := s.weight_join
  simp only [Parse.weight,Parse.join_nalt,Parse.join_paren] at hj
  unfold step at h
  split at h
  · split at h
    · cases h
    · cases h
      simp only [Parse.weight,List.map_cons,List.sum_cons]
      omega
  · split at h
    · split at h
      · cases h
      · cases h
        simp only [Parse.weight,Parse.joined,List.length_append,List.length_replicate]
        omega
    · split at h
      · split at h
        · cases h
        · next hp =>
          split at h
          · cases h
          · cases h
            simp only [Parse.weight,Parse.joined,List.length_append,List.length_replicate,hp,
              List.map_cons,List.sum_cons]
            omega
      · split at h
        · split at h
          · cases h
          · cases h
            simp only [Parse.weight,List.length_append,List.length_singleton]
            omega
        · cases h
          simp only [Parse.weight,Parse.join_nalt,Parse.join_paren,List.length_append,
            List.length_singleton]
          omega

/-- The buffer is large enough for an expression of less than half its size. -/
theorem loop_eq {s : Parse} {re : List UInt8} (h : s.weight+2*re.length < bufSize) :
    loop s re=((steps s re).map finish).getD .null ∧ loop s re ≠ .outside := by
  induction re generalizing s with
  | nil =>
    refine ⟨rfl,?_⟩
    have hl : (s.joined++List.replicate s.nalt 124).length < bufSize := by
      simp only [Parse.joined,List.length_append,List.length_replicate]
      simp only [Parse.weight,List.length_nil] at h
      omega
    simp only [loop,finish,hl,if_true]
    split <;> exact Outcome.noConfusion
  | cons c re ih =>
    simp only [loop,steps]
    cases hs : step s c with
    | none =>
      have hb : (s.left c).length ≤ bufSize := by
        have hle := s.left_le c
        omega
      simp only [hb,if_true]
      exact ⟨rfl,Outcome.noConfusion⟩
    | some s1 =>
      have hw := step_weight hs
      have hb : s1.buf.length ≤ bufSize := by
        have hle : s1.buf.length ≤ s1.weight := by simp only [Parse.weight]; omega
        simp only [List.length_cons] at h
        omega
      simp only [hb,if_true,Option.bind_some]
      exact ih (by simp only [List.length_cons] at h; omega)

/-- A short pattern is read step by step. -/
theorem re2post_eq_steps {re : List UInt8} (h : re.length < 4000) :
    re2post re=((steps .init re).map finish).getD .null := by
  rw [re2post,if_neg (by simp only [bufSize]; omega)]
  refine (loop_eq ?_).1
  simp only [Parse.init,Parse.weight,bufSize,List.length_nil,List.map_nil,List.sum_nil]
  omega

/-- Nothing is written behind the buffer. -/
theorem re2post_ne_outside (re : List UInt8) : re2post re ≠ .outside := by
  unfold re2post
  split
  · exact Outcome.noConfusion
  · next h =>
    refine (loop_eq ?_).2
    simp only [Parse.init,Parse.weight,bufSize,List.length_nil,List.map_nil,List.sum_nil] at h ⊢
    omega

/-! ## The texts of the expressions -/

/-- What one level of an expression does to the variables. -/
def Syn.effect : {l : Level} → Syn l → Parse → Parse
  | .atom,a,s => {s.join with buf := s.join.buf++a.post,natom := s.join.natom+1}
  | .cat,c,s => {s with buf := s.buf++c.written,natom := c.natom}
  | .alt,a,s => {s with buf := s.buf++a.written,nalt := s.nalt+a.nalt,natom := a.natom}

/-- One character is one step. -/
theorem steps_singleton (s : Parse) (c : UInt8) : steps s [c]=step s c := by
  simp only [steps,Option.bind_fun_some]

/-- An opening parenthesis. -/
theorem step_open {s : Parse} (h : s.paren.length < parenSize) :
    step s 40=some ⟨s.join.buf,0,0,(s.nalt,s.join.natom)::s.paren⟩ := by
  rw [step,if_pos rfl,if_neg (by omega)]

/-- A bar behind an atom. -/
theorem step_bar {s : Parse} (h : s.natom≠0) :
    step s 124=some {s with buf := s.joined,nalt := s.nalt+1,natom := 0} := by
  rw [step,if_neg (by decide),if_pos rfl,if_neg h]

/-- A closing parenthesis behind an atom. -/
theorem step_close {s : Parse} {p : ℕ×ℕ} {paren : List (ℕ×ℕ)} (hp : s.paren=p::paren)
    (h : s.natom≠0) :
    step s 41=some ⟨s.joined++List.replicate s.nalt 124,p.1,p.2+1,paren⟩ := by
  rw [step,if_neg (by decide),if_neg (by decide),if_pos rfl]
  simp only [hp,h,if_false]

/-- A repetition behind an atom. -/
theorem step_rep {s : Parse} (op : Rep) (h : s.natom≠0) :
    step s op.char=some {s with buf := s.buf++[op.char]} := by
  cases op <;> simp [step,Rep.char,h]

/-- A plain character. -/
theorem step_lit {s : Parse} {c : UInt8} (h : ordinary c=true) :
    step s c=some {s.join with buf := s.join.buf++[c],natom := s.join.natom+1} := by
  simp only [ordinary,List.mem_cons,List.not_mem_nil,or_false,not_or,decide_eq_true_eq] at h
  obtain ⟨h1,h2,h3,h4,h5,h6⟩ := h
  simp only [step,h1,h2,h3,h4,h5,h6,if_false,or_false]

/-- An expression is read as a whole when its parentheses fit. -/
theorem steps_print {l : Level} (x : Syn l) : ∀ s : Parse,
    (l ≠ .atom → s.natom=0) → s.paren.length+x.depth ≤ parenSize →
    steps s x.print=some (x.effect s) := by
  induction x with
  | lit c h =>
    intro s _ _
    rw [Syn.print,steps_singleton,step_lit h]
    rfl
  | group a ih =>
    intro s _ hd
    simp only [Syn.depth] at hd
    have hn := a.natom_pos
    rw [Syn.print,←List.singleton_append,steps_append,steps_singleton,
      step_open (by omega),Option.bind_some,steps_append,ih _ (fun _ => rfl)
        (by simp only [List.length_cons]; omega),Option.bind_some,steps_singleton,
      step_close rfl (by simp only [Syn.effect]; omega)]
    simp only [Syn.effect,Parse.joined,Nat.zero_add,List.append_assoc,Syn.post,
      s.join_nalt,s.join_paren]
    rw [←a.post_alt]
    simp only [List.append_assoc]
  | rep op a ih =>
    intro s hl hd
    rw [Syn.print,steps_append,ih s hl hd,Option.bind_some,steps_singleton,
      step_rep op (by simp only [Syn.effect]; omega)]
    simp only [Syn.effect,Syn.post,List.append_assoc]
  | one a ih =>
    intro s hl hd
    have hz := hl Level.noConfusion
    rw [Syn.print,ih s (fun h => absurd rfl h) hd]
    have hj : s.join=s := if_neg (by omega)
    simp only [Syn.effect,hj,hz,Syn.written,Syn.natom]
  | more c a ihc iha =>
    intro s hl hd
    simp only [Syn.depth] at hd
    have hn := c.natom_pos
    rw [Syn.print,steps_append,ihc s hl (by omega),Option.bind_some,
      iha _ (fun h => absurd rfl h) (by simp only [Syn.effect]; omega)]
    simp only [Syn.effect,Syn.written,Syn.natom]
    cases c with
    | one b => simp [Parse.join,Syn.natom,Syn.written,Syn.post]
    | more c b => simp [Parse.join,Syn.natom,Syn.written,Syn.post]
  | single c ih =>
    intro s hl hd
    rw [Syn.print,ih s (fun _ => hl Level.noConfusion) hd]
    rfl
  | bar c a ihc iha =>
    intro s hl hd
    simp only [Syn.depth] at hd
    have hn := c.natom_pos
    rw [Syn.print,steps_append,ihc s (fun _ => hl Level.noConfusion) (by omega),
      Option.bind_some,←List.singleton_append,steps_append,steps_singleton,
      step_bar (by simp only [Syn.effect]; omega),Option.bind_some,
      iha _ (fun _ => rfl) (by simp only [Syn.effect]; omega)]
    simp only [Syn.effect,Parse.joined,Syn.written,Syn.natom,Syn.nalt,List.append_assoc]
    rw [←c.post_cat]
    simp only [List.append_assoc,Nat.add_assoc,Nat.add_comm 1]

/-- An expression whose parentheses do not fit is rejected. -/
theorem steps_deep {l : Level} (x : Syn l) : ∀ s : Parse,
    (l ≠ .atom → s.natom=0) → s.paren.length ≤ parenSize →
    parenSize < s.paren.length+x.depth → steps s x.print=none := by
  induction x with
  | lit c h =>
    intro s _ hs hd
    simp only [Syn.depth] at hd
    omega
  | group a ih =>
    intro s _ hs hd
    simp only [Syn.depth] at hd
    rw [Syn.print,←List.singleton_append,steps_append,steps_singleton]
    by_cases hf : s.paren.length < parenSize
    · rw [step_open hf,Option.bind_some,steps_append,
        ih _ (fun _ => rfl) (by simp only [List.length_cons]; omega)
          (by simp only [List.length_cons]; omega),Option.bind_none]
    · rw [step,if_pos rfl,if_pos (by omega),Option.bind_none]
  | rep op a ih =>
    intro s hl hs hd
    rw [Syn.print,steps_append,ih s hl hs hd,Option.bind_none]
  | one a ih =>
    intro s _ hs hd
    exact ih s (fun h => absurd rfl h) hs hd
  | more c a ihc iha =>
    intro s hl hs hd
    simp only [Syn.depth] at hd
    rw [Syn.print,steps_append]
    by_cases hc : s.paren.length+c.depth ≤ parenSize
    · rw [steps_print c s hl hc,Option.bind_some]
      exact iha _ (fun h => absurd rfl h) hs (by simp only [Syn.effect]; omega)
    · rw [ihc s hl hs (by omega),Option.bind_none]
  | single c ih =>
    intro s hl hs hd
    exact ih s (fun _ => hl Level.noConfusion) hs hd
  | bar c a ihc iha =>
    intro s hl hs hd
    simp only [Syn.depth] at hd
    rw [Syn.print,steps_append]
    by_cases hc : s.paren.length+c.depth ≤ parenSize
    · have hn := c.natom_pos
      rw [steps_print c s (fun _ => hl Level.noConfusion) hc,Option.bind_some,
        ←List.singleton_append,steps_append,steps_singleton,
        step_bar (by simp only [Syn.effect]; omega),Option.bind_some]
      exact iha _ (fun _ => rfl) hs (by simp only [Syn.effect]; omega)
    · rw [ihc s (fun _ => hl Level.noConfusion) hs (by omega),Option.bind_none]

/-- A short pattern is read as its effect. -/
theorem finish_effect (a : Syn .alt) (h : a.print.length < 4000) (hd : a.depth ≤ parenSize) :
    re2post a.print=finish (a.effect .init) := by
  rw [re2post_eq_steps h,steps_print a .init (fun _ => rfl)
    (by simpa only [Parse.init,List.length_nil,Nat.zero_add] using hd)]
  rfl

/-- A pattern is converted exactly when it is short and not too deep. -/
theorem re2post_print (a : Syn .alt) :
    re2post a.print=if a.print.length < 4000 ∧ a.depth ≤ 100 then .post a.post else .null := by
  by_cases h : a.print.length < 4000
  · by_cases hd : a.depth ≤ 100
    · rw [if_pos ⟨h,hd⟩,finish_effect a h hd]
      have ho := re2post_ne_outside a.print
      rw [finish_effect a h hd] at ho
      simp only [finish,Syn.effect,Parse.init,Parse.joined,Nat.zero_add,List.nil_append,
        a.post_alt,if_true] at ho ⊢
      split
      · rfl
      · next hl => simp [hl] at ho
    · rw [if_neg (by tauto),re2post_eq_steps h,
        steps_deep a .init (fun _ => rfl) (Nat.zero_le _)
          (by simp only [Parse.init,parenSize,List.length_nil]; omega)]
      rfl
  · rw [if_neg (by tauto),re2post,if_pos (by simp only [bufSize]; omega)]

/-! ## What is read -/

/-- What has been read behind an open parenthesis. -/
structure Open where
  /-- The finished alternatives. -/
  alts : List (Syn .cat)
  /-- The unfinished alternative. -/
  cur : Option (Syn .cat)

namespace Open

/-- The text of the finished alternatives. -/
def bars (alts : List (Syn .cat)) : List UInt8 := alts.flatMap fun c => c.print++[124]

/-- The text behind the parenthesis. -/
def text (o : Open) : List UInt8 := bars o.alts++o.cur.elim [] Syn.print

/-- A further atom. -/
def push (o : Open) (a : Syn .atom) : Open :=
  {o with cur := some (o.cur.elim (.one a) (.more · a))}

/-- One atom more. -/
theorem text_push (o : Open) (a : Syn .atom) : (o.push a).text=o.text++a.print := by
  cases h : o.cur with
  | none => simp [text,push,h,Syn.print]
  | some c => simp [text,push,h,Syn.print]

/-- A repetition of the last atom. -/
def repLast (op : Rep) : Syn .cat → Syn .cat
  | .one a => .one (.rep op a)
  | .more c a => .more c (.rep op a)

/-- A repetition of the last atom. -/
theorem print_repLast (op : Rep) (c : Syn .cat) : (repLast op c).print=c.print++[op.char] := by
  cases c with
  | one a => rfl
  | more c a => simp only [repLast,Syn.print,List.append_assoc]

/-- The alternation of some alternatives. -/
def toAlt : List (Syn .cat) → Syn .cat → Syn .alt
  | [],c => .single c
  | b::bs,c => .bar b (toAlt bs c)

/-- Alternatives one behind the other. -/
theorem print_toAlt (alts : List (Syn .cat)) (c : Syn .cat) :
    (toAlt alts c).print=bars alts++c.print := by
  induction alts with
  | nil => rfl
  | cons b bs ih =>
    simp only [toAlt,Syn.print,ih,bars,List.flatMap_cons,List.append_assoc,
      List.cons_append,List.nil_append]

end Open

/-- The text of the open parentheses, the innermost first. -/
def textOf : Open → List Open → List UInt8
  | o,[] => o.text
  | o,o1::os => textOf o1 os++40::o.text

/-- The text of the open parentheses grows at its end. -/
theorem textOf_congr {o o1 : Open} {x : List UInt8} (h : o1.text=o.text++x) (os : List Open) :
    textOf o1 os=textOf o os++x := by
  cases os with
  | nil => exact h
  | cons _ _ => simp only [textOf,h,List.append_assoc,List.cons_append]

/-- The variables after the text of some open parentheses. -/
structure Reads (s : Parse) (re : List UInt8) (o : Open) (os : List Open) : Prop where
  /-- The text. -/
  text : re=textOf o os
  /-- One saved pair for each outer parenthesis. -/
  paren : os.length=s.paren.length
  /-- The counter of atoms. -/
  natom : s.natom=0 ↔ o.cur=none

/-- One step reads one character. -/
theorem Reads.step {s s1 : Parse} {re : List UInt8} {o : Open} {os : List Open} {c : UInt8}
    (h : Reads s re o os) (hs : step s c=some s1) : ∃ o1 os1,Reads s1 (re++[c]) o1 os1 := by
  unfold StudyCode.Re2Post.step at hs
  split at hs
  · next hc =>
    split at hs
    · cases hs
    · cases hs
      refine ⟨⟨[],none⟩,o::os,?_,?_,?_⟩
      · simp [textOf,Open.text,Open.bars,h.text,hc]
      · simp only [List.length_cons,h.paren]
      · simp
  · split at hs
    · next hc =>
      split at hs
      · cases hs
      · next hn =>
        cases hs
        obtain ⟨c1,hc1⟩ := Option.ne_none_iff_exists'.1 fun he => hn (h.natom.2 he)
        refine ⟨⟨o.alts++[c1],none⟩,os,?_,h.paren,by simp⟩
        rw [textOf_congr (o := o) (x := [c]),h.text]
        simp [Open.text,Open.bars,hc1,hc]
    · split at hs
      · next hc =>
        split at hs
        · cases hs
        · next hp =>
          split at hs
          · cases hs
          · next hn =>
            cases hs
            obtain ⟨c1,hc1⟩ := Option.ne_none_iff_exists'.1 fun he => hn (h.natom.2 he)
            have hlen := h.paren
            rw [hp] at hlen
            cases os with
            | nil => cases hlen
            | cons o1 os =>
              refine ⟨o1.push (.group (Open.toAlt o.alts c1)),os,?_,?_,?_⟩
              · rw [textOf_congr (Open.text_push o1 _),h.text]
                simp [textOf,Open.text,hc1,hc,Syn.print,Open.print_toAlt]
              · simpa using hlen
              · simp [Open.push]
      · split at hs
        · next hc =>
          split at hs
          · cases hs
          · next hn =>
            cases hs
            obtain ⟨c1,hc1⟩ := Option.ne_none_iff_exists'.1 fun he => hn (h.natom.2 he)
            obtain ⟨op,rfl⟩ : ∃ op : Rep,c=op.char := by
              obtain rfl|rfl|rfl := hc
              · exact ⟨.star,rfl⟩
              · exact ⟨.plus,rfl⟩
              · exact ⟨.quest,rfl⟩
            refine ⟨{o with cur := some (Open.repLast op c1)},os,?_,h.paren,by simp [hn]⟩
            rw [textOf_congr (o := o) (x := [op.char]),h.text]
            simp [Open.text,hc1,Open.print_repLast]
        · next h1 h2 h3 h4 =>
          cases hs
          have hord : ordinary c=true := by simp [ordinary]; tauto
          refine ⟨o.push (.lit c hord),os,?_,?_,by simp [Open.push]⟩
          · rw [textOf_congr (Open.text_push o _),h.text]
            rfl
          · rw [h.paren,s.join_paren]

/-- What has been read is the text of some open parentheses. -/
theorem steps_reads {s : Parse} {re : List UInt8} (h : steps .init re=some s) :
    ∃ o os,Reads s re o os := by
  induction re using List.reverseRecOn generalizing s with
  | nil =>
    cases h
    exact ⟨⟨[],none⟩,[],rfl,rfl,by simp [Parse.init]⟩
  | append_singleton re c ih =>
    rw [steps_append,Option.bind_eq_some_iff] at h
    obtain ⟨s0,h0,h1⟩ := h
    rw [steps_singleton] at h1
    obtain ⟨o,os,hr⟩ := ih h0
    exact hr.step h1

/-- A pattern that is converted has closed its parentheses. -/
theorem finish_eq_post {s : Parse} {p : List UInt8} (h : finish s=.post p) :
    s.paren=[] ∧ p=s.joined++List.replicate s.nalt 124 := by
  unfold finish at h
  split at h
  · next hp =>
    simp only at h
    split at h
    · cases h
      exact ⟨hp,rfl⟩
    · cases h
  · cases h

/-- So has any pattern that is converted. -/
theorem re2post_eq_post {re p : List UInt8} (h : re2post re=.post p) :
    ∃ s,steps .init re=some s ∧ s.paren=[] ∧ p=s.joined++List.replicate s.nalt 124 := by
  by_cases hl : re.length < 4000
  · rw [re2post_eq_steps hl] at h
    cases hs : steps .init re with
    | none => rw [hs] at h; cases h
    | some s =>
      rw [hs] at h
      exact ⟨s,rfl,finish_eq_post h⟩
  · rw [re2post,if_pos (by simp only [bufSize]; omega)] at h
    cases h

/-- The empty alternative behind a last bar is not noticed. -/
theorem steps_trailing {a : Syn .alt} {s : Parse} (h : steps .init (a.print++[124])=some s) :
    s.joined++List.replicate s.nalt 124=a.post++[124] := by
  rw [steps_append,Option.bind_eq_some_iff] at h
  obtain ⟨s0,h0,h1⟩ := h
  have hd : a.depth ≤ parenSize := by
    by_contra hd
    rw [steps_deep a .init (fun _ => rfl) (Nat.zero_le _)
      (by simp only [Parse.init,List.length_nil]; omega)] at h0
    cases h0
  rw [steps_print a .init (fun _ => rfl)
    (by simpa only [Parse.init,List.length_nil,Nat.zero_add] using hd)] at h0
  cases h0
  have hn := a.natom_pos
  rw [steps_singleton,step_bar (by simp only [Syn.effect]; omega)] at h1
  cases h1
  simp only [Parse.joined,Syn.effect,Parse.init,List.nil_append,Nat.zero_add,Nat.zero_sub,
    List.replicate_zero,List.append_nil,List.replicate_succ']
  rw [←a.post_alt]
  simp only [List.append_assoc]

/-- What is turned into a postfix form is an expression, the empty string, or
an expression with a bar behind it. -/
theorem shape_of_post {re p : List UInt8} (h : re2post re=.post p) :
    re=[] ∨ ∃ a : Syn .alt,(re=a.print ∧ p=a.post) ∨ (re=a.print++[124] ∧ p=a.post++[124]) := by
  obtain ⟨s,hs,hp,rfl⟩ := re2post_eq_post h
  obtain ⟨o,os,hr⟩ := steps_reads hs
  have hos : os=[] := by
    have hlen := hr.paren
    rw [hp] at hlen
    exact List.eq_nil_of_length_eq_zero hlen
  subst hos
  have ht := hr.text
  simp only [textOf,Open.text] at ht
  cases hc : o.cur with
  | some c =>
    refine .inr ⟨Open.toAlt o.alts c,.inl ⟨?_,?_⟩⟩
    · rw [ht,hc,Open.print_toAlt]
      rfl
    · have hre : re=(Open.toAlt o.alts c).print := by
        rw [ht,hc,Open.print_toAlt]
        rfl
      rw [hre,re2post_print] at h
      split at h
      · exact (Outcome.post.inj h).symm
      · cases h
  | none =>
    rw [hc] at ht
    simp only [Option.elim_none,List.append_nil] at ht
    obtain ha|⟨alts,c,ha⟩ := o.alts.eq_nil_or_concat
    · rw [ha] at ht
      exact .inl ht
    · have hre : re=(Open.toAlt alts c).print++[124] := by
        rw [ht,ha,Open.print_toAlt]
        simp [Open.bars]
      rw [hre] at hs
      exact .inr ⟨Open.toAlt alts c,.inr ⟨hre,steps_trailing hs⟩⟩

/-- The parser of the expressions: nothing is written outside of its buffer,
an expression within the limits becomes its postfix form, any other is
rejected, and what is accepted besides is the empty string or has a bar at its
end. -/
theorem re2post_parses :
    (∀ re,re2post re ≠ .outside) ∧
    (∀ a : Syn .alt,
      re2post a.print=if a.print.length < 4000 ∧ a.depth ≤ 100 then .post a.post else .null) ∧
    ∀ re p,re2post re=.post p →
      re=[] ∨ ∃ a : Syn .alt,(re=a.print ∧ p=a.post) ∨ (re=a.print++[124] ∧ p=a.post++[124]) :=
  ⟨re2post_ne_outside,re2post_print,fun _ _ => shape_of_post⟩

end StudyCode.Re2Post
