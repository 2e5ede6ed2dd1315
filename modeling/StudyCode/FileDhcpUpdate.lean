import StudyCode.FileDhcp

/-!
# What the update of dhcpd.conf replaces

The loop writes each part of a configuration file on its own: a part is
replaced from its first line on that contains the option text. The text of one
host is found in the head of another one when its module number continues the
number that is looked for.
-/

namespace StudyCode.FileDhcp

open TextLines

variable {u : Update} {t rest out : Text} {found : Bool} {s m : ℕ} {body : List Text}

/-! ## One line -/

/-- A short line is taken with its end. -/
theorem fgets_line {n : ℕ} (hn : '\n' ∉ t) (hl : t.length < n) :
    fgets n (t++ '\n'::rest)=(t++['\n'],rest) := by
  induction t generalizing n with
  | nil =>
    obtain ⟨n,rfl⟩ : ∃ j,n=j+1 := ⟨n-1,by have := hl; omega⟩
    exact if_pos rfl
  | cons c t ih =>
    rw [List.length_cons] at hl
    obtain ⟨n,rfl⟩ : ∃ j,n=j+1 := ⟨n-1,by omega⟩
    have hc : c≠ '\n' := fun h => hn (h ▸ List.mem_cons_self)
    rw [List.cons_append,fgets,if_neg hc,ih (fun h => hn (List.mem_cons_of_mem c h)) (by omega)]
    rfl

/-- Skipping ends behind the brace. -/
theorem skipBrace_eq (ht : '\x7d' ∉ t) : skipBrace (t++ '\x7d'::rest)=rest := by
  induction t with
  | nil => exact if_pos rfl
  | cons c t ih =>
    have hc : c≠ '\x7d' := fun h => ht (h ▸ List.mem_cons_self)
    rw [List.cons_append,skipBrace,if_neg hc,ih (fun h => ht (List.mem_cons_of_mem c h))]

/-- A line at which the block of an update is printed. -/
def Hit (u : Update) (t : Text) : Prop :=
  t.head?≠some '#' ∧ "host slot".toList <:+: t ∧ u.opt <:+: t

instance (u : Update) (t : Text) : Decidable (Hit u t) := inferInstanceAs (Decidable (_ ∧ _))

/-- The characters of a number are digits. -/
theorem digit_ne {n : ℕ} {c : Char} (hc : c ∈ dec n) : c.isDigit :=
  Nat.isDigit_of_mem_toDigits (by decide) (by decide) hc

/-- The option is one line. -/
theorem opt_newline (u : Update) : '\n' ∉ u.opt := by
  intro h
  unfold Update.opt readOption at h
  simp only [List.mem_append] at h
  rcases h with ((h|h)|h)|h
  · exact absurd h (by decide)
  · exact absurd (digit_ne h) (by decide)
  · exact absurd h (by decide)
  · exact absurd (digit_ne h) (by decide)

/-- The option is not empty. -/
theorem opt_ne_nil (u : Update) : u.opt≠[] := by
  unfold Update.opt readOption
  simp

/-- A word of one line is searched before its end. -/
theorem strstr_line {w : Text} (hw : '\n' ∉ w) (hne : w≠[]) :
    strstr (t++['\n']) w=decide (w <:+: t) := by
  unfold strstr
  exact decide_eq_decide.mpr (infix_concat hw hne)

/-- One round of the loop. -/
theorem rewriteLoop_of_fgets {opt config file line : Text} {c : Char}
    (h : fgets 127 file=(c::line,rest)) :
    rewriteLoop opt config file found out=
      if c= '\n' then rewriteLoop opt config rest found out
      else if c= '#' then rewriteLoop opt config rest found (out++c::line)
      else if !strstr (c::line) "host slot".toList then
        rewriteLoop opt config rest found (out++c::line)
      else if !strstr (c::line) opt then rewriteLoop opt config rest found (out++c::line)
      else rewriteLoop opt config (skipBrace rest) true (out++config) := by
  rw [rewriteLoop]
  split
  · rename_i h2
    rw [h] at h2
    cases h2
  · rename_i c2 line2 rest2 h2
    rw [h] at h2
    obtain ⟨⟨rfl,rfl⟩,rfl⟩ : (c=c2 ∧ line=line2) ∧ rest=rest2 := by
      rw [Prod.mk.injEq,List.cons.injEq] at h2
      exact h2
    rfl

/-- One round of the loop on a line. -/
theorem rewriteLoop_line (ht : LineOk t) :
    rewriteLoop u.opt u.config (t++ '\n'::rest) found out=
      if t=[] then rewriteLoop u.opt u.config rest found out
      else if Hit u t then rewriteLoop u.opt u.config (skipBrace rest) true (out++u.config)
      else rewriteLoop u.opt u.config rest found (out++(t++['\n'])) := by
  cases t with
  | nil =>
    have hget : fgets 127 ([]++ '\n'::rest)=(['\n'],rest) := fgets_line ht.newline ht.short
    rw [rewriteLoop_of_fgets hget,if_pos rfl,if_pos rfl]
  | cons c t =>
    have hget : fgets 127 (c::t++ '\n'::rest)=(c::(t++['\n']),rest) :=
      fgets_line ht.newline ht.short
    have hc : c≠ '\n' := fun h => ht.newline (h ▸ List.mem_cons_self)
    rw [rewriteLoop_of_fgets hget,if_neg hc,if_neg (List.cons_ne_nil c t)]
    have hhost : strstr (c::(t++['\n'])) "host slot".toList=
        decide ("host slot".toList <:+: c::t) :=
      strstr_line (t:=c::t) (w:="host slot".toList) (by decide) (by decide)
    have hopt : strstr (c::(t++['\n'])) u.opt=decide (u.opt <:+: c::t) :=
      strstr_line (t:=c::t) (opt_newline u) (opt_ne_nil u)
    rw [hhost,hopt]
    by_cases h1 : c= '#'
    · rw [if_pos h1,if_neg (fun h : Hit u (c::t) => h.1 (congrArg some h1))]
      rfl
    · rw [if_neg h1]
      have hne : (c::t).head?≠some '#' := fun h => h1 (Option.some.inj h)
      by_cases h2 : "host slot".toList <:+: c::t
      · rw [decide_eq_true h2,if_neg (by decide)]
        by_cases h3 : u.opt <:+: c::t
        · rw [decide_eq_true h3,if_neg (by decide),if_pos (show Hit u (c::t) from ⟨hne,h2,h3⟩)]
        · rw [decide_eq_false h3,if_pos (by decide),if_neg (fun h : Hit u (c::t) => h3 h.2.2)]
          rfl
      · rw [decide_eq_false h2,if_pos (by decide),if_neg (fun h : Hit u (c::t) => h2 h.2.1)]
        rfl

/-! ## Blocks -/

/-- What the loop writes for the inner lines of a block. -/
def bodyWritten (u : Update) : List Text → List Text
  | [] => [brace]
  | t::body => if Hit u t then u.inner++[brace] else nonblank [t]++bodyWritten u body

/-- What the loop writes for a part of the file. -/
def Item.written (u : Update) : Item → List Text
  | .line t => nonblank [t]
  | .block s m body =>
    if Hit u (header s m) then u.inner++[brace] else header s m::bodyWritten u body

/-- Whether the loop finds the host in a part of the file. -/
def Item.finds (u : Update) : Item → Bool
  | .line _ => false
  | .block s m body => decide (Hit u (header s m)) || body.any fun t => decide (Hit u t)

/-- The text of an update is its lines. -/
theorem config_eq (u : Update) : u.config=unlines '\n' (u.inner++[brace]) := by
  unfold Update.config writeConfigInfo Update.inner header brace
  simp [unlines]
  rfl

/-- The closing line fits. -/
theorem brace_ok : LineOk brace := ⟨by decide,by decide,by decide⟩

/-- A blank line fits. -/
theorem nil_ok : LineOk [] := ⟨by decide,by decide,by decide⟩

/-- The closing line is not found. -/
theorem brace_not_hit (u : Update) : ¬Hit u brace := by
  rintro ⟨-,h,-⟩
  exact absurd h (by decide)

/-- A blank line is not found. -/
theorem nil_not_hit (u : Update) : ¬Hit u [] := by
  rintro ⟨-,h,-⟩
  exact absurd h (by decide)

/-- Lines without a brace give a text without one. -/
theorem unlines_brace {ls : List Text} (h : ∀ t ∈ ls,'\x7d' ∉ t) : '\x7d' ∉ unlines '\n' ls := by
  induction ls with
  | nil => exact List.not_mem_nil
  | cons t ls ih =>
    rw [unlines_cons,List.mem_append,List.mem_cons]
    rintro (h1|h1|h1)
    · exact h t List.mem_cons_self h1
    · exact absurd h1 (by decide)
    · exact ih (fun x hx => h x (List.mem_cons_of_mem t hx)) h1

/-- The rest of a replaced block is skipped. -/
theorem rewriteLoop_skip (h : ∀ t ∈ body,'\x7d' ∉ t) :
    rewriteLoop u.opt u.config (skipBrace (unlines '\n' (body++[brace])++rest)) found out=
      rewriteLoop u.opt u.config rest found out := by
  have hs : skipBrace (unlines '\n' (body++[brace])++rest)= '\n'::rest := by
    rw [unlines_append,List.append_assoc]
    exact skipBrace_eq (unlines_brace h)
  rw [hs]
  exact (rewriteLoop_line nil_ok).trans (if_pos rfl)

/-- A blank line is dropped from the text. -/
theorem unlines_nonblank (t : Text) :
    unlines '\n' (nonblank [t])=if t=[] then [] else t++['\n'] := by
  cases t with
  | nil => rfl
  | cons c t => exact List.append_nil _

/-- A line at which nothing is printed but itself. -/
theorem rewriteLoop_keep (ht : LineOk t) (hh : ¬Hit u t) :
    rewriteLoop u.opt u.config (t++ '\n'::rest) found out=
      rewriteLoop u.opt u.config rest found (out++unlines '\n' (nonblank [t])) := by
  rw [rewriteLoop_line ht,unlines_nonblank]
  by_cases h0 : t=[]
  · rw [if_pos h0,if_pos h0,List.append_nil]
  · rw [if_neg h0,if_neg h0,if_neg hh]

/-- The inner lines of a block whose head is kept. -/
theorem rewriteLoop_body (h : ∀ t ∈ body,LineOk t ∧ '\x7d' ∉ t) :
    rewriteLoop u.opt u.config (unlines '\n' (body++[brace])++rest) found out=
      rewriteLoop u.opt u.config rest (found || body.any fun t => decide (Hit u t))
        (out++unlines '\n' (bodyWritten u body)) := by
  induction body generalizing out with
  | nil =>
    rw [List.any_nil,Bool.or_false]
    exact rewriteLoop_keep brace_ok (brace_not_hit u)
  | cons t body ih =>
    have ht := (h t List.mem_cons_self).1
    have hrest : ∀ t ∈ body,LineOk t ∧ '\x7d' ∉ t := fun x hx => h x (List.mem_cons_of_mem t hx)
    rw [List.cons_append,unlines_cons,List.append_assoc,List.cons_append,List.any_cons,bodyWritten]
    by_cases hh : Hit u t
    · have hne : t≠[] := by
        rintro rfl
        exact nil_not_hit u hh
      rw [rewriteLoop_line ht,if_neg hne,if_pos hh,rewriteLoop_skip (fun x hx => (hrest x hx).2),
        if_pos hh,decide_eq_true hh,Bool.true_or,Bool.or_true,config_eq]
    · rw [rewriteLoop_keep ht hh,ih hrest,if_neg hh,decide_eq_false hh,Bool.false_or,
        unlines_append,List.append_assoc]

/-- A header is not blank. -/
theorem header_ne_nil (s m : ℕ) : header s m≠[] := by
  unfold header
  simp

/-- The characters of the option that is read. -/
theorem readOption_digit {c : Char} (h : c ∈ readOption s m) :
    c ∈ "slot_module".toList ∨ c.isDigit := by
  have hslot : "slot".toList ⊆ "slot_module".toList := by decide
  have hmodule : "_module".toList ⊆ "slot_module".toList := by decide
  unfold readOption at h
  simp only [List.mem_append] at h
  rcases h with ((h|h)|h)|h
  · exact Or.inl (hslot h)
  · exact Or.inr (digit_ne h)
  · exact Or.inl (hmodule h)
  · exact Or.inr (digit_ne h)

/-- The characters of a header. -/
theorem header_char {c : Char} (h : c ∈ header s m) :
    c ∈ "host slot_module\x7b".toList ∨ c.isDigit := by
  have hhost : "host ".toList ⊆ "host slot_module\x7b".toList := by decide
  have hoption : "slot_module".toList ⊆ "host slot_module\x7b".toList := by decide
  have hbrace : " \x7b".toList ⊆ "host slot_module\x7b".toList := by decide
  unfold header at h
  simp only [List.mem_append] at h
  rcases h with (h|h)|h
  · exact Or.inl (hhost h)
  · rcases readOption_digit h with h|h
    · exact Or.inl (hoption h)
    · exact Or.inr h
  · exact Or.inl (hbrace h)

/-- A short header fits. -/
theorem header_ok (h : (header s m).length < 127) : LineOk (header s m) := by
  constructor
  · intro hn
    exact absurd (header_char hn) (by decide)
  · intro hn
    exact absurd (header_char hn) (by decide)
  · exact h

/-- The loop writes each part of a file on its own. -/
theorem rewriteLoop_item {it : Item} (h : it.Ok) :
    rewriteLoop u.opt u.config (unlines '\n' it.lines++rest) found out=
      rewriteLoop u.opt u.config rest (found || it.finds u) (out++unlines '\n' (it.written u)) := by
  cases it with
  | line t =>
    have hh : ¬Hit u t := by
      rintro ⟨h1,h2,-⟩
      rcases h.2 with h3|h3
      · exact h1 h3
      · exact h3 h2
    show rewriteLoop u.opt u.config (unlines '\n' [t]++rest) found out=_
    rw [unlines_cons,unlines_nil,List.append_assoc,List.cons_append,List.nil_append,
      rewriteLoop_keep h.1 hh]
    rw [Item.finds,Bool.or_false,Item.written]
  | block s m body =>
    have hok := header_ok h.1
    show rewriteLoop u.opt u.config (unlines '\n' (header s m::(body++[brace]))++rest) found out=_
    rw [unlines_cons,List.append_assoc,List.cons_append,Item.finds,Item.written]
    by_cases hh : Hit u (header s m)
    · rw [rewriteLoop_line hok,if_neg (header_ne_nil s m),if_pos hh,
        rewriteLoop_skip (fun x hx => (h.2 x hx).2),if_pos hh,decide_eq_true hh,Bool.true_or,
        Bool.or_true,config_eq]
    · rw [rewriteLoop_line hok,if_neg (header_ne_nil s m),if_neg hh,rewriteLoop_body h.2,if_neg hh,
        decide_eq_false hh,Bool.false_or,unlines_cons,List.append_assoc,List.append_assoc]
      rfl

/-- The loop on a whole file. -/
theorem rewriteLoop_items {items : List Item} (h : ∀ it ∈ items,it.Ok) :
    rewriteLoop u.opt u.config (unlines '\n' (items.flatMap Item.lines)) found out=
      (found || items.any (Item.finds u),out++unlines '\n' (items.flatMap (Item.written u))) := by
  induction items generalizing found out with
  | nil =>
    rw [List.flatMap_nil,List.flatMap_nil,unlines_nil,List.any_nil,Bool.or_false,List.append_nil,
      rewriteLoop]
    rfl
  | cons it items ih =>
    rw [List.flatMap_cons,unlines_append,rewriteLoop_item (h it List.mem_cons_self),
      ih (fun x hx => h x (List.mem_cons_of_mem it hx)),List.any_cons,Bool.or_assoc,
      List.flatMap_cons,unlines_append,List.append_assoc]

/-- The result of an update when the file operations succeed. -/
theorem update_eq (c : Config) (u : Update) :
    updateDhcpdConfFile ⟨true,true,true⟩ u c.text=
      (0,unlines '\n' (c.items.flatMap (Item.written u)++
        if c.items.any (Item.finds u) then [] else u.inner++[brace])) := by
  unfold updateDhcpdConfFile Config.text
  rw [if_neg (by decide),if_neg (by decide),if_neg (by decide)]
  dsimp only
  rw [rewriteLoop_items c.ok,Bool.false_or,List.nil_append]
  cases c.items.any (Item.finds u) with
  | true => rw [if_pos rfl,if_pos rfl,List.append_nil]
  | false =>
    rw [if_neg Bool.false_ne_true,if_neg Bool.false_ne_true,config_eq]
    exact congrArg (Prod.mk 0) unlines_append.symm

end StudyCode.FileDhcp
