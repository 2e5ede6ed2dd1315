import StudyCode.FileDhcpUpdate

/-!
# When the update of dhcpd.conf touches one host only

The text of one host is found in the head of another one exactly when the slots
agree and the other module number continues the number that is looked for. The
update does what it should exactly when no other block is found.
-/

namespace StudyCode.FileDhcp

open TextLines

variable {u : Update} {t : Text} {s m S M : ℕ} {body : List Text} {c : Config}

/-! ## Heads -/

/-- Numbers with the same digits are equal. -/
theorem dec_inj (h : dec s=dec m) : s=m := by
  have h2 := congrArg (fun ds => Nat.ofDigitChars 10 ds 0) h
  simpa only [dec,Nat.ofDigitChars_ten_toDigits] using h2

/-- Digits only. -/
theorem not_mem_dec {c : Char} (hc : c.isDigit=false) (n : ℕ) : c ∉ dec n := by
  intro h
  rw [digit_ne h] at hc
  cases hc

/-- A number that is a prefix of a number and a text after it is a prefix of the
number. -/
theorem dec_starts {c : Char} (hc : c.isDigit=false) {q : Text} :
    dec m <+: dec M++c::q ↔ dec m <+: dec M := by
  constructor
  · intro h
    rcases List.prefix_or_prefix_of_prefix h (List.prefix_append (dec M) (c::q)) with h2|⟨r,hr⟩
    · exact h2
    · cases r with
      | nil =>
        rw [List.append_nil] at hr
        exact ⟨[],by rw [List.append_nil,hr]⟩
      | cons d r =>
        obtain ⟨z,hz⟩ := h
        rw [←hr,List.append_assoc,List.append_cancel_left_eq] at hz
        obtain ⟨rfl,-⟩ := List.cons.inj hz
        have hmem : d ∈ dec m := hr ▸ List.mem_append_right _ List.mem_cons_self
        exact absurd hmem (not_mem_dec hc m)
  · exact fun h => h.trans (List.prefix_append _ _)

/-- The header of a host around its numbers. -/
theorem header_eq (s m : ℕ) :
    header s m=
      ("host slo".toList++ 't'::dec s)++ '_'::("module".toList++(dec m++ " \x7b".toList)) := by
  unfold header readOption
  simp

/-- The option that is read around its numbers. -/
theorem readOption_eq (s m : ℕ) :
    readOption s m=("slo".toList++ 't'::dec s)++ '_'::("module".toList++dec m) := by
  unfold readOption
  simp

/-- The first number ends at an underscore. -/
theorem underscore_not_mem {w : Text} (hw : '_' ∉ w) (n : ℕ) : '_' ∉ w++ 't'::dec n := by
  rw [List.mem_append,List.mem_cons]
  rintro (h|h|h)
  · exact hw h
  · exact absurd h (by decide)
  · exact not_mem_dec (by decide) n h

/-- Where the option text of an update is found in a head. -/
theorem opt_infix_header :
    readOption s m <:+: header S M ↔ s=S ∧ dec m <+: dec M := by
  have hS := underscore_not_mem (w:="host slo".toList) (by decide) S
  have htail : '_' ∉ "module".toList++(dec M++ " \x7b".toList) := by
    rw [List.mem_append,List.mem_append]
    rintro (h|h|h)
    · exact absurd h (by decide)
    · exact not_mem_dec (by decide) M h
    · exact absurd h (by decide)
  constructor
  · rintro ⟨p,q,h⟩
    rw [readOption_eq,header_eq] at h
    have h2 : (p++("slo".toList++ 't'::dec s))++ '_'::("module".toList++(dec m++q))=
        ("host slo".toList++ 't'::dec S)++ '_'::("module".toList++(dec M++ " \x7b".toList)) := by
      rw [←h]
      simp only [List.append_assoc,List.cons_append]
    have hp : '_' ∉ p++("slo".toList++ 't'::dec s) := by
      intro hmem
      obtain ⟨p1,p2,hp1⟩ := List.append_of_mem hmem
      have hcount := congrArg (List.count '_') h2
      rw [hp1] at hcount
      simp only [List.count_append,List.count_cons_self,List.count_eq_zero_of_not_mem htail,
        List.count_eq_zero_of_not_mem hS] at hcount
      omega
    obtain ⟨h3,h4⟩ := (append_cons_inj hp hS).mp h2
    have h5 : dec m++q=dec M++ " \x7b".toList := List.append_cancel_left h4
    rw [←List.append_assoc] at h3
    have h6 := (append_cons_inj_last (not_mem_dec (by decide) s) (not_mem_dec (by decide) S)).mp h3
    exact ⟨dec_inj h6.2,(dec_starts (by decide)).mp ⟨q,h5⟩⟩
  · rintro ⟨rfl,⟨r,hr⟩⟩
    refine ⟨"host ".toList,r++ " \x7b".toList,?_⟩
    rw [readOption_eq,header_eq,←hr]
    simp

/-- The head of a block is found exactly when the slots agree and the module
number continues the number that is looked for. -/
theorem hit_header_iff : Hit u (header S M) ↔ u.slotId=S ∧ dec u.moduleId <+: dec M := by
  rw [←opt_infix_header]
  constructor
  · exact fun h => h.2.2
  · intro h
    refine ⟨?_,?_,h⟩
    · have hhead : (header S M).head?=some 'h' := rfl
      rw [hhead]
      decide
    · refine ⟨[],dec S++ '_'::("module".toList++(dec M++ " \x7b".toList)),?_⟩
      rw [header_eq]
      simp

/-- Hosts with the same header are equal. -/
theorem header_inj (h : header s m=header S M) : s=S ∧ m=M := by
  rw [header_eq,header_eq,append_cons_inj (underscore_not_mem (by decide) s)
    (underscore_not_mem (by decide) S)] at h
  have h1 : dec s=dec S := List.cons.inj (List.append_cancel_left h.1) |>.2
  have h2 : dec m=dec M := List.append_cancel_right (List.append_cancel_left h.2)
  exact ⟨dec_inj h1,dec_inj h2⟩

/-- The header of a host is found for it. -/
theorem hit_header_self : Hit u (header u.slotId u.moduleId) :=
  hit_header_iff.mpr ⟨rfl,List.prefix_rfl⟩

/-! ## The printed lines -/

/-- A line that can stand inside of a block. -/
def InnerOk (t : Text) : Prop := LineOk t ∧ '\x7d' ∉ t

/-- The digits of a small number. -/
theorem length_dec {n k : ℕ} (hk : 0 < k) (h : n < 10^k) : (dec n).length ≤ k :=
  (Nat.length_toDigits_le_iff (by decide) hk).mpr h

/-- The header of a host fits into a line. -/
theorem length_header (hs : s < 2^31) (hm : m < 2^31) : (header s m).length < 127 := by
  have h1 := length_dec (n:=s) (k:=10) (by decide) (by omega)
  have h2 := length_dec (n:=m) (k:=10) (by decide) (by omega)
  unfold header readOption
  simp only [List.length_append]
  have h3 : "host ".toList.length=5 := by decide
  have h4 : "slot".toList.length=4 := by decide
  have h5 : "_module".toList.length=7 := by decide
  have h6 : " \x7b".toList.length=2 := by decide
  omega

/-- A byte is two hexadecimal digits. -/
theorem hex2_char {b : UInt8} {c : Char} (h : c ∈ hex2 b) : c ∈ "0123456789abcdef".toList := by
  have hdigit : ∀ n < 16,Nat.digitChar n ∈ "0123456789abcdef".toList := by decide
  have hb := b.toNat_lt
  unfold hex2 at h
  rcases List.mem_cons.mp h with rfl|h
  · exact hdigit _ (by omega)
  · rw [List.mem_singleton.mp h]
    exact hdigit _ (by omega)

/-- The characters of an address of a card. -/
theorem macString_char {mac : Fin 6 → UInt8} {c : Char} (h : c ∈ macString mac) :
    c ∈ "0123456789abcdef:".toList := by
  have hsub : "0123456789abcdef".toList ⊆ "0123456789abcdef:".toList := by decide
  have hcolon : ':' ∈ "0123456789abcdef:".toList := by decide
  unfold macString at h
  simp only [List.mem_append,List.mem_cons,List.append_assoc,List.cons_append] at h
  rcases h with h|rfl|h|rfl|h|rfl|h|rfl|h|rfl|h
  all_goals first | exact hcolon | exact hsub (hex2_char h)

/-- The characters of an address. -/
theorem inetNtoa_char {ip : UInt32} {c : Char} (h : c ∈ inetNtoa ip) : c= '.' ∨ c.isDigit := by
  unfold inetNtoa at h
  simp only [List.mem_append,List.mem_cons,List.append_assoc,List.cons_append] at h
  rcases h with h|h|h|h|h|h|h
  all_goals first | exact Or.inl h | exact Or.inr (digit_ne h)

/-- A character that is no newline, no NUL and no closing brace. -/
def Plain (c : Char) : Prop := c≠ '\n' ∧ c≠ '\x00' ∧ c≠ '\x7d'

instance (c : Char) : Decidable (Plain c) := inferInstanceAs (Decidable (_ ∧ _))

/-- A digit is plain. -/
theorem plain_of_isDigit {c : Char} (h : c.isDigit=true) : Plain c := by
  refine ⟨?_,?_,?_⟩ <;> rintro rfl <;> exact absurd h (by decide)

/-- A text that was tested is plain. -/
theorem plain_of_all {w : Text} (h : (w.all fun c => decide (Plain c))=true) : ∀ c ∈ w,Plain c :=
  fun c hc => of_decide_eq_true (List.all_eq_true.mp h c hc)

/-- Plain characters and digits are plain. -/
theorem plain_of_mem {w : Text} (hw : ∀ c ∈ w,Plain c) {c : Char} (h : c ∈ w ∨ c.isDigit=true) :
    Plain c := h.elim (hw c) plain_of_isDigit

/-- A short plain line may stand in a block. -/
theorem innerOk_of_plain (h : ∀ c ∈ t,Plain c) (hl : t.length < 127) : InnerOk t :=
  ⟨⟨fun hc => (h _ hc).1 rfl,fun hc => (h _ hc).2.1 rfl,hl⟩,fun hc => (h _ hc).2.2 rfl⟩

/-- A header may stand in a block. -/
theorem innerOk_header (h : (header s m).length < 127) : InnerOk (header s m) :=
  innerOk_of_plain (fun _ hc => plain_of_mem (plain_of_all (by decide)) (header_char hc)) h

/-- A line that is a fixed text, a value and a semicolon. -/
theorem innerOk_value {w v : Text} (hw : ∀ c ∈ w,Plain c) (hv : ∀ c ∈ v,Plain c)
    (hl : w.length+v.length < 125) : InnerOk (w++ ' '::v++[';']) := by
  refine innerOk_of_plain ?_ ?_
  · intro c hc
    rw [List.mem_append,List.mem_append,List.mem_cons,List.mem_singleton] at hc
    rcases hc with (h|rfl|h)|rfl
    · exact hw c h
    · decide
    · exact hv c h
    · decide
  · rw [List.length_append,List.length_append,List.length_cons,List.length_singleton]
    omega

/-- The length of an address of a card. -/
theorem length_macString (mac : Fin 6 → UInt8) : (macString mac).length=17 := rfl

/-- The length of an address. -/
theorem length_inetNtoa (ip : UInt32) : (inetNtoa ip).length ≤ 15 := by
  have hpart : ∀ n < 256,(dec n).length ≤ 3 := fun n hn => length_dec (by decide) (by omega)
  have h1 := hpart (ip.toNat/2^24%256) (Nat.mod_lt _ (by decide))
  have h2 := hpart (ip.toNat/2^16%256) (Nat.mod_lt _ (by decide))
  have h3 := hpart (ip.toNat/2^8%256) (Nat.mod_lt _ (by decide))
  have h4 := hpart (ip.toNat%256) (Nat.mod_lt _ (by decide))
  unfold inetNtoa
  simp only [List.length_append,List.length_cons]
  omega

/-- The printed lines can stand inside of a block. -/
theorem inner_ok (hs : u.slotId < 2^31) (hm : u.moduleId < 2^31) : ∀ t ∈ u.inner,InnerOk t := by
  have hmac : ∀ c ∈ macString u.mac,Plain c := fun c hc =>
    plain_of_all (w:="0123456789abcdef:".toList) (by decide) c (macString_char hc)
  have hip : ∀ c ∈ inetNtoa u.ipaddr,Plain c := by
    intro c hc
    rcases inetNtoa_char hc with rfl|h
    · decide
    · exact plain_of_isDigit h
  have hhard : hardAddr.length=21 := by decide
  have hfixed : fixedAddr.length=17 := by decide
  have hlen := length_macString u.mac
  have hlen2 := length_inetNtoa u.ipaddr
  intro t ht
  unfold Update.inner at ht
  simp only [List.mem_cons,List.not_mem_nil,or_false] at ht
  rcases ht with rfl|rfl|rfl|rfl|rfl
  · exact innerOk_header (length_header hs hm)
  · exact innerOk_value (plain_of_all (by decide)) hmac (by omega)
  · exact innerOk_value (plain_of_all (by decide)) hip (by omega)
  · exact innerOk_of_plain (plain_of_all (by decide)) (by decide)
  · exact innerOk_of_plain (plain_of_all (by decide)) (by decide)

/-! ## What is found -/

/-- The inner lines of a block from the first one on that is found. -/
def foundIn (u : Update) (body : List Text) : List Text :=
  body.dropWhile fun t => !decide (Hit u t)

/-- A line that is hit is found. -/
theorem foundIn_cons_hit (h : Hit u t) : foundIn u (t::body)=t::body := by
  unfold foundIn
  rw [List.dropWhile_cons,decide_eq_true h]
  rfl

/-- A line that is not hit is passed. -/
theorem foundIn_cons_not_hit (h : ¬Hit u t) : foundIn u (t::body)=foundIn u body := by
  unfold foundIn
  rw [List.dropWhile_cons,decide_eq_false h]
  rfl

/-- A line is hit exactly when one is found. -/
theorem any_hit_iff : (body.any fun t => decide (Hit u t))=true ↔ foundIn u body≠[] := by
  induction body with
  | nil => simp [foundIn]
  | cons t body ih =>
    rw [List.any_cons]
    by_cases h : Hit u t
    · simp [foundIn_cons_hit h,h]
    · rw [foundIn_cons_not_hit h,←ih,decide_eq_false h,Bool.false_or]

/-- When the inner lines of a block are kept. -/
theorem bodyWritten_iff :
    bodyWritten u body=nonblank body++[brace] ↔
      foundIn u body=[] ∨ nonblank (foundIn u body)=u.inner := by
  induction body with
  | nil => exact iff_of_true rfl (Or.inl rfl)
  | cons t body ih =>
    rw [bodyWritten]
    by_cases h : Hit u t
    · rw [if_pos h,foundIn_cons_hit h,List.append_cancel_right_eq]
      constructor
      · exact fun he => Or.inr he.symm
      · rintro (he|he)
        · exact absurd he (List.cons_ne_nil t body)
        · exact he.symm
    · have hsplit : nonblank (t::body)=nonblank [t]++nonblank body := List.filter_append [t] body
      rw [if_neg h,foundIn_cons_not_hit h,hsplit,List.append_assoc,List.append_cancel_left_eq,ih]

/-- A part is written as it should be. -/
theorem written_block_iff (hne : (S,M)≠(u.slotId,u.moduleId)) :
    (Item.block S M body).written u=(Item.block S M body).updated u ↔
      ¬(u.slotId=S ∧ dec u.moduleId <+: dec M) ∧
        (foundIn u body=[] ∨ nonblank (foundIn u body)=u.inner) := by
  rw [Item.written,Item.updated,if_neg hne,←hit_header_iff]
  by_cases h : Hit u (header S M)
  · rw [if_pos h]
    refine iff_of_false (fun he => hne ?_) (fun h2 => h2.1 h)
    obtain ⟨h1,h2⟩ := header_inj (List.cons.inj he).1
    rw [h1,h2]
  · rw [if_neg h,List.cons_append,List.cons_eq_cons,bodyWritten_iff]
    simp only [h,true_and,not_false_eq_true]

/-! ## Whole files -/

/-- The lines of a closed block: only the last one is the closing brace. -/
def Closed (ls : List Text) : Prop := ∃ w,ls=w++[brace] ∧ brace ∉ w

/-- A line of a block does not close it. -/
theorem InnerOk.ne_brace (h : InnerOk t) : t≠brace := by
  rintro rfl
  exact h.2 List.mem_cons_self

/-- The lines of an update close. -/
theorem closed_inner (hs : u.slotId < 2^31) (hm : u.moduleId < 2^31) : Closed (u.inner++[brace]) :=
  ⟨u.inner,rfl,fun h => (inner_ok hs hm _ h).ne_brace rfl⟩

/-- Lines that do not close in front of those that do. -/
theorem Closed.append_left {w ls : List Text} (hw : brace ∉ w) (h : Closed ls) : Closed (w++ls) := by
  obtain ⟨v,rfl,hv⟩ := h
  refine ⟨w++v,(List.append_assoc _ _ _).symm,?_⟩
  rw [List.mem_append]
  exact fun hmem => hmem.elim hw hv

/-- Dropping blank lines leaves no closing one. -/
theorem brace_not_mem_nonblank (h : ∀ t ∈ body,InnerOk t) : brace ∉ nonblank body :=
  fun hmem => (h _ (List.mem_of_mem_filter hmem)).ne_brace rfl

/-- A closing line closes. -/
theorem closed_brace : Closed [brace] := ⟨[],rfl,List.not_mem_nil⟩

/-- The lines that are written for a block close. -/
theorem closed_bodyWritten (hs : u.slotId < 2^31) (hm : u.moduleId < 2^31)
    (h : ∀ t ∈ body,InnerOk t) : Closed (bodyWritten u body) := by
  induction body with
  | nil => exact closed_brace
  | cons t body ih =>
    rw [bodyWritten]
    split
    · exact closed_inner hs hm
    · have ht : ∀ x ∈ [t],InnerOk x := fun x hx => h x (List.mem_singleton.mp hx ▸ List.mem_cons_self)
      exact (ih fun x hx => h x (List.mem_cons_of_mem t hx)).append_left (brace_not_mem_nonblank ht)

/-- A header does not close. -/
theorem header_not_brace (s m : ℕ) : brace ∉ [header s m] := by
  intro h
  have hhead : (header s m).head?=some 'h' := rfl
  rw [←List.mem_singleton.mp h] at hhead
  exact absurd hhead (by decide)

/-- The lines of a block are closed, as they are written and as they should be. -/
theorem Item.Ok.closed (hs : u.slotId < 2^31) (hm : u.moduleId < 2^31)
    (h : (Item.block S M body).Ok) :
    Closed ((Item.block S M body).written u) ∧ Closed ((Item.block S M body).updated u) := by
  constructor
  · rw [Item.written]
    split
    · exact closed_inner hs hm
    · exact (closed_bodyWritten hs hm h.2).append_left (header_not_brace S M)
  · rw [Item.updated]
    split
    · exact closed_inner hs hm
    · have h2 := closed_brace.append_left (brace_not_mem_nonblank h.2)
      rw [List.cons_append]
      exact h2.append_left (header_not_brace S M)

/-- Where closed lines end is determined. -/
theorem Closed.append_inj {v w x y : List Text} (hv : Closed v) (hw : Closed w) :
    v++x=w++y ↔ v=w ∧ x=y := by
  obtain ⟨v,rfl,hv⟩ := hv
  obtain ⟨w,rfl,hw⟩ := hw
  rw [List.append_assoc,List.append_assoc,List.singleton_append,List.singleton_append,
    append_cons_inj hv hw,List.append_cancel_right_eq]

/-- Two files agree exactly when they agree part by part. -/
theorem written_eq_updated_iff (hs : u.slotId < 2^31) (hm : u.moduleId < 2^31) {items : List Item}
    (h : ∀ it ∈ items,it.Ok) {x y : List Text} :
    items.flatMap (Item.written u)++x=items.flatMap (Item.updated u)++y ↔
      (∀ it ∈ items,it.written u=it.updated u) ∧ x=y := by
  induction items with
  | nil => simp
  | cons it items ih =>
    have hrest := ih fun x hx => h x (List.mem_cons_of_mem it hx)
    rw [List.flatMap_cons,List.flatMap_cons,List.append_assoc,List.append_assoc,List.forall_mem_cons,
      and_assoc]
    cases it with
    | line t =>
      have hsame : (Item.line t).written u=(Item.line t).updated u := rfl
      rw [hsame,List.append_cancel_left_eq,hrest]
      exact (and_iff_right rfl).symm
    | block S M body =>
      obtain ⟨h1,h2⟩ := (h _ List.mem_cons_self).closed hs hm
      rw [h1.append_inj h2,hrest]

/-- No other block is found: no head of another host has the slot and a module
number that continues the module of the update, and no inner line of another
host is found, but for a copy of the printed lines while the host has a block. -/
def Config.Clear (c : Config) (u : Update) : Prop :=
  ∀ S M body,Item.block S M body ∈ c.items → (S,M)≠(u.slotId,u.moduleId) →
    ¬(u.slotId=S ∧ dec u.moduleId <+: dec M) ∧
      (foundIn u body=[] ∨ (c.present u=true ∧ nonblank (foundIn u body)=u.inner))

/-- The block of the host itself is written as updated. -/
theorem written_own (u : Update) (body : List Text) :
    (Item.block u.slotId u.moduleId body).written u=(Item.block u.slotId u.moduleId body).updated u := by
  rw [Item.written,Item.updated,if_pos hit_header_self,if_pos rfl]

/-- A host is present when it has a block. -/
theorem present_iff :
    c.present u=true ↔ ∃ body,Item.block u.slotId u.moduleId body ∈ c.items := by
  unfold Config.present
  rw [List.any_eq_true]
  constructor
  · rintro ⟨it,hit,h⟩
    cases it with
    | line t => exact absurd (of_decide_eq_true h) (by simp [Item.host])
    | block S M body =>
      have h2 := Option.some.inj (of_decide_eq_true h)
      rw [Prod.mk.injEq] at h2
      obtain ⟨rfl,rfl⟩ := h2
      exact ⟨body,hit⟩
  · rintro ⟨body,h⟩
    exact ⟨_,h,decide_eq_true rfl⟩

/-- An update finds a block by its header or in its lines. -/
theorem finds_iff :
    (c.items.any (Item.finds u))=true ↔
      ∃ S M body,Item.block S M body ∈ c.items ∧ (Hit u (header S M) ∨ foundIn u body≠[]) := by
  rw [List.any_eq_true]
  constructor
  · rintro ⟨it,hit,h⟩
    cases it with
    | line t => exact absurd h Bool.false_ne_true
    | block S M body =>
      rw [Item.finds,Bool.or_eq_true,decide_eq_true_iff,any_hit_iff] at h
      exact ⟨S,M,body,hit,h⟩
  · rintro ⟨S,M,body,hit,h⟩
    refine ⟨_,hit,?_⟩
    rw [Item.finds,Bool.or_eq_true,decide_eq_true_iff,any_hit_iff]
    exact h

/-- A host that is present is found. -/
theorem finds_of_present (h : c.present u=true) : c.items.any (Item.finds u)=true := by
  obtain ⟨body,hmem⟩ := present_iff.mp h
  exact finds_iff.mpr ⟨_,_,body,hmem,Or.inl hit_header_self⟩

/-- Every part is written as it should be, and the host is found exactly when
it has a block. -/
theorem clear_iff :
    ((∀ it ∈ c.items,it.written u=it.updated u) ∧ c.items.any (Item.finds u)=c.present u) ↔
      c.Clear u := by
  constructor
  · rintro ⟨h1,h2⟩ S M body hmem hne
    obtain ⟨h3,h4⟩ := (written_block_iff hne).mp (h1 _ hmem)
    refine ⟨h3,?_⟩
    by_cases h5 : foundIn u body=[]
    · exact Or.inl h5
    · right
      refine ⟨?_,h4.resolve_left h5⟩
      rw [←h2]
      exact finds_iff.mpr ⟨S,M,body,hmem,Or.inr h5⟩
  · intro h
    constructor
    · intro it hit
      cases it with
      | line t => rfl
      | block S M body =>
        by_cases hown : (S,M)=(u.slotId,u.moduleId)
        · rw [Prod.mk.injEq] at hown
          obtain ⟨rfl,rfl⟩ := hown
          exact written_own u body
        · obtain ⟨h1,h2⟩ := h S M body hit hown
          exact (written_block_iff hown).mpr ⟨h1,h2.imp_right And.right⟩
    · rw [Bool.eq_iff_iff]
      refine ⟨fun hf => ?_,finds_of_present⟩
      obtain ⟨S,M,body,hmem,hfound⟩ := finds_iff.mp hf
      by_cases hown : (S,M)=(u.slotId,u.moduleId)
      · rw [Prod.mk.injEq] at hown
        obtain ⟨rfl,rfl⟩ := hown
        exact present_iff.mpr ⟨body,hmem⟩
      · obtain ⟨h1,h2⟩ := h S M body hmem hown
        rcases hfound with hhit|hrest
        · exact absurd (hit_header_iff.mp hhit) h1
        · exact (h2.resolve_left hrest).1

/-! ## The file after an update -/

/-- The lines of a new block. -/
theorem subset_block {u : Update} {t : Text} {ls : List Text} (ht : t ∈ u.inner++[brace]) :
    t ∈ u.inner ∨ t=brace ∨ t ∈ ls := by
  rcases List.mem_append.mp ht with h|h
  · exact Or.inl h
  · exact Or.inr (Or.inl (List.mem_singleton.mp h))

/-- Where the lines come from that are written. -/
theorem bodyWritten_subset (u : Update) (body : List Text) :
    ∀ t ∈ bodyWritten u body,t ∈ u.inner ∨ t=brace ∨ t ∈ body := by
  induction body with
  | nil => exact fun t ht => Or.inr (Or.inl (List.mem_singleton.mp ht))
  | cons x body ih =>
    intro t ht
    rw [bodyWritten] at ht
    split at ht
    · exact subset_block ht
    · rcases List.mem_append.mp ht with h|h
      · rw [List.mem_singleton.mp (List.mem_of_mem_filter h)]
        exact Or.inr (Or.inr List.mem_cons_self)
      · exact (ih t h).imp_right (Or.imp_right (List.mem_cons_of_mem x))

/-- A printed line or a line of the file. -/
theorem written_subset (u : Update) (it : Item) :
    ∀ t ∈ it.written u,t ∈ u.inner ∨ t=brace ∨ t ∈ it.lines := by
  intro t ht
  cases it with
  | line x =>
    have ht2 : t ∈ nonblank [x] := ht
    exact Or.inr (Or.inr (List.mem_of_mem_filter ht2))
  | block S M body =>
    rw [Item.written] at ht
    split at ht
    · exact subset_block ht
    · rcases List.mem_cons.mp ht with rfl|h
      · exact Or.inr (Or.inr List.mem_cons_self)
      · refine (bodyWritten_subset u body t h).imp_right (Or.imp_right fun h2 => ?_)
        exact List.mem_cons_of_mem _ (List.mem_append_left _ h2)

/-- Where the lines of an updated item come from. -/
theorem updated_subset (u : Update) (it : Item) :
    ∀ t ∈ it.updated u,t ∈ u.inner ∨ t=brace ∨ t ∈ it.lines := by
  intro t ht
  cases it with
  | line x =>
    have ht2 : t ∈ nonblank [x] := ht
    exact Or.inr (Or.inr (List.mem_of_mem_filter ht2))
  | block S M body =>
    rw [Item.updated] at ht
    split at ht
    · exact subset_block ht
    · rcases List.mem_cons.mp ht with rfl|h
      · exact Or.inr (Or.inr List.mem_cons_self)
      · rcases List.mem_append.mp h with h2|h2
        · have h3 := List.mem_of_mem_filter h2
          exact Or.inr (Or.inr (List.mem_cons_of_mem _ (List.mem_append_left _ h3)))
        · exact Or.inr (Or.inl (List.mem_singleton.mp h2))

/-- The lines of an item fit. -/
theorem Item.Ok.line_ok {it : Item} (h : it.Ok) : ∀ t ∈ it.lines,LineOk t := by
  intro t ht
  cases it with
  | line x =>
    rw [List.mem_singleton.mp ht]
    exact h.1
  | block S M body =>
    rcases List.mem_cons.mp ht with rfl|ht
    · exact (innerOk_header h.1).1
    · rcases List.mem_append.mp ht with ht|ht
      · exact (h.2 t ht).1
      · rw [List.mem_singleton.mp ht]
        exact brace_ok

/-- The lines of a new file have no newline inside. -/
theorem newline_not_mem (hs : u.slotId < 2^31) (hm : u.moduleId < 2^31) (c : Config)
    {f : Item → List Text} (hf : ∀ it,∀ t ∈ f it,t ∈ u.inner ∨ t=brace ∨ t ∈ it.lines) (b : Bool) :
    ∀ t ∈ c.items.flatMap f++(if b then [] else u.inner++[brace]),'\n' ∉ t := by
  have hbrace : '\n' ∉ brace := brace_ok.newline
  have hinner : ∀ t ∈ u.inner,'\n' ∉ t := fun t ht => (inner_ok hs hm t ht).1.newline
  intro t ht
  rcases List.mem_append.mp ht with h|h
  · obtain ⟨it,hit,hmem⟩ := List.mem_flatMap.mp h
    rcases hf it t hmem with h2|rfl|h2
    · exact hinner t h2
    · exact hbrace
    · exact ((c.ok it hit).line_ok t h2).newline
  · cases b with
    | true => exact absurd h List.not_mem_nil
    | false =>
      rcases List.mem_append.mp h with h2|h2
      · exact hinner t h2
      · rw [List.mem_singleton.mp h2]
        exact hbrace

/-- The closing line tells both cases apart. -/
theorem tail_inj {a b : Bool} {x : List Text} :
    (if a then [] else x++[brace])=(if b then [] else x++[brace]) ↔ a=b := by
  cases a <;> cases b <;> simp

/-- An update gives the file that it should give exactly when no other block is
found. -/
theorem update_eq_updated_iff (hs : u.slotId < 2^31) (hm : u.moduleId < 2^31) :
    updateDhcpdConfFile ⟨true,true,true⟩ u c.text=(0,c.updated u) ↔ c.Clear u := by
  rw [update_eq,Config.updated,Prod.mk.injEq,
    unlines_inj (newline_not_mem hs hm c (written_subset u) _)
      (newline_not_mem hs hm c (updated_subset u) _),
    written_eq_updated_iff hs hm c.ok,tail_inj,clear_iff]
  exact and_iff_right rfl

/-! ## The update of an updated file -/

/-- The parts of the new file for a part of the file. -/
def Item.renewed (u : Update) : Item → List Item
  | .line t => if t=[] then [] else [.line t]
  | .block s m body =>
    if (s,m)=(u.slotId,u.moduleId) then [.block s m u.inner.tail] else [.block s m (nonblank body)]

/-- Blank lines are dropped once. -/
theorem nonblank_nonblank (ls : List Text) : nonblank (nonblank ls)=nonblank ls :=
  List.filter_filter .. |>.trans (by simp [nonblank])

/-- The renewed items hold the updated lines. -/
theorem renewed_lines (u : Update) (it : Item) :
    (it.renewed u).flatMap Item.lines=it.updated u := by
  cases it with
  | line t =>
    rw [Item.renewed]
    cases t with
    | nil => rfl
    | cons c t => rfl
  | block S M body =>
    rw [Item.renewed,Item.updated]
    split
    · rename_i h
      rw [Prod.mk.injEq] at h
      obtain ⟨rfl,rfl⟩ := h
      rfl
    · exact List.append_nil _

/-- Updating the renewed items changes nothing. -/
theorem renewed_updated (u : Update) (it : Item) :
    (it.renewed u).flatMap (Item.updated u)=it.updated u := by
  cases it with
  | line t =>
    rw [Item.renewed]
    cases t with
    | nil => rfl
    | cons c t => rfl
  | block S M body =>
    rw [Item.renewed,Item.updated]
    split
    · rename_i h
      rw [List.flatMap_singleton,Item.updated,if_pos h]
    · rename_i h
      rw [List.flatMap_singleton,Item.updated,if_neg h,nonblank_nonblank]

/-- The hosts of the renewed items. -/
theorem renewed_host (u : Update) (it : Item) :
    (it.renewed u).filterMap Item.host=it.host.toList := by
  cases it with
  | line t =>
    rw [Item.renewed]
    split
    · rfl
    · rfl
  | block S M body =>
    rw [Item.renewed]
    split
    · rfl
    · rfl

/-- The renewed items are well formed. -/
theorem renewed_ok (hs : u.slotId < 2^31) (hm : u.moduleId < 2^31) {it : Item} (h : it.Ok) :
    ∀ x ∈ it.renewed u,x.Ok := by
  intro x hx
  cases it with
  | line t =>
    rw [Item.renewed] at hx
    split at hx
    · exact absurd hx List.not_mem_nil
    · rw [List.mem_singleton.mp hx]
      exact h
  | block S M body =>
    rw [Item.renewed] at hx
    split at hx
    · rw [List.mem_singleton.mp hx]
      exact ⟨h.1,fun t ht => inner_ok hs hm t (List.mem_of_mem_tail ht)⟩
    · rw [List.mem_singleton.mp hx]
      exact ⟨h.1,fun t ht => h.2 t (List.mem_of_mem_filter ht)⟩

/-- The block that an update prints. -/
def Update.block (u : Update) : Item := .block u.slotId u.moduleId u.inner.tail

/-- The block of an update is well formed. -/
theorem block_ok (hs : u.slotId < 2^31) (hm : u.moduleId < 2^31) : u.block.Ok :=
  ⟨length_header hs hm,fun t ht => inner_ok hs hm t (List.mem_of_mem_tail ht)⟩

/-- A host is listed when it is present. -/
theorem host_mem_iff : (u.slotId,u.moduleId) ∈ c.items.filterMap Item.host ↔ c.present u=true := by
  unfold Config.present
  rw [List.mem_filterMap,List.any_eq_true]
  simp only [decide_eq_true_iff]

/-- The new file as a configuration file. -/
def Config.renewed (c : Config) (u : Update) (hs : u.slotId < 2^31) (hm : u.moduleId < 2^31) :
    Config where
  items := c.items.flatMap (Item.renewed u)++if c.present u then [] else [u.block]
  ok := by
    intro x hx
    rcases List.mem_append.mp hx with h|h
    · obtain ⟨it,hit,hmem⟩ := List.mem_flatMap.mp h
      exact renewed_ok hs hm (c.ok it hit) x hmem
    · split at h
      · exact absurd h List.not_mem_nil
      · rw [List.mem_singleton.mp h]
        exact block_ok hs hm
  distinct := by
    have hhosts : (c.items.flatMap (Item.renewed u)).filterMap Item.host=
        c.items.filterMap Item.host := by
      rw [List.filterMap_flatMap,List.filterMap_eq_flatMap_toList]
      exact List.flatMap_congr fun it _ => renewed_host u it
    rw [List.filterMap_append,hhosts]
    split
    · rw [List.filterMap_nil,List.append_nil]
      exact c.distinct
    · rename_i h
      refine List.nodup_append.mpr ⟨c.distinct,List.nodup_singleton _,?_⟩
      intro a ha b hb hab
      have hb2 : b=(u.slotId,u.moduleId) := List.mem_singleton.mp hb
      rw [hab,hb2] at ha
      exact h (host_mem_iff.mp ha)

variable (hs : u.slotId < 2^31) (hm : u.moduleId < 2^31)

include hs hm

/-- Behind an update its host is present. -/
theorem renewed_present : (c.renewed u hs hm).present u=true := by
  apply present_iff.mpr
  by_cases h : c.present u=true
  · obtain ⟨body,hmem⟩ := present_iff.mp h
    refine ⟨u.inner.tail,List.mem_append_left _ (List.mem_flatMap.mpr ⟨_,hmem,?_⟩)⟩
    rw [Item.renewed,if_pos rfl]
    exact List.mem_singleton_self _
  · refine ⟨u.inner.tail,List.mem_append_right _ ?_⟩
    rw [if_neg h]
    exact List.mem_singleton_self _

/-- The renewed file is the updated text. -/
theorem renewed_text : (c.renewed u hs hm).text=c.updated u := by
  unfold Config.text Config.updated Config.renewed
  dsimp only
  rw [List.flatMap_append,List.flatMap_assoc]
  simp only [renewed_lines]
  cases c.present u with
  | true => rfl
  | false => rfl

/-- A second update changes nothing. -/
theorem renewed_updated_text : (c.renewed u hs hm).updated u=c.updated u := by
  have hblock : u.block.updated u=u.inner++[brace] := if_pos rfl
  unfold Config.updated
  rw [renewed_present hs hm,if_pos rfl,List.append_nil]
  unfold Config.renewed
  dsimp only
  rw [List.flatMap_append,List.flatMap_assoc]
  simp only [renewed_updated]
  cases c.present u with
  | true => rfl
  | false => rw [if_neg Bool.false_ne_true,if_neg Bool.false_ne_true,List.flatMap_singleton,hblock]

omit hs hm in
/-- Finding does not depend on blank lines. -/
theorem foundIn_nonblank (u : Update) (body : List Text) :
    foundIn u (nonblank body)=nonblank (foundIn u body) := by
  induction body with
  | nil => rfl
  | cons t body ih =>
    by_cases h : Hit u t
    · have hne : nonblank (t::body)=t::nonblank body := by
        cases t with
        | nil => exact absurd h (nil_not_hit u)
        | cons a t => rfl
      rw [hne,foundIn_cons_hit h,foundIn_cons_hit h,hne]
    · rw [foundIn_cons_not_hit h,←ih]
      cases t with
      | nil => rfl
      | cons a t => exact foundIn_cons_not_hit h

/-- Nothing else is found in the new file either. -/
theorem Config.Clear.renewed (h : c.Clear u) : (c.renewed u hs hm).Clear u := by
  intro S M body hmem hne
  rcases List.mem_append.mp hmem with h2|h2
  · obtain ⟨it,hit,hmem2⟩ := List.mem_flatMap.mp h2
    cases it with
    | line t =>
      rw [Item.renewed] at hmem2
      split at hmem2
      · exact absurd hmem2 List.not_mem_nil
      · exact absurd (List.mem_singleton.mp hmem2) (by simp)
    | block S2 M2 body2 =>
      rw [Item.renewed] at hmem2
      split at hmem2
      · rename_i hown
        have h3 := List.mem_singleton.mp hmem2
        rw [Item.block.injEq] at h3
        exact absurd (h3.1 ▸ h3.2.1 ▸ hown) hne
      · have h3 := List.mem_singleton.mp hmem2
        rw [Item.block.injEq] at h3
        obtain ⟨rfl,rfl,rfl⟩ := h3
        obtain ⟨h4,h5⟩ := h S M body2 hit hne
        rw [foundIn_nonblank,nonblank_nonblank,renewed_present hs hm]
        refine ⟨h4,?_⟩
        rcases h5 with h5|h5
        · exact Or.inl (by rw [h5]; rfl)
        · exact Or.inr ⟨rfl,h5.2⟩
  · split at h2
    · exact absurd h2 List.not_mem_nil
    · have h3 := List.mem_singleton.mp h2
      rw [Update.block,Item.block.injEq] at h3
      exact absurd (by rw [h3.1,h3.2.1]) hne

/-- An update touches one host only, and a second one changes nothing, exactly
when no other block is found. -/
theorem update_touches_one_iff (c : Config) :
    (updateDhcpdConfFile ⟨true,true,true⟩ u c.text=(0,c.updated u) ∧
      updateDhcpdConfFile ⟨true,true,true⟩ u (updateDhcpdConfFile ⟨true,true,true⟩ u c.text).2=
        updateDhcpdConfFile ⟨true,true,true⟩ u c.text) ↔ c.Clear u := by
  constructor
  · exact fun h => (update_eq_updated_iff hs hm).mp h.1
  · intro h
    have h1 := (update_eq_updated_iff hs hm).mpr h
    have h2 := (update_eq_updated_iff hs hm).mpr (h.renewed hs hm)
    rw [renewed_text,renewed_updated_text] at h2
    refine ⟨h1,?_⟩
    rw [h1]
    exact h2

omit hs hm

/-- A file with a comment line and the block of one host. -/
def oneHost (slotId moduleId : ℕ) (h : (header slotId moduleId).length < 127) : Config where
  items := [.line "# slots".toList,.block slotId moduleId []]
  ok := by
    intro it hit
    rcases List.mem_cons.mp hit with rfl|hit
    · exact ⟨⟨by decide,by decide,by decide⟩,Or.inl rfl⟩
    · rw [List.mem_singleton.mp hit]
      exact ⟨h,fun t ht => absurd ht List.not_mem_nil⟩
  distinct := List.nodup_singleton _

/-- An update of the module 1 in the slot 1. -/
def updateOne : Update := ⟨32,fun i => i.val.toUInt8,1,1⟩

/-- The file of one host is clear. -/
theorem oneHost_clear : (oneHost 2 1 (by decide)).Clear updateOne := by
  intro S M body hmem _
  rcases List.mem_cons.mp hmem with h|h
  · exact absurd h (by simp)
  · obtain ⟨rfl,rfl,rfl⟩ := Item.block.injEq .. ▸ List.mem_singleton.mp h
    exact ⟨fun h2 => absurd h2.1 (by decide),Or.inl rfl⟩

/-- Updating the file of one host. -/
theorem update_touches_one_sample :
    updateOne.slotId < 2^31 ∧ updateOne.moduleId < 2^31 ∧
      updateDhcpdConfFile ⟨true,true,true⟩ updateOne (oneHost 2 1 (by decide)).text=
        (0,(oneHost 2 1 (by decide)).updated updateOne) :=
  ⟨by decide,by decide,
    ((update_touches_one_iff (by decide) (by decide) _).mpr oneHost_clear).1⟩

/-- The block of the module 12 is lost when the module 1 is updated. -/
theorem update_loses_module12 :
    updateDhcpdConfFile ⟨true,true,true⟩ updateOne (oneHost 1 12 (by decide)).text=
        (0,"# slots\n".toList++updateOne.config) ∧
      ¬updateDhcpdConfFile ⟨true,true,true⟩ updateOne (oneHost 1 12 (by decide)).text=
        (0,(oneHost 1 12 (by decide)).updated updateOne) := by
  have hhit : Hit updateOne (header 1 12) := hit_header_iff.mpr ⟨rfl,by decide⟩
  constructor
  · rw [update_eq]
    have hfind : (oneHost 1 12 (by decide)).items.any (Item.finds updateOne)=true :=
      finds_iff.mpr ⟨1,12,[],by simp [oneHost],Or.inl hhit⟩
    have hwritten : (oneHost 1 12 (by decide)).items.flatMap (Item.written updateOne)=
        "# slots".toList::(updateOne.inner++[brace]) := by
      show nonblank ["# slots".toList]++((Item.block 1 12 []).written updateOne++[])=_
      rw [Item.written,if_pos hhit,List.append_nil]
      rfl
    rw [hfind,hwritten,if_pos rfl,List.append_nil,unlines_cons,←config_eq]
    rfl
  · intro h
    have hclear := (update_eq_updated_iff (by decide) (by decide)).mp h
    exact (hclear 1 12 [] (by simp [oneHost]) (by decide)).1 ⟨rfl,by decide⟩

end StudyCode.FileDhcp
