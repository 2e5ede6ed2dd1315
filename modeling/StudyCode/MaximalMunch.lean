import Mathlib.Computability.RegularExpressions
import Mathlib.Tactic

/-!
# Maximal munch

The words of a language that a scan from left to right finds in a text. At each
place the longest word that begins there is taken, and a character where no
word begins is skipped. Every text has exactly one such list of words.
-/

namespace StudyCode.MaximalMunch

variable {α : Type*} {L : Language α}

/-! ## Scans -/

/-- The longest word at the beginning of a text. -/
structure Longest (L : Language α) (t s : List α) : Prop where
  /-- Word of the language. -/
  word : t ∈ L
  /-- A word that takes up no place is not found. -/
  nonempty : t ≠ []
  /-- Beginning of the text. -/
  start : t <+: s
  /-- No other beginning is longer. -/
  longest : ∀ u,u <+: s → u ∈ L → u.length ≤ t.length

/-- The words that a scan finds in a text. -/
inductive Scan (L : Language α) : List α → List (List α) → Prop
  /-- The end of the text. -/
  | nil : Scan L [] []
  /-- No word begins here. -/
  | skip {c : α} {s : List α} {ls : List (List α)} :
      (∀ t,¬Longest L t (c::s)) → Scan L s ls → Scan L (c::s) ls
  /-- The longest word that begins here. -/
  | take {t s : List α} {ls : List (List α)} :
      Longest L t (t++s) → Scan L s ls → Scan L (t++s) (t::ls)

/-- Where a word begins, a longest one begins. -/
theorem exists_longest {u s : List α} (hu : u ∈ L) (hne : u ≠ []) (hs : u <+: s) :
    ∃ t,Longest L t s := by
  classical
  have hbound : ∀ n,(∃ t,t ∈ L ∧ t ≠ [] ∧ t <+: s ∧ t.length=n) → n ≤ s.length := by
    rintro n ⟨t,-,-,ht,rfl⟩
    exact ht.length_le
  obtain ⟨t,ht,hnil,hpre,hlen⟩ := Nat.findGreatest_spec
    (P := fun n => ∃ t,t ∈ L ∧ t ≠ [] ∧ t <+: s ∧ t.length=n)
    (hbound u.length ⟨u,hu,hne,hs,rfl⟩) ⟨u,hu,hne,hs,rfl⟩
  refine ⟨t,ht,hnil,hpre,fun v hv hvL => ?_⟩
  by_cases hv0 : v=[]
  · simp [hv0]
  · rw [hlen]
    exact Nat.le_findGreatest hv.length_le ⟨v,hvL,hv0,hv,rfl⟩

/-- There is one longest word. -/
theorem Longest.unique {t u s : List α} (ht : Longest L t s) (hu : Longest L u s) : t=u := by
  have hle := hu.longest t ht.start ht.word
  have hge := ht.longest u hu.start hu.word
  exact List.IsPrefix.eq_of_length (List.prefix_of_prefix_length_le ht.start hu.start hle)
    (by omega)

/-- Every text has a scan. -/
theorem exists_scan (L : Language α) (s : List α) : ∃ ls,Scan L s ls := by
  induction hn : s.length using Nat.strong_induction_on generalizing s with
  | _ n ih =>
    cases s with
    | nil => exact ⟨[],.nil⟩
    | cons c s =>
      by_cases hex : ∃ t,Longest L t (c::s)
      · obtain ⟨t,ht⟩ := hex
        obtain ⟨r,hr⟩ := ht.start
        have hpos := List.length_pos_iff.mpr ht.nonempty
        have hlen : t.length+r.length=n := by rw [←List.length_append,hr,hn]
        obtain ⟨ls,hls⟩ := ih r.length (by omega) r rfl
        rw [←hr] at ht ⊢
        exact ⟨t::ls,.take ht hls⟩
      · obtain ⟨ls,hls⟩ := ih s.length (by rw [←hn,List.length_cons]; omega) s rfl
        exact ⟨ls,.skip (fun t ht => hex ⟨t,ht⟩) hls⟩

/-- There is one scan. -/
theorem Scan.unique_of_eq {s s' : List α} {ls ms : List (List α)} (h : Scan L s ls)
    (h' : Scan L s' ms) (heq : s=s') : ls=ms := by
  induction h generalizing s' ms with
  | nil =>
    cases h' with
    | nil => rfl
    | skip => simp at heq
    | take ht => exact absurd (List.append_eq_nil_iff.mp heq.symm).1 ht.nonempty
  | skip hno _ ih =>
    cases h' with
    | nil => simp at heq
    | skip _ h' => exact ih h' (List.cons.inj heq).2
    | take ht => exact absurd (heq ▸ ht) (hno _)
  | @take t s ls ht _ ih =>
    cases h' with
    | nil => exact absurd (List.append_eq_nil_iff.mp heq).1 ht.nonempty
    | skip hno => exact absurd (heq ▸ ht) (hno _)
    | @take t' s' ms ht' h' =>
      obtain rfl := ht.unique (heq ▸ ht')
      rw [ih h' (List.append_cancel_left heq)]

/-- A text has one scan only. -/
theorem Scan.unique {s : List α} {ls ms : List (List α)} (h : Scan L s ls) (h' : Scan L s ms) :
    ls=ms := h.unique_of_eq h' rfl

/-- A scan gives words. -/
theorem Scan.words {s : List α} {ls : List (List α)} (h : Scan L s ls) : ∀ t ∈ ls,t ∈ L := by
  induction h with
  | nil => simp
  | skip _ _ ih => exact ih
  | take ht _ ih => exact List.forall_mem_cons.mpr ⟨ht.word,ih⟩

/-- No word is longer than the text. -/
theorem Scan.length_le {s : List α} {ls : List (List α)} (h : Scan L s ls) :
    ∀ t ∈ ls,t.length ≤ s.length := by
  induction h with
  | nil => simp
  | skip _ _ ih => exact fun t ht => (ih t ht).trans (Nat.le_succ _)
  | @take u s ls _ _ ih =>
    rw [List.length_append]
    refine List.forall_mem_cons.mpr ⟨by omega,fun t ht => ?_⟩
    have := ih t ht
    omega

/-- Characters that are words by themselves are never skipped. -/
theorem Scan.countP_flatten {p : α → Bool} (hp : ∀ c,p c=true → [c] ∈ L) {s : List α}
    {ls : List (List α)} (h : Scan L s ls) : ls.flatten.countP p=s.countP p := by
  induction h with
  | nil => rfl
  | @skip c s ls hno _ ih =>
    have hc : ¬p c=true := by
      intro hc
      obtain ⟨t,ht⟩ := exists_longest (hp c hc) (by simp) (List.prefix_append [c] s)
      exact hno t ht
    rw [ih,List.countP_cons_of_neg hc]
  | take _ _ ih => rw [List.flatten_cons,List.countP_append,List.countP_append,ih]

/-- Characters where no word begins are passed. -/
theorem Scan.pass {g s : List α} {ls : List (List α)}
    (hg : ∀ c ∈ g,∀ r t,t ∈ L → t ≠ [] → ¬t <+: c::r) (h : Scan L s ls) :
    Scan L (g++s) ls := by
  induction g with
  | nil => exact h
  | cons c g ih =>
    obtain ⟨hc,htail⟩ := List.forall_mem_cons.mp hg
    exact .skip (fun t ht => hc _ t ht.word ht.nonempty ht.start) (ih htail)

/-! ## Character classes -/

/-- One character out of a list. -/
def oneOf : List α → RegularExpression α
  | [] => 0
  | c::cs => .char c+oneOf cs

/-- One or more times. -/
def many (r : RegularExpression α) : RegularExpression α := r*r.star

/-- The words of one letter. -/
theorem mem_oneOf {cs t : List α} : t ∈ (oneOf cs).matches' ↔ ∃ c ∈ cs,t=[c] := by
  induction cs with
  | nil => simp [oneOf]
  | cons c cs ih =>
    have hone : t ∈ (RegularExpression.char c).matches' ↔ t=[c] := Iff.rfl
    rw [oneOf,RegularExpression.matches'_add,Language.mem_add,ih,hone]
    simp

/-- The words of some letters. -/
theorem mem_star_oneOf {cs t : List α} : t ∈ (oneOf cs).star.matches' ↔ ∀ c ∈ t,c ∈ cs := by
  rw [RegularExpression.matches'_star,Language.mem_kstar]
  constructor
  · rintro ⟨ws,rfl,hws⟩ c hc
    obtain ⟨w,hw,hcw⟩ := List.mem_flatten.mp hc
    obtain ⟨d,hd,rfl⟩ := mem_oneOf.mp (hws w hw)
    exact List.mem_singleton.mp hcw ▸ hd
  · intro h
    refine ⟨t.map ([·]),(List.flatMap_singleton' t).symm,fun w hw => ?_⟩
    obtain ⟨c,hc,rfl⟩ := List.mem_map.mp hw
    exact mem_oneOf.mpr ⟨c,h c hc,rfl⟩

/-- The words of some letters that are not empty. -/
theorem mem_many_oneOf {cs t : List α} :
    t ∈ (many (oneOf cs)).matches' ↔ t ≠ [] ∧ ∀ c ∈ t,c ∈ cs := by
  rw [many,RegularExpression.matches'_mul,Language.mem_mul]
  constructor
  · rintro ⟨a,ha,b,hb,rfl⟩
    obtain ⟨c,hc,rfl⟩ := mem_oneOf.mp ha
    exact ⟨by simp,List.forall_mem_cons.mpr ⟨hc,mem_star_oneOf.mp hb⟩⟩
  · rintro ⟨hne,hall⟩
    cases t with
    | nil => exact absurd rfl hne
    | cons c t =>
      obtain ⟨hc,htail⟩ := List.forall_mem_cons.mp hall
      exact ⟨[c],mem_oneOf.mpr ⟨c,hc,rfl⟩,t,mem_star_oneOf.mpr htail,rfl⟩

end StudyCode.MaximalMunch
