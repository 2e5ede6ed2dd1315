import StudyCode.CheckedLoop

/-!
# Escaping of patterns

`l7_pattern_expand` puts a backslash in front of every character of a set and
drops a backslash in front of a quote. The result is built in a buffer of 512
bytes, whose cells are checked, and then copied over the argument, which is
memory without a known end.
-/

namespace StudyCode.L7Pattern

open Checked

/-! ## The function -/

/-- The cases of the switch: backslash, `^`, blank, dollar, brackets of four
kinds, `*`, `.`, `?`, `+` and `|`. -/
def isMeta (c : UInt8) : Bool :=
  c ∈ ([92,94,32,36,91,93,123,125,40,41,60,62,42,46,63,43,124] : List UInt8)

/-- The loop; the buffer behind it. -/
def expandLoop (string : ℤ → UInt8) : ℕ → List UInt8 → ℤ → ℤ → Option (List UInt8)
  | 0,_,_,_ => none
  | fuel+1,buf,i,j =>
    if string j=0 then some buf
    else if string j=92 ∧ string (j+1)=34 then do
      let j ← addInt j 1
      expandLoop string fuel buf i j
    else if isMeta (string j) then do
      let buf ← putAt buf i 92
      let i ← addInt i 1
      let buf ← putAt buf i (string j)
      let i ← addInt i 1
      let j ← addInt j 1
      expandLoop string fuel buf i j
    else do
      let buf ← putAt buf i (string j)
      let i ← addInt i 1
      let j ← addInt j 1
      expandLoop string fuel buf i j

/-- `strcpy` to memory from a buffer, which must hold a terminator. -/
def strcpy (dest : ℤ → UInt8) (src : List UInt8) : Option (ℤ → UInt8) :=
  if 0 ∈ src then
    some fun k => ((cellAt (src.takeWhile (· ≠ 0)++[0]) k).getD (dest k))
  else none

/-- `l7_pattern_expand`: the memory behind it. -/
def l7PatternExpand (fuel : ℕ) (string : ℤ → UInt8) : Option (ℤ → UInt8) := do
  let buf ← expandLoop string fuel (List.replicate 512 0) 0 0
  strcpy string buf

/-! ## Texts -/

/-- The memory holds a text and its terminator. -/
def Holds (string : ℤ → UInt8) (s : List UInt8) : Prop :=
  (∀ c ∈ s,c ≠ 0) ∧ ∀ k < s.length+1,some (string (k : ℤ))=(s++[0])[k]?

/-- The expansion of a text. -/
def expansion : List UInt8 → List UInt8
  | [] => []
  | c::s =>
    if c=92 ∧ s.head?=some 34 then expansion s
    else if isMeta c then 92::c::expansion s
    else c::expansion s

/-- A text with every pair of a backslash and a quote replaced by a quote. -/
def unquote : List UInt8 → List UInt8
  | [] => []
  | [c] => [c]
  | c::d::s => if c=92 ∧ d=34 then 34::unquote s else c::unquote (d::s)

/-- A text without the escaping backslashes. -/
def unescape : List UInt8 → List UInt8
  | [] => []
  | [c] => [c]
  | c::d::s => if c=92 then d::unescape s else c::unescape (d::s)

/-- Exactly the characters of the set are escaped. -/
inductive Escaped : List UInt8 → Prop
  /-- No character. -/
  | nil : Escaped []
  /-- A character of the set behind its backslash. -/
  | escaped {c : UInt8} {t : List UInt8} : isMeta c=true → Escaped t → Escaped (92::c::t)
  /-- Another character. -/
  | plain {c : UInt8} {t : List UInt8} : isMeta c=false → Escaped t → Escaped (c::t)

/-- The expansion is escaped. -/
theorem expansion_escaped (s : List UInt8) : Escaped (expansion s) := by
  fun_induction expansion s with
  | case1 => exact .nil
  | case2 c s _ ih => exact ih
  | case3 c s _ hc ih => exact .escaped hc ih
  | case4 c s _ hc ih => exact .plain (by simpa using hc) ih

/-- Any other character stays. -/
theorem unescape_plain {c : UInt8} (hc : c ≠ 92) (t : List UInt8) :
    unescape (c::t)=c::unescape t := by
  cases t with
  | nil => rfl
  | cons d t => rw [unescape,if_neg hc]

/-- Expansion and unescaping cancel out for one character. -/
theorem unescape_expansion_cons {c : UInt8} {s : List UInt8} (h : ¬(c=92 ∧ s.head?=some 34)) :
    unescape (expansion (c::s))=c::unescape (expansion s) := by
  rw [expansion,if_neg h]
  by_cases hc : isMeta c=true
  · rw [if_pos hc,unescape,if_pos rfl]
  · have hne : c ≠ 92 := by
      rintro rfl
      exact hc (by decide)
    rw [if_neg hc,unescape_plain hne]

/-- Without the escaping backslashes the expansion is the text without the pairs. -/
theorem unescape_expansion (s : List UInt8) : unescape (expansion s)=unquote s := by
  fun_induction unquote s with
  | case1 => rfl
  | case2 c => exact unescape_expansion_cons (by simp)
  | case3 c d s h ih =>
    obtain ⟨rfl,rfl⟩ := h
    rw [expansion,if_pos ⟨rfl,rfl⟩,unescape_expansion_cons (by simp),ih]
  | case4 c d s h ih => rw [unescape_expansion_cons (by simpa using h),ih]

/-! ## The run -/

variable {string : ℤ → UInt8}

/-- Reading a character and the next one. -/
theorem Holds.read {a b : List UInt8} {c : UInt8} (h : Holds string (a++c::b)) :
    string a.length=c ∧ string (a.length+1)=b.head?.getD 0 := by
  have h0 := h.2 a.length (by simp)
  have h1 := h.2 (a.length+1) (by simp)
  simp only [List.append_assoc,List.cons_append,List.getElem?_append_right le_rfl,Nat.sub_self,
    List.getElem?_cons_zero,Option.some.injEq] at h0
  refine ⟨h0,?_⟩
  rw [List.append_assoc,List.getElem?_append_right (Nat.le_add_right _ 1),Nat.add_sub_cancel_left,
    List.cons_append,List.getElem?_cons_succ] at h1
  push_cast at h1
  cases b <;> simpa using h1

/-- Behind the text stands a zero. -/
theorem Holds.read_end {s : List UInt8} (h : Holds string s) : string s.length=0 := by
  have h0 := h.2 s.length (Nat.lt_succ_self _)
  simpa using h0

/-- One cell of the buffer is written behind the cells in use. -/
theorem putAt_free {e : List UInt8} (he : e.length < 512) (c : UInt8) :
    putAt (e++List.replicate (512-e.length) 0) e.length c=
      some (e++[c]++List.replicate (512-(e++[c]).length) 0) := by
  have hrep : List.replicate (512-e.length) (0 : UInt8)=0::List.replicate (511-e.length) 0 := by
    rw [show 512-e.length=511-e.length+1 by omega,List.replicate_succ]
  have hlen : 512-(e++[c]).length=511-e.length := by
    rw [List.length_append,List.length_singleton]
    omega
  rw [hrep,putAt_length,hlen,List.append_assoc,List.singleton_append]

/-- One character more. -/
theorem addInt_length {l : List UInt8} (h : l.length < 2000) (c : UInt8) :
    addInt (l.length : ℤ) 1=some ((l++[c]).length : ℤ) := by
  rw [addInt_one (by omega),List.length_append,List.length_singleton]

/-- Each character makes the expansion longer. -/
theorem expansion_length_cons {c : UInt8} {s : List UInt8} (h : ¬(c=92 ∧ s.head?=some 34)) :
    (expansion s).length < (expansion (c::s)).length := by
  rw [expansion,if_neg h]
  split <;> simp only [List.length_cons] <;> omega

/-- A text has at most twice as many characters as its expansion. -/
theorem length_le_expansion (s : List UInt8) : s.length ≤ 2*(expansion s).length := by
  fun_induction unquote s with
  | case1 => simp
  | case2 c =>
    have := expansion_length_cons (c := c) (s := []) (by simp)
    rw [List.length_singleton]
    omega
  | case3 c d s h ih =>
    obtain ⟨rfl,rfl⟩ := h
    have := expansion_length_cons (c := 34) (s := s) (by simp)
    rw [expansion,if_pos ⟨rfl,rfl⟩,List.length_cons,List.length_cons]
    omega
  | case4 c d s h ih =>
    have := expansion_length_cons (c := c) (s := d::s) (by simpa using h)
    rw [List.length_cons]
    omega

/-- The loop puts the expansion of what is left behind what is there. -/
theorem expandLoop_eq {a b e : List UInt8} (hs : Holds string (a++b))
    (ha : (a++b).length < 2000) (he : e.length+(expansion b).length ≤ 511) {fuel : ℕ}
    (hf : b.length < fuel) :
    expandLoop string fuel (e++List.replicate (512-e.length) 0) e.length a.length=
      some (e++expansion b++List.replicate (512-(e++expansion b).length) 0) := by
  induction b generalizing a e fuel with
  | nil =>
    obtain ⟨n,rfl⟩ : ∃ n,fuel=n+1 := ⟨fuel-1,by simp at hf; omega⟩
    rw [List.append_nil] at hs
    rw [expandLoop,if_pos hs.read_end,expansion,List.append_nil]
  | cons c b ih =>
    rw [List.length_cons] at hf
    obtain ⟨n,rfl⟩ : ∃ n,fuel=n+1 := ⟨fuel-1,by omega⟩
    obtain ⟨hread,hnext⟩ := hs.read
    have hc : c ≠ 0 := hs.1 c (by simp)
    have happ : a++c::b=a++[c]++b := by simp
    have hla : a.length < 2000 := by
      rw [List.length_append] at ha
      omega
    rw [happ] at hs ha
    have hpair : (string a.length=92 ∧ string (a.length+1)=34) ↔ (c=92 ∧ b.head?=some 34) := by
      rw [hread,hnext]
      cases b <;> simp
    rw [expandLoop,if_neg (by rw [hread]; exact hc)]
    rw [expansion] at he ⊢
    by_cases hp : c=92 ∧ b.head?=some 34
    · rw [if_pos hp] at he ⊢
      rw [if_pos (hpair.mpr hp),addInt_length hla c,Option.bind_eq_bind,Option.bind_some]
      exact ih hs ha he (by omega)
    · rw [if_neg hp] at he ⊢
      rw [if_neg (mt hpair.mp hp),hread]
      by_cases hm : isMeta c=true
      · rw [if_pos hm] at he ⊢
        rw [List.length_cons,List.length_cons] at he
        have hlen : (e++[92]).length=e.length+1 := by simp
        have hlen2 : (e++[92]++[c]).length=e.length+2 := by simp
        have hrest := ih (e := e++[92]++[c]) hs ha (by omega) (show b.length < n by omega)
        simp only [if_pos hm,putAt_free (show e.length < 512 by omega),
          addInt_length (show e.length < 2000 by omega) 92,
          putAt_free (show (e++[92]).length < 512 by omega),
          addInt_length (show (e++[92]).length < 2000 by omega) c,addInt_length hla c,
          Option.bind_eq_bind,Option.bind_some,hrest]
        simp
      · rw [if_neg hm] at he ⊢
        rw [List.length_cons] at he
        have hlen : (e++[c]).length=e.length+1 := by simp
        have hrest := ih (e := e++[c]) hs ha (by omega) (show b.length < n by omega)
        simp only [if_neg hm,putAt_free (show e.length < 512 by omega),
          addInt_length (show e.length < 2000 by omega) c,addInt_length hla c,
          Option.bind_eq_bind,Option.bind_some,hrest]
        simp

/-- The expansion has no zero. -/
theorem expansion_ne_zero {s : List UInt8} (h : ∀ c ∈ s,c ≠ 0) : ∀ c ∈ expansion s,c ≠ 0 := by
  fun_induction expansion s with
  | case1 => exact h
  | case2 c s _ ih => exact ih (List.forall_mem_cons.mp h).2
  | case3 c s _ _ ih =>
    obtain ⟨hc,hs⟩ := List.forall_mem_cons.mp h
    exact List.forall_mem_cons.mpr ⟨by decide,List.forall_mem_cons.mpr ⟨hc,ih hs⟩⟩
  | case4 c s _ _ ih =>
    obtain ⟨hc,hs⟩ := List.forall_mem_cons.mp h
    exact List.forall_mem_cons.mpr ⟨hc,ih hs⟩

/-- What `strcpy` leaves behind. -/
theorem strcpy_eq (string : ℤ → UInt8) {t : List UInt8} (ht : ∀ c ∈ t,c ≠ 0) (r : List UInt8) :
    ∃ after,strcpy string (t++0::r)=some after ∧ Holds after t ∧
      ∀ k : ℕ,t.length < k → after k=string k := by
  refine ⟨_,if_pos (by simp),⟨ht,fun k hk => ?_⟩,fun k hk => ?_⟩
  · rw [takeWhile_terminated ht]
    dsimp only
    rw [cellAt_natCast,List.getElem?_eq_getElem (by simpa using hk),Option.getD_some]
  · rw [takeWhile_terminated ht,cellAt_natCast,List.getElem?_eq_none (by simpa using hk),
      Option.getD_none]

/-- The function leaves a text in which exactly the characters of the set are
escaped, and which is the argument without its pairs once the escapes are taken
away. Memory behind the text is left alone. -/
theorem l7PatternExpand_escapes {s : List UInt8} (hs : Holds string s)
    (hlen : (expansion s).length ≤ 511) {fuel : ℕ} (hf : s.length < fuel) :
    ∃ after t,l7PatternExpand fuel string=some after ∧ Holds after t ∧ Escaped t ∧
      unescape t=unquote s ∧ ∀ k : ℕ,t.length < k → after k=string k := by
  have hlong := length_le_expansion s
  have hloop := expandLoop_eq (a := []) (b := s) (e := []) hs (by rw [List.nil_append]; omega)
    (by simpa using hlen) hf
  have hzero : List.replicate (512-(expansion s).length) (0 : UInt8)=
      0::List.replicate (511-(expansion s).length) 0 := by
    rw [show 512-(expansion s).length=511-(expansion s).length+1 by omega,List.replicate_succ]
  rw [List.nil_append,List.nil_append,List.length_nil,Nat.sub_zero,Nat.cast_zero,hzero] at hloop
  obtain ⟨after,hcopy,hholds,hkeep⟩ := strcpy_eq string (expansion_ne_zero hs.1)
    (List.replicate (511-(expansion s).length) 0)
  refine ⟨after,expansion s,?_,hholds,expansion_escaped s,unescape_expansion s,hkeep⟩
  rw [l7PatternExpand,hloop]
  exact hcopy

/-- The call in `main` on `^aaa`. -/
theorem l7PatternExpand_caret :
    ∃ after t,l7PatternExpand 5 (fun k => (cellAt [94,97,97,97,0] k).getD 0)=some after ∧
      Holds after t ∧ Escaped t ∧ unescape t=[94,97,97,97] ∧
      ∀ k : ℕ,t.length < k → after k=(cellAt [94,97,97,97,0] (k : ℤ)).getD 0 := by
  have hs : Holds (fun k => (cellAt [94,97,97,97,0] k).getD 0) [94,97,97,97] :=
    ⟨by simp,by decide⟩
  exact l7PatternExpand_escapes hs (by decide) (by decide)

end StudyCode.L7Pattern
