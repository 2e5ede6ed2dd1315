import Mathlib.Tactic

/-!
# Counting the TLVs of a CDR message

`check_type` cuts a hex text into TLVs, each of which begins with its type and
its own total length, and counts five of the types. The loop takes one TLV in
a turn and makes as many turns as a table of type codes has entries, so TLVs
behind that many are not looked at.
-/

namespace StudyCode.GuanlianErr

/-- Text as Python's str. -/
abbrev Text := List Char

/-- The exceptions that the function may raise. -/
inductive PyError where
  /-- A text that is not a number. -/
  | valueError
  /-- A key that the dictionary does not have. -/
  | keyError
deriving DecidableEq,Repr

/-! ## Slices and numbers of the language -/

/-- A slice bound: from the end when negative, and never outside. -/
def clampIndex (n : ℕ) (i : ℤ) : ℕ := if i < 0 then (i+n).toNat else min i.toNat n

/-- `s[a:b]`. -/
def pySlice (s : Text) (a b : ℤ) : Text :=
  (s.take (clampIndex s.length b)).drop (clampIndex s.length a)

/-- `s[a:]`. -/
def pySliceFrom (s : Text) (a : ℤ) : Text := s.drop (clampIndex s.length a)

/-- The white space that `int` strips. -/
def isSpace (c : Char) : Bool := c.toNat=32 ∨ 9 ≤ c.toNat ∧ c.toNat ≤ 13

/-- The value of a hexadecimal digit. -/
def hexDigit (c : Char) : Option ℕ :=
  if 48 ≤ c.toNat ∧ c.toNat ≤ 57 then some (c.toNat-48)
  else if 65 ≤ c.toNat ∧ c.toNat ≤ 70 then some (c.toNat-55)
  else if 97 ≤ c.toNat ∧ c.toNat ≤ 102 then some (c.toNat-87)
  else none

/-- The value of a text of hexadecimal digits behind a value read so far. -/
def hexValue (acc : ℕ) : Text → Option ℕ
  | [] => some acc
  | c::r => (hexDigit c).bind fun d => hexValue (16*acc+d) r

/-- A text without the white space at both of its ends. -/
def strip (s : Text) : Text := ((s.dropWhile isSpace).reverse.dropWhile isSpace).reverse

/-- A sign in front: whether it is a minus, and the rest. -/
def takeSign : Text → Bool×Text
  | [] => (false,[])
  | c::r => if c= '-' then (true,r) else if c= '+' then (false,r) else (false,c::r)

/-- The rest behind the mark of a hexadecimal number, if there is one. -/
def dropMark : Text → Text
  | c::x::r => if c= '0' ∧ (x= 'x' ∨ x= 'X') then r else c::x::r
  | s => s

/-- `int(s,16)`. -/
def pyInt16 (s : Text) : Except PyError ℤ :=
  let signed := takeSign (strip s)
  let digits := dropMark signed.2
  if digits=[] then .error .valueError
  else
    match hexValue 0 digits with
    | some n => .ok (if signed.1 then -(n : ℤ) else n)
    | none => .error .valueError

/-! ## check_type -/

/-- The counters that the function is called with and returns. -/
structure Counters where
  /-- TLVs of type 01. -/
  msisdn : ℤ
  /-- TLVs of type 02. -/
  time : ℤ
  /-- TLVs of type 03. -/
  userip : ℤ
  /-- TLVs of type 05. -/
  action : ℤ
  /-- TLVs of type 09. -/
  imsi : ℤ
  /-- Not counted. -/
  imei : ℤ
  /-- Not counted. -/
  cgi : ℤ
  /-- Not counted. -/
  pro : ℤ
  /-- Not counted. -/
  apn : ℤ
  /-- Not counted. -/
  guti : ℤ
  /-- Not counted. -/
  tai : ℤ
  /-- Not counted. -/
  taiList : ℤ
deriving DecidableEq,Repr

/-- `list_value`, of which only the length is used. -/
def listValue : List String :=
  ["01","02","03","05","06","07","1d","06","07","1d","09","0a","0c","0e","0f","10","11","12","13",
    "14","15","16","17","18","19","1a","1b","1c","1e","1f"]

/-- `dic_action`. -/
def dicAction : List (String×String) :=
  [("01","01-PDN online"),("02","02-PDN release"),("03","03-periodic TAU"),("05","05-force TAU"),
    ("06","06-SMS"),("07","07-CSFB"),("08","08-Initial Attach"),("09","09-Detach"),
    ("0a","0a-Handover"),("0b","0b-Bearer Modify"),("0c","0c-PDN active"),
    ("0d","0d-dedicated bearer update"),("0e","0e-Bearer Deactive"),("0f","0f-Service Request")]

/-- `dic_action[key]`. -/
def actionName (key : Text) : Except PyError String :=
  match dicAction.find? fun entry => entry.1.toList=key with
  | some entry => .ok entry.2
  | none => .error .keyError

/-- `hex2dec`. -/
def hex2dec (s : Text) : Except PyError String := do
  let n ← pyInt16 (s.map Char.toUpper)
  .ok (toString n)

/-- `hex2ip`. -/
def hex2ip (s : Text) : Except PyError String := do
  let a ← hex2dec (pySlice s 0 2)
  let b ← hex2dec (pySlice s 2 4)
  let c ← hex2dec (pySlice s 4 6)
  let d ← hex2dec (pySlice s 6 8)
  .ok (a++"."++b++"."++c++"."++d)

/-- The local variables of the loop. -/
structure Locals where
  /-- The text that is left. -/
  string : Text
  /-- The counters so far. -/
  counters : Counters
  /-- Last number of type 01. -/
  myMsisdn : String
  /-- Last number of type 09. -/
  myImsi : String
  /-- Last address of type 03. -/
  myUserip : String
  /-- Last action of type 05. -/
  myType : String
  /-- TLVs of type 09 in this message. -/
  imsiNum : ℕ
  /-- TLVs of type 01 in this message. -/
  msisdnNum : ℕ

/-- The branches on the type of a TLV with the given value text. -/
def countType (typeTlv value : Text) (s : Locals) : Except PyError Locals :=
  if typeTlv="01".toList then do
    let v ← hex2dec value
    .ok { s with
      counters := { s.counters with msisdn := s.counters.msisdn+1 }
      msisdnNum := s.msisdnNum+1
      myMsisdn := v }
  else if typeTlv="02".toList then
    .ok { s with counters := { s.counters with time := s.counters.time+1 } }
  else if typeTlv="03".toList then do
    let v ← hex2ip value
    .ok { s with
      counters := { s.counters with userip := s.counters.userip+1 }
      myUserip := v }
  else if typeTlv="09".toList then do
    let v ← hex2dec value
    .ok { s with
      counters := { s.counters with imsi := s.counters.imsi+1 }
      imsiNum := s.imsiNum+1
      myImsi := v }
  else if typeTlv="05".toList then do
    let v ← actionName value
    .ok { s with
      counters := { s.counters with action := s.counters.action+1 }
      myType := v }
  else .ok s

/-- One turn of the loop. -/
def turn (s : Locals) : Except PyError Locals :=
  if s.string=[] then .ok s
  else do
    let n ← pyInt16 (pySlice s.string 2 4)
    let lenTlv := n*2
    let t ← countType (pySlice s.string 0 2) (pySlice s.string 4 lenTlv) s
    .ok { t with string := pySliceFrom t.string lenTlv }

/-- The turns of the loop. -/
def turns : ℕ → Locals → Except PyError Locals
  | 0,s => .ok s
  | n+1,s => do
    let t ← turn s
    turns n t

/-- The line that the function prints. -/
structure Row where
  /-- First column. -/
  imsi : String
  /-- Second column. -/
  msisdn : String
  /-- Third column. -/
  userip : String
  /-- Fourth column. -/
  type : String

/-- The line printed at the end, unless the message had neither number. -/
def printedRow (s : Locals) : Option Row :=
  if s.imsiNum=0 ∧ s.msisdnNum=0 then none else some ⟨s.myImsi,s.myMsisdn,s.myUserip,s.myType⟩

/-- `check_type`: the counters it returns and the line it prints, if any. -/
def checkType (string : Text) (c : Counters) : Except PyError (Counters×Option Row) := do
  let s ← turns listValue.length ⟨string,c,"","","","",0,0⟩
  .ok (s.counters,printedRow s)

/-! ## Numbers of hex texts -/

/-- The character is a hexadecimal digit. -/
def IsHex (c : Char) : Prop := (hexDigit c).isSome

/-- The codes of hexadecimal digits. -/
theorem isHex_range {c : Char} (h : IsHex c) :
    48 ≤ c.toNat ∧ c.toNat ≤ 57 ∨ 65 ≤ c.toNat ∧ c.toNat ≤ 70 ∨ 97 ≤ c.toNat ∧ c.toNat ≤ 102 := by
  unfold IsHex hexDigit at h
  split_ifs at h <;> first | omega | simp at h

/-- A hexadecimal digit is no space. -/
theorem isSpace_eq_false {c : Char} (h : IsHex c) : isSpace c=false := by
  have := isHex_range h
  simp only [isSpace,decide_eq_false_iff_not]
  omega

/-- No space stands in front. -/
theorem dropWhile_isSpace {s : Text} (h : ∀ c ∈ s,IsHex c) : s.dropWhile isSpace=s := by
  cases s with
  | nil => rfl
  | cons c s => rw [List.dropWhile_cons_of_neg (by simp [isSpace_eq_false (h c (.head s))])]

/-- Hexadecimal digits are not stripped. -/
theorem strip_eq_self {s : Text} (h : ∀ c ∈ s,IsHex c) : strip s=s := by
  have hr : ∀ c ∈ s.reverse,IsHex c := fun c hc => h c (by simpa using hc)
  rw [strip,dropWhile_isSpace h,dropWhile_isSpace hr,List.reverse_reverse]

/-- No sign stands in front. -/
theorem takeSign_eq {s : Text} (h : ∀ c ∈ s,IsHex c) : takeSign s=(false,s) := by
  cases s with
  | nil => rfl
  | cons c s =>
    have hc := isHex_range (h c (.head s))
    have hm : c ≠ '-' := by
      rintro rfl
      revert hc
      decide
    have hp : c ≠ '+' := by
      rintro rfl
      revert hc
      decide
    rw [takeSign,if_neg hm,if_neg hp]

/-- No mark stands in front. -/
theorem dropMark_eq {s : Text} (h : ∀ c ∈ s,IsHex c) : dropMark s=s := by
  match s with
  | [] => rfl
  | [_] => rfl
  | c::x::s =>
    have hx := isHex_range (h x (.tail c (.head s)))
    have hne : ¬(c= '0' ∧ (x= 'x' ∨ x= 'X')) := by
      rintro ⟨-,rfl|rfl⟩ <;> revert hx <;> decide
    rw [dropMark,if_neg hne]

/-- Hexadecimal digits have a value. -/
theorem hexValue_isSome {s : Text} (h : ∀ c ∈ s,IsHex c) (acc : ℕ) :
    ∃ n,hexValue acc s=some n := by
  induction s generalizing acc with
  | nil => exact ⟨acc,rfl⟩
  | cons c s ih =>
    obtain ⟨d,hd⟩ := Option.isSome_iff_exists.mp (h c (.head s))
    obtain ⟨n,hn⟩ := ih (fun x hx => h x (.tail c hx)) (16*acc+d)
    exact ⟨n,by simp [hexValue,hd,hn]⟩

/-- A text of digits is read as their value. -/
theorem pyInt16_of_hex {s : Text} (hs : s ≠ []) (h : ∀ c ∈ s,IsHex c) {n : ℕ}
    (hn : hexValue 0 s=some n) : pyInt16 s=.ok n := by
  simp only [pyInt16,strip_eq_self h,takeSign_eq h,dropMark_eq h,if_neg hs,hn]
  rfl

instance : DecidablePred IsHex := fun c => inferInstanceAs (Decidable ((hexDigit c).isSome=true))

/-- Upper case is hexadecimal too. -/
theorem isHex_toUpper {c : Char} (h : IsHex c) : IsHex c.toUpper := by
  have hall : ∀ n < 103,IsHex (Char.ofNat n) → IsHex (Char.ofNat n).toUpper := by decide
  have hr := isHex_range h
  have hc := hall c.toNat (by omega)
  rw [Char.ofNat_toNat] at hc
  exact hc h

/-- Hexadecimal digits are converted. -/
theorem hex2dec_of_hex {s : Text} (hs : s ≠ []) (h : ∀ c ∈ s,IsHex c) : ∃ v,hex2dec s=.ok v := by
  have hu : ∀ c ∈ s.map Char.toUpper,IsHex c := by
    intro c hc
    obtain ⟨d,hd,rfl⟩ := List.mem_map.mp hc
    exact isHex_toUpper (h d hd)
  obtain ⟨n,hn⟩ := hexValue_isSome hu 0
  exact ⟨toString (n : ℤ),by rw [hex2dec,pyInt16_of_hex (by simpa using hs) hu hn]; rfl⟩

/-- An index that is not negative. -/
theorem clampIndex_natCast (n i : ℕ) : clampIndex n i=min i n := by
  simp [clampIndex]

/-- Slices with bounds that are not negative. -/
theorem pySlice_natCast (s : Text) (a b : ℕ) : pySlice s a b=(s.take b).drop a := by
  rw [pySlice,clampIndex_natCast,clampIndex_natCast]
  rcases le_total b s.length with hb|hb
  · rw [min_eq_left hb]
    rcases le_total a s.length with ha|ha
    · rw [min_eq_left ha]
    · rw [min_eq_right ha,List.drop_eq_nil_of_le (by simp),List.drop_eq_nil_of_le (by simp; omega)]
  · rw [min_eq_right hb,List.take_length,List.take_of_length_le hb]
    rcases le_total a s.length with ha|ha
    · rw [min_eq_left ha]
    · rw [min_eq_right ha,List.drop_length,List.drop_eq_nil_of_le ha]

/-- A slice from an index to the end. -/
theorem pySliceFrom_natCast (s : Text) (a : ℕ) : pySliceFrom s a=s.drop a := by
  rw [pySliceFrom,clampIndex_natCast]
  rcases le_total a s.length with ha|ha
  · rw [min_eq_left ha]
  · rw [min_eq_right ha,List.drop_length,List.drop_eq_nil_of_le ha]

/-- Eight hexadecimal digits are an address. -/
theorem hex2ip_of_hex {s : Text} (hlen : s.length=8) (h : ∀ c ∈ s,IsHex c) :
    ∃ v,hex2ip s=.ok v := by
  have hpart : ∀ a : ℕ,a+2 ≤ 8 → ∃ v,hex2dec (pySlice s (a : ℕ) ((a+2 : ℕ) : ℤ))=.ok v := by
    intro a ha
    rw [pySlice_natCast]
    apply hex2dec_of_hex
    · intro he
      have := congrArg List.length he
      simp at this
      omega
    · intro c hc
      exact h c (List.mem_of_mem_take (List.mem_of_mem_drop hc))
  obtain ⟨a,ha⟩ := hpart 0 (by omega)
  obtain ⟨b,hb⟩ := hpart 2 (by omega)
  obtain ⟨c,hc⟩ := hpart 4 (by omega)
  obtain ⟨d,hd⟩ := hpart 6 (by omega)
  norm_num at ha hb hc hd
  exact ⟨a++"."++b++"."++c++"."++d,by rw [hex2ip,ha,hb,hc,hd]; rfl⟩

/-! ## Messages -/

/-- A TLV as text: type, total length in bytes, and value, with the values the
program expects for the types whose value it reads. -/
structure Tlv where
  /-- The type, two digits. -/
  type : Text
  /-- The length, two digits. -/
  length : Text
  /-- The value, two digits for each byte. -/
  value : Text
  /-- The type is one byte. -/
  type_length : type.length=2
  /-- The length is one byte. -/
  length_length : length.length=2
  /-- All of it is hex text. -/
  hex : ∀ c ∈ type++length++value,IsHex c
  /-- The length counts the whole TLV. -/
  total : hexValue 0 length=some (2+value.length/2)
  /-- The value is whole bytes. -/
  even : value.length%2=0
  /-- Numbers are not empty. -/
  number : type="01".toList ∨ type="09".toList → value ≠ []
  /-- Addresses have four bytes. -/
  address : type="03".toList → value.length=8
  /-- Actions are listed. -/
  listed : type="05".toList → ∃ entry ∈ dicAction,entry.1.toList=value

/-- The text of one TLV. -/
def Tlv.text (t : Tlv) : Text := t.type++t.length++t.value

/-- The text of a message. -/
def message (l : List Tlv) : Text := l.flatMap Tlv.text

/-- How many TLVs have a type. -/
def occurrences (ty : String) (l : List Tlv) : ℕ := l.countP fun t => t.type=ty.toList

/-- The counters increased by the TLVs of a message. -/
def Counters.plus (c : Counters) (l : List Tlv) : Counters :=
  { c with
    msisdn := c.msisdn+occurrences "01" l
    time := c.time+occurrences "02" l
    userip := c.userip+occurrences "03" l
    action := c.action+occurrences "05" l
    imsi := c.imsi+occurrences "09" l }

/-- One entry more. -/
theorem occurrences_cons (ty : String) (t : Tlv) (l : List Tlv) :
    occurrences ty (t::l)=occurrences ty l+if t.type=ty.toList then 1 else 0 := by
  simp [occurrences,List.countP_cons]

/-- No entry counts nothing. -/
theorem Counters.plus_nil (c : Counters) : c.plus []=c := by
  simp [Counters.plus,occurrences]

/-- The first entry is counted first. -/
theorem Counters.plus_cons (c : Counters) (t : Tlv) (l : List Tlv) :
    c.plus (t::l)=(c.plus [t]).plus l := by
  simp only [Counters.plus,occurrences_cons,Counters.mk.injEq,and_true]
  push_cast
  refine ⟨?_,?_,?_,?_,?_⟩ <;> simp [occurrences] <;> ring

/-! ## One turn -/

/-- A listed action has a name. -/
theorem actionName_of_listed {key : Text} (h : ∃ entry ∈ dicAction,entry.1.toList=key) :
    ∃ v,actionName key=.ok v := by
  unfold actionName
  cases hf : dicAction.find? fun entry => entry.1.toList=key with
  | some entry => exact ⟨entry.2,rfl⟩
  | none =>
    obtain ⟨entry,hm,he⟩ := h
    have := List.find?_eq_none.mp hf entry hm
    simp [he] at this

/-- The branches count the TLV and do not raise. -/
theorem countType_spec (t : Tlv) (s : Locals) :
    ∃ s',countType t.type t.value s=.ok s' ∧ s'.counters=s.counters.plus [t] ∧
      s'.string=s.string := by
  have hhex : ∀ c ∈ t.value,IsHex c := fun c hc => t.hex c (by simp [hc])
  unfold countType
  split_ifs with h1 h2 h3 h9 h5
  · obtain ⟨v,hv⟩ := hex2dec_of_hex (t.number (.inl h1)) hhex
    rw [hv]
    exact ⟨_,rfl,by simp [Counters.plus,occurrences,h1],rfl⟩
  · exact ⟨_,rfl,by simp [Counters.plus,occurrences,h2],rfl⟩
  · obtain ⟨v,hv⟩ := hex2ip_of_hex (t.address h3) hhex
    rw [hv]
    exact ⟨_,rfl,by simp [Counters.plus,occurrences,h3],rfl⟩
  · obtain ⟨v,hv⟩ := hex2dec_of_hex (t.number (.inr h9)) hhex
    rw [hv]
    exact ⟨_,rfl,by simp [Counters.plus,occurrences,h9],rfl⟩
  · obtain ⟨v,hv⟩ := actionName_of_listed (t.listed h5)
    rw [hv]
    exact ⟨_,rfl,by simp [Counters.plus,occurrences,h5],rfl⟩
  · exact ⟨s,rfl,by simp_all [Counters.plus,occurrences],rfl⟩

/-- The slice between two cuts of a text. -/
theorem pySlice_middle {a b c : Text} {i j : ℤ} (hi : i=a.length) (hj : j=a.length+b.length) :
    pySlice (a++b++c) i j=b := by
  have hij : j=((a++b).length : ℕ) := by
    rw [hj,List.length_append]
    push_cast
    rfl
  rw [hi,hij,pySlice_natCast,List.take_left,List.drop_left]

/-- A turn takes one TLV off the text. -/
theorem turn_cons (t : Tlv) (rest : Text) (s : Locals) (hs : s.string=t.text++rest) :
    ∃ s',turn s=.ok s' ∧ s'.counters=s.counters.plus [t] ∧ s'.string=rest := by
  have hl := t.type_length
  have hl' := t.length_length
  have heven := t.even
  have hne : s.string ≠ [] := by
    intro he
    rw [hs,Tlv.text] at he
    have hnil : t.type=[] := by
      simp only [List.append_assoc,List.append_eq_nil_iff] at he
      exact he.1
    simp [hnil] at hl
  have htype : pySlice s.string 0 2=t.type := by
    rw [hs,Tlv.text,List.append_assoc,List.append_assoc,←List.nil_append (t.type++_),
      ←List.append_assoc]
    exact pySlice_middle (by simp) (by simp [hl])
  have hlength : pySlice s.string 2 4=t.length := by
    rw [hs,Tlv.text,List.append_assoc (t.type++t.length)]
    exact pySlice_middle (by simp [hl]) (by simp [hl,hl'])
  have hint : pyInt16 t.length=.ok ((2+t.value.length/2 : ℕ) : ℤ) := by
    apply pyInt16_of_hex _ (fun c hc => t.hex c (by simp [hc])) t.total
    intro he
    simp [he] at hl'
  have hcut : ((2+t.value.length/2 : ℕ) : ℤ)*2=(t.text.length : ℕ) := by
    rw [Tlv.text,List.length_append,List.length_append,hl,hl']
    omega
  have hvalue : pySlice s.string 4 (((2+t.value.length/2 : ℕ) : ℤ)*2)=t.value := by
    rw [hs,Tlv.text]
    refine pySlice_middle (by simp [hl,hl']) ?_
    rw [hcut,Tlv.text,List.length_append]
    push_cast
    rfl
  obtain ⟨s',hcount,hcounters,hstring⟩ := countType_spec t s
  refine ⟨{ s' with string := rest },?_,hcounters,rfl⟩
  have hrest : pySliceFrom s'.string (((2+t.value.length/2 : ℕ) : ℤ)*2)=rest := by
    rw [hstring,hs,hcut,pySliceFrom_natCast,List.drop_left]
  rw [turn,if_neg hne,hlength,hint,htype]
  show ((countType t.type (pySlice s.string 4 (((2+t.value.length/2 : ℕ) : ℤ)*2)) s).bind
    fun t' => .ok { t' with string := pySliceFrom t'.string (((2+t.value.length/2 : ℕ) : ℤ)*2) })=_
  rw [hvalue,hcount]
  show Except.ok _=_
  rw [hrest]

/-! ## All turns -/

/-- The turns count as many TLVs as they are and leave the others. -/
theorem turns_spec (n : ℕ) (l : List Tlv) (s : Locals) (hs : s.string=message l) :
    ∃ s',turns n s=.ok s' ∧ s'.counters=s.counters.plus (l.take n) := by
  induction n generalizing l s with
  | zero => exact ⟨s,rfl,by simp [Counters.plus_nil]⟩
  | succ n ih =>
    cases l with
    | nil =>
      have hturn : turn s=.ok s := by
        rw [turn,if_pos (by simpa [message] using hs)]
      obtain ⟨s',hrun,hc⟩ := ih [] s hs
      refine ⟨s',?_,by simpa using hc⟩
      rw [turns,hturn]
      exact hrun
    | cons t l =>
      obtain ⟨s₁,hturn,hc₁,hs₁⟩ := turn_cons t (message l) s (by rw [hs]; simp [message])
      obtain ⟨s',hrun,hc⟩ := ih l s₁ hs₁
      refine ⟨s',?_,?_⟩
      · rw [turns,hturn]
        exact hrun
      · rw [hc,hc₁,List.take_succ_cons]
        exact (Counters.plus_cons s.counters t (l.take n)).symm

/-- The first thirty entries are counted. -/
theorem checkType_eq (l : List Tlv) (c : Counters) :
    ∃ row,checkType (message l) c=.ok (c.plus (l.take 30),row) := by
  obtain ⟨s,hrun,hc⟩ := turns_spec listValue.length l ⟨message l,c,"","","","",0,0⟩ rfl
  refine ⟨printedRow s,?_⟩
  rw [checkType,hrun]
  show Except.ok (s.counters,printedRow s)=_
  rw [hc]
  rfl

/-- The types that the function counts. -/
def countedTypes : List String := ["01","02","03","05","09"]

/-- The function does not raise and counts every TLV of the message. -/
def CountsAll (l : List Tlv) (c : Counters) : Prop :=
  ∃ row,checkType (message l) c=.ok (c.plus l,row)

/-- The first entries and the others. -/
theorem occurrences_take_add_drop (ty : String) (n : ℕ) (l : List Tlv) :
    occurrences ty l=occurrences ty (l.take n)+occurrences ty (l.drop n) := by
  unfold occurrences
  rw [←List.countP_append,List.take_append_drop]

/-- Counting a part is counting all when the other part has no counted type. -/
theorem plus_take_eq_iff (c : Counters) (n : ℕ) (l : List Tlv) :
    c.plus (l.take n)=c.plus l ↔ ∀ ty ∈ countedTypes,occurrences ty (l.drop n)=0 := by
  have h := fun ty => occurrences_take_add_drop ty n l
  simp only [Counters.plus,Counters.mk.injEq,and_true,countedTypes,List.forall_mem_cons,
    List.not_mem_nil,false_implies,implies_true,h]
  push_cast
  constructor
  · rintro ⟨h1,h2,h3,h4,h5⟩
    omega
  · rintro ⟨h1,h2,h3,h4,h5⟩
    omega

/-- All TLVs are counted exactly when none of a counted type stands behind the
thirtieth. -/
theorem countsAll_iff (l : List Tlv) (c : Counters) :
    CountsAll l c ↔ ∀ t ∈ l.drop 30,∀ ty ∈ countedTypes,t.type ≠ ty.toList := by
  obtain ⟨row,hrun⟩ := checkType_eq l c
  have hplus : CountsAll l c ↔ c.plus (l.take 30)=c.plus l := by
    constructor
    · rintro ⟨row',h⟩
      rw [hrun] at h
      exact (Prod.mk.inj (Except.ok.inj h)).1
    · intro h
      exact ⟨row,by rw [hrun,h]⟩
  rw [hplus,plus_take_eq_iff]
  simp only [occurrences,List.countP_eq_zero,decide_eq_true_eq]
  constructor
  · intro h t ht ty hty
    exact h ty hty t ht
  · intro h ty hty t ht
    exact h t ht ty hty

/-- A TLV of type 02 without a value. -/
def emptyTime : Tlv where
  type := ['0','2']
  length := ['0','2']
  value := []
  type_length := rfl
  length_length := rfl
  hex := by
    simp only [List.cons_append,List.nil_append,List.forall_mem_cons,List.not_mem_nil,
      false_implies,implies_true,and_true]
    decide
  total := rfl
  even := rfl
  number := by decide
  address := by decide
  listed := by decide

/-- Of 31 TLVs of type 02 only 30 are counted. -/
theorem thirty_one_times : ¬CountsAll (List.replicate 31 emptyTime) ⟨0,0,0,0,0,0,0,0,0,0,0,0⟩ ∧
    ∃ row,checkType (message (List.replicate 31 emptyTime)) ⟨0,0,0,0,0,0,0,0,0,0,0,0⟩=
      .ok (⟨0,30,0,0,0,0,0,0,0,0,0,0⟩,row) := by
  obtain ⟨row,hrun⟩ := checkType_eq (List.replicate 31 emptyTime) ⟨0,0,0,0,0,0,0,0,0,0,0,0⟩
  have hcount : (⟨0,0,0,0,0,0,0,0,0,0,0,0⟩ : Counters).plus
      ((List.replicate 31 emptyTime).take 30)=⟨0,30,0,0,0,0,0,0,0,0,0,0⟩ := by decide
  rw [hcount] at hrun
  refine ⟨?_,row,hrun⟩
  rintro ⟨row',h⟩
  rw [hrun] at h
  have := (Prod.mk.inj (Except.ok.inj h)).1
  revert this
  decide

end StudyCode.GuanlianErr
