import Mathlib.Data.FinEnum
import StudyCode.CheckedLoop

/-!
# The IPv4 checker

`checkIpv4` cuts its text at dots while it scans forward and computes each
field backwards from its last character. All of its counters and the value of
a field are 32-bit integers, so a field counts by its value modulo 2^32. Reads
are checked: an access outside of the text and its terminator has no value.
-/

namespace StudyCode.CheckIp

open Checked

/-! ## checkIpv4 -/

/-- A 32-bit integer in two's complement. -/
def wrap (v : ℤ) : ℤ := (v+2^31)%2^32-2^31

/-- The value of a character, whose type may be signed. -/
def charValue (signed : Bool) (c : UInt8) : ℤ :=
  if signed=true ∧ 128 ≤ c.toNat then (c.toNat : ℤ)-256 else c.toNat

/-- The character at an offset of the text, which a NUL terminates. -/
def byteAt (ip : List UInt8) (a : ℤ) : Option UInt8 := cellAt (ip++[0]) a

/-- `for (k=1; k<j; k++) x *= 10;` with its number of turns. -/
def scale : ℕ → ℤ → ℤ
  | 0,x => x
  | n+1,x => scale n (wrap (x*10))

/-- How the loop over a field ends. -/
inductive FieldEnd where
  /-- A character that is not a digit. -/
  | invalid
  /-- The sum of the field and its last summand. -/
  | value (s x : ℤ)

/-- The loop over a field of length i, from its last character backwards. -/
def fieldLoop (signed : Bool) (ip : List UInt8) (i : ℤ) : ℕ → ℤ → ℤ → ℤ → ℤ → Option FieldEnd
  | 0,_,_,_,_ => none
  | fuel+1,j,q,s,x =>
    if j ≤ i then
      (byteAt ip q).bind fun c =>
        let d := charValue signed c-48
        if d < 0 ∨ d > 9 then some .invalid
        else
          let x := scale (j-1).toNat d
          fieldLoop signed ip i fuel (wrap (j+1)) (q-1) (wrap (s+x)) x
    else some (.value s x)

/-- A field of length i that ends at q: whether the scan goes on behind it. -/
def checkField (signed : Bool) (limit : ℕ) (ip : List UInt8) (i q : ℤ) : Option Bool := do
  match ← fieldLoop signed ip i limit 1 q 0 (-1) with
  | .invalid => some false
  | .value s x => some (decide (x ≠ -1 ∧ ¬(s < 0 ∨ s > 255)))

/-- The scan: position, length of the field so far and number of fields. -/
def scanLoop (signed : Bool) (limit : ℕ) (ip : List UInt8) : ℕ → ℤ → ℤ → ℤ → Option ℤ
  | 0,_,_,_ => none
  | fuel+1,p,i,count => do
    let c ← byteAt ip p
    if c=0 then some (if count=4 then 1 else 0)
    else
      let n ← byteAt ip (p+1)
      if c=46 ∨ n=0 then
        let ok ← checkField signed limit ip (if n=0 then wrap (i+1) else i) (if n=0 then p else p-1)
        if ok then scanLoop signed limit ip fuel (p+1) 0 (wrap (count+1)) else some 0
      else scanLoop signed limit ip fuel (p+1) (wrap (i+1)) count

/-- `checkIpv4`; the limit bounds the turns of each loop. -/
def checkIpv4 (signed : Bool) (limit : ℕ) (ip : List UInt8) : Option ℤ := do
  let c ← byteAt ip 0
  if c=46 then some 0 else scanLoop signed limit ip limit 0 0 0

/-! ## Arithmetic of 32-bit integers -/

/-- A wrapped number is an int. -/
theorem wrap_range (v : ℤ) : -2^31 ≤ wrap v ∧ wrap v < 2^31 := by
  unfold wrap
  omega

/-- An int is not wrapped. -/
theorem wrap_of_range {v : ℤ} (h : -2^31 ≤ v) (h' : v < 2^31) : wrap v=v := by
  unfold wrap
  omega

/-- Wrapping a summand first changes nothing. -/
theorem wrap_add_wrap (a b : ℤ) : wrap (wrap a+b)=wrap (a+b) := by
  unfold wrap
  omega

/-- Wrapping a summand in the middle changes nothing. -/
theorem wrap_sum (s a b : ℤ) : wrap (s+wrap a+b)=wrap (s+a+b) := by
  unfold wrap
  omega

/-- Multiples of 2^32 are lost. -/
theorem wrap_add_mul (a k : ℤ) : wrap (a+2^32*k)=wrap a := by
  unfold wrap
  omega

/-- Wrapping a factor first changes nothing. -/
theorem wrap_mul (a b : ℤ) : wrap (wrap a*b)=wrap (a*b) := by
  obtain ⟨k,hk⟩ : ∃ k,wrap a=a+2^32*k := ⟨-((a+2^31)/2^32),by unfold wrap; omega⟩
  rw [hk,show (a+2^32*k)*b=a*b+2^32*(k*b) by ring,wrap_add_mul]

/-- Repeated multiplication by ten wraps to the product. -/
theorem scale_eq {x : ℤ} (hx : wrap x=x) (n : ℕ) : scale n x=wrap (x*10^n) := by
  induction n generalizing x with
  | zero => simp [scale,hx]
  | succ n ih =>
    have hr := wrap_range (x*10)
    rw [scale,ih (wrap_of_range hr.1 hr.2),wrap_mul]
    congr 1
    ring

/-- A digit moved to its place never makes the mark of an empty field. -/
theorem scale_ne {x : ℤ} (h0 : 0 ≤ x) (h9 : x ≤ 9) (n : ℕ) : scale n x ≠ -1 := by
  rw [scale_eq (wrap_of_range (by omega) (by omega))]
  cases n with
  | zero =>
    rw [pow_zero,mul_one,wrap_of_range (by omega) (by omega)]
    omega
  | succ n =>
    have heven : x*10^(n+1)=2*(x*5*10^n) := by ring
    rw [heven]
    generalize x*5*10^n=w
    unfold wrap
    omega

/-! ## One field -/

/-- The character is a decimal digit. -/
def IsDigit (c : UInt8) : Prop := 48 ≤ c.toNat ∧ c.toNat ≤ 57

instance : DecidablePred IsDigit := fun c =>
  inferInstanceAs (Decidable (48 ≤ c.toNat ∧ c.toNat ≤ 57))

/-- The number that digits write. -/
def decValue (f : List UInt8) : ℕ := f.foldl (fun v c => 10*v+(c.toNat-48)) 0

/-- The same number from the last digit on, whose place is n. -/
def revValue : ℕ → List UInt8 → ℕ
  | _,[] => 0
  | n,c::t => (c.toNat-48)*10^n+revValue (n+1) t

/-- One digit more. -/
theorem decValue_snoc (t : List UInt8) (c : UInt8) :
    decValue (t++[c])=10*decValue t+(c.toNat-48) := by
  simp [decValue]

/-- The digits read from the end give the same value. -/
theorem revValue_reverse (t : List UInt8) (n : ℕ) : revValue n t.reverse=10^n*decValue t := by
  induction t using List.reverseRecOn generalizing n with
  | nil => simp [revValue,decValue]
  | append_singleton t c ih =>
    rw [List.reverse_append,List.reverse_singleton,List.singleton_append,revValue,ih,decValue_snoc]
    ring

/-- The test on a character is that for a digit. -/
theorem charValue_digit {signed : Bool} {c : UInt8} :
    ¬(charValue signed c-48 < 0 ∨ charValue signed c-48 > 9) ↔ IsDigit c := by
  have := c.toNat_lt
  unfold charValue IsDigit
  split <;> omega

/-- The value of a digit. -/
theorem charValue_of_digit {signed : Bool} {c : UInt8} (h : IsDigit c) :
    charValue signed c-48=((c.toNat-48 : ℕ) : ℤ) := by
  unfold IsDigit at h
  unfold charValue
  rw [if_neg (by omega)]
  omega

/-- The loop over a field on the reversed text before its end. -/
def evalRev (signed : Bool) (i : ℤ) : List UInt8 → ℤ → ℤ → ℤ → Option FieldEnd
  | [],j,s,x => if j ≤ i then none else some (.value s x)
  | c::l,j,s,x =>
    if j ≤ i then
      if charValue signed c-48 < 0 ∨ charValue signed c-48 > 9 then some .invalid
      else evalRev signed i l (wrap (j+1)) (wrap (s+scale (j-1).toNat (charValue signed c-48)))
        (scale (j-1).toNat (charValue signed c-48))
    else some (.value s x)

variable {signed : Bool} {ip : List UInt8} {limit : ℕ}

/-- A character inside of the text. -/
theorem byteAt_natCast {n : ℕ} (h : n < ip.length) : byteAt ip n=some ip[n] := by
  have hlt : n < (ip++[0]).length := by
    rw [List.length_append]
    omega
  rw [byteAt,cellAt_of_lt hlt,List.getElem_append_left h]

/-- Behind the text stands a zero. -/
theorem byteAt_end (ip : List UInt8) : byteAt ip ip.length=some 0 := by
  simp [byteAt]

/-- The loop over a field reads its characters from the end. -/
theorem fieldLoop_eq (i : ℤ) {n fuel : ℕ} (hn : n ≤ ip.length) (hf : n < fuel) (j s x : ℤ) :
    fieldLoop signed ip i fuel j ((n : ℤ)-1) s x=
      evalRev signed i (ip.take n).reverse j s x := by
  induction n generalizing fuel j s x with
  | zero =>
    obtain ⟨fuel,rfl⟩ := Nat.exists_eq_add_of_le' hf
    simp [fieldLoop,evalRev,byteAt,cellAt]
  | succ n ih =>
    obtain ⟨fuel,rfl⟩ : ∃ k,fuel=k+1 := ⟨fuel-1,by omega⟩
    have hq : (((n+1 : ℕ) : ℤ)-1)=(n : ℤ) := by omega
    have htake : (ip.take (n+1)).reverse=ip[n]::(ip.take n).reverse := by
      rw [List.take_add_one,List.getElem?_eq_getElem hn]
      simp
    rw [htake,fieldLoop,evalRev,hq,byteAt_natCast hn]
    simp only [Option.bind_some]
    rw [ih (by omega) (by omega : n < fuel)]

/-- A counter that is never behind the greatest int goes on to a character
that is no digit, or over the start of the text. -/
theorem evalRev_max (l : List UInt8) {j : ℤ} (hj : j ≤ 2^31-1) (s x : ℤ) :
    evalRev signed (2^31-1) l j s x=if ∀ c ∈ l,IsDigit c then none else some .invalid := by
  induction l generalizing j s x with
  | nil => rw [evalRev,if_pos hj,if_pos (by simp)]
  | cons c l ih =>
    have hnext := (wrap_range (j+1)).2
    rw [evalRev,if_pos hj,ih (by omega)]
    by_cases hc : IsDigit c
    · rw [if_neg (charValue_digit.mpr hc)]
      simp [hc]
    · rw [if_pos (by_contra fun h => hc (charValue_digit.mp h)),if_neg (by simp [hc])]

/-- Any other counter sums up as many characters as the length says. -/
theorem evalRev_sum {i : ℕ} (hi : i < 2^31-1) (t r : List UInt8) {n : ℕ} (hn : n+t.length=i)
    {s : ℤ} (hs : wrap s=s) (x : ℤ) :
    ((∃ c ∈ t,¬IsDigit c) ∧ evalRev signed i (t++r) (n+1) s x=some .invalid) ∨
      ((∀ c ∈ t,IsDigit c) ∧ ∃ x',
        evalRev signed i (t++r) (n+1) s x=some (.value (wrap (s+revValue n t)) x') ∧
        (t=[] → x'=x) ∧ (t ≠ [] → x' ≠ -1)) := by
  induction t generalizing n s x with
  | nil =>
    refine .inr ⟨by simp,x,?_,fun _ => rfl,fun h => absurd rfl h⟩
    have hstop : ¬((n : ℤ)+1 ≤ i) := by
      simp at hn
      omega
    simp only [List.nil_append,revValue,Nat.cast_zero,add_zero,hs]
    cases r with
    | nil => rw [evalRev,if_neg hstop]
    | cons c r => rw [evalRev,if_neg hstop]
  | cons c t ih =>
    rw [List.length_cons] at hn
    have hgo : (n : ℤ)+1 ≤ i := by omega
    rw [List.cons_append,evalRev,if_pos hgo]
    by_cases hc : IsDigit c
    · have hd : charValue signed c-48=((c.toNat-48 : ℕ) : ℤ) := charValue_of_digit hc
      have hsmall : (c.toNat-48 : ℕ) ≤ 9 := by
        unfold IsDigit at hc
        omega
      have hplace : (((n : ℤ)+1)-1).toNat=n := by omega
      have hscale : scale n (charValue signed c-48)=wrap (((c.toNat-48 : ℕ) : ℤ)*10^n) := by
        rw [hd,scale_eq (wrap_of_range (by omega) (by omega))]
      have hnext : wrap ((n : ℤ)+1+1)=((n+1 : ℕ) : ℤ)+1 := by
        rw [wrap_of_range (by omega) (by omega)]
        push_cast
        rfl
      rw [if_neg (charValue_digit.mpr hc),hplace,hnext]
      have hr := wrap_range (s+scale n (charValue signed c-48))
      have hval : wrap (wrap (s+scale n (charValue signed c-48))+revValue (n+1) t)=
          wrap (s+revValue n (c::t)) := by
        rw [wrap_add_wrap,hscale,wrap_sum]
        exact congrArg wrap (by rw [revValue]; push_cast; ring)
      rcases ih (n := n+1) (by omega) (wrap_of_range hr.1 hr.2)
        (scale n (charValue signed c-48)) with ⟨⟨c',hc',hbad⟩,he⟩|⟨hall,x',he,hnil,hne⟩
      · exact .inl ⟨⟨c',.tail c hc',hbad⟩,he⟩
      · refine .inr ⟨List.forall_mem_cons.mpr ⟨hc,hall⟩,x',by rw [he,hval],by simp,fun _ => ?_⟩
        by_cases ht : t=[]
        · rw [hnil ht,hd]
          exact scale_ne (by omega) (by omega) n
        · exact hne ht
    · rw [if_pos (by_contra fun h => hc (charValue_digit.mp h))]
      exact .inl ⟨⟨c,.head t,hc⟩,rfl⟩

/-- The loop stops at its bound. -/
theorem evalRev_stop {i j : ℤ} (h : ¬j ≤ i) (l : List UInt8) (s x : ℤ) :
    evalRev signed i l j s x=some (.value s x) := by
  cases l with
  | nil => rw [evalRev,if_neg h]
  | cons c l => rw [evalRev,if_neg h]

/-- The characters of a field that its counter tells apart: the last ones, as
many as its length modulo 2^32. -/
def seen (f : List UInt8) : List UInt8 := f.drop (f.length-f.length%2^32)

/-- The code goes on behind the field. -/
def Accepted (f : List UInt8) : Prop :=
  1 ≤ f.length%2^32 ∧ f.length%2^32 < 2^31-1 ∧ (∀ c ∈ seen f,IsDigit c) ∧
    decValue (seen f)%2^32 ≤ 255

/-- The loop over the field leaves the text, if nothing stands before it. -/
def Unbounded (f : List UInt8) : Prop := f.length%2^32=2^31-1 ∧ ∀ c ∈ f,IsDigit c

instance : DecidablePred Accepted := fun f => inferInstanceAs (Decidable
  (1 ≤ f.length%2^32 ∧ f.length%2^32 < 2^31-1 ∧ (∀ c ∈ seen f,IsDigit c) ∧
    decValue (seen f)%2^32 ≤ 255))

instance : DecidablePred Unbounded := fun f => inferInstanceAs (Decidable
  (f.length%2^32=2^31-1 ∧ ∀ c ∈ f,IsDigit c))

/-- The outcome of a field, which is the first one or stands behind a dot. -/
def fieldOutcome (first : Bool) (f : List UInt8) : Option Bool :=
  if first=true ∧ Unbounded f then none else some (decide (Accepted f))

/-- What stands before a field: nothing, or text that ends in a dot. -/
def Before (first : Bool) (pre : List UInt8) : Prop :=
  first=true ∧ pre=[] ∨ first=false ∧ ∃ t,pre=t++[46]

/-- The length of a field as an int. -/
theorem wrap_length (n : ℕ) :
    wrap n=if n%2^32 < 2^31 then ((n%2^32 : ℕ) : ℤ) else ((n%2^32 : ℕ) : ℤ)-2^32 := by
  unfold wrap
  split <;> omega

/-- A field is checked as its characters say. -/
theorem checkField_spec {first : Bool} {pre f post : List UInt8} (hip : ip=pre++f++post)
    (hpre : Before first pre) (hlimit : ip.length < limit) :
    checkField signed limit ip (wrap f.length) (((pre++f).length : ℤ)-1)=fieldOutcome first f := by
  have hlen : (pre++f).length ≤ ip.length := by
    rw [hip,←Nat.add_zero (pre++f).length]
    simp only [List.length_append]
    omega
  have htake : (ip.take (pre++f).length).reverse=f.reverse++pre.reverse := by
    rw [hip,List.take_left,List.reverse_append]
  rw [checkField,fieldLoop_eq _ hlen (by omega),htake,wrap_length,fieldOutcome]
  by_cases hneg : f.length%2^32=0 ∨ 2^31 ≤ f.length%2^32
  · rw [evalRev_stop (by split <;> omega),if_neg (by unfold Unbounded; omega),
      decide_eq_false (by unfold Accepted; omega)]
    simp
  rw [if_pos (by omega)]
  by_cases hmax : f.length%2^32=2^31-1
  · have hi : ((f.length%2^32 : ℕ) : ℤ)=2^31-1 := by omega
    rw [hi,evalRev_max _ (by norm_num)]
    have hacc : decide (Accepted f)=false := decide_eq_false (by unfold Accepted; omega)
    rw [hacc]
    rcases hpre with ⟨rfl,rfl⟩|⟨rfl,t,rfl⟩
    · by_cases hd : ∀ c ∈ f,IsDigit c
      · rw [if_pos (by simpa using hd),if_pos ⟨rfl,hmax,hd⟩]
        rfl
      · rw [if_neg (by simpa using hd),if_neg (fun h => hd h.2.2)]
        rfl
    · have hdot : ¬∀ c ∈ f.reverse++(t++[46]).reverse,IsDigit c := by
        intro h
        have := h 46 (by simp)
        revert this
        decide
      rw [if_neg hdot,if_neg (by simp)]
      rfl
  · rw [if_neg (by unfold Unbounded; omega)]
    have hsplit : f.reverse=(seen f).reverse++(f.take (f.length-f.length%2^32)).reverse := by
      rw [←List.reverse_append,seen,List.take_append_drop]
    have hseen : (seen f).reverse.length=f.length%2^32 := by
      have := Nat.mod_le f.length (2^32)
      rw [List.length_reverse,seen,List.length_drop]
      omega
    have hsum := @evalRev_sum signed _ (by omega : f.length%2^32 < 2^31-1) (seen f).reverse
      ((f.take (f.length-f.length%2^32)).reverse++pre.reverse) 0 (by rw [hseen]; omega) 0
      (by decide) (-1)
    rw [Nat.cast_zero,zero_add] at hsum
    rw [hsplit,List.append_assoc]
    rcases hsum with ⟨⟨c,hc,hbad⟩,he⟩|⟨hall,x,he,-,hx⟩
    · have hacc : ¬Accepted f := fun h => hbad (h.2.2.1 c (by simpa using hc))
      rw [he,decide_eq_false hacc]
      rfl
    · have hne : (seen f).reverse ≠ [] := by
        intro h
        rw [h] at hseen
        simp at hseen
        omega
      have hvalue := wrap_length (decValue (seen f))
      rw [he,revValue_reverse,pow_zero,one_mul,zero_add]
      have hacc : (x ≠ -1 ∧ ¬(wrap (decValue (seen f)) < 0 ∨ wrap (decValue (seen f)) > 255)) ↔
          Accepted f := by
        have hd : ∀ c ∈ seen f,IsDigit c := fun c hc => hall c (by simpa using hc)
        have hx' := hx hne
        unfold Accepted
        rw [hvalue]
        constructor
        · rintro ⟨-,hv⟩
          refine ⟨by omega,by omega,hd,?_⟩
          split at hv <;> omega
        · rintro ⟨-,-,-,hv⟩
          refine ⟨hx',?_⟩
          rw [if_pos (by omega)]
          omega
      show some (decide _)=some (decide _)
      rw [decide_eq_decide.mpr hacc]

/-! ## The scan -/

/-- The scan on the field so far and the rest of the text. -/
def judge : Bool → ℤ → List UInt8 → List UInt8 → Option ℤ
  | _,count,_,[] => some (if count=4 then 1 else 0)
  | first,count,cur,c::rest =>
    if c=46 ∨ rest=[] then
      (fieldOutcome first (if rest=[] then cur++[c] else cur)).bind fun ok =>
        if ok then judge false (wrap (count+1)) [] rest else some 0
    else judge first count (cur++[c]) rest

/-- At the end of the text the fields are counted. -/
theorem scanLoop_end {fuel : ℕ} (hf : 0 < fuel) {p : ℤ} (hp : p=ip.length) (i count : ℤ) :
    scanLoop signed limit ip fuel p i count=some (if count=4 then 1 else 0) := by
  obtain ⟨fuel,rfl⟩ := Nat.exists_eq_add_of_le' hf
  rw [scanLoop,hp,byteAt_end]
  rfl

/-- The character behind the next one, or the end. -/
theorem byteAt_next {a rest : List UInt8} {c : UInt8} (hip : ip=a++c::rest) :
    byteAt ip ((a.length : ℤ)+1)=some (rest.headD 0) := by
  have hcast : ((a.length : ℤ)+1)=((a.length+1 : ℕ) : ℤ) := by push_cast; rfl
  rw [byteAt,hcast,cellAt_natCast,hip]
  cases rest with
  | nil => simp
  | cons d rest => simp

/-- The scan does what the judgement on lists says. -/
theorem scanLoop_eq (hnul : ∀ c ∈ ip,c ≠ 0) (hlimit : ip.length < limit) {fuel : ℕ} {first : Bool}
    {pre cur rest : List UInt8} (hip : ip=pre++cur++rest) (hpre : Before first pre)
    (hf : rest.length < fuel) (count : ℤ) :
    scanLoop signed limit ip fuel (pre++cur).length (wrap cur.length) count=
      judge first count cur rest := by
  induction rest generalizing fuel first pre cur count with
  | nil =>
    rw [scanLoop_end (by omega) (by rw [hip,List.append_nil]),judge]
  | cons c rest ih =>
    obtain ⟨fuel,rfl⟩ : ∃ k,fuel=k+1 := ⟨fuel-1,by omega⟩
    rw [List.length_cons] at hf
    have hc : c ≠ 0 := hnul c (by rw [hip]; simp)
    have hread : byteAt ip (pre++cur).length=some c := by
      rw [byteAt,cellAt_natCast,hip]
      simp
    rw [scanLoop,hread,judge]
    simp only [Option.bind_eq_bind,Option.bind_some]
    rw [if_neg hc,byteAt_next hip]
    simp only [Option.bind_some]
    have hlast : rest.headD 0=0 ↔ rest=[] := by
      cases rest with
      | nil => simp
      | cons d rest =>
        have : d ≠ 0 := hnul d (by rw [hip]; simp)
        simp [this]
    have hgrow : wrap (wrap cur.length+1)=wrap (cur++[c]).length := by
      rw [wrap_add_wrap,List.length_append,List.length_singleton]
      push_cast
      rfl
    have hp : (((pre++cur).length : ℕ) : ℤ)+1=((pre++(cur++[c])).length : ℕ) := by
      simp
      omega
    simp only [hlast,hgrow,hp]
    by_cases hend : rest=[]
    · subst hend
      have hq : (((pre++cur).length : ℕ) : ℤ)=((pre++(cur++[c])).length : ℤ)-1 := by omega
      have hip' : ip=pre++(cur++[c])++[] := by
        rw [hip]
        simp
      simp only [or_true,if_true]
      rw [hq,checkField_spec hip' hpre hlimit]
      refine congrArg (Option.bind _) (funext fun ok => ?_)
      cases ok with
      | false => rfl
      | true =>
        rw [if_pos rfl,if_pos rfl,scanLoop_end (by omega) (by rw [hip]; simp),judge]
    · by_cases hdot : c=46
      · subst hdot
        simp only [hend,true_or,if_true,if_false]
        rw [checkField_spec hip hpre hlimit]
        refine congrArg (Option.bind _) (funext fun ok => ?_)
        cases ok with
        | false => rfl
        | true =>
          have hz : (0 : ℤ)=wrap (([] : List UInt8).length) := by decide
          have hstart : pre++(cur++[46])=(pre++cur++[46])++[] := by simp
          rw [if_pos rfl,if_pos rfl,hstart,hz]
          exact ih (by rw [hip]; simp) (.inr ⟨rfl,pre++cur,rfl⟩) (by omega) _
      · simp only [hend,hdot,or_self,if_false]
        exact ih (by rw [hip]; simp) hpre (by omega) count

/-! ## Dotted quads -/

/-- The fields between the dots of a text. -/
def fields (ip : List UInt8) : List (List UInt8) := ip.splitOn 46

/-- An empty text is one empty field. -/
theorem fields_nil : fields []=[[]] := rfl

/-- A dot ends a field. -/
theorem fields_dot (r : List UInt8) : fields (46::r)=[]::fields r := by
  rw [fields,List.splitOn_cons_eq_if_modifyHead,if_pos (beq_self_eq_true 46)]
  rfl

/-- Any other character belongs to the first field. -/
theorem fields_cons {c : UInt8} (h : c ≠ 46) (r : List UInt8) :
    fields (c::r)=(fields r).modifyHead (c::·) := by
  rw [fields,List.splitOn_cons_eq_if_modifyHead,if_neg (by simpa using h)]
  rfl

/-- Four numbers of at most 255 with single dots between them. -/
def Quad (ip : List UInt8) : Prop :=
  (fields ip).length=4 ∧
    ∀ f ∈ fields ip,f ≠ [] ∧ (∀ c ∈ f,IsDigit c) ∧ decValue f ≤ 255

instance : DecidablePred Quad := fun ip => inferInstanceAs (Decidable
  ((fields ip).length=4 ∧ ∀ f ∈ fields ip,f ≠ [] ∧ (∀ c ∈ f,IsDigit c) ∧ decValue f ≤ 255))

/-- The text before the first dot that is not the last character. -/
def firstPiece : List UInt8 → List UInt8
  | [] => []
  | c::r => if c=46 ∧ r ≠ [] then [] else c::firstPiece r

/-- A field is taken exactly when it is accepted. -/
theorem fieldOutcome_eq_true {first : Bool} {f : List UInt8} :
    fieldOutcome first f=some true ↔ Accepted f := by
  unfold fieldOutcome
  split
  · rename_i h
    have : ¬Accepted f := by
      have := h.2.1
      unfold Accepted
      omega
    simp [this]
  · simp

/-- An empty field is not accepted. -/
theorem not_accepted_nil : ¬Accepted [] := by
  unfold Accepted
  simp

/-- A field that ends in a dot is not accepted. -/
theorem not_accepted_dot (f : List UInt8) : ¬Accepted (f++[46]) := by
  rintro ⟨h1,-,hd,-⟩
  have hmem : (46 : UInt8) ∈ seen (f++[46]) := by
    have hle : (f++[46]).length-(f++[46]).length%2^32 ≤ f.length := by
      rw [List.length_append,List.length_singleton] at *
      omega
    rw [seen,List.drop_append_of_le_length hle]
    simp
  have := hd 46 hmem
  revert this
  decide

/-- A text passes when the field is accepted and the rest passes. -/
theorem bind_eq_one {first : Bool} {f : List UInt8} {o : Option ℤ} :
    ((fieldOutcome first f).bind fun ok => if ok then o else some 0)=some 1 ↔
      Accepted f ∧ o=some 1 := by
  have htrue : fieldOutcome first f=some true ↔ Accepted f := fieldOutcome_eq_true
  rw [←htrue]
  cases fieldOutcome first f with
  | none => simp
  | some ok => cases ok <;> simp

theorem modifyHead_nil_append (l : List (List UInt8)) :
    l.modifyHead (([] : List UInt8)++·)=l := by
  cases l <;> rfl

/-- The scan accepts a text exactly when it accepts all of its fields and
counts four of them. -/
theorem judge_eq_one {rest : List UInt8} (hrest : rest ≠ []) (first : Bool) (count : ℤ)
    (cur : List UInt8) :
    judge first count cur rest=some 1 ↔
      (∀ f ∈ (fields rest).modifyHead (cur++·),Accepted f) ∧
        wrap (count+(fields rest).length)=4 := by
  induction rest generalizing first count cur with
  | nil => exact absurd rfl hrest
  | cons c rest ih =>
    rw [judge]
    by_cases hend : rest=[]
    · subst hend
      rw [if_pos (.inr rfl),if_pos rfl,bind_eq_one,judge]
      by_cases hdot : c=46
      · subst hdot
        simp [fields_dot,fields_nil,not_accepted_dot,not_accepted_nil]
      · simp [fields_cons hdot,fields_nil]
    · by_cases hdot : c=46
      · subst hdot
        rw [if_pos (.inl rfl),if_neg hend,bind_eq_one,ih hend,modifyHead_nil_append,wrap_add_wrap,
          fields_dot]
        simp only [List.modifyHead_cons,List.append_nil,List.forall_mem_cons,List.length_cons,
          and_assoc]
        push_cast
        rw [add_assoc count 1,add_comm (1 : ℤ)]
      · have hno : ¬(c=46 ∨ rest=[]) := fun h => h.elim hdot hend
        rw [if_neg hno,ih hend,fields_cons hdot,List.modifyHead_modifyHead,List.length_modifyHead]
        simp [Function.comp_def]

/-- The answer is 0 or 1. -/
theorem judge_range (first : Bool) (count : ℤ) (cur rest : List UInt8) {r : ℤ}
    (h : judge first count cur rest=some r) : r=0 ∨ r=1 := by
  induction rest generalizing first count cur with
  | nil =>
    rw [judge] at h
    split at h <;> simp_all
  | cons c rest ih =>
    rw [judge] at h
    split at h
    · cases ho : fieldOutcome first (if rest=[] then cur++[c] else cur) with
      | none => simp [ho] at h
      | some ok =>
        cases ok with
        | false =>
          rw [ho] at h
          exact .inl (Option.some.inj h).symm
        | true =>
          rw [ho] at h
          exact ih _ _ _ h
    · exact ih _ _ _ h

/-- The check is undefined exactly on an unbounded first field. -/
theorem bind_eq_none {first : Bool} {f : List UInt8} {o : Option ℤ} (ho : o ≠ none) :
    ((fieldOutcome first f).bind fun ok => if ok then o else some 0)=none ↔
      first=true ∧ Unbounded f := by
  unfold fieldOutcome
  by_cases h : first=true ∧ Unbounded f
  · simp [h]
  · rw [if_neg h]
    simp only [Option.bind_some,h,iff_false]
    split <;> simp [ho]

/-- Only the first field can lead the scan out of the text. -/
theorem judge_eq_none {rest : List UInt8} (first : Bool) (count : ℤ) (cur : List UInt8) :
    judge first count cur rest=none ↔
      rest ≠ [] ∧ first=true ∧ Unbounded (cur++firstPiece rest) := by
  induction rest generalizing first count cur with
  | nil => simp [judge]
  | cons c rest ih =>
    have hgo : judge false (wrap (count+1)) [] rest ≠ none := by
      rw [Ne,ih]
      simp
    rw [judge,firstPiece]
    by_cases hend : rest=[]
    · subst hend
      rw [if_pos (.inr rfl),bind_eq_none hgo,if_pos rfl,if_neg (by simp)]
      simp [firstPiece]
    · by_cases hdot : c=46
      · rw [if_pos (.inl hdot),bind_eq_none hgo,if_neg hend,if_pos ⟨hdot,hend⟩]
        simp
      · have hno : ¬(c=46 ∨ rest=[]) := fun h => h.elim hdot hend
        rw [if_neg hno,ih,if_neg (fun h => hdot h.1)]
        simp [hend]

/-- A text that begins with a dot is not accepted either way. -/
theorem judge_dot (first : Bool) (count : ℤ) (rest : List UInt8) :
    judge first count [] (46::rest)=some 0 := by
  have hnone : judge first count [] (46::rest) ≠ none := by
    rw [Ne,judge_eq_none,firstPiece]
    rintro ⟨-,-,h1,h2⟩
    split at h1
    · simp at h1
    · rename_i hr
      rw [if_neg hr] at h2
      have := h2 46 (by simp)
      revert this
      decide
  have hone : judge first count [] (46::rest) ≠ some 1 := by
    rw [Ne,judge_eq_one (by simp),fields_dot]
    simp [not_accepted_nil]
  obtain ⟨r,hr⟩ := Option.ne_none_iff_exists'.mp hnone
  rcases judge_range _ _ _ _ hr with rfl|rfl
  · exact hr
  · exact absurd hr hone

/-- The whole function on lists. -/
theorem checkIpv4_eq (hnul : ∀ c ∈ ip,c ≠ 0) (hlimit : ip.length < limit) :
    checkIpv4 signed limit ip=judge true 0 [] ip := by
  have hall : ip=([] : List UInt8)++[]++ip := rfl
  have hscan : scanLoop signed limit ip limit 0 0 0=judge true 0 [] ip :=
    scanLoop_eq hnul hlimit hall (.inl ⟨rfl,rfl⟩) hlimit 0
  cases ip with
  | nil =>
    rw [checkIpv4]
    exact hscan
  | cons c rest =>
    have hread : byteAt (c::rest) 0=some c := byteAt_natCast (n := 0) (by simp)
    rw [checkIpv4,hread]
    show (if c=46 then some 0 else scanLoop signed limit (c::rest) limit 0 0 0)=_
    by_cases hdot : c=46
    · rw [if_pos hdot,hdot,judge_dot]
    · rw [if_neg hdot,hscan]

/-- The function stays inside of the text and returns 1 for dotted quads and 0
for everything else. -/
def Correct (signed : Bool) (ip : List UInt8) : Prop :=
  ∃ r,(∀ limit,ip.length < limit → checkIpv4 signed limit ip=some r) ∧
    (r=1 ↔ Quad ip) ∧ (r=0 ↔ ¬Quad ip)

/-- No counter and no value wraps in a way that matters: the first field is not
2^31-1 digits long, texts whose fields are small only modulo 2^32 are small,
and no field of a quad has a length that its counter does not hold. -/
def NoWrap (ip : List UInt8) : Prop :=
  ¬Unbounded (firstPiece ip) ∧
    ((fields ip).length%2^32=4 → (∀ f ∈ fields ip,Accepted f) →
      (fields ip).length=4 ∧ ∀ f ∈ fields ip,(∀ c ∈ f,IsDigit c) ∧ decValue f ≤ 255) ∧
    (Quad ip → ∀ f ∈ fields ip,1 ≤ f.length%2^32 ∧ f.length%2^32 < 2^31-1)

instance : DecidablePred NoWrap := fun ip => inferInstanceAs (Decidable
  (¬Unbounded (firstPiece ip) ∧
    ((fields ip).length%2^32=4 → (∀ f ∈ fields ip,Accepted f) →
      (fields ip).length=4 ∧ ∀ f ∈ fields ip,(∀ c ∈ f,IsDigit c) ∧ decValue f ≤ 255) ∧
    (Quad ip → ∀ f ∈ fields ip,1 ≤ f.length%2^32 ∧ f.length%2^32 < 2^31-1)))

/-- The value of two parts. -/
theorem decValue_append (a b : List UInt8) :
    decValue (a++b)=decValue a*10^b.length+decValue b := by
  induction b using List.reverseRecOn with
  | nil => simp [decValue]
  | append_singleton b c ih =>
    rw [←List.append_assoc,decValue_snoc,ih,decValue_snoc,List.length_append,List.length_singleton]
    ring

/-- The digits that are seen are worth no more than all. -/
theorem decValue_seen_le (f : List UInt8) : decValue (seen f) ≤ decValue f := by
  have h := decValue_append (f.take (f.length-f.length%2^32)) (seen f)
  rw [seen,List.take_append_drop] at h
  rw [seen]
  omega

/-- The value of the scan as a statement on the fields. -/
theorem judge_one_iff (ip : List UInt8) :
    judge true 0 [] ip=some 1 ↔
      (∀ f ∈ fields ip,Accepted f) ∧ (fields ip).length%2^32=4 := by
  by_cases hip : ip=[]
  · subst hip
    simp [judge,fields_nil,not_accepted_nil]
  · rw [judge_eq_one hip,modifyHead_nil_append,zero_add]
    have : wrap (fields ip).length=4 ↔ (fields ip).length%2^32=4 := by
      rw [wrap_length]
      split <;> omega
    rw [this]

/-- The checker is right exactly on the texts where nothing wraps. -/
theorem correct_iff_noWrap (signed : Bool) (ip : List UInt8) (hnul : ∀ c ∈ ip,c ≠ 0) :
    Correct signed ip ↔ NoWrap ip := by
  have hrun : ∀ limit,ip.length < limit → checkIpv4 signed limit ip=judge true 0 [] ip :=
    fun limit hl => checkIpv4_eq hnul hl
  have hone := judge_one_iff ip
  have hnone : judge true 0 [] ip=none ↔ Unbounded (firstPiece ip) := by
    rw [judge_eq_none]
    by_cases hip : ip=[]
    · subst hip
      simp [Unbounded,firstPiece]
    · simp [hip]
  constructor
  · rintro ⟨r,hr,h1,h0⟩
    have hj : judge true 0 [] ip=some r :=
      (hrun _ (Nat.lt_succ_self _)).symm.trans (hr _ (Nat.lt_succ_self _))
    refine ⟨?_,?_,?_⟩
    · intro hu
      rw [hnone.mpr hu] at hj
      cases hj
    · intro hn hall
      have hq : Quad ip := h1.mp (Option.some.inj (hj.symm.trans (hone.mpr ⟨hall,hn⟩)))
      exact ⟨hq.1,fun f hf => (hq.2 f hf).2⟩
    · intro hq f hf
      rw [h1.mpr hq] at hj
      have hacc := (hone.mp hj).1 f hf
      exact ⟨hacc.1,hacc.2.1⟩
  · rintro ⟨hbound,hsmall,hlong⟩
    obtain ⟨r,hj⟩ := Option.ne_none_iff_exists'.mp fun h => hbound (hnone.mp h)
    have hquad : r=1 ↔ Quad ip := by
      constructor
      · rintro rfl
        obtain ⟨hall,hn⟩ := hone.mp hj
        obtain ⟨h4,hd⟩ := hsmall hn hall
        refine ⟨h4,fun f hf => ⟨?_,hd f hf⟩⟩
        rintro rfl
        exact not_accepted_nil (hall [] hf)
      · intro hq
        have hall : ∀ f ∈ fields ip,Accepted f := by
          intro f hf
          obtain ⟨-,hd,hv⟩ := hq.2 f hf
          obtain ⟨hl1,hl2⟩ := hlong hq f hf
          have hle := decValue_seen_le f
          refine ⟨hl1,hl2,fun c hc => hd c (List.mem_of_mem_drop hc),?_⟩
          rw [Nat.mod_eq_of_lt (by omega)]
          omega
        have hn : (fields ip).length%2^32=4 := by
          rw [hq.1]
          norm_num
        exact Option.some.inj (hj.symm.trans (hone.mpr ⟨hall,hn⟩))
    refine ⟨r,fun limit hl => (hrun limit hl).trans hj,hquad,?_⟩
    rcases judge_range _ _ _ _ hj with rfl|rfl
    · simpa using hquad
    · simpa using hquad

/-- The text `10.0.0.1` is judged rightly. -/
theorem correct_ten_zero_zero_one : (∀ c ∈ ([49,48,46,48,46,48,46,49] : List UInt8),c ≠ 0) ∧
    Correct true [49,48,46,48,46,48,46,49] := by
  have hnul : ∀ c ∈ ([49,48,46,48,46,48,46,49] : List UInt8),c ≠ 0 := by decide +kernel
  have hwrap : NoWrap [49,48,46,48,46,48,46,49] := by decide +kernel
  exact ⟨hnul,(correct_iff_noWrap true [49,48,46,48,46,48,46,49] hnul).mpr hwrap⟩

/-- The text `4294967296.1.1.1` is accepted: its first field is 0 modulo 2^32. -/
theorem accepts_wrapped : checkIpv4 true 20
      [52,50,57,52,57,54,55,50,57,54,46,49,46,49,46,49]=some 1 ∧
    ¬Quad [52,50,57,52,57,54,55,50,57,54,46,49,46,49,46,49] ∧
    ¬Correct true [52,50,57,52,57,54,55,50,57,54,46,49,46,49,46,49] := by
  have hrun : checkIpv4 true 20 [52,50,57,52,57,54,55,50,57,54,46,49,46,49,46,49]=some 1 := by
    decide +kernel
  have hquad : ¬Quad [52,50,57,52,57,54,55,50,57,54,46,49,46,49,46,49] := by decide +kernel
  refine ⟨hrun,hquad,?_⟩
  rintro ⟨r,hr,h1,-⟩
  have he := (hr 20 (by decide)).symm.trans hrun
  exact hquad (h1.mp (Option.some.inj he))

end StudyCode.CheckIp
