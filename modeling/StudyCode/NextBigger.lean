import StudyCode.BitRun

/-!
# The next number with as many one bits

`snoob` and `next_greater` take the lowest one bit of a 32-bit number, add it
and put back what is left of the lowest run of one bits. One joins the two
parts with `|`, the other with `+`.
-/

namespace StudyCode.NextBigger

open BitRun

/-! ## The functions -/

/-- Unsigned division; a zero divisor has no value. -/
def divU (a b : UInt32) : Option UInt32 := if b=0 then none else some (a/b)

/-- `snoob`; the negative is formed as a signed value. -/
def snoob (x : UInt32) : Option UInt32 :=
  if x ≠ 0 then
    let rightOne := x &&& (-x.toInt32).toUInt32
    let nextHigherOneBit := x+rightOne
    let rightOnesPattern := x ^^^ nextHigherOneBit
    (divU rightOnesPattern rightOne).map fun rightOnesPattern =>
      nextHigherOneBit ||| (rightOnesPattern >>> (2 : UInt32))
  else some 0

/-- `next_greater`; the negative is formed from the complement. -/
def nextGreater (n : UInt32) : Option UInt32 :=
  let a := ~~~n+1
  let t := a &&& n
  let x := n+t
  let y := x ^^^ n
  (divU y t).map fun y => x+(y >>> (2 : UInt32))

/-- Number of one bits of a 32-bit value. -/
def oneBits (x : UInt32) : ℕ := ones x.toNat

/-- The larger values with as many one bits. -/
def larger (x : UInt32) : Set UInt32 := {y | x < y ∧ oneBits y=oneBits x}

/-! ## The parts -/

/-- The lowest one bit. -/
def lowBit (x : UInt32) : UInt32 := x &&& -x

/-- What is left of the lowest run. -/
def restBits (x : UInt32) : UInt32 := ((x ^^^ (x+lowBit x))/lowBit x) >>> (2 : UInt32)

/-- The first function without its division. -/
theorem snoob_eq {x : UInt32} (hx : x ≠ 0) (hlow : lowBit x ≠ 0) :
    snoob x=some ((x+lowBit x) ||| restBits x) := by
  have hneg : (-x.toInt32).toUInt32=-x := rfl
  rw [snoob,if_pos hx,hneg]
  show (divU (x ^^^ (x+lowBit x)) (lowBit x)).map _=_
  rw [divU,if_neg hlow,Option.map_some]
  rfl

/-- The second function without its division. -/
theorem nextGreater_eq {x : UInt32} (hlow : lowBit x ≠ 0) :
    nextGreater x=some ((x+lowBit x)+restBits x) := by
  have hand : (~~~x+1) &&& x=lowBit x := by
    rw [←UInt32.neg_eq_not_add,UInt32.and_comm,lowBit]
  rw [nextGreater,hand]
  show (divU ((x+lowBit x) ^^^ x) (lowBit x)).map _=_
  rw [divU,if_neg hlow,Option.map_some,UInt32.xor_comm]
  rfl

section Run

variable {x : UInt32} {c b h : ℕ}

/-- The lowest one of a run. -/
theorem lowBit_toNat (hx : x.toNat=run c b h) : (lowBit x).toNat=2^b := by
  have hlt : run c b h < 2^32 := hx ▸ x.toNat_lt
  have hpos := run_pos c b h
  rw [lowBit,UInt32.toNat_and,UInt32.toNat_neg,hx,show UInt32.size=2^32 from rfl,
    Nat.mod_eq_of_lt (by omega),run_and_neg hlt]

/-- The divisor is not zero. -/
theorem lowBit_ne_zero (hx : x.toNat=run c b h) : lowBit x ≠ 0 := by
  intro hzero
  have hpos : 0 < 2^b := by positivity
  rw [←lowBit_toNat hx,hzero,UInt32.toNat_zero] at hpos
  omega

/-- The carry of the lowest one. -/
theorem add_lowBit_toNat (hx : x.toNat=run c b h) (hfit : run c b h+2^b < 2^32) :
    (x+lowBit x).toNat=run c b h+2^b := by
  rw [UInt32.toNat_add,lowBit_toNat hx,hx,Nat.mod_eq_of_lt hfit]

/-- The ones that are left over. -/
theorem restBits_toNat (hx : x.toNat=run c b h) (hfit : run c b h+2^b < 2^32) :
    (restBits x).toNat=2^c-1 := by
  have hpos : 0 < 2^c := by positivity
  have hshift : (2^(c+2)-1) >>> 2=2^c-1 := by
    rw [Nat.shiftRight_eq_div_pow,pow_add]
    omega
  rw [restBits,UInt32.toNat_shiftRight,UInt32.toNat_div,UInt32.toNat_xor,add_lowBit_toNat hx hfit,
    lowBit_toNat hx,hx,run_xor_add,Nat.mul_div_cancel_left _ (by positivity)]
  exact hshift

/-- Without a wrap, the parts share no bit and make up the next number. -/
theorem or_restBits (hx : x.toNat=run c b h) (hfit : run c b h+2^b < 2^32) :
    ((x+lowBit x) ||| restBits x).toNat=next c b h := by
  have hlow := next_low_lt c b
  have hmul : 2^(b+c+2)*h+2^(b+c+1)=2^(b+c+1)*(2*h+1) := by ring
  rw [UInt32.toNat_or,add_lowBit_toNat hx hfit,restBits_toNat hx hfit,run_add,hmul,
    ←Nat.two_pow_add_eq_or_of_lt hlow,next,hmul]

/-- The next number. -/
theorem add_restBits (hx : x.toNat=run c b h) (hfit : run c b h+2^b < 2^32) :
    ((x+lowBit x)+restBits x).toNat=next c b h := by
  have hsmall : next c b h < 2^32 := or_restBits hx hfit ▸ UInt32.toNat_lt _
  have hval : run c b h+2^b+(2^c-1)=next c b h := by rw [run_add,next]
  rw [UInt32.toNat_add,add_lowBit_toNat hx hfit,restBits_toNat hx hfit,hval,
    Nat.mod_eq_of_lt hsmall]

/-- A run up to the highest bit wraps to zero. -/
theorem add_lowBit_wrap (hx : x.toNat=run c b h) (hwrap : ¬run c b h+2^b < 2^32) :
    run c b h+2^b=2^32 ∧ x+lowBit x=0 := by
  have hlt : run c b h < 2^32 := hx ▸ x.toNat_lt
  have hsum : run c b h+2^b=2^32 := by
    have hpow : 2^b < 2^32 := lowBit_toNat hx ▸ UInt32.toNat_lt _
    have hb : b < 32 := (Nat.pow_lt_pow_iff_right (by norm_num)).mp hpow
    have hdvd : 2^b ∣ run c b h+2^b := by
      rw [run_add]
      exact Nat.dvd_add (Dvd.dvd.mul_right (pow_dvd_pow 2 (by omega)) h) (pow_dvd_pow 2 (by omega))
    have hdvd32 : 2^b ∣ 2^32 := pow_dvd_pow 2 hb.le
    have hle : 2^b ∣ run c b h+2^b-2^32 := Nat.dvd_sub hdvd hdvd32
    rcases Nat.eq_zero_or_pos (run c b h+2^b-2^32) with hz|hz
    · omega
    · have hbig := Nat.le_of_dvd hz hle
      omega
  refine ⟨hsum,UInt32.toNat_inj.mp ?_⟩
  rw [UInt32.toNat_add,lowBit_toNat hx,hx,hsum]
  rfl

end Run

/-- Both joints of the parts are the same value. -/
theorem or_eq_add {x : UInt32} (hx : x ≠ 0) :
    (x+lowBit x) ||| restBits x=(x+lowBit x)+restBits x := by
  have hpos : 0 < x.toNat := Nat.pos_of_ne_zero fun h => hx (UInt32.toNat_inj.mp h)
  obtain ⟨c,b,h,hrun⟩ := exists_run hpos
  by_cases hfit : run c b h+2^b < 2^32
  · rw [←UInt32.toNat_inj,or_restBits hrun hfit,add_restBits hrun hfit]
  · rw [(add_lowBit_wrap hrun hfit).2,UInt32.zero_or,UInt32.zero_add]

/-- A run that wraps ends at the highest bit. -/
theorem run_top {c b h : ℕ} (hsum : run c b h+2^b=2^32) : h=0 ∧ b+c+1=32 := by
  have hmul : 2^(b+c+1)*(2*h+1)=2^32 := by
    rw [←hsum,run_add]
    ring
  have hone : 2*h+1=1 := by
    have hodd : (2*h+1).Coprime (2^32) :=
      Nat.Coprime.pow_right 32 (Nat.coprime_two_right.mpr ⟨h,rfl⟩)
    exact hodd.eq_one_of_dvd (Dvd.intro_left _ hmul)
  rw [hone,Nat.mul_one] at hmul
  exact ⟨by omega,Nat.pow_right_injective le_rfl hmul⟩

/-- Behind a run up to the highest bit, no value has as many one bits. -/
theorem fit_of_larger {x y : UInt32} {c b h : ℕ} (hx : x.toNat=run c b h) (hy : y ∈ larger x) :
    run c b h+2^b < 2^32 := by
  by_contra hwrap
  obtain ⟨hsum,-⟩ := add_lowBit_wrap hx hwrap
  obtain ⟨rfl,htop⟩ := run_top hsum
  obtain ⟨hlt,hones⟩ := hy
  have hgt : run c b 0 < y.toNat := hx ▸ UInt32.lt_iff_toNat_lt.mp hlt
  rw [oneBits,oneBits,hx,ones_run,ones_zero,Nat.zero_add] at hones
  have hmax := add_two_pow_le y.toNat_lt
  rw [hones,show 32-(c+1)=b by omega] at hmax
  omega

/-- It is the least that is greater with as many ones. -/
theorem next_isLeast {x r : UInt32} {c b h : ℕ} (hx : x.toNat=run c b h)
    (hr : r.toNat=next c b h) : IsLeast (larger x) r := by
  refine ⟨⟨?_,?_⟩,?_⟩
  · rw [UInt32.lt_iff_toNat_lt,hx,hr]
    exact run_lt_next c b h
  · rw [oneBits,oneBits,hx,hr,ones_next,ones_run]
  · rintro y ⟨hlt,hones⟩
    rw [UInt32.le_iff_toNat_le,hr]
    rw [oneBits,oneBits,hx,ones_run] at hones
    exact next_le (hx ▸ UInt32.lt_iff_toNat_lt.mp hlt) hones

/-- Both functions return the same value for every number but zero, which is
the next number with as many one bits where there is one. -/
theorem snoob_nextGreater (x : UInt32) (hx : x ≠ 0) :
    ∃ r,snoob x=some r ∧ nextGreater x=some r ∧ ((larger x).Nonempty → IsLeast (larger x) r) := by
  have hpos : 0 < x.toNat := Nat.pos_of_ne_zero fun h => hx (UInt32.toNat_inj.mp h)
  obtain ⟨c,b,h,hrun⟩ := exists_run hpos
  have hlow := lowBit_ne_zero hrun
  refine ⟨_,snoob_eq hx hlow,?_,?_⟩
  · rw [nextGreater_eq hlow,or_eq_add hx]
  · rintro ⟨y,hy⟩
    exact next_isLeast hrun (or_restBits hrun (fit_of_larger hrun hy))

/-- The numbers of `main`. -/
theorem snoob_nextGreater_main :
    (156 : UInt32) ≠ 0 ∧ snoob 156=some 163 ∧ nextGreater 12=some 17 ∧
      IsLeast (larger 156) 163 := by
  have hvalue : snoob 156=some 163 := by decide +kernel
  refine ⟨by decide,hvalue,by decide +kernel,?_⟩
  obtain ⟨r,hr,-,hleast⟩ := snoob_nextGreater 156 (by decide)
  obtain rfl : r=163 := by
    rw [hvalue] at hr
    exact (Option.some.inj hr).symm
  exact hleast ⟨163,by decide +kernel,by decide +kernel⟩

end StudyCode.NextBigger
