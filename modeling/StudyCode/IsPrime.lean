import Mathlib.NumberTheory.LucasPrimality
import Mathlib.Tactic

/-!
# Primality by trial division

`isprime` divides a long value by 3, 5, 7 and so on while the square of the
divisor is not above the value. The square is formed in the width of the value:
from `3037000501` on it is no long value any more, so a prime that is not below
the square of `3037000499` is never reached by the test that would end the loop.
-/

namespace StudyCode.IsPrime

/-- The values of a long. -/
def IsLong (v : ℤ) : Prop := -2^63 ≤ v ∧ v < 2^63

instance (v : ℤ) : Decidable (IsLong v) := inferInstanceAs (Decidable (_ ∧ _))

/-- Product of two long values; an overflow has no value. -/
def mulLong (a b : ℤ) : Option ℤ := if IsLong (a*b) then some (a*b) else none

/-- Sum of two long values; an overflow has no value. -/
def addLong (a b : ℤ) : Option ℤ := if IsLong (a+b) then some (a+b) else none

/-- `while (i * i <= num)`; the fuel bounds the number of tests. -/
def isprimeLoop (num : ℤ) : ℕ → ℤ → Option ℤ
  | 0,_ => none
  | fuel+1,i =>
    (mulLong i i).bind fun sq =>
      if sq ≤ num then
        if num.tmod i=0 then some 0 else (addLong i 2).bind (isprimeLoop num fuel)
      else some 1

/-- The whole test of one value. -/
def isprime (fuel : ℕ) (num : ℤ) : Option ℤ :=
  if num=2 then some 1
  else if num.tmod 2=0 then some 0
  else isprimeLoop num fuel 3

/-- Largest divisor whose square is a long value. -/
def lastDivisor : ℕ := 3037000499

/-! ## One turn -/

/-- The square of a divisor is a long. -/
theorem mulLong_self {i : ℕ} (h : i ≤ lastDivisor) : mulLong i i=some ((i*i : ℕ) : ℤ) := by
  have hsq : ((i*i : ℕ) : ℤ) ≤ (lastDivisor*lastDivisor : ℕ) := by
    exact_mod_cast Nat.mul_le_mul h h
  have htop : ((lastDivisor*lastDivisor : ℕ) : ℤ) < 2^63 := by norm_num [lastDivisor]
  have hin : IsLong ((i : ℤ)*i) := by
    rw [←Nat.cast_mul]
    exact ⟨by omega,by omega⟩
  rw [mulLong,if_pos hin,Nat.cast_mul]

/-- The square behind the last divisor is no long value. -/
theorem mulLong_overflow : mulLong ((lastDivisor+2 : ℕ) : ℤ) ((lastDivisor+2 : ℕ) : ℤ)=none := by
  have hout : ¬IsLong (((lastDivisor+2 : ℕ) : ℤ)*((lastDivisor+2 : ℕ) : ℤ)) := by
    norm_num [IsLong,lastDivisor]
  rw [mulLong,if_neg hout]

/-- The next divisor is a long. -/
theorem addLong_two {i : ℕ} (h : i ≤ lastDivisor) : addLong i 2=some ((i+2 : ℕ) : ℤ) := by
  have hlast : lastDivisor=3037000499 := rfl
  have hin : IsLong ((i : ℤ)+2) := ⟨by omega,by omega⟩
  rw [addLong,if_pos hin,Nat.cast_add,Nat.cast_ofNat]

/-- One turn with a divisor whose square is a long value. -/
theorem isprimeLoop_succ {i : ℕ} (h : i ≤ lastDivisor) (n fuel : ℕ) :
    isprimeLoop n (fuel+1) i=
      if i*i ≤ n then if i ∣ n then some 0 else isprimeLoop n fuel (i+2 : ℕ) else some 1 := by
  rw [isprimeLoop,mulLong_self h,Option.bind_some,addLong_two h,Option.bind_some,
    ←Int.ofNat_tmod]
  simp only [Nat.cast_le,Nat.cast_eq_zero,Nat.dvd_iff_mod_eq_zero]

/-! ## What is known in front of a turn -/

/-- No divisor from 2 up to `i` divides `n`. -/
def FreeBelow (n i : ℕ) : Prop := ∀ d,2 ≤ d → d < i → ¬d ∣ n

/-- An odd number has no divisor below three. -/
theorem freeBelow_three {n : ℕ} (h : ¬2 ∣ n) : FreeBelow n 3 := by
  intro d h2 h3
  obtain rfl : d=2 := by omega
  exact h

/-- Even divisors need no test of their own. -/
theorem FreeBelow.step {n i : ℕ} (hfree : FreeBelow n i) (hodd : i%2=1) (hi : 3 ≤ i)
    (hdvd : ¬i ∣ n) : FreeBelow n (i+2) := by
  intro d h2 hlt
  rcases Nat.lt_trichotomy d i with h|rfl|h
  · exact hfree d h2 h
  · exact hdvd
  · have heven : 2 ∣ d := by omega
    intro hd
    exact hfree 2 le_rfl (by omega) (heven.trans hd)

/-- Trial division up to the square root decides primality. -/
theorem FreeBelow.prime {n i : ℕ} (hfree : FreeBelow n i) (hn : 2 ≤ n) (hsq : n < i*i) :
    n.Prime := by
  by_contra hcomp
  have hmin : n.minFac*n.minFac ≤ n := by
    simpa [sq] using Nat.minFac_sq_le_self (by omega) hcomp
  have hlt : n.minFac < i := lt_of_mul_self_lt_mul_self₀ (Nat.zero_le i) (hmin.trans_lt hsq)
  exact hfree n.minFac (Nat.minFac_prime (by omega)).two_le hlt n.minFac_dvd

/-- A divisor up to the root. -/
theorem not_prime_of_dvd {n i : ℕ} (hi : 2 ≤ i) (hsq : i*i ≤ n) (hdvd : i ∣ n) : ¬n.Prime := by
  have hlt : i < n := by nlinarith
  exact Nat.not_prime_of_dvd_of_lt hdvd hi hlt

/-- The value is below the square of the last divisor, or one of the divisors
up to it divides the value. -/
def Reached (n : ℕ) : Prop :=
  n < lastDivisor*lastDivisor ∨ ∃ d,2 ≤ d ∧ d ≤ lastDivisor ∧ d ∣ n

/-- As long as nothing has been found, the divisor is not behind the last one. -/
theorem Reached.le_last {n i : ℕ} (h : Reached n) (hfree : FreeBelow n i) (hodd : i%2=1)
    (hprev : i=3 ∨ (i-2)*(i-2) ≤ n) : i ≤ lastDivisor := by
  have hlast : lastDivisor=3037000499 := rfl
  rcases h with hlt|⟨d,h2,hle,hd⟩
  · rcases hprev with rfl|hprev
    · omega
    · have hsq := lt_of_mul_self_lt_mul_self₀ (Nat.zero_le lastDivisor) (hprev.trans_lt hlt)
      omega
  · by_contra hgt
    exact hfree d h2 (by omega) hd

/-! ## All turns -/

/-- The loop answers as long as every square it forms is a long value. -/
theorem isprimeLoop_reached {n : ℕ} (hn : 2 ≤ n) (hreach : Reached n) {fuel i : ℕ}
    (hodd : i%2=1) (hi : 3 ≤ i) (hfree : FreeBelow n i) (hprev : i=3 ∨ (i-2)*(i-2) ≤ n)
    (hfuel : n+3 ≤ i+2*fuel) :
    isprimeLoop n fuel i=some (if n.Prime then 1 else 0) := by
  induction fuel generalizing i with
  | zero =>
    have hsq : (i-2)*(i-2) ≤ n := by
      rcases hprev with rfl|h
      · omega
      · exact h
    have hbig : n+1 ≤ i-2 := by omega
    nlinarith
  | succ fuel ih =>
    rw [isprimeLoop_succ (hreach.le_last hfree hodd hprev)]
    by_cases hsq : i*i ≤ n
    · rw [if_pos hsq]
      by_cases hdvd : i ∣ n
      · rw [if_pos hdvd,if_neg (not_prime_of_dvd (by omega) hsq hdvd)]
      · rw [if_neg hdvd]
        exact ih (by omega) (by omega) (hfree.step hodd hi hdvd) (Or.inr (by simpa using hsq))
          (by omega)
    · rw [if_neg hsq,if_pos (hfree.prime hn (by omega))]

/-- Where no divisor is found in time, the loop comes to a square that is no
long value. -/
theorem isprimeLoop_stuck {n : ℕ} (hbig : lastDivisor*lastDivisor ≤ n)
    (hfree : FreeBelow n (lastDivisor+1)) {fuel i : ℕ} (hodd : i%2=1) (hi : 3 ≤ i)
    (hle : i ≤ lastDivisor+2) : isprimeLoop n fuel i=none := by
  have hlast : lastDivisor=3037000499 := rfl
  induction fuel generalizing i with
  | zero => rfl
  | succ fuel ih =>
    by_cases hin : i ≤ lastDivisor
    · have hsq : i*i ≤ n := (Nat.mul_le_mul hin hin).trans hbig
      have hdvd : ¬i ∣ n := hfree i (by omega) (by omega)
      rw [isprimeLoop_succ hin,if_pos hsq,if_neg hdvd]
      exact ih (by omega) (by omega) (by omega)
    · obtain rfl : i=lastDivisor+2 := by omega
      rw [isprimeLoop,mulLong_overflow,Option.bind_none]

/-! ## The answer -/

/-- The call returns, with 1 for the primes only. -/
def Decides (num : ℤ) : Prop :=
  ∃ n,∀ fuel ≥ n,∃ r,isprime fuel num=some r ∧ (r=1 ↔ num.toNat.Prime)

/-- The call for a number that is not negative. -/
theorem isprime_natCast (fuel n : ℕ) :
    isprime fuel n=
      if n=2 then some 1 else if 2 ∣ n then some 0 else isprimeLoop n fuel (3 : ℕ) := by
  have hmod : (n : ℤ).tmod 2=((n%2 : ℕ) : ℤ) := (Int.ofNat_tmod n 2).symm
  have htwo : (n : ℤ)=2 ↔ n=2 := by omega
  rw [isprime,hmod]
  simp only [htwo,Nat.cast_eq_zero,Nat.dvd_iff_mod_eq_zero,Nat.cast_ofNat]

/-- Where the divisors reach the root, the answer is right. -/
theorem isprime_reached {n fuel : ℕ} (hn : 2 ≤ n) (hreach : Reached n) (hfuel : n ≤ fuel) :
    isprime fuel n=some (if n.Prime then 1 else 0) := by
  rw [isprime_natCast]
  by_cases htwo : n=2
  · rw [if_pos htwo,htwo,if_pos Nat.prime_two]
  · rw [if_neg htwo]
    by_cases heven : 2 ∣ n
    · have hcomp : ¬n.Prime := Nat.not_prime_of_dvd_of_lt heven le_rfl (by omega)
      rw [if_pos heven,if_neg hcomp]
    · rw [if_neg heven]
      exact isprimeLoop_reached hn hreach rfl le_rfl (freeBelow_three heven) (Or.inl rfl) (by omega)

/-- Where they do not, there is none. -/
theorem isprime_stuck {n : ℕ} (hreach : ¬Reached n) (fuel : ℕ) : isprime fuel n=none := by
  have hlast : lastDivisor=3037000499 := rfl
  rw [Reached,not_or,not_lt,not_exists] at hreach
  obtain ⟨hbig,hnone⟩ := hreach
  have hfree : FreeBelow n (lastDivisor+1) := by
    intro d h2 hlt hdvd
    exact hnone d ⟨h2,by omega,hdvd⟩
  have heven : ¬2 ∣ n := hfree 2 le_rfl (by omega)
  have htwo : n ≠ 2 := by
    rintro rfl
    exact heven dvd_rfl
  rw [isprime_natCast,if_neg htwo,if_neg heven]
  exact isprimeLoop_stuck hbig hfree rfl le_rfl (by omega)

/-- A number is decided exactly when its root is reached. -/
theorem decides_iff_reached {n : ℕ} (hn : 2 ≤ n) : Decides n ↔ Reached n := by
  constructor
  · intro ⟨m,hm⟩
    by_contra hno
    obtain ⟨r,hr,_⟩ := hm m le_rfl
    rw [isprime_stuck hno] at hr
    cases hr
  · intro hyes
    refine ⟨n,fun fuel hfuel => ⟨_,isprime_reached hn hyes hfuel,?_⟩⟩
    rw [Int.toNat_natCast]
    split <;> simp_all

/-- The test is right for the values below the square of the last divisor and
for those that one of the divisors up to it divides, and for no others. -/
theorem isprime_decides_iff (num : ℤ) (hlow : 2 ≤ num) (hhigh : num < 2^63) :
    Decides num ↔
      num < 3037000499*3037000499 ∨ ∃ d : ℤ,2 ≤ d ∧ d ≤ 3037000499 ∧ d ∣ num := by
  obtain ⟨n,rfl⟩ := Int.eq_ofNat_of_zero_le (by omega : 0 ≤ num)
  have hreach : Reached n ↔
      (n : ℤ) < 3037000499*3037000499 ∨ ∃ d : ℤ,2 ≤ d ∧ d ≤ 3037000499 ∧ d ∣ (n : ℤ) := by
    refine or_congr ?_ ⟨?_,?_⟩
    · rw [show lastDivisor=3037000499 from rfl]
      omega
    · rintro ⟨d,h2,hle,hd⟩
      exact ⟨d,by exact_mod_cast h2,by exact_mod_cast hle,by exact_mod_cast hd⟩
    · rintro ⟨d,h2,hle,hd⟩
      obtain ⟨k,rfl⟩ := Int.eq_ofNat_of_zero_le (by omega : 0 ≤ d)
      exact ⟨k,by exact_mod_cast h2,by exact_mod_cast hle,by exact_mod_cast hd⟩
  rw [decides_iff_reached (by omega),hreach]

/-- The values of `main` are far below the bound. -/
theorem isprime_decides_main : (2 : ℤ) ≤ 20190823 ∧ (20190823 : ℤ) < 2^63 ∧ Decides 20190823 :=
  ⟨by norm_num,by norm_num,
    (isprime_decides_iff 20190823 (by norm_num) (by norm_num)).mpr (Or.inl (by norm_num))⟩

/-! ## A prime at the top of the range -/

/-- A long value that is prime and not below the square of the last divisor. -/
def topPrime : ℕ := 9223372031070830593

/-- The prime divisors of the predecessor. -/
theorem prime_dvd_topPrime_sub_one {q : ℕ} (hq : q.Prime) (hdvd : q ∣ topPrime-1) :
    q=2 ∨ q=3 ∨ q=17 ∨ q=137 ∨ q=443 ∨ q=829 ∨ q=857 := by
  have hfac : topPrime-1=2^22*3*17*137*443*829*857 := by norm_num [topPrime]
  rw [hfac] at hdvd
  simp only [hq.dvd_mul] at hdvd
  rcases hdvd with (((((h|h)|h)|h)|h)|h)|h
  · exact Or.inl ((Nat.prime_dvd_prime_iff_eq hq Nat.prime_two).mp (hq.dvd_of_dvd_pow h))
  all_goals
    have heq := (Nat.prime_dvd_prime_iff_eq hq (by norm_num)).mp h
    tauto

/-- A prime near the end of the range. -/
theorem topPrime_prime : topPrime.Prime := by
  refine lucas_primality 9223372031070830593 5 ?_ ?_
  · norm_num only
    reduce_mod_char
  · intro q hq hdvd
    rcases prime_dvd_topPrime_sub_one hq hdvd with rfl|rfl|rfl|rfl|rfl|rfl|rfl
    all_goals
      norm_num only
      reduce_mod_char
      decide +kernel

/-- Every divisor of that prime up to the last one passes, then the square
overflows. -/
theorem isprime_topPrime :
    (2 : ℤ) ≤ topPrime ∧ (topPrime : ℤ) < 2^63 ∧ ¬Decides topPrime := by
  have hreach : ¬Reached topPrime := by
    rintro (h|⟨d,h2,hle,hd⟩)
    · norm_num [topPrime,lastDivisor] at h
    · rcases (Nat.dvd_prime topPrime_prime).mp hd with rfl|rfl
      · omega
      · norm_num [topPrime,lastDivisor] at hle
  refine ⟨by norm_num [topPrime],by norm_num [topPrime],?_⟩
  rw [decides_iff_reached (by norm_num [topPrime])]
  exact hreach

end StudyCode.IsPrime
