import Mathlib.Algebra.Order.Ring.Nat
import Mathlib.Data.Nat.Digits.Lemmas
import Mathlib.Order.Bounds.Basic
import Mathlib.Tactic

/-!
# Numbers with a given number of one bits

The lowest run of one bits of a number decides the next larger number with as
many one bits: the highest bit of the run moves up by one place and the others
move down to the bottom.
-/

namespace StudyCode.BitRun

/-! ## One bits -/

/-- Number of one bits. -/
def ones (n : ℕ) : ℕ := (Nat.digits 2 n).count 1

/-- Zero has no ones. -/
@[simp] theorem ones_zero : ones 0=0 := by simp [ones]

/-- Doubling keeps the ones. -/
theorem ones_two_mul (n : ℕ) : ones (2*n)=ones n := by
  rcases Nat.eq_zero_or_pos n with rfl|hpos
  · rfl
  · rw [ones,Nat.digits_def' (by norm_num) (by omega),Nat.mul_mod_right,
      Nat.mul_div_cancel_left n (by norm_num),List.count_cons_of_ne (by norm_num),ones]

/-- A low one is one more. -/
theorem ones_two_mul_add_one (n : ℕ) : ones (2*n+1)=ones n+1 := by
  have hmod : (2*n+1)%2=1 := by omega
  have hdiv : (2*n+1)/2=n := by omega
  rw [ones,Nat.digits_def' (by norm_num) (by omega),hmod,hdiv,List.count_cons_self,ones]

/-- A number is even or odd, with one bit less to go. -/
theorem ones_half (n : ℕ) : ones n=ones (n/2)+n%2 := by
  rcases Nat.mod_two_eq_zero_or_one n with h|h
  · have heven := ones_two_mul (n/2)
    rw [show 2*(n/2)=n by omega] at heven
    rw [heven,h,Nat.add_zero]
  · have hodd := ones_two_mul_add_one (n/2)
    rw [show 2*(n/2)+1=n by omega] at hodd
    rw [hodd,h]

/-- One bits of two parts that stand side by side. -/
theorem ones_append (k h : ℕ) {l : ℕ} (hl : l < 2^k) : ones (2^k*h+l)=ones h+ones l := by
  induction k generalizing l with
  | zero =>
    obtain rfl : l=0 := by omega
    simp
  | succ k ih =>
    rw [pow_succ] at hl
    have hdiv : (2^(k+1)*h+l)/2=2^k*h+l/2 := by
      rw [pow_succ,Nat.mul_comm (2^k),Nat.mul_assoc]
      omega
    have hmod : (2^(k+1)*h+l)%2=l%2 := by
      rw [pow_succ,Nat.mul_comm (2^k),Nat.mul_assoc]
      omega
    rw [ones_half (2^(k+1)*h+l),hdiv,hmod,ih (by omega),ones_half l,Nat.add_assoc]

/-- A number that is all ones counts them. -/
theorem ones_two_pow_sub_one (k : ℕ) : ones (2^k-1)=k := by
  induction k with
  | zero => simp
  | succ k ih =>
    have hpos : 0 < 2^k := by positivity
    have hodd : 2^(k+1)-1=2*(2^k-1)+1 := by
      rw [pow_succ]
      omega
    rw [hodd,ones_two_mul_add_one,ih]

/-- The least number with its number of one bits has them at the bottom. -/
theorem two_pow_ones_le (n : ℕ) : 2^ones n ≤ n+1 := by
  induction n using Nat.strong_induction_on with
  | _ n ih =>
    rcases Nat.eq_zero_or_pos n with rfl|hpos
    · simp
    · have hhalf := ih (n/2) (by omega)
      rw [ones_half n]
      rcases Nat.mod_two_eq_zero_or_one n with h|h
      · rw [h,Nat.add_zero]
        omega
      · rw [h,pow_succ]
        omega

/-- A number has no more ones than places. -/
theorem ones_le {k n : ℕ} (h : n < 2^k) : ones n ≤ k := by
  have hle := two_pow_ones_le n
  exact (Nat.pow_le_pow_iff_right (by norm_num)).mp (hle.trans h)

/-- The largest number of a width with its number of one bits has them at the
top. -/
theorem add_two_pow_le {k n : ℕ} (h : n < 2^k) : n+2^(k-ones n) ≤ 2^k := by
  induction k generalizing n with
  | zero =>
    obtain rfl : n=0 := by omega
    simp
  | succ k ih =>
    rw [pow_succ] at h
    have hlt : n/2 < 2^k := by omega
    have hhalf := ih hlt
    have hones := ones_le hlt
    rw [ones_half n,pow_succ]
    rcases Nat.mod_two_eq_zero_or_one n with hn|hn
    · have hexp : k+1-(ones (n/2)+0)=(k-ones (n/2))+1 := by omega
      rw [hn,hexp,pow_succ]
      omega
    · have hexp : k+1-(ones (n/2)+1)=k-ones (n/2) := by omega
      have hpos : 0 < 2^(k-ones (n/2)) := by positivity
      rw [hn,hexp]
      omega

/-! ## The lowest run -/

/-- The number whose lowest run of `c+1` one bits stands above `b` zeros and
below a zero and the bits of `h`. -/
def run (c b h : ℕ) : ℕ := 2^(b+c+2)*h+2^b*(2^(c+1)-1)

/-- A positive number has a lowest run of ones. -/
theorem exists_run {x : ℕ} (hx : 0 < x) : ∃ c b h,x=run c b h := by
  obtain ⟨b,m,⟨k,hm⟩,rfl⟩ := Nat.exists_eq_two_pow_mul_odd hx.ne'
  obtain ⟨a,m',⟨h,hm'⟩,hsum⟩ := Nat.exists_eq_two_pow_mul_odd (Nat.succ_ne_zero m)
  obtain ⟨c,rfl⟩ : ∃ c,a=c+1 := by
    rcases a with _|c
    · omega
    · exact ⟨c,rfl⟩
  refine ⟨c,b,h,?_⟩
  have hpos : 0 < 2^(c+1) := by positivity
  have hval : m=2^(c+2)*h+(2^(c+1)-1) := by
    rw [hm'] at hsum
    have hexp : 2^(c+2)*h=2^(c+1)*(2*h) := by ring
    rw [Nat.mul_add,Nat.mul_one] at hsum
    omega
  rw [run,hval,Nat.mul_add,←Nat.mul_assoc,←pow_add,Nat.add_assoc]

/-- A number with a run is positive. -/
theorem run_pos (c b h : ℕ) : 0 < run c b h := by
  have hlow : 1 < 2^(c+1) := Nat.one_lt_two_pow (by omega)
  exact Nat.add_pos_right _ (Nat.mul_pos (by positivity) (by omega))

/-- Adding the lowest one carries the run away. -/
theorem run_low_add (c b : ℕ) : 2^b*(2^(c+1)-1)+2^b=2^(b+c+1) := by
  have hpos : 0 < 2^(c+1) := by positivity
  rw [←Nat.mul_succ,Nat.succ_eq_add_one,Nat.sub_add_cancel hpos,←pow_add,Nat.add_assoc]

/-- The run ends below the bit that follows it. -/
theorem run_low_lt (c b : ℕ) : 2^b*(2^(c+1)-1) < 2^(b+c+1) := by
  have hsum := run_low_add c b
  have hpos : 0 < 2^b := by positivity
  omega

/-- The carry of the lowest one moves into the zero above the run. -/
theorem run_add (c b h : ℕ) : run c b h+2^b=2^(b+c+2)*h+2^(b+c+1) := by
  rw [run,Nat.add_assoc,run_low_add]

/-- The ones of a run and of what is above it. -/
theorem ones_run (c b h : ℕ) : ones (run c b h)=ones h+(c+1) := by
  have hlt := run_low_lt c b
  have hlow : ones (2^b*(2^(c+1)-1))=c+1 := by
    have happ := ones_append b (2^(c+1)-1) (l := 0) (by positivity)
    rw [ones_two_pow_sub_one,ones_zero,Nat.add_zero,Nat.add_zero] at happ
    exact happ
  have hpow : 2^(b+c+2)=2*2^(b+c+1) := by ring
  rw [run,ones_append _ _ (by omega),hlow]

/-- The lowest one bit is what a number shares with its negative. -/
theorem run_and_neg {c b h n : ℕ} (hx : run c b h < 2^n) :
    run c b h &&& (2^n-run c b h)=2^b := by
  have hpos : 0 < 2^c := by positivity
  obtain ⟨u,hu⟩ : ∃ u,u=2^(c+1)*h+(2^c-1) := ⟨_,rfl⟩
  have hval : run c b h=2^(b+1)*u+2^b := by
    have hsub : 2^(b+1)*(2^c-1)+2^b=2^b*(2^(c+1)-1) := by
      have hodd : 2^(c+1)-1=2*(2^c-1)+1 := by
        rw [pow_succ]
        omega
      rw [hodd]
      ring
    rw [run,hu,Nat.mul_add,←hsub]
    ring
  have hb : 2^b < 2^(b+1) := Nat.pow_lt_pow_right (by norm_num) (by omega)
  have hbpos : 0 < 2^b := by positivity
  have hpred : run c b h-1=2^(b+1)*u+(2^b-1) := by omega
  have hneg : 2^n-run c b h=2^n-(run c b h-1+1) := by omega
  rw [hneg]
  refine Nat.eq_of_testBit_eq fun j => ?_
  rw [Nat.testBit_and,Nat.testBit_two_pow_sub_succ (by omega),hpred,hval,
    Nat.testBit_two_pow_mul_add _ hb,Nat.testBit_two_pow_mul_add _ (by omega),
    Nat.testBit_two_pow,Nat.testBit_two_pow_sub_one]
  rcases Nat.lt_trichotomy j b with hj|rfl|hj
  · simp [show j < b+1 by omega,hj.ne']
  · have hjn : j < n := by
      have hle : 2^j < 2^n := by omega
      exact (Nat.pow_lt_pow_iff_right (by norm_num)).mp hle
    simp [hjn]
  · cases u.testBit (j-(b+1)) <;> simp [show ¬j < b+1 by omega,hj.ne]

/-- Adding the lowest bit changes the run and the place above it. -/
theorem run_xor_add (c b h : ℕ) :
    run c b h ^^^ (run c b h+2^b)=2^b*(2^(c+2)-1) := by
  have hlow := run_low_lt c b
  have hpow : 2^(b+c+2)=2*2^(b+c+1) := by ring
  have hsum : 2^b*(2^(c+2)-1)=2^(b+c+1)*1+2^b*(2^(c+1)-1) := by
    have hlong : 2^b*(2^(c+2)-1)+2^b=2^(b+c+2) := run_low_add (c+1) b
    have hshort := run_low_add c b
    omega
  rw [run_add,hsum,run]
  refine Nat.eq_of_testBit_eq fun j => ?_
  rw [Nat.testBit_xor,Nat.testBit_two_pow_mul_add _ (by omega),
    Nat.testBit_two_pow_mul_add _ (by omega),Nat.testBit_two_pow_mul_add _ hlow,
    Nat.testBit_two_pow]
  rcases Nat.lt_trichotomy j (b+c+1) with hj|rfl|hj
  · simp [show j < b+c+2 by omega,hj,hj.ne']
  · simp [Nat.testBit_lt_two_pow hlow]
  · have hone : Nat.testBit 1 (j-(b+c+1))=false := Nat.testBit_lt_two_pow (by
      exact Nat.one_lt_two_pow (by omega))
    simp [show ¬j < b+c+2 by omega,show ¬j < b+c+1 by omega,hone]

/-! ## The next number -/

/-- The run with its highest bit moved up and the others at the bottom. -/
def next (c b h : ℕ) : ℕ := 2^(b+c+2)*h+2^(b+c+1)+(2^c-1)

/-- The ones that move to the bottom fit below the run. -/
theorem next_low_lt (c b : ℕ) : 2^c-1 < 2^(b+c+1) := by
  have hle : 2^c ≤ 2^(b+c+1) := Nat.pow_le_pow_right (by norm_num) (by omega)
  have hpos : 0 < 2^c := by positivity
  omega

/-- The next number has as many ones. -/
theorem ones_next (c b h : ℕ) : ones (next c b h)=ones h+(c+1) := by
  have hlt := next_low_lt c b
  have hval : next c b h=2^(b+c+1)*(2*h+1)+(2^c-1) := by
    rw [next]
    ring
  rw [hval,ones_append _ _ hlt,ones_two_mul_add_one,ones_two_pow_sub_one]
  omega

/-- The next number is greater. -/
theorem run_lt_next (c b h : ℕ) : run c b h < next c b h := by
  have hlt := run_low_lt c b
  rw [run,next]
  omega

/-- No number between has as many one bits. -/
theorem next_le {c b h y : ℕ} (hgt : run c b h < y) (hones : ones y=ones h+(c+1)) :
    next c b h ≤ y := by
  have hlow := next_low_lt c b
  have hadd := run_low_add c b
  have hpow : 2^(b+c+2)=2*2^(b+c+1) := by ring
  obtain ⟨k,l,hl,rfl⟩ : ∃ k l,l < 2^(b+c+2) ∧ y=2^(b+c+2)*k+l :=
    ⟨y/2^(b+c+2),y%2^(b+c+2),Nat.mod_lt _ (by positivity),(Nat.div_add_mod ..).symm⟩
  rw [ones_append _ _ hl] at hones
  rw [run] at hgt
  rw [next]
  rcases Nat.lt_trichotomy k h with hk|rfl|hk
  · have hle : 2^(b+c+2)*(k+1) ≤ 2^(b+c+2)*h := Nat.mul_le_mul_left _ hk
    rw [Nat.mul_succ] at hle
    omega
  · have hcount : ones l=c+1 := by omega
    rcases Nat.lt_or_ge l (2^(b+c+1)) with hlt|hge
    · have htop := add_two_pow_le hlt
      rw [hcount,show b+c+1-(c+1)=b by omega] at htop
      omega
    · obtain ⟨r,rfl⟩ := Nat.exists_eq_add_of_le hge
      have hr : r < 2^(b+c+1) := by omega
      have happ := ones_append (b+c+1) 1 hr
      rw [Nat.mul_one,hcount] at happ
      have hone : ones 1=1 := ones_two_mul_add_one 0
      have hbottom := two_pow_ones_le r
      rw [show ones r=c by omega] at hbottom
      omega
  · have hle : 2^(b+c+2)*(h+1) ≤ 2^(b+c+2)*k := Nat.mul_le_mul_left _ hk
    rw [Nat.mul_succ] at hle
    omega

end StudyCode.BitRun
