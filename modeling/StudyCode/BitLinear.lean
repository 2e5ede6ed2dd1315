import Mathlib.Tactic

/-!
# Functions of words that respect exclusive or

Shifts, masks and rearrangements of bits map the exclusive or of two words to
the exclusive or of their images. Two such functions are equal when they agree
on the words with a single bit.
-/

namespace StudyCode.BitLinear

/-- Pairs of words, half by half. -/
instance instXorOpPair {α β : Type*} [XorOp α] [XorOp β] : XorOp (α×β) :=
  ⟨fun p q => (p.1^^^q.1,p.2^^^q.2)⟩

/-- Exclusive or is respected. -/
def Linear {α β : Type*} [XorOp α] [XorOp β] (f : α → β) : Prop := ∀ x y,f (x^^^y)=f x^^^f y

section Linear

variable {α β γ : Type*} [XorOp α] [XorOp β] [XorOp γ] {n k : ℕ}

/-- Linear maps compose. -/
theorem Linear.comp {g : β → γ} {f : α → β} (hg : Linear g) (hf : Linear f) :
    Linear fun x => g (f x) := by
  intro x y
  simp only [hf x y]
  exact hg (f x) (f y)

/-- A pair of linear maps is linear. -/
theorem Linear.pair {f : α → β} {g : α → γ} (hf : Linear f) (hg : Linear g) :
    Linear fun x => (f x,g x) := fun x y => Prod.ext (hf x y) (hg x y)

/-- The first part of a linear map is linear. -/
theorem Linear.fst {f : α → β×γ} (hf : Linear f) : Linear fun x => (f x).1 :=
  fun x y => congrArg Prod.fst (hf x y)

/-- The second part of a linear map is linear. -/
theorem Linear.snd {f : α → β×γ} (hf : Linear f) : Linear fun x => (f x).2 :=
  fun x y => congrArg Prod.snd (hf x y)

variable {f g : α → BitVec n}

/-- The xor of two linear maps is linear. -/
theorem Linear.xor (hf : Linear f) (hg : Linear g) : Linear fun x => f x^^^g x := by
  intro x y
  simp only [hf x y,hg x y]
  ac_rfl

/-- A linear map under a mask is linear. -/
theorem Linear.and (hf : Linear f) (m : BitVec n) : Linear fun x => f x &&& m := by
  intro x y
  simp only [hf x y]
  exact BitVec.eq_of_getLsbD_eq fun i _ => by
    rw [BitVec.getLsbD_and,BitVec.getLsbD_xor,BitVec.getLsbD_xor,BitVec.getLsbD_and,
      BitVec.getLsbD_and,Bool.and_xor_distrib_right]

/-- A linear map shifted to the left is linear. -/
theorem Linear.shl (hf : Linear f) (k : ℕ) : Linear fun x => f x <<< k := by
  intro x y
  simp only [hf x y]
  exact BitVec.shiftLeft_xor_distrib _ _ _

/-- A linear map shifted to the right is linear. -/
theorem Linear.shr (hf : Linear f) (k : ℕ) : Linear fun x => f x >>> k := by
  intro x y
  simp only [hf x y]
  exact BitVec.ushiftRight_xor_distrib _ _ _

end Linear

/-! ## Words within a mask -/

/-- The function respects exclusive or, and what it returns is within a mask. -/
structure Masked {α : Type*} [XorOp α] {n : ℕ} (m : BitVec n) (f : α → BitVec n) : Prop where
  /-- Exclusive or is respected. -/
  linear : Linear f
  /-- The bits outside of the mask are 0. -/
  within : ∀ x,f x &&& m=f x

/-- Words with no bit in common. -/
theorem or_eq_xor {n : ℕ} {a b : BitVec n} (h : a &&& b=0) : a ||| b=a^^^b := by
  refine BitVec.eq_of_getLsbD_eq fun i _ => ?_
  have hi := congrArg (BitVec.getLsbD · i) h
  simp only [BitVec.getLsbD_and,BitVec.ofNat_eq_ofNat,BitVec.getLsbD_zero] at hi
  rw [BitVec.getLsbD_or,BitVec.getLsbD_xor]
  cases ha : a.getLsbD i <;> cases hb : b.getLsbD i <;> simp_all

section Masked

variable {α β : Type*} [XorOp α] [XorOp β] {n : ℕ} {f g : α → BitVec n} {m1 m2 : BitVec n}

/-- A linear map under a mask stays within the mask. -/
theorem Linear.masked (hf : Linear f) (m : BitVec n) : Masked m fun x => f x &&& m where
  linear := hf.and m
  within x := by rw [BitVec.and_assoc,BitVec.and_self]

/-- A shift moves the mask along. -/
theorem Masked.shl (hf : Masked m1 f) (k : ℕ) : Masked (m1 <<< k) fun x => f x <<< k where
  linear := hf.linear.shl k
  within x := by rw [←BitVec.shiftLeft_and_distrib,hf.within]

/-- Words within masks that have no bit in common. -/
theorem Masked.or (hf : Masked m1 f) (hg : Masked m2 g) (h : m1 &&& m2=0) :
    Masked (m1 ||| m2) fun x => f x ||| g x where
  linear := by
    have hor : (fun x => f x ||| g x)=fun x => f x^^^g x := by
      funext x
      refine or_eq_xor ?_
      calc
        f x &&& g x=(f x &&& m1) &&& (g x &&& m2) := by rw [hf.within,hg.within]
        _=(f x &&& g x) &&& (m1 &&& m2) := by ac_rfl
        _=0 := by rw [h]; exact BitVec.and_zero
    rw [hor]
    exact hf.linear.xor hg.linear
  within x := by
    refine BitVec.eq_of_getLsbD_eq fun i _ => ?_
    have h1 := congrArg (BitVec.getLsbD · i) (hf.within x)
    have h2 := congrArg (BitVec.getLsbD · i) (hg.within x)
    rw [BitVec.getLsbD_and] at h1 h2
    rw [BitVec.getLsbD_and,BitVec.getLsbD_or,BitVec.getLsbD_or,←h1,←h2]
    cases m1.getLsbD i <;> cases m2.getLsbD i <;> simp only [Bool.and_true,Bool.and_false,
      Bool.or_true,Bool.or_false,Bool.or_self]

end Masked

/-! ## Rotations and exchanges of bits -/

section Exchange

variable {α : Type*} [XorOp α] {n : ℕ} {f : α → BitVec n}

/-- A shift to the left clears the low bits. -/
theorem Linear.masked_shl (hf : Linear f) (k : ℕ) :
    Masked (BitVec.allOnes n <<< k) fun x => f x <<< k where
  linear := hf.shl k
  within x := by rw [←BitVec.shiftLeft_and_distrib,BitVec.and_allOnes]

/-- A shift to the right clears the high bits. -/
theorem Linear.masked_shr (hf : Linear f) (k : ℕ) :
    Masked (BitVec.allOnes n >>> k) fun x => f x >>> k where
  linear := hf.shr k
  within x := by rw [←BitVec.ushiftRight_and_distrib,BitVec.and_allOnes]

/-- Bits of the second word change places with bits of the first one that are
offset places higher. -/
def exchange (offset : ℕ) (mask : BitVec n) (p : BitVec n×BitVec n) : BitVec n×BitVec n :=
  let temp := ((p.1 >>> offset)^^^p.2) &&& mask
  (p.1^^^(temp <<< offset),p.2^^^temp)

/-- Exchanging the bits under a mask is linear. -/
theorem exchange_linear (offset : ℕ) (mask : BitVec n) : Linear (exchange offset mask) := by
  have hfst : Linear fun p : BitVec n×BitVec n => p.1 := fun _ _ => rfl
  have hsnd : Linear fun p : BitVec n×BitVec n => p.2 := fun _ _ => rfl
  have htemp := ((hfst.shr offset).xor hsnd).and mask
  exact (hfst.xor (htemp.shl offset)).pair (hsnd.xor htemp)

/-- An exchange undoes itself when the mask leaves the lower places free. -/
theorem exchange_exchange {offset : ℕ} {mask : BitVec n} (h : mask <<< offset >>> offset=mask)
    (p : BitVec n×BitVec n) : exchange offset mask (exchange offset mask p)=p := by
  obtain ⟨a,b⟩ := p
  let temp := ((a >>> offset)^^^b) &&& mask
  have hback : temp <<< offset >>> offset=temp := by
    refine BitVec.eq_of_getLsbD_eq fun i hi => ?_
    have hm := congrArg (BitVec.getLsbD · i) h
    simp only [temp,BitVec.getLsbD_ushiftRight,BitVec.getLsbD_shiftLeft,BitVec.getLsbD_and] at hm ⊢
    rw [←hm]
    simp only [Nat.add_sub_cancel_left]
    cases mask.getLsbD i <;> cases decide (offset+i < n) <;> simp
  have hsame : (((a^^^(temp <<< offset)) >>> offset)^^^(b^^^temp)) &&& mask=temp := by
    rw [BitVec.ushiftRight_xor_distrib,hback]
    have hcancel : (a >>> offset^^^temp)^^^(b^^^temp)=a >>> offset^^^b := by
      calc
        (a >>> offset^^^temp)^^^(b^^^temp)=(a >>> offset^^^b)^^^(temp^^^temp) := by ac_rfl
        _=a >>> offset^^^b := by rw [BitVec.xor_self,BitVec.xor_zero]
    rw [hcancel]
  have htwice : exchange offset mask (exchange offset mask (a,b))=
      ((a^^^(temp <<< offset))^^^(temp <<< offset),(b^^^temp)^^^temp) := by
    simp only [exchange]
    rw [hsame]
  rw [htwice,BitVec.xor_assoc,BitVec.xor_self,BitVec.xor_zero,BitVec.xor_assoc,BitVec.xor_self,
    BitVec.xor_zero]

end Exchange

/-! ## Words with a single bit -/

section Basis

variable {β : Type*} [XorOp β] {n m : ℕ}

/-- Functions that agree on 0 and on the words with a single bit. -/
theorem Linear.ext {f g : BitVec n → β} (hf : Linear f) (hg : Linear g) (h0 : f 0=g 0)
    (h : ∀ i < n,f (BitVec.twoPow n i)=g (BitVec.twoPow n i)) (x : BitVec n) : f x=g x := by
  have hlow : ∀ k ≤ n,∀ x : BitVec n,(∀ i,k ≤ i → x.getLsbD i=false) → f x=g x := by
    intro k
    induction k with
    | zero =>
      intro _ x hx
      have hzero : x=0 := BitVec.eq_of_getLsbD_eq fun i _ => by
        rw [hx i (Nat.zero_le i)]
        exact BitVec.getLsbD_zero.symm
      rw [hzero,h0]
    | succ k ih =>
      intro hk x hx
      cases hb : x.getLsbD k with
      | false =>
        refine ih (by omega) x fun i hi => ?_
        obtain rfl|hi := eq_or_lt_of_le hi
        · exact hb
        · exact hx i hi
      | true =>
        -- the highest bit is taken off
        have hrest : f (x^^^BitVec.twoPow n k)=g (x^^^BitVec.twoPow n k) := by
          refine ih (by omega) _ fun i hi => ?_
          rw [BitVec.getLsbD_xor,BitVec.getLsbD_twoPow]
          obtain rfl|hi := eq_or_lt_of_le hi
          · simp [hb,show k < n by omega]
          · rw [hx i hi]
            simp [hi.ne]
        have hsplit : x=(x^^^BitVec.twoPow n k)^^^BitVec.twoPow n k := by
          rw [BitVec.xor_assoc,BitVec.xor_self,BitVec.xor_zero]
        rw [hsplit,hf,hg,hrest,h k (by omega)]
  exact hlow n (le_refl n) x fun i hi => BitVec.getLsbD_of_ge x i hi

/-- Functions of two words. -/
theorem Linear.ext_pair {f g : BitVec n×BitVec m → β} (hf : Linear f) (hg : Linear g)
    (h0 : f (0,0)=g (0,0)) (h1 : ∀ i < n,f (BitVec.twoPow n i,0)=g (BitVec.twoPow n i,0))
    (h2 : ∀ i < m,f (0,BitVec.twoPow m i)=g (0,BitVec.twoPow m i)) (p : BitVec n×BitVec m) :
    f p=g p := by
  have hleft : Linear fun x : BitVec n => (x,(0 : BitVec m)) :=
    fun x y => Prod.ext rfl (BitVec.xor_self).symm
  have hright : Linear fun x : BitVec m => ((0 : BitVec n),x) :=
    fun x y => Prod.ext (BitVec.xor_self).symm rfl
  have hsplit : p=(p.1,0)^^^(0,p.2) := Prod.ext BitVec.xor_zero.symm BitVec.zero_xor.symm
  rw [hsplit,hf,hg,(hf.comp hleft).ext (hg.comp hleft) h0 h1 p.1,
    (hf.comp hright).ext (hg.comp hright) h0 h2 p.2]

end Basis

/-! ## Selections of bits -/

/-- The word of some bits, the highest one first. -/
def ofBits : (n : ℕ) → (ℕ → Bool) → BitVec n
  | 0,_ => BitVec.nil
  | n+1,b => BitVec.cons (b 0) (ofBits n fun i => b (i+1))

/-- The bits of a vector that is built from bits. -/
theorem getMsbD_ofBits {n : ℕ} (b : ℕ → Bool) (i : ℕ) (h : i < n) :
    (ofBits n b).getMsbD i=b i := by
  induction n generalizing b i with
  | zero => cases h
  | succ n ih =>
    cases i with
    | zero => exact BitVec.getMsbD_cons_zero
    | succ i =>
      rw [ofBits,BitVec.getMsbD_cons_succ]
      exact ih (fun i => b (i+1)) i (by omega)

/-- Vectors with the same bits are equal. -/
theorem eq_of_getMsbD {n : ℕ} {x y : BitVec n} (h : ∀ i < n,x.getMsbD i=y.getMsbD i) : x=y := by
  refine BitVec.eq_of_getLsbD_eq fun i hi => ?_
  have hn := h (n-1-i) (by omega)
  rw [BitVec.getMsbD_eq_getLsbD,BitVec.getMsbD_eq_getLsbD] at hn
  simpa [show n-1-i < n by omega,show n-1-(n-1-i)=i by omega] using hn

/-- Only the bits below the width count. -/
theorem ofBits_congr {n : ℕ} {b c : ℕ → Bool} (h : ∀ i < n,b i=c i) : ofBits n b=ofBits n c :=
  eq_of_getMsbD fun i hi => by rw [getMsbD_ofBits b i hi,getMsbD_ofBits c i hi,h i hi]

/-- The bits of a word that a list names from a position on, counted from the
highest one. -/
def select {n : ℕ} (start m : ℕ) (map : List ℕ) (x : BitVec n) : BitVec m :=
  ofBits m fun i => x.getMsbD (map.getD (start+i) 0)

/-- Picking bits by a map is linear. -/
theorem select_linear {n : ℕ} (start m : ℕ) (map : List ℕ) :
    Linear (select start m map : BitVec n → BitVec m) := by
  refine fun x y => eq_of_getMsbD fun i hi => ?_
  rw [select,select,select,getMsbD_ofBits _ i hi,BitVec.getMsbD_xor,BitVec.getMsbD_xor,
    getMsbD_ofBits _ i hi,getMsbD_ofBits _ i hi]

/-- Two words one behind the other. -/
theorem append_linear {m n : ℕ} : Linear fun p : BitVec m×BitVec n => p.1 ++ p.2 :=
  fun _ _ => BitVec.xor_append.symm

end StudyCode.BitLinear
