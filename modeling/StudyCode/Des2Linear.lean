import StudyCode.Des2Crypt

/-!
# The key schedule and exclusive or

The permutations and choices of des2.c respect exclusive or, so that what they
do is settled by the words with a single bit. A half of the key is a word of 28
bits, and its rotation is the rotation of such a word.
-/

namespace StudyCode.Des2

open BitLinear

section Linear

variable {α : Type*} [XorOp α] {f : α → Word}

/-- The identity is linear. -/
theorem id_linear : Linear fun x : Word => x := fun _ _ => rfl

/-- The first part of a pair is linear. -/
theorem fst_linear {β γ : Type*} [XorOp β] [XorOp γ] : Linear fun p : β×γ => p.1 := fun _ _ => rfl

/-- The second part of a pair is linear. -/
theorem snd_linear {β γ : Type*} [XorOp β] [XorOp γ] : Linear fun p : β×γ => p.2 := fun _ _ => rfl

/-- Swapping is linear. -/
theorem swap_linear {β γ : Type*} [XorOp β] [XorOp γ] : Linear (Prod.swap : β×γ → γ×β) :=
  fun _ _ => rfl

/-! ## The permutations -/

/-- Turning right is linear. -/
theorem turnRight_linear : Linear turnRight :=
  fst_linear.pair ((snd_linear.masked_shl 1).or (snd_linear.masked_shr 31) (by decide)).linear

/-- Turning back is linear. -/
theorem turnBack_linear : Linear turnBack :=
  fst_linear.pair ((snd_linear.masked_shl 31).or (snd_linear.masked_shr 1) (by decide)).linear

/-- The initial permutation is linear. -/
theorem initialPermutation_linear : Linear initialPermutation := by
  rw [funext initialPermutation_eq]
  have h1 := (exchange_linear 16 (0x0000ffff : Word)).comp (exchange_linear 4 0x0f0f0f0f)
  have h2 := (exchange_linear 8 (0x00ff00ff : Word)).comp
    ((exchange_linear 2 0x33333333).comp (swap_linear.comp h1))
  have h3 := (exchange_linear 0 (0xaaaaaaaa : Word)).comp
    (turnRight_linear.comp (swap_linear.comp h2))
  exact swap_linear.comp (turnRight_linear.comp (swap_linear.comp h3))

/-- The final permutation is linear. -/
theorem finalPermutation_linear : Linear finalPermutation := by
  rw [funext finalPermutation_eq]
  have h1 := (exchange_linear 0 (0xaaaaaaaa : Word)).comp
    (swap_linear.comp (turnBack_linear.comp swap_linear))
  have h2 := (exchange_linear 2 (0x33333333 : Word)).comp
    ((exchange_linear 8 0x00ff00ff).comp (swap_linear.comp (turnBack_linear.comp h1)))
  exact (exchange_linear 4 (0x0f0f0f0f : Word)).comp
    ((exchange_linear 16 0x0000ffff).comp (swap_linear.comp h2))

/-! ## Permuted choice 1 -/

/-- A table whose entries follow exclusive or and are within a mask. -/
structure Follows (tab : List Word) (m : Word) : Prop where
  /-- Exclusive or is respected. -/
  xor : ∀ i < 16,∀ j < 16,tab.getD (i^^^j) 0=tab.getD i 0^^^tab.getD j 0
  /-- The bits outside of the mask are 0. -/
  within : ∀ i < 16,tab.getD i 0 &&& m=tab.getD i 0

/-- The left table is linear in its index. -/
theorem leftkeySwap_follows : Follows leftkeySwap 0x01010101 := ⟨by decide,by decide⟩

/-- The right table is linear in its index. -/
theorem rightkeySwap_follows : Follows rightkeySwap 0x01010101 := ⟨by decide,by decide⟩

/-- The index of a table is the low four bits. -/
theorem toNat_low (w : Word) : (w &&& 0xf).toNat=w.toNat%16 := by
  rw [BitVec.toNat_and]
  exact Nat.and_two_pow_sub_one_eq_mod w.toNat 4

/-- A lookup in a linear table is linear and stays within its mask. -/
theorem Follows.masked {tab : List Word} {m : Word} (h : Follows tab m) (hf : Linear f) :
    Masked m fun x => entry tab (f x &&& 0xf) where
  linear x y := by
    have hlt : ∀ w : Word,w.toNat%16 < 16 := fun w => Nat.mod_lt _ (by decide)
    have hlow : (f (x^^^y) &&& 0xf).toNat=(f x).toNat%16^^^(f y).toNat%16 := by
      have hand := hf.and 0xf x y
      dsimp only at hand
      rw [hand,BitVec.toNat_xor,toNat_low,toNat_low]
    simp only [entry]
    rw [hlow,toNat_low,toNat_low,h.xor _ (hlt (f x)) _ (hlt (f y))]
  within x := by
    simp only [entry]
    rw [toNat_low]
    exact h.within _ (Nat.mod_lt _ (by decide))

/-- The left word of permuted choice 1. -/
def choiceLeft (left : Word) : Word :=
  (entry leftkeySwap ((left >>> 0) &&& 0xf) <<< 3) |||
  (entry leftkeySwap ((left >>> 8) &&& 0xf) <<< 2) |||
  (entry leftkeySwap ((left >>> 16) &&& 0xf) <<< 1) |||
  entry leftkeySwap ((left >>> 24) &&& 0xf) |||
  (entry leftkeySwap ((left >>> 5) &&& 0xf) <<< 7) |||
  (entry leftkeySwap ((left >>> 13) &&& 0xf) <<< 6) |||
  (entry leftkeySwap ((left >>> 21) &&& 0xf) <<< 5) |||
  (entry leftkeySwap ((left >>> 29) &&& 0xf) <<< 4)

/-- The right word of permuted choice 1. -/
def choiceRight (right : Word) : Word :=
  (entry rightkeySwap ((right >>> 1) &&& 0xf) <<< 3) |||
  (entry rightkeySwap ((right >>> 9) &&& 0xf) <<< 2) |||
  (entry rightkeySwap ((right >>> 17) &&& 0xf) <<< 1) |||
  entry rightkeySwap ((right >>> 25) &&& 0xf) |||
  (entry rightkeySwap ((right >>> 4) &&& 0xf) <<< 7) |||
  (entry rightkeySwap ((right >>> 12) &&& 0xf) <<< 6) |||
  (entry rightkeySwap ((right >>> 20) &&& 0xf) <<< 5) |||
  (entry rightkeySwap ((right >>> 28) &&& 0xf) <<< 4)

/-- The left half of the first choice is linear. -/
theorem choiceLeft_linear : Linear choiceLeft := by
  have h := fun k => leftkeySwap_follows.masked (id_linear.shr k)
  exact ((h 0).shl 3).or ((h 8).shl 2) (by decide)
    |>.or ((h 16).shl 1) (by decide)
    |>.or (h 24) (by decide)
    |>.or ((h 5).shl 7) (by decide)
    |>.or ((h 13).shl 6) (by decide)
    |>.or ((h 21).shl 5) (by decide)
    |>.or ((h 29).shl 4) (by decide)
    |>.linear

/-- The right half of the first choice is linear. -/
theorem choiceRight_linear : Linear choiceRight := by
  have h := fun k => rightkeySwap_follows.masked (id_linear.shr k)
  exact ((h 1).shl 3).or ((h 9).shl 2) (by decide)
    |>.or ((h 17).shl 1) (by decide)
    |>.or (h 25) (by decide)
    |>.or ((h 4).shl 7) (by decide)
    |>.or ((h 12).shl 6) (by decide)
    |>.or ((h 20).shl 5) (by decide)
    |>.or ((h 28).shl 4) (by decide)
    |>.linear

/-- The first choice exchanges bits and looks both halves up. -/
theorem permutedChoice1_eq (p : Word×Word) :
    permutedChoice1 p=
      (choiceLeft (exchange 0 0x10101010 (exchange 4 0x0f0f0f0f p.swap)).2 &&& 0x0fffffff,
        choiceRight (exchange 0 0x10101010 (exchange 4 0x0f0f0f0f p.swap)).1 &&& 0x0fffffff) := rfl

/-- The first choice is linear. -/
theorem permutedChoice1_linear : Linear permutedChoice1 := by
  rw [funext permutedChoice1_eq]
  have h := (exchange_linear 0 (0x10101010 : Word)).comp
    ((exchange_linear 4 0x0f0f0f0f).comp swap_linear)
  exact ((choiceLeft_linear.comp h.snd).and _).pair ((choiceRight_linear.comp h.fst).and _)

/-! ## Permuted choice 2 -/

/-- The even words of a subkey are linear. -/
theorem evenSubkey_linear : Linear fun p : Word×Word => evenSubkey p.1 p.2 := by
  have hleft : Linear fun p : Word×Word => p.1 := fst_linear
  have hright : Linear fun p : Word×Word => p.2 := snd_linear
  exact ((hleft.shl 4).masked 0x24000000)
    |>.or ((hleft.shl 28).masked 0x10000000) (by decide)
    |>.or ((hleft.shl 14).masked 0x08000000) (by decide)
    |>.or ((hleft.shl 18).masked 0x02080000) (by decide)
    |>.or ((hleft.shl 6).masked 0x01000000) (by decide)
    |>.or ((hleft.shl 9).masked 0x00200000) (by decide)
    |>.or ((hleft.shr 1).masked 0x00100000) (by decide)
    |>.or ((hleft.shl 10).masked 0x00040000) (by decide)
    |>.or ((hleft.shl 2).masked 0x00020000) (by decide)
    |>.or ((hleft.shr 10).masked 0x00010000) (by decide)
    |>.or ((hright.shr 13).masked 0x00002000) (by decide)
    |>.or ((hright.shr 4).masked 0x00001000) (by decide)
    |>.or ((hright.shl 6).masked 0x00000800) (by decide)
    |>.or ((hright.shr 1).masked 0x00000400) (by decide)
    |>.or ((hright.shr 14).masked 0x00000200) (by decide)
    |>.or (hright.masked 0x00000100) (by decide)
    |>.or ((hright.shr 5).masked 0x00000020) (by decide)
    |>.or ((hright.shr 10).masked 0x00000010) (by decide)
    |>.or ((hright.shr 3).masked 0x00000008) (by decide)
    |>.or ((hright.shr 18).masked 0x00000004) (by decide)
    |>.or ((hright.shr 26).masked 0x00000002) (by decide)
    |>.or ((hright.shr 24).masked 0x00000001) (by decide)
    |>.linear

/-- The odd words of a subkey are linear. -/
theorem oddSubkey_linear : Linear fun p : Word×Word => oddSubkey p.1 p.2 := by
  have hleft : Linear fun p : Word×Word => p.1 := fst_linear
  have hright : Linear fun p : Word×Word => p.2 := snd_linear
  exact ((hleft.shl 15).masked 0x20000000)
    |>.or ((hleft.shl 17).masked 0x10000000) (by decide)
    |>.or ((hleft.shl 10).masked 0x08000000) (by decide)
    |>.or ((hleft.shl 22).masked 0x04000000) (by decide)
    |>.or ((hleft.shr 2).masked 0x02000000) (by decide)
    |>.or ((hleft.shl 1).masked 0x01000000) (by decide)
    |>.or ((hleft.shl 16).masked 0x00200000) (by decide)
    |>.or ((hleft.shl 11).masked 0x00100000) (by decide)
    |>.or ((hleft.shl 3).masked 0x00080000) (by decide)
    |>.or ((hleft.shr 6).masked 0x00040000) (by decide)
    |>.or ((hleft.shl 15).masked 0x00020000) (by decide)
    |>.or ((hleft.shr 4).masked 0x00010000) (by decide)
    |>.or ((hright.shr 2).masked 0x00002000) (by decide)
    |>.or ((hright.shl 8).masked 0x00001000) (by decide)
    |>.or ((hright.shr 14).masked 0x00000808) (by decide)
    |>.or ((hright.shr 9).masked 0x00000400) (by decide)
    |>.or (hright.masked 0x00000200) (by decide)
    |>.or ((hright.shl 7).masked 0x00000100) (by decide)
    |>.or ((hright.shr 7).masked 0x00000020) (by decide)
    |>.or ((hright.shr 3).masked 0x00000011) (by decide)
    |>.or ((hright.shl 2).masked 0x00000004) (by decide)
    |>.or ((hright.shr 21).masked 0x00000002) (by decide)
    |>.linear

end Linear

/-! ## Halves of 28 bits -/

section Halves

/-- The halves of a key. -/
abbrev Halves := BitVec 28×BitVec 28

/-- A half as the code keeps it. -/
def half (c : BitVec 28) : Word := c.setWidth 32

/-- Widening a half is linear. -/
theorem half_linear : Linear half := fun c d => by
  refine BitVec.eq_of_getLsbD_eq fun i hi => ?_
  simp only [half,BitVec.getLsbD_xor,BitVec.getLsbD_setWidth]
  cases decide (i < 32) <;> simp

/-- Narrowing a word is linear. -/
theorem setWidth_linear : Linear (BitVec.setWidth 28 : Word → BitVec 28) := fun v w => by
  refine BitVec.eq_of_getLsbD_eq fun i hi => ?_
  simp only [BitVec.getLsbD_xor,BitVec.getLsbD_setWidth]
  cases decide (i < 28) <;> simp

/-- The mask of a half covers its 28 bits. -/
theorem getLsbD_half_mask (i : ℕ) : (0x0fffffff : Word).getLsbD i=decide (i < 28) := by
  have hmask : (0x0fffffff : Word)=(BitVec.allOnes 28).setWidth 32 := by decide
  rw [hmask,BitVec.getLsbD_setWidth,BitVec.getLsbD_allOnes]
  by_cases h : i < 28 <;> simp [h,show i < 28 → i < 32 by omega]

/-- A word whose four highest bits are cleared is a half. -/
theorem half_setWidth (w : Word) : half ((w &&& 0x0fffffff).setWidth 28)=w &&& 0x0fffffff := by
  refine BitVec.eq_of_getLsbD_eq fun i hi => ?_
  simp only [half,BitVec.getLsbD_setWidth,BitVec.getLsbD_and,getLsbD_half_mask]
  by_cases h : i < 28 <;> simp [h,hi]

/-- The rotation of a half is the rotation of its 28 bits. -/
theorem rotate_half {n : ℕ} (hn : n < 28) (c : BitVec 28) : rotate n (half c)=half (c.rotateLeft n) := by
  refine BitVec.eq_of_getLsbD_eq fun i hi => ?_
  simp only [rotate,half,BitVec.getLsbD_and,BitVec.getLsbD_or,BitVec.getLsbD_shiftLeft,
    BitVec.getLsbD_ushiftRight,BitVec.getLsbD_setWidth,getLsbD_half_mask,BitVec.getLsbD_rotateLeft,
    Nat.mod_eq_of_lt hn]
  by_cases h28 : i < 28
  · by_cases hin : i < n
    · simp [h28,hi,hin,show 28-n+i < 32 by omega]
    · have hout : c.getLsbD (28-n+i)=false := BitVec.getLsbD_of_ge c _ (by omega)
      simp [h28,hi,hin,show i-n < 32 by omega,hout]
  · have hout : ∀ k,28 ≤ k → c.getLsbD k=false := fun k hk => BitVec.getLsbD_of_ge c k hk
    simp [h28,show ¬i < n by omega]

/-- Permuted choice 1 of the words of a key. -/
def choice1 (p : Word×Word) : Halves :=
  ((permutedChoice1 p).1.setWidth 28,(permutedChoice1 p).2.setWidth 28)

/-- The first choice on halves is linear. -/
theorem choice1_linear : Linear choice1 :=
  (setWidth_linear.comp permutedChoice1_linear.fst).pair
    (setWidth_linear.comp permutedChoice1_linear.snd)

/-- The source keeps the halves in words. -/
theorem permutedChoice1_halves (p : Word×Word) :
    permutedChoice1 p=(half (choice1 p).1,half (choice1 p).2) := by
  rw [choice1,permutedChoice1_eq]
  exact Prod.ext (half_setWidth _).symm (half_setWidth _).symm

/-- The pair of subkeys of the halves. -/
def choice2 (p : Halves) : Word×Word :=
  (evenSubkey (half p.1) (half p.2),oddSubkey (half p.1) (half p.2))

/-- The second choice is linear. -/
theorem choice2_linear : Linear choice2 := by
  have hhalves : Linear fun p : Halves => (half p.1,half p.2) :=
    (half_linear.comp fst_linear).pair (half_linear.comp snd_linear)
  have heven := evenSubkey_linear.comp hhalves
  have hodd := oddSubkey_linear.comp hhalves
  exact heven.pair hodd

/-- Both halves rotated. -/
def turn (n : ℕ) (p : Halves) : Halves := (p.1.rotateLeft n,p.2.rotateLeft n)

/-- The pairs of subkeys of some rotations. -/
def turns : List ℕ → Halves → List (Word×Word)
  | [],_ => []
  | n::ns,p => choice2 (turn n p)::turns ns (turn n p)

/-- A rotation is shorter than a half. -/
theorem encryptRotateTab_lt (round : ℕ) : encryptRotateTab.getD round 0 < 28 := by
  have hall : ∀ n ∈ encryptRotateTab,n < 28 := by decide
  rw [List.getD_eq_getElem?_getD]
  cases hget : encryptRotateTab[round]? with
  | none => decide
  | some n => exact hall n (List.mem_of_getElem? hget)

/-- One round of the schedule. -/
theorem schedule_cons (round : ℕ) (rounds : List ℕ) (p : Halves) :
    schedule (round::rounds) (half p.1,half p.2)=
      choice2 (turn (encryptRotateTab.getD round 0) p)::
        schedule rounds (half (turn (encryptRotateTab.getD round 0) p).1,
          half (turn (encryptRotateTab.getD round 0) p).2) := by
  have hn := encryptRotateTab_lt round
  rw [choice2,turn,←rotate_half hn,←rotate_half hn]
  rfl

/-- The schedule turns the halves and chooses from them. -/
theorem schedule_eq (rounds : List ℕ) (p : Halves) :
    schedule rounds (half p.1,half p.2)=turns (rounds.map (encryptRotateTab.getD · 0)) p := by
  induction rounds generalizing p with
  | nil => rfl
  | cons round rounds ih =>
    rw [schedule_cons,ih]
    rfl

/-- The subkeys of a key by the halves of its permuted choice. -/
theorem subkeys_eq (key : Bytes) : subkeys key=turns encryptRotateTab (choice1 (read64bitData key)) := by
  rw [subkeys,permutedChoice1_halves,schedule_eq]
  rfl

end Halves

end StudyCode.Des2
