import Mathlib.Data.List.GetD
import StudyCode.Des2Linear

/-!
# Keys of des2.c

The binary search finds the keys of the table of weak keys. A weak key has one,
two or four different subkeys, since the parity bits do not count. The complement
of a key encrypts the complement of a block to the complement of what the key
makes of the block.
-/

namespace StudyCode.Des2

open BitLinear

/-! ## The table of weak keys -/

section Weak

/-- The bytes as the digits of a number. -/
def value : List (BitVec 8) → ℕ
  | [] => 0
  | a::as => a.toNat*256^as.length+value as

/-- A number of some bytes is below its power of 256. -/
theorem value_lt (a : List (BitVec 8)) : value a < 256^a.length := by
  induction a with
  | nil => exact Nat.one_pos
  | cons b a ih =>
    have hb : b.toNat+1 ≤ 256 := b.isLt
    have hmul := Nat.mul_le_mul_right (256^a.length) hb
    rw [value,List.length_cons,pow_succ,mul_comm (256^a.length)]
    rw [add_mul] at hmul
    omega

/-- memcmp compares the numbers. -/
theorem memcmp_spec (a b : List (BitVec 8)) (h : a.length=b.length) :
    (memcmp a b=0 ↔ a=b) ∧ (0 < memcmp a b ↔ value b < value a) ∧
      (memcmp a b < 0 ↔ value a < value b) := by
  induction a generalizing b with
  | nil =>
    obtain rfl := List.length_eq_zero_iff.1 h.symm
    simp [memcmp]
  | cons x a ih =>
    cases b with
    | nil => cases h
    | cons y b =>
      have hlen : a.length=b.length := Nat.succ.inj h
      obtain ⟨h0,h1,h2⟩ := ih b hlen
      rw [memcmp,value,value,hlen]
      by_cases hxy : x=y
      · subst hxy
        simp [h0,h1,h2]
      · have hne : x.toNat ≠ y.toNat := fun h => hxy (BitVec.eq_of_toNat_eq h)
        have ha := value_lt a
        have hb := value_lt b
        rw [hlen] at ha
        -- the first byte that differs outweighs all that follow
        have hgap : ∀ m n : ℕ,m < n → m*256^b.length+256^b.length ≤ n*256^b.length := fun m n h => by
          rw [←Nat.succ_mul]
          exact Nat.mul_le_mul_right _ h
        have hup := hgap x.toNat y.toNat
        have hdown := hgap y.toNat x.toNat
        generalize x.toNat*256^b.length=u at *
        generalize y.toNat*256^b.length=v at *
        simp only [hxy,if_false,List.cons.injEq,false_and,iff_false]
        refine ⟨?_,?_,?_⟩
        · omega
        · omega
        · omega

/-- The table is sorted. -/
theorem weakKeys_sorted : weakKeys.Pairwise fun a b => value a < value b := by
  decide

/-- The rows of the table are keys. -/
theorem weakKeys_length : ∀ row ∈ weakKeys,row.length=8 := by decide

/-- An index below 64 is a row. -/
theorem weakKeys_row {i : ℕ} (h : i < 64) : weakKeys.getD i [] ∈ weakKeys := by
  have hi : i < weakKeys.length := h
  rw [List.getD_eq_getElem weakKeys [] hi]
  exact List.getElem_mem hi

/-- Rows are ordered as their indices. -/
theorem weakKeys_lt {i j : ℕ} (hij : i < j) (hj : j < 64) :
    value (weakKeys.getD i []) < value (weakKeys.getD j []) := by
  have hj : j < weakKeys.length := hj
  rw [List.getD_eq_getElem weakKeys [] (hij.trans hj),List.getD_eq_getElem weakKeys [] hj]
  exact List.pairwise_iff_getElem.1 weakKeys_sorted i j (hij.trans hj) hj hij

/-- The rows before left are smaller than the key, and those behind right are
greater. -/
structure Between (work : List (BitVec 8)) (left right : ℤ) : Prop where
  /-- The interval starts in the table. -/
  nonneg : 0 ≤ left
  /-- The interval ends in the table. -/
  right_lt : right < 64
  /-- The rows before the interval. -/
  below : ∀ i : ℕ,(i : ℤ) < left → i < 64 → value (weakKeys.getD i []) < value work
  /-- The rows behind the interval. -/
  above : ∀ i : ℕ,right < i → i < 64 → value work < value (weakKeys.getD i [])

/-- The binary search decides whether the key is in the table. -/
theorem weakLoop_iff {work : List (BitVec 8)} (hlen : work.length=8) (left right : ℤ)
    (h : Between work left right) : weakLoop work left right=true ↔ work ∈ weakKeys := by
  have hspec : ∀ i < 64,_ := fun i hi => memcmp_spec work (weakKeys.getD i [])
    (hlen.trans (weakKeys_length _ (weakKeys_row hi)).symm)
  have h0 := h.nonneg
  have h64 := h.right_lt
  fun_induction weakLoop work left right with
  | case1 left right hle middle cmp_result hcmp =>
    have hmid : middle.toNat < 64 := by omega
    rw [(hspec _ hmid).1.1 hcmp]
    exact iff_of_true rfl (weakKeys_row hmid)
  | case2 left right hle middle cmp_result hcmp hpos ih =>
    have hmid : middle.toNat < 64 := by omega
    have hval := (hspec _ hmid).2.1.1 hpos
    refine ih ⟨by omega,h64,fun i hi hi64 => ?_,h.above⟩ (by omega) h64
    obtain hi|rfl := Nat.lt_or_eq_of_le (show i ≤ middle.toNat by omega)
    · exact (weakKeys_lt hi hmid).trans hval
    · exact hval
  | case3 left right hle middle cmp_result hcmp hpos ih =>
    have hmid : middle.toNat < 64 := by omega
    have hval := (hspec _ hmid).2.2.1 (by omega)
    refine ih ⟨h0,by omega,h.below,fun i hi hi64 => ?_⟩ h0 (by omega)
    obtain hi|rfl := Nat.lt_or_eq_of_le (show middle.toNat ≤ i by omega)
    · exact hval.trans (weakKeys_lt hi hi64)
    · exact hval
  | case4 left right hle =>
    refine iff_of_false Bool.false_ne_true fun hmem => ?_
    obtain ⟨i,hi,hrow⟩ := List.getElem_of_mem hmem
    rw [←List.getD_eq_getElem weakKeys [] hi] at hrow
    have hbelow := h.below i
    have habove := h.above i
    rw [hrow] at hbelow habove
    have hi : i < 64 := hi
    omega

/-- The key without parity bits has eight bytes. -/
theorem work_length (key : Bytes) : (work key).length=8 := by
  rw [work,List.length_map,List.length_range]

/-- gl_des_is_weak_key finds the keys of the table. -/
theorem glDesIsWeakKey_eq (key : Bytes) : glDesIsWeakKey key=true ↔ work key ∈ weakKeys :=
  weakLoop_iff (work_length key) 0 63
    ⟨le_refl 0,by decide,fun i hi _ => absurd hi (by omega),fun i hi h => absurd hi (by omega)⟩

/-- The parity bits do not count. -/
theorem choice1_parity (p : Word×Word) :
    choice1 p=choice1 (p.1 &&& 0xfefefefe,p.2 &&& 0xfefefefe) := by
  have hmask := choice1_linear.comp ((fst_linear.and 0xfefefefe).pair (snd_linear.and 0xfefefefe))
  exact choice1_linear.ext_pair hmask (by decide) (by decide) (by decide) p

/-- Clearing the parity bits of the bytes clears them in the words. -/
theorem read_work (key : Bytes) : read64bitData (fun i => (work key).getD i 0)=
    ((read64bitData key).1 &&& 0xfefefefe,(read64bitData key).2 &&& 0xfefefefe) := by
  have hget : ∀ i < 8,(work key).getD i 0=key i &&& 0xfe := fun i hi => by
    rw [work]
    interval_cases i <;> rfl
  refine Prod.ext (BitVec.eq_of_getLsbD_eq fun i hi => ?_) (BitVec.eq_of_getLsbD_eq fun i hi => ?_)
  all_goals
    simp only [read64bitData,hget 0 (by decide),hget 1 (by decide),hget 2 (by decide),
      hget 3 (by decide),hget 4 (by decide),hget 5 (by decide),hget 6 (by decide),
      hget 7 (by decide)]
    interval_cases i <;> simp

/-- The subkeys do not depend on the parity bits. -/
theorem subkeys_work (key : Bytes) : subkeys key=subkeys fun i => (work key).getD i 0 := by
  rw [subkeys_eq,subkeys_eq,read_work,←choice1_parity]

/-- A key of the table has one, two or four subkeys. -/
theorem weakKeys_subkeys : ∀ row ∈ weakKeys,
    (subkeys fun i => row.getD i 0).dedup.length ∈ [1,2,4] := by
  have hall : weakKeys.all (fun row =>
      decide ((subkeys fun i => row.getD i 0).dedup.length ∈ [1,2,4]))=true := by decide +kernel
  exact fun row hrow => of_decide_eq_true (List.all_eq_true.1 hall row hrow)

/-- A key is reported as weak when the table has it, whatever its parity bits are;
such a key has one, two or four different subkeys; and gl_des_makekey accepts the
other keys of eight bytes. -/
theorem glDesIsWeakKey_iff (ctx : Ctx) (key : Bytes) (keylen : ℕ) :
    (glDesIsWeakKey key=true ↔ work key ∈ weakKeys) ∧
      (glDesIsWeakKey key=true →
        (pairs (glDesSetkey ctx key).encrypt 0 16).dedup.length ∈ [1,2,4]) ∧
      ((glDesMakekey ctx key keylen).1=true ↔ keylen=8 ∧ work key ∉ weakKeys) := by
  have hweak := glDesIsWeakKey_eq key
  refine ⟨hweak,fun h => ?_,?_⟩
  · have hkeys : pairs (glDesSetkey ctx key).encrypt 0 16=subkeys key :=
      desKeySchedule_pairs key ctx.encrypt 0
    rw [hkeys,subkeys_work]
    exact weakKeys_subkeys _ (hweak.1 h)
  · rw [glDesMakekey]
    by_cases hlen : keylen=8
    · simp [hlen,←hweak]
    · simp [hlen]

end Weak

/-! ## Complements -/

section Complement

/-- The complement of both words. -/
def invert (p : Word×Word) : Word×Word := p.map (~~~·) (~~~·)

/-- Inverting is the xor with ones. -/
theorem flip_eq (p : Word×Word) : invert p=p^^^(BitVec.allOnes 32,BitVec.allOnes 32) :=
  Prod.ext BitVec.xor_allOnes.symm BitVec.xor_allOnes.symm

/-- The complement of a key is read as the complement. -/
theorem read_complement (key : Bytes) :
    read64bitData (fun i => ~~~key i)=invert (read64bitData key) := by
  refine Prod.ext (BitVec.eq_of_getLsbD_eq fun i hi => ?_) (BitVec.eq_of_getLsbD_eq fun i hi => ?_)
  all_goals
    simp only [read64bitData,invert,Prod.map]
    interval_cases i <;> simp

/-- The complement is written as the complement. -/
theorem written_complement (data : Bytes) (p : Word×Word) :
    written data (invert p)=fun i => if i < 8 then ~~~written data p i else data i := by
  have hread := written_read data fun i => ~~~written data p i
  rwa [read_complement,read_written] at hread

/-- The initial permutation keeps complements. -/
theorem initialPermutation_invert (p : Word×Word) :
    initialPermutation (invert p)=invert (initialPermutation p) := by
  rw [flip_eq,flip_eq,initialPermutation_linear]
  exact congrArg _ (by decide)

/-- The final permutation keeps complements. -/
theorem finalPermutation_invert (p : Word×Word) :
    finalPermutation (invert p)=invert (finalPermutation p) := by
  rw [flip_eq,flip_eq,finalPermutation_linear]
  exact congrArg _ (by decide)

/-- The pair of subkeys of the complement of a key. -/
def invertSubkey (k : Word×Word) : Word×Word := k^^^(0x3f3f3f3f,0x3f3f3f3f)

/-- The bits of a subkey that a round looks at change back. -/
theorem index_invert {s : ℕ} (hs : s ∈ [0,8,16,24]) (w k : Word) :
    ((~~~w^^^(k^^^0x3f3f3f3f)) >>> s) &&& 0x3f=((w^^^k) >>> s) &&& 0x3f := by
  have hother : ~~~w^^^(k^^^0x3f3f3f3f)=(w^^^k)^^^0xc0c0c0c0 := by
    rw [←BitVec.xor_allOnes]
    have hones : BitVec.allOnes 32^^^0x3f3f3f3f=0xc0c0c0c0 := by decide
    rw [←hones]
    ac_rfl
  have hand := ((id_linear.shr s).and 0x3f) (w^^^k) 0xc0c0c0c0
  have hzero : ((0xc0c0c0c0 : Word) >>> s) &&& 0x3f=0 := by
    fin_cases hs <;> rfl
  dsimp only at hand
  rw [hother,hand,hzero]
  exact BitVec.xor_zero

/-- A rotation keeps complements. -/
theorem rotated_invert (w : Word) :
    (~~~w) <<< 28 ||| (~~~w) >>> 4 = ~~~(w <<< 28 ||| w >>> 4) := by
  have hrot := ((id_linear.masked_shl 28).or (id_linear.masked_shr 4) (by decide)).linear
  have hones := hrot w (BitVec.allOnes 32)
  dsimp only at hones
  rw [BitVec.xor_allOnes] at hones
  rw [hones,←BitVec.xor_allOnes]
  exact congrArg _ (by decide)

/-- A round with complemented half and subkey stays. -/
theorem desRound_invert (source k l : Word) :
    desRound (~~~source) 0 (k^^^0x3f3f3f3f) (l^^^0x3f3f3f3f)=desRound source 0 k l := by
  have h0 := fun w k => index_invert (s := 0) (by decide) w k
  have h8 := fun w k => index_invert (s := 8) (by decide) w k
  have h16 := fun w k => index_invert (s := 16) (by decide) w k
  have h24 := fun w k => index_invert (s := 24) (by decide) w k
  simp only [BitVec.ushiftRight_zero] at h0
  unfold desRound
  dsimp only
  rw [rotated_invert,h0,h8,h16,h24,h0,h8,h16,h24]

/-- The round function of the complements is the same. -/
theorem roundWord_invert (half : Word) (k : Word×Word) :
    roundWord (~~~half) (invertSubkey k)=roundWord half k := desRound_invert half k.1 k.2

/-- The first choice keeps complements. -/
theorem choice1_invert (p : Word×Word) :
    choice1 (invert p)=choice1 p^^^(BitVec.allOnes 28,BitVec.allOnes 28) := by
  rw [flip_eq,choice1_linear]
  exact congrArg _ (by decide)

/-- The second choice keeps complements. -/
theorem choice2_invert (p : Halves) :
    choice2 (p^^^(BitVec.allOnes 28,BitVec.allOnes 28))=invertSubkey (choice2 p) := by
  rw [choice2_linear]
  exact congrArg _ (by decide)

/-- Turning the halves keeps complements. -/
theorem turn_invert (n : ℕ) (p : Halves) :
    turn n (p^^^(BitVec.allOnes 28,BitVec.allOnes 28))=
      turn n p^^^(BitVec.allOnes 28,BitVec.allOnes 28) := by
  have hone : ∀ c : BitVec 28,
      (c^^^BitVec.allOnes 28).rotateLeft n=c.rotateLeft n^^^BitVec.allOnes 28 := fun c => by
    refine BitVec.eq_of_getLsbD_eq fun i hi => ?_
    simp only [BitVec.getLsbD_xor,BitVec.getLsbD_rotateLeft,BitVec.getLsbD_allOnes]
    have hn : n%28 < 28 := Nat.mod_lt n (by decide)
    by_cases h : i < n%28
    · simp [h,hi,show 28-n%28+i < 28 by omega]
    · simp [h,hi,show i-n%28 < 28 by omega]
  exact Prod.ext (hone p.1) (hone p.2)

/-- So does every round of the schedule. -/
theorem turns_invert (ns : List ℕ) (p : Halves) :
    turns ns (p^^^(BitVec.allOnes 28,BitVec.allOnes 28))=(turns ns p).map invertSubkey := by
  induction ns generalizing p with
  | nil => rfl
  | cons n ns ih => rw [turns,turns,List.map_cons,turn_invert,choice2_invert,ih]

/-- The complement of a key has the complements of its subkeys. -/
theorem subkeys_invert (key : Bytes) :
    subkeys (fun i => ~~~key i)=(subkeys key).map invertSubkey := by
  rw [subkeys_eq,subkeys_eq,read_complement,choice1_invert,turns_invert]

/-- A block and its subkeys with all bits changed. -/
theorem cipher_invert (ks : List (Word×Word)) (p : Word×Word) :
    cipher (ks.map invertSubkey) (invert p)=invert (cipher ks p) := by
  have hnet : ∀ p,network (ks.map invertSubkey) (invert p)=invert (network ks p) :=
    Feistel.rounds_map (R := fun k l => l=invertSubkey k) (fun k l hkl a b => by
      rw [hkl,roundWord_invert,←BitVec.xor_allOnes,←BitVec.xor_allOnes]
      ac_rfl) (List.forall₂_map_right_iff.2 (List.forall₂_same.2 fun _ _ => rfl))
  have hswap : ∀ p : Word×Word,(invert p).swap=invert p.swap := fun _ => rfl
  rw [cipher,cipher,initialPermutation_invert,hnet,hswap,finalPermutation_invert]

/-- The complement of a key makes of the complement of a block the complement of
what the key makes of the block, in both directions. -/
theorem glDesEcbCrypt_complement (ctx : Ctx) (key source dest : Bytes) (mode : ℤ) :
    glDesEcbCrypt (glDesSetkey ctx fun i => ~~~key i) (fun i => ~~~source i) dest mode=
      fun i => if i < 8 then ~~~glDesEcbCrypt (glDesSetkey ctx key) source dest mode i
        else dest i := by
  have hkeys : directed (fun i => ~~~key i) mode=(directed key mode).map invertSubkey := by
    rw [directed,directed,subkeys_invert]
    split
    · exact List.map_reverse.symm
    · rfl
  rw [glDesEcbCrypt_eq,glDesEcbCrypt_eq,glDesSetkey_keys,glDesSetkey_keys,hkeys,read_complement,
    cipher_invert,written_complement]

end Complement

end StudyCode.Des2
