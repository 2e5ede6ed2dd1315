import StudyCode.BitLinear
import StudyCode.Des2
import StudyCode.Feistel

/-!
# What des2.c encrypts and decrypts

The lines of rounds are a Feistel network over the subkeys of a context, between
two permutations that undo each other. A context for decryption holds the subkeys
in the other order, so that decryption undoes encryption, and Triple-DES is three
of these networks.
-/

namespace StudyCode.Des2

open BitLinear

/-! ## The permutations -/

section Permutation

/-- Both words, with the right one rotated by one bit. -/
def turnRight (p : Word×Word) : Word×Word := (p.1,(p.2 <<< 1) ||| (p.2 >>> 31))

/-- Both words, with the right one rotated back. -/
def turnBack (p : Word×Word) : Word×Word := (p.1,(p.2 <<< 31) ||| (p.2 >>> 1))

/-- Turning right is undone. -/
theorem turnBack_turnRight (p : Word×Word) : turnBack (turnRight p)=p := by
  refine Prod.ext rfl (BitVec.eq_of_getLsbD_eq fun i hi => ?_)
  simp only [turnBack,turnRight,BitVec.getLsbD_or,BitVec.getLsbD_shiftLeft,
    BitVec.getLsbD_ushiftRight]
  by_cases h : i < 31
  · simp [h,show 1+i < 32 by omega,BitVec.getLsbD_of_ge p.2 (31+(1+i)) (by omega)]
  · obtain rfl : i=31 := by omega
    simp

/-- Turning back is undone. -/
theorem turnRight_turnBack (p : Word×Word) : turnRight (turnBack p)=p := by
  refine Prod.ext rfl (BitVec.eq_of_getLsbD_eq fun i hi => ?_)
  simp only [turnBack,turnRight,BitVec.getLsbD_or,BitVec.getLsbD_shiftLeft,
    BitVec.getLsbD_ushiftRight]
  by_cases h : i=0
  · subst h
    simp
  · simp [h,hi,show i-1 < 31 by omega,show 1+(i-1)=i by omega,show ¬31+i < 31 by omega,
      BitVec.getLsbD_of_ge p.2 (1+(31+i)) (by omega)]

/-- The exchange of every second bit. -/
def mixed (p : Word×Word) : Word×Word := exchange 0 0xaaaaaaaa p

/-- INITIAL_PERMUTATION as a chain of exchanges and rotations. -/
theorem initialPermutation_eq (p : Word×Word) :
    initialPermutation p=(turnRight (mixed (turnRight (exchange 8 0x00ff00ff (exchange 2 0x33333333
      (exchange 16 0x0000ffff (exchange 4 0x0f0f0f0f p)).swap)).swap)).swap).swap := by
  simp only [mixed,exchange.eq_def 0,BitVec.ushiftRight_zero,BitVec.shiftLeft_zero]
  rfl

/-- FINAL_PERMUTATION as the chain in the other order. -/
theorem finalPermutation_eq (p : Word×Word) :
    finalPermutation p=exchange 4 0x0f0f0f0f (exchange 16 0x0000ffff (exchange 2 0x33333333
      (exchange 8 0x00ff00ff (turnBack (mixed (turnBack p.swap).swap)).swap)).swap) := by
  simp only [mixed,exchange.eq_def 0,BitVec.ushiftRight_zero,BitVec.shiftLeft_zero]
  rfl

/-- The final permutation undoes the initial one. -/
theorem finalPermutation_initial (p : Word×Word) :
    finalPermutation (initialPermutation p)=p := by
  rw [initialPermutation_eq,finalPermutation_eq,Prod.swap_swap,turnBack_turnRight,Prod.swap_swap,
    mixed,mixed,exchange_exchange (by decide),turnBack_turnRight,Prod.swap_swap,
    exchange_exchange (by decide),exchange_exchange (by decide),Prod.swap_swap,
    exchange_exchange (by decide),exchange_exchange (by decide)]

/-- The initial permutation undoes the final one. -/
theorem initialPermutation_final (p : Word×Word) :
    initialPermutation (finalPermutation p)=p := by
  rw [initialPermutation_eq,finalPermutation_eq,exchange_exchange (by decide),
    exchange_exchange (by decide),Prod.swap_swap,exchange_exchange (by decide),
    exchange_exchange (by decide),Prod.swap_swap,turnRight_turnBack,mixed,mixed,
    exchange_exchange (by decide),Prod.swap_swap,turnRight_turnBack,Prod.swap_swap]

end Permutation

/-! ## Words and bytes -/

section Bytes

/-- The bytes of a block with other words in its first eight bytes. -/
def written (data : Bytes) (p : Word×Word) : Bytes := write64bitData data p.1 p.2

/-- A block that was written is read again. -/
theorem read_written (data : Bytes) (p : Word×Word) : read64bitData (written data p)=p := by
  obtain ⟨left,right⟩ := p
  refine Prod.ext (BitVec.eq_of_getLsbD_eq fun i hi => ?_) (BitVec.eq_of_getLsbD_eq fun i hi => ?_)
  all_goals
    simp only [read64bitData,written,write64bitData]
    interval_cases i <;> simp

/-- Writing what was read copies eight bytes. -/
theorem written_read (data source : Bytes) :
    written data (read64bitData source)=fun i => if i < 8 then source i else data i := by
  funext i
  by_cases h : i < 8
  · rw [if_pos h]
    refine BitVec.eq_of_getLsbD_eq fun j hj => ?_
    interval_cases i
    all_goals
      simp only [written,write64bitData,read64bitData]
      interval_cases j <;> simp
  · rw [if_neg h]
    obtain ⟨j,rfl⟩ := Nat.exists_eq_add_of_le' (not_lt.1 h)
    rfl

end Bytes

/-! ## Rounds -/

section Rounds

/-- The function of a round. -/
def roundWord (half : Word) (subkey : Word×Word) : Word := desRound half 0 subkey.1 subkey.2

/-- The pairs of subkeys from a position of the array on. -/
def pairs (keys : ℕ → Word) : ℕ → ℕ → List (Word×Word)
  | _,0 => []
  | start,n+1 => (keys start,keys (start+1))::pairs keys (start+2) n

/-- The rounds of some pairs of subkeys. -/
def network (subkeys : List (Word×Word)) (p : Word×Word) : Word×Word :=
  Feistel.rounds (·^^^·) roundWord subkeys p

/-- A round adds the round function of the other half. -/
theorem desRound_eq (source dest k l : Word) :
    desRound source dest k l=dest^^^roundWord source (k,l) := by
  unfold roundWord desRound
  dsimp only
  generalize entry sbox8 _=a8,entry sbox6 _=a6,entry sbox4 _=a4,entry sbox2 _=a2,
    entry sbox7 _=a7,entry sbox5 _=a5,entry sbox3 _=a3,entry sbox1 _=a1
  have hzero : (0 : Word)^^^a8=a8 := BitVec.zero_xor
  rw [hzero]
  ac_rfl

/-- The lines of the source are rounds of a Feistel network. -/
theorem desLines_eq (keys : ℕ → Word) (start lines : ℕ) (p : Word×Word) :
    desLines keys start lines p=network (pairs keys start (2*lines)) p := by
  induction lines generalizing start p with
  | zero => rfl
  | succ lines ih =>
    simp only [desLines,ih,desRound_eq]
    rfl

/-- The rounds of the pairs in the other order undo the rounds. -/
theorem network_reverse (subkeys : List (Word×Word)) (p : Word×Word) :
    network subkeys.reverse (network subkeys p).swap=p.swap :=
  Feistel.rounds_reverse roundWord
    (fun a b => by rw [BitVec.xor_assoc,BitVec.xor_self,BitVec.xor_zero]) subkeys p

/-- What a number of rounds does with the words of a block. -/
def cipher (subkeys : List (Word×Word)) (p : Word×Word) : Word×Word :=
  finalPermutation (network subkeys (initialPermutation p)).swap

/-- The subkeys in reverse order decipher. -/
theorem cipher_reverse (subkeys : List (Word×Word)) (p : Word×Word) :
    cipher subkeys.reverse (cipher subkeys p)=p := by
  rw [cipher,cipher,initialPermutation_final,network_reverse,Prod.swap_swap,
    finalPermutation_initial]

/-- The subkeys for a direction. -/
def Ctx.keys (ctx : Ctx) (mode : ℤ) : ℕ → Word := if mode ≠ 0 then ctx.decrypt else ctx.encrypt

/-- One call enciphers the block with the keys of the mode. -/
theorem glDesEcbCrypt_eq (ctx : Ctx) (source dest : Bytes) (mode : ℤ) :
    glDesEcbCrypt ctx source dest mode=
      written dest (cipher (pairs (ctx.keys mode) 0 16) (read64bitData source)) := by
  simp only [glDesEcbCrypt,desLines_eq]
  rfl

/-- One call applies the cipher three times. -/
theorem gl3desEcbCrypt_eq (ctx : Ctx) (source dest : Bytes) (mode : ℤ) :
    gl3desEcbCrypt ctx source dest mode=written dest
      (cipher (pairs (ctx.keys mode) 64 16) (cipher (pairs (ctx.keys mode) 32 16)
        (cipher (pairs (ctx.keys mode) 0 16) (read64bitData source)))) := by
  simp only [gl3desEcbCrypt,desLines_eq,cipher,initialPermutation_final]
  rfl

end Rounds

/-! ## Key schedules -/

section Schedule

/-- The pairs of subkeys of some rounds. -/
def schedule : List ℕ → Word×Word → List (Word×Word)
  | [],_ => []
  | round::rounds,(left,right) =>
    let left := rotate (encryptRotateTab.getD round 0) left
    let right := rotate (encryptRotateTab.getD round 0) right
    (evenSubkey left right,oddSubkey left right)::schedule rounds (left,right)

/-- The 16 pairs of subkeys of a key. -/
def subkeys (key : Bytes) : List (Word×Word) :=
  schedule (List.range 16) (permutedChoice1 (read64bitData key))

/-- Subkeys depend on their own words only. -/
theorem pairs_congr {k1 k2 : ℕ → Word} {start n : ℕ}
    (h : ∀ i,start ≤ i → i < start+2*n → k1 i=k2 i) : pairs k1 start n=pairs k2 start n := by
  induction n generalizing start with
  | zero => rfl
  | succ n ih =>
    rw [pairs,pairs,h start (le_refl start) (by omega),h (start+1) (by omega) (by omega),
      ih fun i hi hlt => h i (by omega) (by omega)]

/-- The loop writes the pairs of its rounds and nothing else. -/
theorem keyRounds_spec (rounds : List ℕ) (s : Schedule) :
    pairs (rounds.foldl keyRound s).subkeys s.subkey rounds.length=
        schedule rounds (s.left,s.right) ∧
      ∀ i,i < s.subkey ∨ s.subkey+2*rounds.length ≤ i →
        (rounds.foldl keyRound s).subkeys i=s.subkeys i := by
  induction rounds generalizing s with
  | nil => exact ⟨rfl,fun _ _ => rfl⟩
  | cons round rounds ih =>
    obtain ⟨hpairs,hrest⟩ := ih (keyRound s round)
    have hpos : (keyRound s round).subkey=s.subkey+2 := rfl
    rw [hpos] at hpairs hrest
    rw [List.foldl_cons,List.length_cons]
    refine ⟨?_,fun i hi => ?_⟩
    · rw [pairs,hpairs,hrest s.subkey (by omega),hrest (s.subkey+1) (by omega)]
      simp only [keyRound,Function.update_self,
        Function.update_of_ne (show s.subkey ≠ s.subkey+1 by omega)]
      rfl
    · rw [hrest i (by omega)]
      simp only [keyRound]
      rw [Function.update_of_ne (by omega),Function.update_of_ne (by omega)]

/-- The schedule stores the subkeys of the key. -/
theorem desKeySchedule_pairs (key : Bytes) (keys : ℕ → Word) (subkey : ℕ) :
    pairs (desKeySchedule key keys subkey) subkey 16=subkeys key :=
  (keyRounds_spec (List.range 16) ⟨_,_,keys,subkey⟩).1

/-- The schedule writes its 32 words only. -/
theorem desKeySchedule_other (key : Bytes) (keys : ℕ → Word) (subkey i : ℕ)
    (h : i < subkey ∨ subkey+32 ≤ i) : desKeySchedule key keys subkey i=keys i :=
  (keyRounds_spec (List.range 16) ⟨_,_,keys,subkey⟩).2 i h

end Schedule

/-! ## Contexts -/

section Context

variable (ctx ctx1 : Ctx) (key key1 key2 key3 source dest dest1 dest2 : Bytes)

/-- The pairs of subkeys of a key for a direction. -/
def directed (key : Bytes) (mode : ℤ) : List (Word×Word) :=
  if mode ≠ 0 then (subkeys key).reverse else subkeys key

/-- The loop of gl_des_setkey copies the subkeys in reverse order. -/
theorem setkey_loop (ctx : Ctx) :
    let ctx1 := evenLoop (fun ctx i =>
      let ctx := ctx.setDecrypt i (ctx.encrypt (30-i))
      ctx.setDecrypt (i+1) (ctx.encrypt (31-i))) ctx
    pairs ctx1.decrypt 0 16=(pairs ctx.encrypt 0 16).reverse := rfl

/-- The keys of a mode are the subkeys in its order. -/
theorem glDesSetkey_keys (mode : ℤ) :
    pairs ((glDesSetkey ctx key).keys mode) 0 16=directed key mode := by
  have hencrypt : pairs (glDesSetkey ctx key).encrypt 0 16=subkeys key :=
    desKeySchedule_pairs key ctx.encrypt 0
  rw [Ctx.keys,directed]
  split
  · rw [←hencrypt]
    exact setkey_loop {ctx with encrypt := desKeySchedule key ctx.encrypt 0}
  · exact hencrypt

/-- The three parts of the subkeys of a context of Triple-DES. -/
def Ctx.parts (ctx : Ctx) (mode : ℤ) : List (List (Word×Word)) :=
  [pairs (ctx.keys mode) 0 16,pairs (ctx.keys mode) 32 16,pairs (ctx.keys mode) 64 16]

/-- Every mode but 0 uses the same keys. -/
theorem Ctx.parts_mode (ctx : Ctx) (mode : ℤ) :
    ctx.parts mode=if mode ≠ 0 then ctx.parts 1 else ctx.parts 0 := by
  unfold parts keys
  by_cases h : mode=0 <;> simp [h]

/-- The loop of gl_3des_set3keys copies three schedules. -/
theorem set3keys_loop (ctx : Ctx) :
    let ctx1 := evenLoop (fun ctx i =>
      let ctx := ctx.setDecrypt i (ctx.encrypt (94-i))
      let ctx := ctx.setDecrypt (i+1) (ctx.encrypt (95-i))
      let ctx := ctx.setEncrypt (i+32) (ctx.decrypt (62-i))
      let ctx := ctx.setEncrypt (i+33) (ctx.decrypt (63-i))
      let ctx := ctx.setDecrypt (i+64) (ctx.encrypt (30-i))
      ctx.setDecrypt (i+65) (ctx.encrypt (31-i))) ctx
    ctx1.parts 0=[pairs ctx.encrypt 0 16,(pairs ctx.decrypt 32 16).reverse,
        pairs ctx.encrypt 64 16] ∧
      ctx1.parts 1=[(pairs ctx.encrypt 64 16).reverse,pairs ctx.decrypt 32 16,
        (pairs ctx.encrypt 0 16).reverse] := ⟨rfl,rfl⟩

set_option maxRecDepth 2000 in
/-- The loop of gl_3des_set2keys copies three schedules. -/
theorem set2keys_loop (ctx : Ctx) :
    let ctx1 := evenLoop (fun ctx i =>
      let ctx := ctx.setDecrypt i (ctx.encrypt (30-i))
      let ctx := ctx.setDecrypt (i+1) (ctx.encrypt (31-i))
      let ctx := ctx.setEncrypt (i+32) (ctx.decrypt (62-i))
      let ctx := ctx.setEncrypt (i+33) (ctx.decrypt (63-i))
      let ctx := ctx.setEncrypt (i+64) (ctx.encrypt i)
      let ctx := ctx.setEncrypt (i+65) (ctx.encrypt (i+1))
      let ctx := ctx.setDecrypt (i+64) (ctx.decrypt i)
      ctx.setDecrypt (i+65) (ctx.decrypt (i+1))) ctx
    ctx1.parts 0=[pairs ctx.encrypt 0 16,(pairs ctx.decrypt 32 16).reverse,
        pairs ctx.encrypt 0 16] ∧
      ctx1.parts 1=[(pairs ctx.encrypt 0 16).reverse,pairs ctx.decrypt 32 16,
        (pairs ctx.encrypt 0 16).reverse] := ⟨rfl,rfl⟩

/-- The three schedules of three keys. -/
theorem set3keys_parts (mode : ℤ) : (gl3desSet3keys ctx key1 key2 key3).parts mode=
    if mode ≠ 0 then [directed key3 1,directed key2 0,directed key1 1]
    else [directed key1 0,directed key2 1,directed key3 0] := by
  let c : Ctx := ⟨desKeySchedule key3 (desKeySchedule key1 ctx.encrypt 0) 64,
    desKeySchedule key2 ctx.decrypt 32⟩
  have h1 : pairs c.encrypt 0 16=subkeys key1 := by
    rw [←desKeySchedule_pairs key1 ctx.encrypt 0]
    exact pairs_congr fun i _ hi => desKeySchedule_other key3 _ 64 i (by omega)
  have h2 : pairs c.decrypt 32 16=subkeys key2 := desKeySchedule_pairs key2 ctx.decrypt 32
  have h3 : pairs c.encrypt 64 16=subkeys key3 := desKeySchedule_pairs key3 _ 64
  obtain ⟨hencrypt,hdecrypt⟩ := set3keys_loop c
  rw [h1,h2,h3] at hencrypt hdecrypt
  rw [Ctx.parts_mode]
  split
  · exact hdecrypt
  · exact hencrypt

/-- The three schedules of two keys. -/
theorem set2keys_parts (mode : ℤ) : (gl3desSet2keys ctx key1 key2).parts mode=
    if mode ≠ 0 then [directed key1 1,directed key2 0,directed key1 1]
    else [directed key1 0,directed key2 1,directed key1 0] := by
  let c : Ctx := ⟨desKeySchedule key1 ctx.encrypt 0,desKeySchedule key2 ctx.decrypt 32⟩
  have h1 : pairs c.encrypt 0 16=subkeys key1 := desKeySchedule_pairs key1 ctx.encrypt 0
  have h2 : pairs c.decrypt 32 16=subkeys key2 := desKeySchedule_pairs key2 ctx.decrypt 32
  obtain ⟨hencrypt,hdecrypt⟩ := set2keys_loop c
  rw [h1,h2] at hencrypt hdecrypt
  rw [Ctx.parts_mode]
  split
  · exact hdecrypt
  · exact hencrypt

/-- Equal triples have equal parts. -/
theorem parts_inj {a b c d e f : List (Word×Word)} (h : [a,b,c]=[d,e,f]) : a=d ∧ b=e ∧ c=f := by
  obtain ⟨h1,h2⟩ := List.cons.inj h
  obtain ⟨h2,h3⟩ := List.cons.inj h2
  exact ⟨h1,h2,(List.cons.inj h3).1⟩

/-- Three blocks one after the other, each with its key and direction. -/
theorem threefold (mode mode1 mode2 mode3 : ℤ)
    (hparts : ctx.parts mode=[directed key1 mode1,directed key2 mode2,directed key3 mode3]) :
    gl3desEcbCrypt ctx source dest mode=
      glDesEcbCrypt (glDesSetkey ctx1 key3) (glDesEcbCrypt (glDesSetkey ctx1 key2)
        (glDesEcbCrypt (glDesSetkey ctx1 key1) source dest1 mode1) dest2 mode2) dest mode3 := by
  obtain ⟨h1,h2,h3⟩ := parts_inj hparts
  rw [gl3desEcbCrypt_eq,h1,h2,h3]
  simp only [glDesEcbCrypt_eq,glDesSetkey_keys,read_written]

/-- What one direction does is undone by the other one. -/
theorem glDesEcbCrypt_undone (mode mode1 : ℤ) (h : directed key mode1=(directed key mode).reverse) :
    glDesEcbCrypt (glDesSetkey ctx key) (glDesEcbCrypt (glDesSetkey ctx key) source dest1 mode)
      dest mode1=fun i => if i < 8 then source i else dest i := by
  rw [glDesEcbCrypt_eq,glDesEcbCrypt_eq,glDesSetkey_keys,glDesSetkey_keys,read_written,h,
    cipher_reverse,written_read]

/-- Decryption undoes encryption and encryption undoes decryption, and only the
eight bytes of the block are written. -/
theorem glDesEcbCrypt_inverse :
    glDesEcbCrypt (glDesSetkey ctx key) (glDesEcbCrypt (glDesSetkey ctx key) source dest1 0) dest 1=
        (fun i => if i < 8 then source i else dest i) ∧
      glDesEcbCrypt (glDesSetkey ctx key) (glDesEcbCrypt (glDesSetkey ctx key) source dest1 1) dest 0=
        fun i => if i < 8 then source i else dest i :=
  ⟨glDesEcbCrypt_undone ctx key source dest dest1 0 1 rfl,
    glDesEcbCrypt_undone ctx key source dest dest1 1 0 (List.reverse_reverse _).symm⟩

/-- Triple-DES encrypts with the first key, decrypts with the second and encrypts
with the third one; decryption goes the other way and undoes it; and two keys are
three keys of which the first and the third are the same. -/
theorem gl3desEcbCrypt_threefold :
    gl3desEcbCrypt (gl3desSet3keys ctx key1 key2 key3) source dest 0=
        glDesEcbCrypt (glDesSetkey ctx1 key3) (glDesEcbCrypt (glDesSetkey ctx1 key2)
          (glDesEcbCrypt (glDesSetkey ctx1 key1) source dest1 0) dest2 1) dest 0 ∧
      gl3desEcbCrypt (gl3desSet3keys ctx key1 key2 key3) source dest 1=
        glDesEcbCrypt (glDesSetkey ctx1 key1) (glDesEcbCrypt (glDesSetkey ctx1 key2)
          (glDesEcbCrypt (glDesSetkey ctx1 key3) source dest1 1) dest2 0) dest 1 ∧
      gl3desEcbCrypt (gl3desSet3keys ctx key1 key2 key3)
          (gl3desEcbCrypt (gl3desSet3keys ctx key1 key2 key3) source dest1 0) dest 1=
        (fun i => if i < 8 then source i else dest i) ∧
      ∀ mode,gl3desEcbCrypt (gl3desSet2keys ctx key1 key2) source dest mode=
        gl3desEcbCrypt (gl3desSet3keys ctx key1 key2 key1) source dest mode := by
  have hencrypt := set3keys_parts ctx key1 key2 key3 0
  have hdecrypt := set3keys_parts ctx key1 key2 key3 1
  refine ⟨threefold _ ctx1 key1 key2 key3 source dest dest1 dest2 0 0 1 0 hencrypt,
    threefold _ ctx1 key3 key2 key1 source dest dest1 dest2 1 1 0 1 hdecrypt,?_,fun mode => ?_⟩
  · obtain ⟨h1,h2,h3⟩ := parts_inj hencrypt
    obtain ⟨k1,k2,k3⟩ := parts_inj hdecrypt
    rw [gl3desEcbCrypt_eq,gl3desEcbCrypt_eq,read_written,h1,h2,h3,k1,k2,k3]
    -- each key meets itself in the other direction
    have hback : ∀ key p,cipher (directed key 1) (cipher (directed key 0) p)=p :=
      fun key => cipher_reverse (subkeys key)
    have hforth : ∀ key p,cipher (directed key 0) (cipher (directed key 1) p)=p := fun key p => by
      have hrev := cipher_reverse (directed key 1) p
      rwa [show (directed key 1).reverse=directed key 0 from List.reverse_reverse _] at hrev
    rw [hback key3,hforth key2,hback key1,written_read]
  · have hparts : (gl3desSet2keys ctx key1 key2).parts mode=
        (gl3desSet3keys ctx key1 key2 key1).parts mode := by
      rw [set2keys_parts,set3keys_parts]
    obtain ⟨h1,h2,h3⟩ := parts_inj hparts
    rw [gl3desEcbCrypt_eq,gl3desEcbCrypt_eq,h1,h2,h3]

end Context

end StudyCode.Des2
