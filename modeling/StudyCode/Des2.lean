import Mathlib.Logic.Function.Basic
import Mathlib.Tactic
import StudyCode.Des2Tables

/-!
# DES and Triple-DES

A block is read as two words of 32 bits. Its rounds use the subkeys of a context
in their order. A context holds the subkeys for both directions.
-/

namespace StudyCode.Des2

/-- What a pointer to unsigned char points at. -/
abbrev Bytes := ℕ → BitVec 8

/-- An entry of a table. -/
def entry (tab : List Word) (i : Word) : Word := tab.getD i.toNat 0

/-! ## Weak keys -/

/-- memcmp. -/
def memcmp : List (BitVec 8) → List (BitVec 8) → ℤ
  | a::as,b::bs => if a=b then memcmp as bs else (a.toNat : ℤ)-b.toNat
  | _,_ => 0

/-- The key with its parity bits cleared. -/
def work (key : Bytes) : List (BitVec 8) := (List.range 8).map fun i => key i &&& 0xfe

/-- The binary search from left to right. -/
def weakLoop (work : List (BitVec 8)) (left right : ℤ) : Bool :=
  if left ≤ right then
    let middle := (left+right)/2
    let cmp_result := memcmp work (weakKeys.getD middle.toNat [])
    if cmp_result=0 then true
    else if cmp_result > 0 then weakLoop work (middle+1) right
    else weakLoop work left (middle-1)
  else false
termination_by (right+1-left).toNat

/-- gl_des_is_weak_key. -/
def glDesIsWeakKey (key : Bytes) : Bool := weakLoop (work key) 0 63

/-! ## Permutations and rounds -/

/-- DO_PERMUTATION, with the new values of both words. -/
def doPermutation (a b : Word) (offset : ℕ) (mask : Word) : Word×Word :=
  let temp := ((a >>> offset)^^^b) &&& mask
  (a^^^(temp <<< offset),b^^^temp)

/-- INITIAL_PERMUTATION of left and right. -/
def initialPermutation (p : Word×Word) : Word×Word :=
  let (left,right) := p
  let (left,right) := doPermutation left right 4 0x0f0f0f0f
  let (left,right) := doPermutation left right 16 0x0000ffff
  let (right,left) := doPermutation right left 2 0x33333333
  let (right,left) := doPermutation right left 8 0x00ff00ff
  let right := (right <<< 1) ||| (right >>> 31)
  let temp := (left^^^right) &&& 0xaaaaaaaa
  let right := right^^^temp
  let left := left^^^temp
  let left := (left <<< 1) ||| (left >>> 31)
  (left,right)

/-- FINAL_PERMUTATION of left and right. -/
def finalPermutation (p : Word×Word) : Word×Word :=
  let (left,right) := p
  let left := (left <<< 31) ||| (left >>> 1)
  let temp := (left^^^right) &&& 0xaaaaaaaa
  let left := left^^^temp
  let right := right^^^temp
  let right := (right <<< 31) ||| (right >>> 1)
  let (right,left) := doPermutation right left 8 0x00ff00ff
  let (right,left) := doPermutation right left 2 0x33333333
  let (left,right) := doPermutation left right 16 0x0000ffff
  let (left,right) := doPermutation left right 4 0x0f0f0f0f
  (left,right)

/-- DES_ROUND, with the new value of the word dest; k and l are the next two
subkeys. -/
def desRound (source dest k l : Word) : Word :=
  let work := source^^^k
  let dest := dest^^^entry sbox8 (work &&& 0x3f)
  let dest := dest^^^entry sbox6 ((work >>> 8) &&& 0x3f)
  let dest := dest^^^entry sbox4 ((work >>> 16) &&& 0x3f)
  let dest := dest^^^entry sbox2 ((work >>> 24) &&& 0x3f)
  let work := ((source <<< 28) ||| (source >>> 4))^^^l
  let dest := dest^^^entry sbox7 (work &&& 0x3f)
  let dest := dest^^^entry sbox5 ((work >>> 8) &&& 0x3f)
  let dest := dest^^^entry sbox3 ((work >>> 16) &&& 0x3f)
  dest^^^entry sbox1 ((work >>> 24) &&& 0x3f)

/-- Lines of two rounds each, with the subkeys from the position start on. -/
def desLines (keys : ℕ → Word) (start : ℕ) : ℕ → Word×Word → Word×Word
  | 0,p => p
  | lines+1,(left,right) =>
    let left := desRound right left (keys start) (keys (start+1))
    let right := desRound left right (keys (start+2)) (keys (start+3))
    desLines keys (start+4) lines (left,right)

/-- READ_64BIT_DATA. -/
def read64bitData (data : Bytes) : Word×Word :=
  (((data 0).setWidth 32 <<< 24) ||| ((data 1).setWidth 32 <<< 16) |||
      ((data 2).setWidth 32 <<< 8) ||| (data 3).setWidth 32,
    ((data 4).setWidth 32 <<< 24) ||| ((data 5).setWidth 32 <<< 16) |||
      ((data 6).setWidth 32 <<< 8) ||| (data 7).setWidth 32)

/-- WRITE_64BIT_DATA. -/
def write64bitData (data : Bytes) (left right : Word) : Bytes
  | 0 => ((left >>> 24) &&& 0xff).setWidth 8
  | 1 => ((left >>> 16) &&& 0xff).setWidth 8
  | 2 => ((left >>> 8) &&& 0xff).setWidth 8
  | 3 => (left &&& 0xff).setWidth 8
  | 4 => ((right >>> 24) &&& 0xff).setWidth 8
  | 5 => ((right >>> 16) &&& 0xff).setWidth 8
  | 6 => ((right >>> 8) &&& 0xff).setWidth 8
  | 7 => (right &&& 0xff).setWidth 8
  | i+8 => data (i+8)

/-! ## Subkeys -/

/-- Permuted choice 1 on the words of a key. -/
def permutedChoice1 (p : Word×Word) : Word×Word :=
  let (left,right) := p
  let (right,left) := doPermutation right left 4 0x0f0f0f0f
  let (right,left) := doPermutation right left 0 0x10101010
  let left :=
    (entry leftkeySwap ((left >>> 0) &&& 0xf) <<< 3) |||
    (entry leftkeySwap ((left >>> 8) &&& 0xf) <<< 2) |||
    (entry leftkeySwap ((left >>> 16) &&& 0xf) <<< 1) |||
    entry leftkeySwap ((left >>> 24) &&& 0xf) |||
    (entry leftkeySwap ((left >>> 5) &&& 0xf) <<< 7) |||
    (entry leftkeySwap ((left >>> 13) &&& 0xf) <<< 6) |||
    (entry leftkeySwap ((left >>> 21) &&& 0xf) <<< 5) |||
    (entry leftkeySwap ((left >>> 29) &&& 0xf) <<< 4)
  let left := left &&& 0x0fffffff
  let right :=
    (entry rightkeySwap ((right >>> 1) &&& 0xf) <<< 3) |||
    (entry rightkeySwap ((right >>> 9) &&& 0xf) <<< 2) |||
    (entry rightkeySwap ((right >>> 17) &&& 0xf) <<< 1) |||
    entry rightkeySwap ((right >>> 25) &&& 0xf) |||
    (entry rightkeySwap ((right >>> 4) &&& 0xf) <<< 7) |||
    (entry rightkeySwap ((right >>> 12) &&& 0xf) <<< 6) |||
    (entry rightkeySwap ((right >>> 20) &&& 0xf) <<< 5) |||
    (entry rightkeySwap ((right >>> 28) &&& 0xf) <<< 4)
  let right := right &&& 0x0fffffff
  (left,right)

/-- The rotation of a half of the key. -/
def rotate (n : ℕ) (half : Word) : Word :=
  ((half <<< n) ||| (half >>> (28-n))) &&& 0x0fffffff

/-- The first subkey of a round. -/
def evenSubkey (left right : Word) : Word :=
  ((left <<< 4) &&& 0x24000000)
  ||| ((left <<< 28) &&& 0x10000000)
  ||| ((left <<< 14) &&& 0x08000000)
  ||| ((left <<< 18) &&& 0x02080000)
  ||| ((left <<< 6) &&& 0x01000000)
  ||| ((left <<< 9) &&& 0x00200000)
  ||| ((left >>> 1) &&& 0x00100000)
  ||| ((left <<< 10) &&& 0x00040000)
  ||| ((left <<< 2) &&& 0x00020000)
  ||| ((left >>> 10) &&& 0x00010000)
  ||| ((right >>> 13) &&& 0x00002000)
  ||| ((right >>> 4) &&& 0x00001000)
  ||| ((right <<< 6) &&& 0x00000800)
  ||| ((right >>> 1) &&& 0x00000400)
  ||| ((right >>> 14) &&& 0x00000200)
  ||| (right &&& 0x00000100)
  ||| ((right >>> 5) &&& 0x00000020)
  ||| ((right >>> 10) &&& 0x00000010)
  ||| ((right >>> 3) &&& 0x00000008)
  ||| ((right >>> 18) &&& 0x00000004)
  ||| ((right >>> 26) &&& 0x00000002)
  ||| ((right >>> 24) &&& 0x00000001)

/-- The second subkey of a round. -/
def oddSubkey (left right : Word) : Word :=
  ((left <<< 15) &&& 0x20000000)
  ||| ((left <<< 17) &&& 0x10000000)
  ||| ((left <<< 10) &&& 0x08000000)
  ||| ((left <<< 22) &&& 0x04000000)
  ||| ((left >>> 2) &&& 0x02000000)
  ||| ((left <<< 1) &&& 0x01000000)
  ||| ((left <<< 16) &&& 0x00200000)
  ||| ((left <<< 11) &&& 0x00100000)
  ||| ((left <<< 3) &&& 0x00080000)
  ||| ((left >>> 6) &&& 0x00040000)
  ||| ((left <<< 15) &&& 0x00020000)
  ||| ((left >>> 4) &&& 0x00010000)
  ||| ((right >>> 2) &&& 0x00002000)
  ||| ((right <<< 8) &&& 0x00001000)
  ||| ((right >>> 14) &&& 0x00000808)
  ||| ((right >>> 9) &&& 0x00000400)
  ||| (right &&& 0x00000200)
  ||| ((right <<< 7) &&& 0x00000100)
  ||| ((right >>> 7) &&& 0x00000020)
  ||| ((right >>> 3) &&& 0x00000011)
  ||| ((right <<< 2) &&& 0x00000004)
  ||| ((right >>> 21) &&& 0x00000002)

/-- The variables of des_key_schedule. -/
structure Schedule where
  /-- The left half of the key. -/
  left : Word
  /-- The right half of the key. -/
  right : Word
  /-- The array of the subkeys. -/
  subkeys : ℕ → Word
  /-- The position of subkey in the array. -/
  subkey : ℕ

/-- A turn of the loop. -/
def keyRound (s : Schedule) (round : ℕ) : Schedule :=
  let left := rotate (encryptRotateTab.getD round 0) s.left
  let right := rotate (encryptRotateTab.getD round 0) s.right
  let subkeys := Function.update s.subkeys s.subkey (evenSubkey left right)
  let subkeys := Function.update subkeys (s.subkey+1) (oddSubkey left right)
  ⟨left,right,subkeys,s.subkey+2⟩

/-- des_key_schedule, with the subkeys from the position subkey of the array on. -/
def desKeySchedule (rawkey : Bytes) (subkeys : ℕ → Word) (subkey : ℕ) : ℕ → Word :=
  let (left,right) := permutedChoice1 (read64bitData rawkey)
  ((List.range 16).foldl keyRound ⟨left,right,subkeys,subkey⟩).subkeys

/-! ## Contexts -/

/-- gl_des_ctx and gl_3des_ctx, whose arrays have 32 and 96 subkeys. -/
structure Ctx where
  /-- encrypt_subkeys. -/
  encrypt : ℕ → Word
  /-- decrypt_subkeys. -/
  decrypt : ℕ → Word

/-- An assignment to encrypt_subkeys. -/
def Ctx.setEncrypt (ctx : Ctx) (i : ℕ) (subkey : Word) : Ctx :=
  {ctx with encrypt := Function.update ctx.encrypt i subkey}

/-- An assignment to decrypt_subkeys. -/
def Ctx.setDecrypt (ctx : Ctx) (i : ℕ) (subkey : Word) : Ctx :=
  {ctx with decrypt := Function.update ctx.decrypt i subkey}

/-- The loop over the even numbers below 32. -/
def evenLoop (body : Ctx → ℕ → Ctx) (ctx : Ctx) : Ctx :=
  (List.range 16).foldl (fun ctx turn => body ctx (2*turn)) ctx

/-- gl_des_setkey. -/
def glDesSetkey (ctx : Ctx) (key : Bytes) : Ctx :=
  let ctx := {ctx with encrypt := desKeySchedule key ctx.encrypt 0}
  evenLoop (fun ctx i =>
    let ctx := ctx.setDecrypt i (ctx.encrypt (30-i))
    ctx.setDecrypt (i+1) (ctx.encrypt (31-i))) ctx

/-- gl_des_makekey. -/
def glDesMakekey (ctx : Ctx) (key : Bytes) (keylen : ℕ) : Bool×Ctx :=
  if keylen ≠ 8 then (false,ctx)
  else (!glDesIsWeakKey key,glDesSetkey ctx key)

/-- gl_des_ecb_crypt. -/
def glDesEcbCrypt (ctx : Ctx) (source dest : Bytes) (mode : ℤ) : Bytes :=
  let keys := if mode ≠ 0 then ctx.decrypt else ctx.encrypt
  let (left,right) := read64bitData source
  let (left,right) := initialPermutation (left,right)
  let (left,right) := desLines keys 0 8 (left,right)
  let (right,left) := finalPermutation (right,left)
  write64bitData dest right left

/-- gl_3des_set2keys. -/
def gl3desSet2keys (ctx : Ctx) (key1 key2 : Bytes) : Ctx :=
  let ctx := {ctx with encrypt := desKeySchedule key1 ctx.encrypt 0}
  let ctx := {ctx with decrypt := desKeySchedule key2 ctx.decrypt 32}
  evenLoop (fun ctx i =>
    let ctx := ctx.setDecrypt i (ctx.encrypt (30-i))
    let ctx := ctx.setDecrypt (i+1) (ctx.encrypt (31-i))
    let ctx := ctx.setEncrypt (i+32) (ctx.decrypt (62-i))
    let ctx := ctx.setEncrypt (i+33) (ctx.decrypt (63-i))
    let ctx := ctx.setEncrypt (i+64) (ctx.encrypt i)
    let ctx := ctx.setEncrypt (i+65) (ctx.encrypt (i+1))
    let ctx := ctx.setDecrypt (i+64) (ctx.decrypt i)
    ctx.setDecrypt (i+65) (ctx.decrypt (i+1))) ctx

/-- gl_3des_set3keys. -/
def gl3desSet3keys (ctx : Ctx) (key1 key2 key3 : Bytes) : Ctx :=
  let ctx := {ctx with encrypt := desKeySchedule key1 ctx.encrypt 0}
  let ctx := {ctx with decrypt := desKeySchedule key2 ctx.decrypt 32}
  let ctx := {ctx with encrypt := desKeySchedule key3 ctx.encrypt 64}
  evenLoop (fun ctx i =>
    let ctx := ctx.setDecrypt i (ctx.encrypt (94-i))
    let ctx := ctx.setDecrypt (i+1) (ctx.encrypt (95-i))
    let ctx := ctx.setEncrypt (i+32) (ctx.decrypt (62-i))
    let ctx := ctx.setEncrypt (i+33) (ctx.decrypt (63-i))
    let ctx := ctx.setDecrypt (i+64) (ctx.encrypt (30-i))
    ctx.setDecrypt (i+65) (ctx.encrypt (31-i))) ctx

/-- gl_3des_ecb_crypt. The middle lines change the words in the other order. -/
def gl3desEcbCrypt (ctx : Ctx) (source dest : Bytes) (mode : ℤ) : Bytes :=
  let keys := if mode ≠ 0 then ctx.decrypt else ctx.encrypt
  let (left,right) := read64bitData source
  let (left,right) := initialPermutation (left,right)
  let (left,right) := desLines keys 0 8 (left,right)
  let (right,left) := desLines keys 32 8 (right,left)
  let (left,right) := desLines keys 64 8 (left,right)
  let (right,left) := finalPermutation (right,left)
  write64bitData dest right left

/-- gl_3des_makekey. -/
def gl3desMakekey (ctx : Ctx) (key : Bytes) (keylen : ℕ) : Bool×Ctx :=
  if keylen ≠ 24 then (false,ctx)
  else
    (!(glDesIsWeakKey key || glDesIsWeakKey (fun i => key (i+8)) ||
        glDesIsWeakKey fun i => key (i+16)),
      gl3desSet3keys ctx key (fun i => key (i+8)) fun i => key (i+16))

end StudyCode.Des2
