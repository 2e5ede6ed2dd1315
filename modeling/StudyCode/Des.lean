import Mathlib.Tactic

/-!
# DES on arrays of bits

The bytes of a key and of a block are read as arrays of bits, with the highest
bit of a byte first. Every step of the encryption moves bits as a table says.
-/

namespace StudyCode.Des

/-- An array of uchar. -/
abbrev Bytes (n : ℕ) := Vector (BitVec 8) n

/-! ## Tables -/

/-- Initial permutation map. -/
def initialPermuteMap : List ℕ := [
  57,49,41,33,25,17,9,1,59,51,43,35,27,19,11,3,
  61,53,45,37,29,21,13,5,63,55,47,39,31,23,15,7,
  56,48,40,32,24,16,8,0,58,50,42,34,26,18,10,2,
  60,52,44,36,28,20,12,4,62,54,46,38,30,22,14,6]

/-- Key permutation map, for the seven bytes of a key. -/
def keyPermuteMap : List ℕ := [
  49,42,35,28,21,14,7,0,50,43,36,29,22,15,
  8,1,51,44,37,30,23,16,9,2,52,45,38,31,
  55,48,41,34,27,20,13,6,54,47,40,33,26,19,
  12,5,53,46,39,32,25,18,11,4,24,17,10,3]

/-- Key rotation table. -/
def keyRotation : List ℕ := [1,1,2,2,2,2,2,2,1,2,2,2,2,2,2,1]

/-- Key compression table. -/
def keyCompression : List ℕ := [
  13,16,10,23,0,4,2,27,14,5,20,9,22,18,11,3,
  25,7,15,6,26,19,12,1,40,51,30,36,46,54,29,39,
  50,44,32,47,43,48,38,55,33,52,45,41,49,35,28,31]

/-- Data expansion table. -/
def dataExpansion : List ℕ := [
  31,0,1,2,3,4,3,4,5,6,7,8,7,8,9,10,
  11,12,11,12,13,14,15,16,15,16,17,18,19,20,19,20,
  21,22,23,24,23,24,25,26,27,28,27,28,29,30,31,0]

/-- P-Box permutation. -/
def pBox : List ℕ := [
  15,6,19,20,28,11,27,16,0,14,22,25,4,17,30,9,
  1,7,23,13,31,26,2,8,18,12,29,5,21,10,3,24]

/-- Final permutation map, which exchanges the halves as well. -/
def finalPermuteMap : List ℕ := [
  7,39,15,47,23,55,31,63,6,38,14,46,22,54,30,62,
  5,37,13,45,21,53,29,61,4,36,12,44,20,52,28,60,
  3,35,11,43,19,51,27,59,2,34,10,42,18,50,26,58,
  1,33,9,41,17,49,25,57,0,32,8,40,16,48,24,56]

/-- The bits of a key that are not parity bits. -/
def map8to7 : List ℕ := [
  0,1,2,3,4,5,6,8,9,10,11,12,13,14,
  16,17,18,19,20,21,22,24,25,26,27,28,29,30,
  32,33,34,35,36,37,38,40,41,42,43,44,45,46,
  48,49,50,51,52,53,54,56,57,58,59,60,61,62]

/-- The S-boxes, by the numbers of six bits. -/
def sBox : List (List (BitVec 8)) := [
  [14,0,4,15,13,7,1,4,2,14,15,2,11,13,8,1,
    3,10,10,6,6,12,12,11,5,9,9,5,0,3,7,8,
    4,15,1,12,14,8,8,2,13,4,6,9,2,1,11,7,
    15,5,12,11,9,3,7,14,3,10,10,0,5,6,0,13],
  [15,3,1,13,8,4,14,7,6,15,11,2,3,8,4,14,
    9,12,7,0,2,1,13,10,12,6,0,9,5,11,10,5,
    0,13,14,8,7,10,11,1,10,3,4,15,13,4,1,2,
    5,11,8,6,12,7,6,12,9,0,3,5,2,14,15,9],
  [10,13,0,7,9,0,14,9,6,3,3,4,15,6,5,10,
    1,2,13,8,12,5,7,14,11,12,4,11,2,15,8,1,
    13,1,6,10,4,13,9,0,8,6,15,9,3,8,0,7,
    11,4,1,15,2,14,12,3,5,11,10,5,14,2,7,12],
  [7,13,13,8,14,11,3,5,0,6,6,15,9,0,10,3,
    1,4,2,7,8,2,5,12,11,1,12,10,4,14,15,9,
    10,3,6,15,9,0,0,6,12,10,11,1,7,13,13,8,
    15,9,1,4,3,5,14,11,5,12,2,7,8,2,4,14],
  [2,14,12,11,4,2,1,12,7,4,10,7,11,13,6,1,
    8,5,5,0,3,15,15,10,13,3,0,9,14,8,9,6,
    4,11,2,8,1,12,11,7,10,1,13,14,7,2,8,13,
    15,6,9,15,12,0,5,9,6,10,3,4,0,5,14,3],
  [12,10,1,15,10,4,15,2,9,7,2,12,6,9,8,5,
    0,6,13,1,3,13,4,14,14,0,7,11,5,3,11,8,
    9,4,14,3,15,2,5,12,2,9,8,5,12,15,3,10,
    7,11,0,14,4,1,10,7,1,6,13,0,11,8,6,13],
  [4,13,11,0,2,11,14,7,15,4,0,9,8,1,13,10,
    3,14,12,3,9,5,7,12,5,2,10,15,6,8,1,6,
    1,6,4,11,11,13,13,8,12,1,3,4,7,10,14,7,
    10,9,15,5,6,0,8,15,0,14,5,2,9,3,2,12],
  [13,1,2,15,8,13,4,8,6,10,15,3,11,7,1,4,
    10,12,9,5,3,6,14,11,5,0,0,14,12,9,7,2,
    7,2,11,1,4,14,1,7,9,4,12,10,14,8,2,13,
    0,15,6,12,10,9,13,0,15,3,3,5,5,6,8,11]]

/-! ## Bits -/

section Bits

variable {m n : ℕ}

/-- A byte of an array. -/
def get (str : Bytes n) (i : ℕ) : BitVec 8 := str[i]?.getD 0

/-- An assignment to a byte of an array. -/
def put (str : Bytes n) (i : ℕ) (b : BitVec 8) : Bytes n := str.setIfInBounds i b

/-- CLRBIT. -/
def clrbit (str : Bytes n) (idx : ℕ) : Bytes n :=
  put str (idx/8) (get str (idx/8) &&& ~~~((0x01 : BitVec 8) <<< (7-idx%8)))

/-- SETBIT. -/
def setbit (str : Bytes n) (idx : ℕ) : Bytes n :=
  put str (idx/8) (get str (idx/8) ||| ((0x01 : BitVec 8) <<< (7-idx%8)))

/-- GETBIT. -/
def getbit (str : Bytes n) (idx : ℕ) : BitVec 8 := (get str (idx/8) >>> (7-idx%8)) &&& 0x01

/-- Permute. -/
def permute (dst : Bytes m) (src : Bytes n) (map : List ℕ) (mapsize : ℕ) : Bytes m :=
  let dst := (List.range mapsize).foldl (fun dst i => put dst i 0) dst
  let bitcount := mapsize*8
  (List.range bitcount).foldl
    (fun dst i => if getbit src (map.getD i 0) ≠ 0 then setbit dst i else dst) dst

/-- The body of the inner loop of KeyShift. -/
def shiftByte (key : Bytes n) (j : ℕ) : Bytes n :=
  let key := if j ≠ 0 ∧ get key j &&& 0x80 ≠ 0 then put key (j-1) (get key (j-1) ||| 0x01) else key
  put key j (get key j <<< 1)

/-- The body of the outer loop of KeyShift, on key and keep. -/
def shiftTurn (state : Bytes n×BitVec 8) (_ : ℕ) : Bytes n×BitVec 8 :=
  let (key,keep) := state
  let key := (List.range 7).foldl shiftByte key
  let key := if getbit key 27 ≠ 0 then setbit (clrbit key 27) 55 else key
  let key := if keep &&& 0x80 ≠ 0 then setbit key 27 else key
  (key,keep <<< 1)

/-- KeyShift. -/
def keyShift (key : Bytes n) (numbits : ℕ) : Bytes n :=
  ((List.range numbits).foldl shiftTurn (key,get key 0)).1

/-- The number of six bits from bitnum on. -/
def snum (src : Bytes n) (bitnum : ℕ) : ℕ :=
  (List.range 6).foldl (fun snum j => (snum <<< 1) ||| (getbit src (bitnum+j)).toNat) 0

/-- The body of the loop of sbox. -/
def sboxTurn (src : Bytes n) (dst : Bytes m) (i : ℕ) : Bytes m :=
  let entry := (sBox.getD i []).getD (snum src (i*6)) 0
  if i%2=0 then put dst (i/2) (get dst (i/2) ||| (entry <<< 4))
  else put dst (i/2) (get dst (i/2) ||| entry)

/-- sbox. -/
def sbox (dst : Bytes m) (src : Bytes n) : Bytes m :=
  let dst := (List.range 4).foldl (fun dst i => put dst i 0) dst
  (List.range 8).foldl (sboxTurn src) dst

/-- xor, which may write to one of its sources. -/
def xor {k l : ℕ} (dst : Bytes k) (a : Bytes m) (b : Bytes l) (count : ℕ) : Bytes k :=
  (List.range count).foldl (fun dst i => put dst i (get a i^^^get b i)) dst

end Bits

/-! ## Functions -/

/-- Bytes that are not set yet. -/
def blank (n : ℕ) : Bytes n := Vector.replicate n 0

/-- auth_DESkey8to7; none is NULL. -/
def authDESkey8to7 {n : ℕ} (dst : Option (Bytes n)) (key : Option (Bytes 8)) : Option (Bytes n) :=
  match dst,key with
  | some dst,some key =>
    let tmp := permute (blank 7) key map8to7 7
    some ((List.range 7).foldl (fun dst i => put dst i (get tmp i)) dst)
  | _,_ => none

/-- A round, on K and D. Its other arrays are cleared or written before they are
read. -/
def hashRound (state : Bytes 7×Bytes 8) (i : ℕ) : Bytes 7×Bytes 8 :=
  let (K,D) := state
  let L := D
  let R := D.drop 4
  let K := keyShift K (keyRotation.getD i 0)
  let SubK := permute (blank 6) K keyCompression 6
  let Rexp := permute (blank 6) R dataExpansion 6
  let Rexp := xor Rexp Rexp SubK 6
  let Rn := sbox (blank 4) Rexp
  let Rexp := permute Rexp Rn pBox 4
  let Rn := xor Rn L Rexp 4
  (K,(List.range 4).foldl (fun D j => put (put D j (get D (j+4))) (j+4) (get Rn j)) D)

/-- auth_DEShash. -/
def authDEShash {n : ℕ} (dst : Bytes n) (key : Bytes 7) (src : Bytes 8) : Bytes n :=
  let K := permute (blank 7) key keyPermuteMap 7
  let D := permute (blank 8) src initialPermuteMap 8
  let (_,D) := (List.range 16).foldl hashRound (K,D)
  permute dst D finalPermuteMap 8

end StudyCode.Des
