import StudyCode.BitLinear
import StudyCode.Des

/-!
# Bits of arrays of bytes

Permute moves bits as its map says, KeyShift rotates both halves of a key, and
sbox looks up eight numbers of six bits.
-/

namespace StudyCode.Des

open BitLinear

section Bytes

variable {m n : ℕ}

/-- The bytes where one was written. -/
theorem get_put (str : Bytes n) (b : BitVec 8) {i : ℕ} (h : i < n) (j : ℕ) :
    get (put str i b) j=if i=j then b else get str j := by
  rw [get,put,Vector.getElem?_setIfInBounds]
  by_cases hij : i=j
  · subst hij
    simp [h]
  · simp [hij,get]

/-- A bit of an array, counted from the highest one of its first byte. -/
def bitAt (str : Bytes n) (i : ℕ) : Bool := (get str (i/8)).getLsbD (7-i%8)

/-- The macro reads a bit as a byte. -/
theorem getbit_eq (str : Bytes n) (idx : ℕ) :
    getbit str idx=(BitVec.ofBool (bitAt str idx)).setWidth 8 := by
  rw [getbit,bitAt]
  have hone := BitVec.and_one_eq_setWidth_ofBool_getLsbD (x := get str (idx/8) >>> (7-idx%8))
  rwa [BitVec.getLsbD_ushiftRight,Nat.add_zero] at hone

/-- The macro tests a bit. -/
theorem getbit_ne_zero (str : Bytes n) (idx : ℕ) : getbit str idx ≠ 0 ↔ bitAt str idx=true := by
  rw [getbit_eq]
  cases bitAt str idx <;> decide

/-- The bits of a byte with a single bit. -/
theorem getLsbD_one_shl {i j : ℕ} (hi : i < 8) (hj : j < 8) :
    ((0x01 : BitVec 8) <<< i).getLsbD j=decide (i=j) := by
  interval_cases i <;> interval_cases j <;> rfl

/-- The bits where one was set. -/
theorem bitAt_setbit (str : Bytes n) {idx : ℕ} (h : idx/8 < n) (j : ℕ) :
    bitAt (setbit str idx) j=(decide (idx=j) || bitAt str j) := by
  rw [bitAt,bitAt,setbit,get_put str _ h]
  by_cases hbyte : idx/8=j/8
  · rw [if_pos hbyte,BitVec.getLsbD_or,getLsbD_one_shl (by omega) (by omega),hbyte,Bool.or_comm]
    congr 2
    exact propext ⟨fun h => by omega,fun h => by omega⟩
  · rw [if_neg hbyte,decide_eq_false (fun h : idx=j => hbyte (by rw [h])),Bool.false_or]

/-- The bits where one was cleared. -/
theorem bitAt_clrbit (str : Bytes n) {idx : ℕ} (h : idx/8 < n) (j : ℕ) :
    bitAt (clrbit str idx) j=(!decide (idx=j) && bitAt str j) := by
  rw [bitAt,bitAt,clrbit,get_put str _ h]
  by_cases hbyte : idx/8=j/8
  · have hj : 7-j%8 < 8 := by omega
    rw [if_pos hbyte,BitVec.getLsbD_and,BitVec.getLsbD_not,getLsbD_one_shl (by omega) hj,hbyte,
      Bool.and_comm,decide_eq_true hj,Bool.true_and]
    congr 3
    exact propext ⟨fun h => by omega,fun h => by omega⟩
  · rw [if_neg hbyte,decide_eq_false (fun h : idx=j => hbyte (by rw [h])),Bool.not_false,Bool.true_and]

/-- Bytes with the same bits are equal. -/
theorem get_eq_of_bitAt {a b : Bytes n} {i : ℕ} (h : ∀ j < 8,bitAt a (8*i+j)=bitAt b (8*i+j)) :
    get a i=get b i := by
  refine BitVec.eq_of_getLsbD_eq fun k hk => ?_
  have hj := h (7-k) (by omega)
  rw [bitAt,bitAt,show (8*i+(7-k))/8=i by omega,show 7-(8*i+(7-k))%8=k by omega] at hj
  exact hj

/-! ## Permute -/

/-- The bytes that a loop writes one after the other. -/
theorem get_filled (f : ℕ → BitVec 8) (dst : Bytes n) {k : ℕ} (hk : k ≤ n) (j : ℕ) :
    get ((List.range k).foldl (fun dst i => put dst i (f i)) dst) j=
      if j < k then f j else get dst j := by
  induction k with
  | zero => rfl
  | succ k ih =>
    rw [List.range_succ,List.foldl_append,List.foldl_cons,List.foldl_nil,get_put _ _ (by omega),
      ih (by omega)]
    by_cases h : k=j
    · simp [h]
    · by_cases hlt : j < k
      · simp [h,hlt,show j < k+1 by omega]
      · simp [h,hlt,show ¬j < k+1 by omega]

/-- The bits that are set one after the other. -/
theorem setbits (src : Bytes m) (map : List ℕ) (dst : Bytes n) {k : ℕ} (hk : k ≤ 8*n) (j : ℕ) :
    bitAt ((List.range k).foldl
        (fun dst i => if getbit src (map.getD i 0) ≠ 0 then setbit dst i else dst) dst) j=
      ((decide (j < k) && bitAt src (map.getD j 0)) || bitAt dst j) := by
  induction k with
  | zero => simp
  | succ k ih =>
    have hbits := ih (by omega)
    rw [List.range_succ,List.foldl_append,List.foldl_cons,List.foldl_nil]
    by_cases hkj : k=j
    · subst hkj
      cases hbit : bitAt src (map.getD k 0) with
      | false =>
        rw [if_neg (by rw [getbit_ne_zero,hbit]; exact Bool.false_ne_true),hbits,hbit]
        simp
      | true =>
        rw [if_pos ((getbit_ne_zero src _).2 hbit),bitAt_setbit _ (by omega)]
        simp
    · have hlt : decide (j < k+1)=decide (j < k) := decide_eq_decide.2 (by omega)
      rw [hlt,←hbits]
      split
      · rw [bitAt_setbit _ (by omega),decide_eq_false hkj,Bool.false_or]
      · rfl

/-- Permute moves the bits as the map says. -/
theorem bitAt_permute (dst : Bytes n) (src : Bytes m) (map : List ℕ) {mapsize i : ℕ}
    (hsize : mapsize ≤ n) (hi : i < 8*mapsize) :
    bitAt (permute dst src map mapsize) i=bitAt src (map.getD i 0) := by
  have hclear : bitAt ((List.range mapsize).foldl (fun dst i => put dst i 0) dst) i=false := by
    rw [bitAt,get_filled (fun _ => 0) dst hsize,if_pos (by omega)]
    exact BitVec.getLsbD_zero
  rw [permute,setbits src map _ (by omega),hclear,decide_eq_true (by omega : i < mapsize*8),
    Bool.true_and,Bool.or_false]

end Bytes

/-! ## KeyShift -/

section Shift

/-- The top bit of a byte. -/
theorem and_top (b : BitVec 8) : b &&& 0x80 ≠ 0 ↔ b.getLsbD 7=true := by
  revert b
  decide

/-- The left shift of one byte. -/
theorem bitAt_shl (key : Bytes 7) {k : ℕ} (hk : k < 7) (i : ℕ) :
    bitAt (put key k (get key k <<< 1)) i=
      if i/8=k then (decide ((i+1)/8=k) && bitAt key (i+1)) else bitAt key i := by
  rw [bitAt,get_put key _ hk]
  by_cases hbyte : k=i/8
  · subst hbyte
    rw [if_pos rfl,if_pos rfl,BitVec.getLsbD_shiftLeft,bitAt]
    by_cases hlast : i%8=7
    · simp [hlast,show ¬(i+1)/8=i/8 by omega]
    · simp [show (i+1)/8=i/8 by omega,show 7-(i+1)%8=7-i%8-1 by omega,show ¬7-i%8 < 1 by omega,
        show 7-i%8 < 8 by omega]
  · rw [if_neg hbyte,if_neg (Ne.symm hbyte),bitAt]

/-- The lowest bit of the byte before is set. -/
theorem bitAt_low (key : Bytes 7) {k : ℕ} (h0 : k ≠ 0) (hk : k ≤ 7) (i : ℕ) :
    bitAt (put key (k-1) (get key (k-1) ||| 0x01)) i=(decide (8*k-1=i) || bitAt key i) := by
  have hset := bitAt_setbit key (show (8*k-1)/8 < 7 by omega) i
  rw [setbit,show (8*k-1)/8=k-1 by omega,show 7-(8*k-1)%8=0 by omega] at hset
  exact hset

/-- The bytes before k have been shifted. -/
theorem shiftBytes (key : Bytes 7) {k : ℕ} (hk : k ≤ 7) {i : ℕ} (hi : i < 56) :
    bitAt ((List.range k).foldl shiftByte key) i=
      if i < 8*k then (decide (i+1 < 8*k) && bitAt key (i+1)) else bitAt key i := by
  induction k generalizing i with
  | zero => rfl
  | succ k ih =>
    have hbits := fun i (hi : i < 56) => ih (by omega) hi
    rw [List.range_succ,List.foldl_append,List.foldl_cons,List.foldl_nil]
    generalize (List.range k).foldl shiftByte key=cur at hbits ⊢
    have htop : get cur k &&& 0x80 ≠ 0 ↔ bitAt key (8*k)=true := by
      have hbit := hbits (8*k) (by omega)
      rw [if_neg (lt_irrefl _)] at hbit
      rw [←hbit,bitAt,Nat.mul_div_cancel_left k (by decide),Nat.mul_mod_right]
      exact and_top _
    -- the highest bit of the byte goes to the byte before
    have hlow : ∀ i < 56,bitAt (if k ≠ 0 ∧ get cur k &&& 0x80 ≠ 0 then
        put cur (k-1) (get cur (k-1) ||| 0x01) else cur) i=
        if i < 8*k then bitAt key (i+1) else bitAt key i := by
      intro i hi
      have hcur := hbits i hi
      by_cases hset : k ≠ 0 ∧ get cur k &&& 0x80 ≠ 0
      · rw [if_pos hset,bitAt_low cur hset.1 (by omega),hcur]
        have hbit := htop.1 hset.2
        by_cases hlast : 8*k-1=i
        · have hnext : i+1=8*k := by omega
          simp [hlast,hnext,hbit,show i < 8*k by omega]
        · by_cases hlt : i < 8*k
          · simp [hlast,hlt,show i+1 < 8*k by omega]
          · simp [hlast,hlt]
      · rw [if_neg hset,hcur]
        by_cases hlt : i < 8*k
        · by_cases hlast : i+1=8*k
          · have hbit : bitAt key (8*k)=false := by
              rw [←Bool.not_eq_true,←htop]
              exact fun h => hset ⟨by omega,h⟩
            simp [hlt,hlast,hbit]
          · simp [hlt,show i+1 < 8*k by omega]
        · simp [hlt]
    rw [shiftByte]
    generalize (if k ≠ 0 ∧ get cur k &&& 0x80 ≠ 0 then put cur (k-1) (get cur (k-1) ||| 0x01)
      else cur)=cur1 at hlow ⊢
    rw [bitAt_shl _ (by omega)]
    by_cases hbyte : i/8=k
    · rw [if_pos hbyte,if_pos (by omega)]
      by_cases hnext : (i+1)/8=k
      · rw [hlow (i+1) (by omega),if_neg (by omega)]
        simp [hnext,show i+1 < 8*(k+1) by omega]
      · rw [decide_eq_false hnext,decide_eq_false (by omega),Bool.false_and,Bool.false_and]
    · rw [if_neg hbyte,hlow i hi]
      by_cases hlt : i < 8*k
      · simp [hlt,show i < 8*(k+1) by omega,show i+1 < 8*(k+1) by omega]
      · simp [hlt,show ¬i < 8*(k+1) by omega]

/-- A turn rotates both halves by one bit. -/
theorem bitAt_shiftTurn (key : Bytes 7) (keep : BitVec 8) (turn : ℕ)
    (hkeep : keep &&& 0x80 ≠ 0 ↔ bitAt key 0=true) {i : ℕ} (hi : i < 56) :
    bitAt (shiftTurn (key,keep) turn).1 i=
      bitAt key (if i < 28 then (i+1)%28 else 28+(i-28+1)%28) := by
  have hshift := fun i (hi : i < 56) => shiftBytes key (le_refl 7) hi
  rw [shiftTurn]
  dsimp only
  generalize (List.range 7).foldl shiftByte key=cur at hshift ⊢
  have h27 := hshift 27 (by decide)
  have h55 := hshift 55 (by decide)
  norm_num at h27 h55
  -- bit 27 goes to the end of the second half
  have hsecond : ∀ i < 56,bitAt (if getbit cur 27 ≠ 0 then setbit (clrbit cur 27) 55 else cur) i=
      if i=27 then false else if i=55 then bitAt key 28 else bitAt key (i+1) := by
    intro i hi
    have hcur := hshift i hi
    by_cases hbit : getbit cur 27 ≠ 0
    · rw [if_pos hbit,bitAt_setbit _ (by decide),bitAt_clrbit _ (by decide),hcur]
      rw [getbit_ne_zero,h27] at hbit
      obtain h|h|h : i=27 ∨ i=55 ∨ i ≠ 27 ∧ i ≠ 55 := by omega
      · simp [h]
      · simp [h,hbit]
      · simp [h,Ne.symm h.1,Ne.symm h.2,hi,show i+1 < 56 by omega]
    · rw [if_neg hbit,hcur]
      rw [getbit_ne_zero,h27,Bool.not_eq_true] at hbit
      obtain h|h|h : i=27 ∨ i=55 ∨ i ≠ 27 ∧ i ≠ 55 := by omega
      · simp [h,hbit]
      · simp [h,hbit]
      · simp [h,hi,show i+1 < 56 by omega]
  generalize (if getbit cur 27 ≠ 0 then setbit (clrbit cur 27) 55 else cur)=cur1 at hsecond ⊢
  have hbits := hsecond i hi
  have hother : i ≠ 27 → bitAt (if keep &&& 0x80 ≠ 0 then setbit cur1 27 else cur1) i=
      bitAt cur1 i := fun h => by
    split
    · rw [bitAt_setbit _ (by decide),decide_eq_false (Ne.symm h),Bool.false_or]
    · rfl
  obtain rfl|rfl|h : i=27 ∨ i=55 ∨ i ≠ 27 ∧ i ≠ 55 := by omega
  · rw [if_pos (show (27 : ℕ) < 28 by decide)]
    by_cases hk : keep &&& 0x80 ≠ 0
    · rw [if_pos hk,bitAt_setbit _ (by decide),hkeep.1 hk]
      rfl
    · rw [if_neg hk,hbits]
      rw [hkeep,Bool.not_eq_true] at hk
      exact hk.symm
  · rw [hother (by decide),hbits]
    rfl
  · rw [hother h.1,hbits,if_neg h.1,if_neg h.2]
    congr 1
    split <;> omega

/-- KeyShift rotates both halves. The kept byte has a bit for every turn. -/
theorem bitAt_keyShift (key : Bytes 7) {n : ℕ} (hn : n ≤ 8) {i : ℕ} (hi : i < 56) :
    bitAt (keyShift key n) i=bitAt key (if i < 28 then (i+n)%28 else 28+(i-28+n)%28) := by
  have hturns : ∀ t ≤ 8,((List.range t).foldl shiftTurn (key,get key 0)).2=get key 0 <<< t ∧
      ∀ i < 56,bitAt ((List.range t).foldl shiftTurn (key,get key 0)).1 i=
        bitAt key (if i < 28 then (i+t)%28 else 28+(i-28+t)%28) := by
    intro t
    induction t with
    | zero =>
      refine fun _ => ⟨(BitVec.shiftLeft_zero _).symm,fun i hi => ?_⟩
      rw [List.range_zero,List.foldl_nil]
      congr 1
      split <;> omega
    | succ t ih =>
      intro ht
      obtain ⟨hkeep,hbits⟩ := ih (by omega)
      rw [List.range_succ,List.foldl_append,List.foldl_cons,List.foldl_nil]
      generalize (List.range t).foldl shiftTurn (key,get key 0)=state at hkeep hbits ⊢
      obtain ⟨cur,keep⟩ := state
      dsimp only at hkeep hbits
      have htop : keep &&& 0x80 ≠ 0 ↔ bitAt cur 0=true := by
        rw [and_top,hbits 0 (by decide),if_pos (by decide),Nat.zero_add,Nat.mod_eq_of_lt (by omega),
          hkeep,bitAt,show t/8=0 by omega,show 7-t%8=7-t by omega,BitVec.getLsbD_shiftLeft]
        simp [show ¬7 < t by omega]
      refine ⟨by rw [shiftTurn,hkeep,BitVec.shiftLeft_add],fun i hi => ?_⟩
      rw [bitAt_shiftTurn cur keep t htop hi,hbits _ (by split <;> omega)]
      congr 1
      by_cases h : i < 28
      · rw [if_pos h,if_pos h,if_pos (by omega)]
        omega
      · rw [if_neg h,if_neg h,if_neg (by omega)]
        omega
  exact (hturns n hn).2 i hi

end Shift

/-! ## Bits as words -/

section Words

variable {m n : ℕ}

/-- Some bits of an array. -/
def bits (str : Bytes n) (start m : ℕ) : BitVec m := ofBits m fun i => bitAt str (start+i)

/-- A bit of a window is a bit of the string. -/
theorem getMsbD_bits (str : Bytes n) (start : ℕ) {i : ℕ} (h : i < m) :
    (bits str start m).getMsbD i=bitAt str (start+i) := getMsbD_ofBits _ i h

/-- A window is two windows one behind the other. -/
theorem bits_append (str : Bytes n) (start k l : ℕ) :
    bits str start (k+l)=bits str start k ++ bits str (start+k) l := by
  refine eq_of_getMsbD fun i hi => ?_
  rw [getMsbD_bits str start hi,BitVec.getMsbD_append]
  split
  · next h =>
    rw [getMsbD_bits _ _ (by omega)]
    congr 1
    omega
  · rw [getMsbD_bits _ _ (by omega)]

/-- A permutation picks the bits of its map. -/
theorem bits_permute (dst : Bytes n) (src : Bytes m) (map : List ℕ) {mapsize s k : ℕ}
    (hsize : mapsize ≤ n) (hk : s+k ≤ 8*mapsize) (hmap : ∀ j ∈ map,j < 8*m) (h0 : 0 < m) :
    bits (permute dst src map mapsize) s k=select s k map (bits src 0 (8*m)) := by
  refine ofBits_congr fun i hi => ?_
  have hlt : map.getD (s+i) 0 < 8*m := by
    rw [List.getD_eq_getElem?_getD]
    cases hget : map[s+i]? with
    | none => exact Nat.mul_pos (by decide) h0
    | some j => exact hmap j (List.mem_of_getElem? hget)
  rw [bitAt_permute dst src map hsize (by omega),getMsbD_bits src 0 hlt,Nat.zero_add]

/-- A shift of the key rotates both halves. -/
theorem bits_keyShift (key : Bytes 7) {n : ℕ} (hn : n ≤ 8) :
    bits (keyShift key n) 0 28=(bits key 0 28).rotateLeft n ∧
      bits (keyShift key n) 28 28=(bits key 28 28).rotateLeft n := by
  have hmod : ∀ i,(n+i)%28 < 28 := fun i => Nat.mod_lt _ (by decide)
  constructor
  · refine eq_of_getMsbD fun i hi => ?_
    rw [BitVec.getMsbD_rotateLeft_of_lt (by omega),getMsbD_bits _ _ hi,getMsbD_bits _ _ (hmod i),
      bitAt_keyShift key hn (by omega),if_pos (by omega),decide_eq_true hi,Bool.true_and]
    congr 1
    rw [Nat.zero_add,Nat.zero_add,Nat.add_comm]
  · refine eq_of_getMsbD fun i hi => ?_
    rw [BitVec.getMsbD_rotateLeft_of_lt (by omega),getMsbD_bits _ _ hi,getMsbD_bits _ _ (hmod i),
      bitAt_keyShift key hn (by omega),if_neg (by omega),decide_eq_true hi,Bool.true_and]
    congr 3
    omega

end Words

/-! ## sbox and xor -/

section Boxes

variable {k l m n : ℕ}

/-- The bytes of an xor. -/
theorem get_xor (dst : Bytes k) (a : Bytes m) (b : Bytes l) {count : ℕ} (hc : count ≤ k) (i : ℕ) :
    get (xor dst a b count) i=if i < count then get a i^^^get b i else get dst i :=
  get_filled (fun i => get a i^^^get b i) dst hc i

/-- The bits of an xor. -/
theorem bits_xor (dst : Bytes k) (a : Bytes m) (b : Bytes l) {count w : ℕ} (hc : count ≤ k)
    (hw : w ≤ 8*count) : bits (xor dst a b count) 0 w=bits a 0 w^^^bits b 0 w := by
  refine eq_of_getMsbD fun i hi => ?_
  rw [BitVec.getMsbD_xor,getMsbD_bits _ _ hi,getMsbD_bits _ _ hi,getMsbD_bits _ _ hi,bitAt,
    get_xor dst a b hc,if_pos (by omega),BitVec.getLsbD_xor]
  rfl

/-- A number of six bits. -/
def group (x : BitVec 48) (i : ℕ) : BitVec 6 := ofBits 6 fun j => x.getMsbD (i*6+j)

/-- The index of an S-box is a group of six bits. -/
theorem snum_eq (src : Bytes 6) {i : ℕ} (hi : i < 8) :
    snum src (i*6)=(group (bits src 0 48) i).toNat := by
  have hbits : group (bits src 0 48) i=ofBits 6 fun j => bitAt src (i*6+j) :=
    ofBits_congr fun j hj => by rw [getMsbD_bits _ _ (by omega),Nat.zero_add]
  have hturns : ∀ b0 b1 b2 b3 b4 b5 : Bool,
      ((((((0 <<< 1 ||| ((BitVec.ofBool b0).setWidth 8).toNat) <<< 1 |||
        ((BitVec.ofBool b1).setWidth 8).toNat) <<< 1 |||
        ((BitVec.ofBool b2).setWidth 8).toNat) <<< 1 |||
        ((BitVec.ofBool b3).setWidth 8).toNat) <<< 1 |||
        ((BitVec.ofBool b4).setWidth 8).toNat) <<< 1 |||
        ((BitVec.ofBool b5).setWidth 8).toNat)=
      (BitVec.cons b0 (BitVec.cons b1 (BitVec.cons b2 (BitVec.cons b3 (BitVec.cons b4
        (BitVec.cons b5 BitVec.nil)))))).toNat := by decide
  rw [hbits]
  simp only [snum,getbit_eq]
  exact hturns _ _ _ _ _ _

/-- An entry of an S-box. -/
def boxEntry (src : Bytes 6) (i : ℕ) : BitVec 8 := (sBox.getD i []).getD (snum src (i*6)) 0

/-- One S-box writes half a byte. -/
theorem get_sboxTurn (src : Bytes 6) (dst : Bytes 4) {i : ℕ} (hi : i < 8) (q : ℕ) :
    get (sboxTurn src dst i) q=if i/2=q then
      get dst q ||| (if i%2=0 then boxEntry src i <<< 4 else boxEntry src i) else get dst q := by
  rw [sboxTurn]
  by_cases hq : i/2=q
  · subst hq
    split
    · rw [get_put _ _ (by omega),if_pos rfl,if_pos rfl]
      rfl
    · rw [get_put _ _ (by omega),if_pos rfl,if_pos rfl]
      rfl
  · rw [if_neg hq]
    split
    · rw [get_put _ _ (by omega),if_neg hq]
    · rw [get_put _ _ (by omega),if_neg hq]

/-- Two entries make a byte. -/
theorem get_sbox (dst : Bytes 4) (src : Bytes 6) {q : ℕ} (hq : q < 4) :
    get (sbox dst src) q=(boxEntry src (2*q) <<< 4) ||| boxEntry src (2*q+1) := by
  have hclear : get ((List.range 4).foldl (fun dst i => put dst i 0) dst) q=0 := by
    rw [get_filled (fun _ => 0) dst (le_refl 4),if_pos hq]
  rw [sbox]
  generalize (List.range 4).foldl (fun dst i => put dst i 0) dst=dst at hclear ⊢
  have hturns : ∀ k ≤ 8,get ((List.range k).foldl (sboxTurn src) dst) q=
      (if 2*q < k then boxEntry src (2*q) <<< 4 else 0) |||
        (if 2*q+1 < k then boxEntry src (2*q+1) else 0) := by
    intro k
    induction k with
    | zero =>
      intro _
      rw [List.range_zero,List.foldl_nil,hclear,if_neg (by omega),if_neg (by omega)]
      rfl
    | succ k ih =>
      intro hk
      rw [List.range_succ,List.foldl_append,List.foldl_cons,List.foldl_nil,
        get_sboxTurn src _ (by omega),ih (by omega)]
      obtain h|h|h|h : k < 2*q ∨ k=2*q ∨ k=2*q+1 ∨ 2*q+1 < k := by omega
      · simp [show ¬k/2=q by omega,show ¬2*q < k by omega,show ¬2*q < k+1 by omega,
          show ¬2*q+1 < k by omega,show ¬2*q+1 < k+1 by omega]
      · subst h
        simp
      · subst h
        simp [show (2*q+1)/2=q by omega,show (2*q+1)%2=1 by omega,show 2*q < 2*q+1+1 by omega]
      · simp [show ¬k/2=q by omega,show 2*q < k by omega,show 2*q < k+1 by omega,
          show 2*q+1 < k by omega,show 2*q+1 < k+1 by omega]
  have hall := hturns 8 (le_refl 8)
  rwa [if_pos (by omega),if_pos (by omega)] at hall

/-- The entries have four bits. -/
theorem boxEntry_small (src : Bytes 6) (i : ℕ) :
    ((boxEntry src i).setWidth 4).setWidth 8=boxEntry src i := by
  have hbox : sBox.all (fun row => row.all fun e => (e.setWidth 4).setWidth 8==e)=true := rfl
  have hall : ∀ row ∈ sBox,∀ e ∈ row,(e.setWidth 4).setWidth 8=e := fun row hrow e he =>
    beq_iff_eq.1 (List.all_eq_true.1 (List.all_eq_true.1 hbox row hrow) e he)
  rw [boxEntry,List.getD_eq_getElem?_getD,List.getD_eq_getElem?_getD]
  cases hrow : sBox[i]? with
  | none => rfl
  | some row =>
    rw [Option.getD_some]
    cases hget : row[snum src (i*6)]? with
    | none => rfl
    | some e => exact hall row (List.mem_of_getElem? hrow) e (List.mem_of_getElem? hget)

/-- An S-box at its place in a word. -/
def nibble (i v : ℕ) : BitVec 32 := ((sBox.getD i []).getD v 0).setWidth 32 <<< (28-4*i)

/-- The eight S-boxes of a word. -/
def boxes (x : BitVec 48) : BitVec 32 :=
  (List.range 8).foldl (fun word i => word^^^nibble i (group x i).toNat) 0

/-- The eight S-boxes fill their places. -/
theorem boxes_eq (x : BitVec 48) : boxes x=
    nibble 0 (group x 0).toNat^^^nibble 1 (group x 1).toNat^^^nibble 2 (group x 2).toNat^^^
      nibble 3 (group x 3).toNat^^^nibble 4 (group x 4).toNat^^^nibble 5 (group x 5).toNat^^^
      nibble 6 (group x 6).toNat^^^nibble 7 (group x 7).toNat := by
  have hzero : (0 : BitVec 32)^^^nibble 0 (group x 0).toNat=nibble 0 (group x 0).toNat :=
    BitVec.zero_xor
  rw [←hzero]
  rfl

/-- The substitution looks up every group. -/
theorem bits_sbox (dst : Bytes 4) (src : Bytes 6) :
    bits (sbox dst src) 0 32=boxes (bits src 0 48) := by
  obtain ⟨e,he⟩ : ∃ e : ℕ → BitVec 4,∀ i,boxEntry src i=(e i).setWidth 8 :=
    ⟨_,fun i => (boxEntry_small src i).symm⟩
  have hnibble : ∀ i < 8,nibble i (group (bits src 0 48) i).toNat=
      ((e i).setWidth 8).setWidth 32 <<< (28-4*i) := fun i hi => by
    rw [nibble,←snum_eq src hi,←he i]
    rfl
  rw [boxes_eq,hnibble 0 (by decide),hnibble 1 (by decide),hnibble 2 (by decide),
    hnibble 3 (by decide),hnibble 4 (by decide),hnibble 5 (by decide),hnibble 6 (by decide),
    hnibble 7 (by decide)]
  refine eq_of_getMsbD fun i hi => ?_
  rw [getMsbD_bits _ _ hi,bitAt,get_sbox dst src (by omega),he,he]
  interval_cases i <;> simp [BitVec.getMsbD_eq_getLsbD]

end Boxes

end StudyCode.Des
