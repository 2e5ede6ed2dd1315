import StudyCode.DesBits
import StudyCode.Des2Linear

/-!
# Both programs compute DES

The words that des2.c works on are the arrays of bits of des.c, rotated by one
bit. The permutations, the choices of the key and the S-boxes with the
permutation behind them agree, so that the rounds agree.
-/

namespace StudyCode.Des

open BitLinear
open Des2 (Halves Word turn turns choice1 choice2)

/-! ## The rounds of des.c on words -/

section Rounds

/-- The halves of the key. -/
def halves (K : Bytes 7) : Halves := (bits K 0 28,bits K 28 28)

/-- The halves of the block. -/
def words (D : Bytes 8) : Word×Word := (bits D 0 32,bits D 32 32)

/-- The subkey of a round. -/
def subkey (p : Halves) : BitVec 48 := select 0 48 keyCompression (p.1 ++ p.2)

/-- The expansion of a half of the block. -/
def expanded (r : Word) : BitVec 48 := select 0 48 dataExpansion r

/-- What a round adds to a half of the block. -/
def mix (r : Word) (p : Halves) : Word := select 0 32 pBox (boxes (expanded r^^^subkey p))

/-- A key is rotated by at most eight. -/
theorem keyRotation_le (i : ℕ) : keyRotation.getD i 0 ≤ 8 := by
  have hall : ∀ n ∈ keyRotation,n ≤ 8 := by decide
  rw [List.getD_eq_getElem?_getD]
  cases hget : keyRotation[i]? with
  | none => decide
  | some n => exact hall n (List.mem_of_getElem? hget)

/-- The bytes of the right half. -/
theorem get_drop (D : Bytes 8) (j : ℕ) : get (D.drop 4) j=get D (j+4) := by
  rw [get,get]
  by_cases h : j < 4
  · rw [Vector.getElem?_eq_getElem (show j < 8-4 from h),
      Vector.getElem?_eq_getElem (show j+4 < 8 by omega),Vector.getElem_drop]
    simp only [Nat.add_comm 4 j]
  · rw [Vector.getElem?_eq_none (show 8-4 ≤ j by omega),
      Vector.getElem?_eq_none (show 8 ≤ j+4 by omega)]

/-- The bits of the right half. -/
theorem bits_drop (D : Bytes 8) : bits (D.drop 4) 0 32=bits D 32 32 := by
  rw [bits,bits]
  refine ofBits_congr fun i hi => ?_
  rw [bitAt,bitAt,get_drop]
  congr 2 <;> omega

/-- The new halves are put in place byte by byte. -/
theorem get_copied (D : Bytes 8) (Rn : Bytes 4) {i : ℕ} (hi : i < 4) :
    let D1 := (List.range 4).foldl (fun D j => put (put D j (get D (j+4))) (j+4) (get Rn j)) D
    get D1 i=get D (i+4) ∧ get D1 (i+4)=get Rn i := by
  interval_cases i <;> simp [List.range_succ,get_put]

/-- A round turns the halves of the key. -/
theorem halves_round (K : Bytes 7) (D : Bytes 8) (i : ℕ) :
    halves (hashRound (K,D) i).1=turn (keyRotation.getD i 0) (halves K) := by
  obtain ⟨hleft,hright⟩ := bits_keyShift K (keyRotation_le i)
  exact Prod.ext hleft hright

/-- The words of a block are those of its two halves. -/
theorem words_eq {D : Bytes 8} {l : Bytes 4} {r : Bytes 4} (hl : ∀ i < 4,get D i=get l i)
    (hr : ∀ i < 4,get D (i+4)=get r i) : words D=(bits l 0 32,bits r 0 32) := by
  have hleft : bits D 0 32=bits l 0 32 := by
    rw [bits,bits]
    refine ofBits_congr fun i hi => ?_
    rw [bitAt,bitAt,hl _ (by omega)]
  have hright : bits D 32 32=bits r 0 32 := by
    rw [bits,bits]
    refine ofBits_congr fun i hi => ?_
    rw [bitAt,bitAt,show (32+i)/8=(0+i)/8+4 by omega,show (32+i)%8=(0+i)%8 by omega,
      hr _ (by omega)]
  rw [words,hleft,hright]

/-- A round of the hash is a round of a Feistel network. -/
theorem words_round (K : Bytes 7) (D : Bytes 8) (i : ℕ) :
    words (hashRound (K,D) i).2=
      Feistel.round (·^^^·) mix (turn (keyRotation.getD i 0) (halves K)) (words D) := by
  have hkey := halves_round K D i
  let K1 := keyShift K (keyRotation.getD i 0)
  let SubK := permute (blank 6) K1 keyCompression 6
  let Rexp := permute (blank 6) (D.drop 4) dataExpansion 6
  let Rexp1 := xor Rexp Rexp SubK 6
  let Rn := sbox (blank 4) Rexp1
  let Rexp2 := permute Rexp1 Rn pBox 4
  let Rn1 := xor Rn D Rexp2 4
  have hsub : bits SubK 0 48=subkey (turn (keyRotation.getD i 0) (halves K)) := by
    rw [←hkey,subkey]
    have hall := bits_append K1 0 28 28
    exact (bits_permute (blank 6) K1 keyCompression (le_refl 6) (le_refl 48) (by decide)
      (by decide)).trans (congrArg (select 0 48 keyCompression) hall)
  have hexp : bits Rexp 0 48=expanded (bits D 32 32) := by
    rw [←bits_drop]
    exact bits_permute (blank 6) (D.drop 4) dataExpansion (le_refl 6) (le_refl 48) (by decide)
      (by decide)
  have hexp1 : bits Rexp1 0 48=expanded (bits D 32 32)^^^
      subkey (turn (keyRotation.getD i 0) (halves K)) := by
    rw [←hsub,←hexp]
    exact bits_xor Rexp Rexp SubK (le_refl 6) (le_refl 48)
  have hexp2 : bits Rexp2 0 32=mix (bits D 32 32) (turn (keyRotation.getD i 0) (halves K)) := by
    rw [mix,←hexp1,←bits_sbox (blank 4)]
    exact bits_permute Rexp1 Rn pBox (by decide) (le_refl 32) (by decide) (by decide)
  have hnew : bits Rn1 0 32=bits D 0 32^^^
      mix (bits D 32 32) (turn (keyRotation.getD i 0) (halves K)) := by
    rw [←hexp2]
    exact bits_xor Rn D Rexp2 (le_refl 4) (le_refl 32)
  have hcopy := fun {i} (hi : i < 4) => get_copied D Rn1 hi
  have hwords : words (hashRound (K,D) i).2=(bits (D.drop 4) 0 32,bits Rn1 0 32) :=
    words_eq (fun i hi => ((hcopy hi).1.trans (get_drop D i).symm)) fun i hi => (hcopy hi).2
  rw [hwords,bits_drop,hnew]
  rfl

/-- The pairs of halves of some rotations. -/
def turned : List ℕ → Halves → List Halves
  | [],_ => []
  | n::ns,p => turn n p::turned ns (turn n p)

/-- So are all rounds, with the turned keys. -/
theorem words_rounds (rounds : List ℕ) (K : Bytes 7) (D : Bytes 8) :
    words (rounds.foldl hashRound (K,D)).2=Feistel.rounds (·^^^·) mix
      (turned (rounds.map (keyRotation.getD · 0)) (halves K)) (words D) := by
  induction rounds generalizing K D with
  | nil => rfl
  | cons i rounds ih =>
    have hrest := ih (hashRound (K,D) i).1 (hashRound (K,D) i).2
    rw [halves_round,words_round] at hrest
    rw [List.foldl_cons,List.map_cons,turned,Feistel.rounds_cons]
    exact hrest

end Rounds

/-! ## The steps of both programs -/

section Steps

/-- A word as des2.c keeps it, rotated by one bit. -/
def rolled (w : Word) : Word := (w <<< 1) ||| (w >>> 31)

/-- A rotation by one is linear. -/
theorem rolled_linear : Linear rolled :=
  ((Des2.id_linear.masked_shl 1).or (Des2.id_linear.masked_shr 31) (by decide)).linear

/-- The six bits of a word that an S-box of des2.c looks at. -/
def window (s : ℕ) (w : Word) : BitVec 6 := ((w >>> s) &&& 0x3f).setWidth 6

/-- A window of six bits is linear. -/
theorem window_linear (s : ℕ) : Linear (window s) := fun v w => by
  have hand := (Des2.id_linear.shr s).and 0x3f v w
  dsimp only at hand
  refine BitVec.eq_of_getLsbD_eq fun i hi => ?_
  rw [window,hand,BitVec.getLsbD_setWidth,BitVec.getLsbD_xor,BitVec.getLsbD_xor,window,window,
    BitVec.getLsbD_setWidth,BitVec.getLsbD_setWidth]
  simp [hi]

/-- The number in a window. -/
theorem window_toNat (s : ℕ) (w : Word) : ((w >>> s) &&& 0x3f).toNat=(window s w).toNat := by
  rw [window,BitVec.toNat_setWidth,BitVec.toNat_and]
  exact (Nat.mod_eq_of_lt (Nat.and_lt_two_pow _ (by decide))).symm

/-- Picking a group is linear. -/
theorem group_linear (i : ℕ) : Linear fun x => group x i := fun x y => by
  refine eq_of_getMsbD fun j hj => ?_
  simp only [group]
  rw [BitVec.getMsbD_xor,getMsbD_ofBits _ j hj,getMsbD_ofBits _ j hj,getMsbD_ofBits _ j hj,
    BitVec.getMsbD_xor]

/-- The word that the second half of a round looks at. -/
def shifted (w : Word) : Word := (w <<< 28) ||| (w >>> 4)

/-- Shifting is linear. -/
theorem shifted_linear : Linear shifted :=
  ((Des2.id_linear.masked_shl 28).or (Des2.id_linear.masked_shr 4) (by decide)).linear

/-- The S-boxes of the first half of a round of des2.c, with their shifts. -/
def evenBoxes : List (ℕ×ℕ) := [(7,0),(5,8),(3,16),(1,24)]

/-- The S-boxes of the second half of a round of des2.c, with their shifts. -/
def oddBoxes : List (ℕ×ℕ) := [(6,0),(4,8),(2,16),(0,24)]

/-- Each group of the expansion is linear. -/
theorem expanded_linear (i : ℕ) : Linear fun r => group (expanded r) i :=
  (group_linear i).comp (select_linear 0 48 dataExpansion)

/-- Each group of a subkey is linear. -/
theorem subkey_linear (i : ℕ) : Linear fun p => group (subkey p) i :=
  (group_linear i).comp ((select_linear 0 48 keyCompression).comp append_linear)

/-- The number of six bits of an S-box in both programs, when the two agree on zero
and on the words with one bit set. -/
theorem group_window {boxes : List (ℕ×ℕ)} {f : Word → Word} {g : Halves → Word} (hf : Linear f)
    (hg : Linear g)
    (hword : ∀ q ∈ boxes,group (expanded 0) q.1=window q.2 (f 0) ∧
      ∀ i < 32,group (expanded (BitVec.twoPow 32 i)) q.1=window q.2 (f (BitVec.twoPow 32 i)))
    (hkey : ∀ q ∈ boxes,group (subkey (0,0)) q.1=window q.2 (g (0,0)) ∧
      (∀ i < 28,group (subkey (BitVec.twoPow 28 i,0)) q.1=window q.2 (g (BitVec.twoPow 28 i,0))) ∧
      ∀ i < 28,group (subkey (0,BitVec.twoPow 28 i)) q.1=window q.2 (g (0,BitVec.twoPow 28 i)))
    {q : ℕ×ℕ} (hq : q ∈ boxes) (r : Word) (p : Halves) :
    group (expanded r^^^subkey p) q.1=window q.2 (f r^^^g p) := by
  obtain ⟨w0,w1⟩ := hword q hq
  obtain ⟨k0,k1,k2⟩ := hkey q hq
  have hr : group (expanded r) q.1=window q.2 (f r) :=
    (expanded_linear q.1).ext ((window_linear q.2).comp hf) w0 w1 r
  have hp : group (subkey p) q.1=window q.2 (g p) :=
    (subkey_linear q.1).ext_pair ((window_linear q.2).comp hg) k0 k1 k2 p
  rw [window_linear q.2,←hr,←hp]
  exact group_linear q.1 _ _

/-- The numbers of six bits in the first half of a round. -/
theorem group_even {q : ℕ×ℕ} (hq : q ∈ evenBoxes) (r : Word) (p : Halves) :
    group (expanded r^^^subkey p) q.1=window q.2 (rolled r^^^(choice2 p).1) :=
  group_window rolled_linear Des2.choice2_linear.fst (by decide +kernel) (by decide +kernel) hq r p

/-- The numbers of six bits in the second half of a round. -/
theorem group_odd {q : ℕ×ℕ} (hq : q ∈ oddBoxes) (r : Word) (p : Halves) :
    group (expanded r^^^subkey p) q.1=window q.2 (shifted (rolled r)^^^(choice2 p).2) :=
  group_window (shifted_linear.comp rolled_linear) Des2.choice2_linear.snd (by decide +kernel)
    (by decide +kernel) hq r p

/-- The S-boxes of des2.c. -/
def tables : List (List Word) :=
  [Des2.sbox1,Des2.sbox2,Des2.sbox3,Des2.sbox4,Des2.sbox5,Des2.sbox6,Des2.sbox7,Des2.sbox8]

/-- The permutation behind the S-boxes, with the rotation of des2.c. -/
def spread (w : Word) : Word := rolled (select 0 32 pBox w)

/-- Spreading a key over eight bytes is linear. -/
theorem spread_linear : Linear spread := rolled_linear.comp (select_linear 0 32 pBox)

/-- The tables of des2.c have the permutation behind the S-boxes in them. -/
theorem tables_eq : ∀ i < 8,∀ v < 64,
    (tables.getD i []).getD v 0=spread (nibble i v) := by
  decide +kernel

/-- What an S-box adds. -/
theorem entry_eq {i s : ℕ} {w k : Word} {x : BitVec 48} (hi : i < 8)
    (hx : group x i=window s (w^^^k)) :
    Des2.entry (tables.getD i []) (((w^^^k) >>> s) &&& 0x3f)=
      spread (nibble i (group x i).toNat) := by
  rw [Des2.entry,window_toNat,←hx,tables_eq i hi _ (group x i).isLt]

/-- The entries of a round in the order of the S-boxes. -/
theorem desRound_entries (source k l : Word) : Des2.desRound source 0 k l=
    Des2.entry Des2.sbox1 (((shifted source^^^l) >>> 24) &&& 0x3f)^^^
      Des2.entry Des2.sbox2 (((source^^^k) >>> 24) &&& 0x3f)^^^
      Des2.entry Des2.sbox3 (((shifted source^^^l) >>> 16) &&& 0x3f)^^^
      Des2.entry Des2.sbox4 (((source^^^k) >>> 16) &&& 0x3f)^^^
      Des2.entry Des2.sbox5 (((shifted source^^^l) >>> 8) &&& 0x3f)^^^
      Des2.entry Des2.sbox6 (((source^^^k) >>> 8) &&& 0x3f)^^^
      Des2.entry Des2.sbox7 ((shifted source^^^l) &&& 0x3f)^^^
      Des2.entry Des2.sbox8 ((source^^^k) &&& 0x3f) := by
  unfold Des2.desRound shifted
  dsimp only
  generalize Des2.entry Des2.sbox8 _=a8,Des2.entry Des2.sbox6 _=a6,Des2.entry Des2.sbox4 _=a4,
    Des2.entry Des2.sbox2 _=a2,Des2.entry Des2.sbox7 _=a7,Des2.entry Des2.sbox5 _=a5,
    Des2.entry Des2.sbox3 _=a3,Des2.entry Des2.sbox1 _=a1
  have hzero : (0 : Word)^^^a8=a8 := BitVec.zero_xor
  rw [hzero]
  ac_rfl

/-- A round adds the same in both programs. -/
theorem roundWord_eq (r : Word) (p : Halves) :
    Des2.roundWord (rolled r) (choice2 p)=rolled (mix r p) := by
  have heven := fun q hq => group_even (q := q) hq r p
  have hodd := fun q hq => group_odd (q := q) hq r p
  have e8 := entry_eq (i := 7) (by decide) (heven (7,0) (by decide))
  have e6 := entry_eq (i := 5) (by decide) (heven (5,8) (by decide))
  have e4 := entry_eq (i := 3) (by decide) (heven (3,16) (by decide))
  have e2 := entry_eq (i := 1) (by decide) (heven (1,24) (by decide))
  have e7 := entry_eq (i := 6) (by decide) (hodd (6,0) (by decide))
  have e5 := entry_eq (i := 4) (by decide) (hodd (4,8) (by decide))
  have e3 := entry_eq (i := 2) (by decide) (hodd (2,16) (by decide))
  have e1 := entry_eq (i := 0) (by decide) (hodd (0,24) (by decide))
  rw [BitVec.ushiftRight_zero] at e8 e7
  have hsum : rolled (mix r p)=spread (boxes (expanded r^^^subkey p)) := rfl
  rw [hsum,boxes_eq]
  simp only [spread_linear _ _]
  rw [←e8,←e7,←e6,←e5,←e4,←e3,←e2,←e1]
  exact desRound_entries (rolled r) (choice2 p).1 (choice2 p).2

/-- The second choice of the turned keys gives the subkeys. -/
theorem choice2_turned (ns : List ℕ) (p : Halves) : (turned ns p).map choice2=turns ns p := by
  induction ns generalizing p with
  | nil => rfl
  | cons n ns ih => rw [turned,List.map_cons,ih,turns]

/-- The rounds of both programs. -/
theorem network_eq (ns : List ℕ) (k : Halves) (p : Word×Word) :
    Des2.network (turns ns k) (p.map rolled rolled)=
      (Feistel.rounds (·^^^·) mix (turned ns k) p).map rolled rolled := by
  rw [←choice2_turned]
  refine Feistel.rounds_map (R := fun k l => l=choice2 k) (fun k l hkl a b => ?_)
    (List.forall₂_map_right_iff.2 (List.forall₂_same.2 fun _ _ => rfl)) p
  rw [hkl,roundWord_eq]
  exact rolled_linear a (mix b k)

/-- The initial permutations. -/
theorem initialPermutation_eq (p : Word×Word) : Des2.initialPermutation p=
    (select 0 32 initialPermuteMap (p.1 ++ p.2),
      select 32 32 initialPermuteMap (p.1 ++ p.2)).map rolled rolled := by
  have hselect := fun s => rolled_linear.comp
    ((select_linear s 32 initialPermuteMap).comp (append_linear (m := 32) (n := 32)))
  exact Des2.initialPermutation_linear.ext_pair ((hselect 0).pair (hselect 32))
    (by decide) (by decide) (by decide) p

/-- The final permutations. That of des.c exchanges the halves. -/
theorem finalPermutation_eq (p : Word×Word) :
    Des2.finalPermutation (p.map rolled rolled).swap=
      (select 0 32 finalPermuteMap (p.1 ++ p.2),select 32 32 finalPermuteMap (p.1 ++ p.2)) := by
  have hselect := fun s =>
    (select_linear s 32 finalPermuteMap).comp (append_linear (m := 32) (n := 32))
  have hrolled : Linear fun p : Word×Word => (p.map rolled rolled).swap :=
    (rolled_linear.comp Des2.snd_linear).pair (rolled_linear.comp Des2.fst_linear)
  exact (Des2.finalPermutation_linear.comp hrolled).ext_pair ((hselect 0).pair (hselect 32))
    (by decide) (by decide) (by decide) p

/-- The choices of the key. That of des.c is made of the seven bytes. -/
theorem choice1_eq (p : Word×Word) : choice1 p=
    (select 0 28 keyPermuteMap (select 0 56 map8to7 (p.1 ++ p.2)),
      select 28 28 keyPermuteMap (select 0 56 map8to7 (p.1 ++ p.2))) := by
  have hselect := fun s => (select_linear s 28 keyPermuteMap).comp
    ((select_linear 0 56 map8to7).comp (append_linear (m := 32) (n := 32)))
  exact Des2.choice1_linear.ext_pair ((hselect 0).pair (hselect 28))
    (by decide +kernel) (by decide +kernel) (by decide +kernel) p

end Steps

/-! ## The hash -/

section Hash

variable {n : ℕ}

/-- des2.c reads the words that des.c works on. -/
theorem read_get (str : Bytes n) : Des2.read64bitData (get str)=(bits str 0 32,bits str 32 32) := by
  refine Prod.ext (eq_of_getMsbD fun i hi => ?_) (eq_of_getMsbD fun i hi => ?_)
  · rw [getMsbD_bits _ _ hi,bitAt]
    simp only [Des2.read64bitData]
    interval_cases i <;> simp [BitVec.getMsbD_eq_getLsbD]
  · rw [getMsbD_bits _ _ hi,bitAt]
    simp only [Des2.read64bitData]
    interval_cases i <;> simp [BitVec.getMsbD_eq_getLsbD]

/-- The halves of a key of seven bytes. -/
def keyHalves (key : Bytes 7) : Halves :=
  (select 0 28 keyPermuteMap (bits key 0 56),select 28 28 keyPermuteMap (bits key 0 56))

/-- The hash is the cipher of des2.c with the subkeys of the key. -/
theorem read_hash (dst : Bytes (n+8)) (key : Bytes 7) (src : Bytes 8) :
    Des2.read64bitData (get (authDEShash dst key src))=
      Des2.cipher (turns keyRotation (keyHalves key)) (words src) := by
  let K := permute (blank 7) key keyPermuteMap 7
  let D := permute (blank 8) src initialPermuteMap 8
  let D1 := ((List.range 16).foldl hashRound (K,D)).2
  have hK : halves K=keyHalves key := by
    have h := fun s hs => bits_permute (s:=s) (k:=28) (blank 7) key keyPermuteMap
      (le_refl 7) hs (by decide) (by decide)
    rw [halves,keyHalves]
    exact Prod.ext (h 0 (by decide)) (h 28 (by decide))
  have hsrc : bits src 0 64=(words src).1 ++ (words src).2 := bits_append src 0 32 32
  have hD : Des2.initialPermutation (words src)=(words D).map rolled rolled := by
    have h := fun s hs => bits_permute (s:=s) (k:=32) (blank 8) src initialPermuteMap
      (le_refl 8) hs (by decide) (by decide)
    rw [initialPermutation_eq,←hsrc]
    exact congrArg (Prod.map rolled rolled)
      (Prod.ext (h 0 (by decide)) (h 32 (by decide))).symm
  have hrounds : words D1=Feistel.rounds (·^^^·) mix (turned keyRotation (keyHalves key))
      (words D) := by
    rw [←hK]
    exact words_rounds (List.range 16) K D
  have hD1 : bits D1 0 64=(words D1).1 ++ (words D1).2 := bits_append D1 0 32 32
  have h := fun s hs => bits_permute (s:=s) (k:=32) dst D1 finalPermuteMap
    (show 8 ≤ n+8 by omega) hs (by decide) (by decide)
  have hcipher : Des2.cipher (turns keyRotation (keyHalves key)) (words src)=
      (select 0 32 finalPermuteMap (bits D1 0 64),select 32 32 finalPermuteMap (bits D1 0 64)) := by
    rw [Des2.cipher,hD,network_eq,←hrounds,finalPermutation_eq,←hD1]
  rw [read_get,hcipher]
  exact Prod.ext (h 0 (by decide)) (h 32 (by decide))

/-- The loop copies the seven bytes. -/
theorem get_copy (buf : Bytes 7) (tmp : Bytes 7) :
    bits ((List.range 7).foldl (fun dst i => put dst i (get tmp i)) buf) 0 56=bits tmp 0 56 := by
  rw [bits,bits]
  refine ofBits_congr fun i hi => ?_
  rw [bitAt,bitAt,get_filled (get tmp) buf (le_refl 7),if_pos (by omega)]

/-- auth_DEShash with the seven bytes that auth_DESkey8to7 makes of a key is the
encryption of des2.c with that key. -/
theorem authDEShash_eq (ctx : Des2.Ctx) (key src : Bytes 8) (buf : Bytes 7) (dst : Bytes (n+8))
    (dest : Des2.Bytes) : ∃ key7,authDESkey8to7 (some buf) (some key)=some key7 ∧
      Des2.glDesEcbCrypt (Des2.glDesSetkey ctx (get key)) (get src) dest 0=
        fun i => if i < 8 then get (authDEShash dst key7 src) i else dest i := by
  refine ⟨_,rfl,?_⟩
  let tmp := permute (blank 7) key map8to7 7
  let key7 := (List.range 7).foldl (fun dst i => put dst i (get tmp i)) buf
  have htmp : bits key7 0 56=select 0 56 map8to7 ((words key).1 ++ (words key).2) := by
    have hkey : bits key 0 64=(words key).1 ++ (words key).2 := bits_append key 0 32 32
    rw [←hkey]
    exact (get_copy buf tmp).trans
      (bits_permute (blank 7) key map8to7 (le_refl 7) (le_refl 56) (by decide) (by decide))
  have hkeys : Des2.directed (get key) 0=turns keyRotation (keyHalves key7) := by
    rw [keyHalves,htmp,←choice1_eq,words,←read_get]
    exact Des2.subkeys_eq (get key)
  have hsrc : Des2.read64bitData (get src)=words src := read_get src
  rw [Des2.glDesEcbCrypt_eq,Des2.glDesSetkey_keys,hkeys,hsrc,←read_hash dst key7 src]
  exact Des2.written_read dest (get (authDEShash dst key7 src))

/-- A block is determined by its words. -/
theorem words_injective : Function.Injective words := by
  intro a b h
  have hbit : ∀ i < 64,bitAt a i=bitAt b i := by
    intro i hi
    have hleft : bits a 0 64=bits b 0 64 := by
      have hall := fun c : Bytes 8 => bits_append c 0 32 32
      have hab : (words a).1 ++ (words a).2=(words b).1 ++ (words b).2 := by rw [h]
      exact (hall a).trans (hab.trans (hall b).symm)
    have hget := congrArg (BitVec.getMsbD · i) hleft
    simpa only [getMsbD_bits _ _ hi,Nat.zero_add] using hget
  refine Vector.ext fun i hi => ?_
  have hget : get a i=get b i := get_eq_of_bitAt fun j hj => hbit (8*i+j) (by omega)
  simpa [get,hi] using hget

/-- There is a block of any words. -/
theorem words_surjective : Function.Surjective words := by
  intro p
  let bytes := Des2.written (fun _ => 0) p
  refine ⟨Vector.ofFn fun i : Fin 8 => bytes i,?_⟩
  have hget : ∀ i < 8,get (Vector.ofFn fun i : Fin 8 => bytes i) i=bytes i := fun i hi => by
    simp [get,hi]
  rw [words,←read_get,←Des2.read_written (fun _ => 0) p]
  simp only [Des2.read64bitData,hget 0 (by decide),hget 1 (by decide),hget 2 (by decide),
    hget 3 (by decide),hget 4 (by decide),hget 5 (by decide),hget 6 (by decide),hget 7 (by decide)]
  rfl

/-- With every key the hash is a permutation of the blocks, whatever was in the
destination. -/
theorem authDEShash_bijective (dst : Bytes 8) (key : Bytes 7) :
    Function.Bijective (authDEShash dst key) := by
  have hwords : ∀ src,words (authDEShash dst key src)=
      Des2.cipher (turns keyRotation (keyHalves key)) (words src) := fun src => by
    rw [←read_hash (n := 0) dst key src,read_get]
    rfl
  generalize turns keyRotation (keyHalves key)=subkeys at hwords
  constructor
  · intro a b h
    have hcipher := (hwords a).symm.trans ((congrArg words h).trans (hwords b))
    have hback := congrArg (Des2.cipher subkeys.reverse) hcipher
    rw [Des2.cipher_reverse,Des2.cipher_reverse] at hback
    exact words_injective hback
  · intro b
    obtain ⟨src,hsrc⟩ := words_surjective (Des2.cipher subkeys.reverse (words b))
    refine ⟨src,words_injective ?_⟩
    have hback := Des2.cipher_reverse subkeys.reverse (words b)
    rw [List.reverse_reverse] at hback
    rw [hwords,hsrc,hback]

end Hash

end StudyCode.Des
