import StudyCode.ArrayList

/-!
# Representation of a bucket by its used and stale payloads

A bucket is described by the addresses of its blocks, the payloads of its
used slots in chain order and the payloads left in the unused slots of its
last block. Insertion and deletion are characterised on that description,
including the deletions that match a payload in an unused slot.
-/

namespace StudyCode.ArrayList

/-- A block whose used slots come first, split into used and stale payloads. -/
structure BlockHolds (b : Block) (vs st : List ℤ) : Prop where
  /-- Used and stale payloads fill the block. -/
  size : vs.length+st.length=blockDepth
  /-- Exactly the leading slots are flagged. -/
  used : ∀ i, i < blockDepth → b.used i=if i < vs.length then 1 else 0
  /-- Payloads are listed in slot order. -/
  data : ∀ i, i < blockDepth → (vs++st)[i]?=some (b.data i)

/-- A chain of blocks: all but the last are full, and a block behind another
one has a used slot. -/
inductive Holds (m : Memory) : List ℕ → List ℤ → List ℤ → Prop where
  /-- The final block of a chain. -/
  | last {a : ℕ} {b : Block} {vs st : List ℤ} : m.cell a=some b → b.next=none →
      BlockHolds b vs st → Holds m [a] vs st
  /-- A full block in front of a non-empty rest. -/
  | link {a a' : ℕ} {as : List ℕ} {b : Block} {c vs st : List ℤ} : m.cell a=some b →
      b.next=some a' → BlockHolds b c [] → vs≠[] → Holds m (a'::as) vs st →
      Holds m (a::a'::as) (c++vs) st

/-- Without an unused slot a block is full. -/
theorem BlockHolds.length_full {b : Block} {c : List ℤ} (h : BlockHolds b c []) :
    c.length=blockDepth := by
  simpa using h.size

/-- The payload of a used slot is the value at its place. -/
theorem BlockHolds.data_used {b : Block} {vs st : List ℤ} (h : BlockHolds b vs st) {i : ℕ}
    (hi : i < vs.length) : b.data i=vs[i] := by
  have hd := h.data i (by have := h.size; omega)
  rw [List.getElem?_append_left hi,List.getElem?_eq_getElem hi] at hd
  exact (Option.some.inj hd).symm

/-- The payloads of the unused slots follow those of the used ones. -/
theorem BlockHolds.data_stale {b : Block} {vs st : List ℤ} (h : BlockHolds b vs st) {j : ℕ}
    (hj : j < st.length) : b.data (vs.length+j)=st[j] := by
  have hd := h.data (vs.length+j) (by have := h.size; omega)
  rw [List.getElem?_append_right (by omega),Nat.add_sub_cancel_left,
    List.getElem?_eq_getElem hj] at hd
  exact (Option.some.inj hd).symm

/-- Only the blocks of a chain matter to its description. -/
theorem Holds.frame {m m' : Memory} {as : List ℕ} {vs st : List ℤ} (h : Holds m as vs st)
    (hc : ∀ a ∈ as,m'.cell a=m.cell a) : Holds m' as vs st := by
  induction h with
  | last ha hn hb => exact .last ((hc _ (by simp)).trans ha) hn hb
  | link ha hn hb hv _ ih =>
    exact .link ((hc _ (by simp)).trans ha) hn hb hv
      (ih fun a h => hc a (List.mem_cons_of_mem _ h))

/-- The number of blocks is forced by the number of used slots. -/
theorem Holds.length_bounds {m : Memory} {a : ℕ} {as : List ℕ} {vs st : List ℤ}
    (h : Holds m (a::as) vs st) :
    vs.length+st.length=blockDepth*(as.length+1) ∧ (as≠[] → blockDepth*as.length < vs.length) := by
  generalize hl : a::as=l at h
  induction h generalizing a as with
  | last _ _ hb =>
    cases hl
    refine ⟨by simpa using hb.size,fun hn => (hn rfl).elim⟩
  | @link a0 a' as' _ c vs' st' _ _ hb hv _ ih =>
    cases hl
    obtain ⟨h1,h2⟩ := ih rfl
    have hp : 0 < vs'.length := List.length_pos_of_ne_nil hv
    have hf := hb.length_full
    simp only [List.length_append,List.length_cons,blockDepth] at *
    refine ⟨by omega,fun _ => ?_⟩
    by_cases hn : as'=[]
    · simp only [hn,List.length_nil]
      omega
    · have := h2 hn
      omega

/-- Every block of a chain is allocated, hence below the address bound. -/
theorem Holds.allocated {m : Memory} {as : List ℕ} {vs st : List ℤ} (h : Holds m as vs st) :
    ∀ a ∈ as,∃ b,m.cell a=some b := by
  induction h with
  | last ha _ _ => simpa using ⟨_,ha⟩
  | link ha _ _ _ _ ih =>
    intro a h
    rcases List.mem_cons.mp h with rfl|h
    · exact ⟨_,ha⟩
    · exact ih a h

/-- A chain without repetitions is shorter than the address bound, so every
chain loop has budget left. -/
theorem Holds.length_le_brk {m : Memory} {as : List ℕ} {vs st : List ℤ} (h : Holds m as vs st)
    (hd : as.Nodup) : as.length≤ m.brk := by
  have hs : as.toFinset⊆Finset.range m.brk := by
    intro a ha
    obtain ⟨b,hb⟩ := h.allocated a (List.mem_toFinset.mp ha)
    by_contra hn
    rw [m.above a (by simpa using hn)] at hb
    cases hb
  have hc := Finset.card_le_card hs
  rwa [List.toFinset_card_of_nodup hd,Finset.card_range] at hc

/-! ## Insertion -/

/-- The slot loop of an insertion from any slot that is not past the used ones. -/
theorem addFor_range {b : Block} {vs st : List ℤ} (h : BlockHolds b vs st) (x : ℤ) (k i : ℕ)
    (hk : i+k=blockDepth) (hi : i≤vs.length) :
    addFor x b (List.range' i k)=
      if x∈vs.drop i then .present
      else if st=[] then .full
      else .stored {b with used := store b.used vs.length 1,data := store b.data vs.length x} := by
  have hsz := h.size
  induction k generalizing i with
  | zero =>
    have hv : vs.drop i=[] := List.drop_eq_nil_of_le (by omega)
    have hs : st=[] := List.length_eq_zero_iff.mp (by omega)
    simp [addFor,hv,hs]
  | succ k ih =>
    rw [List.range'_succ,addFor,h.used i (by omega)]
    by_cases hlt : i < vs.length
    · have hm : x∈vs.drop i ↔ x=vs[i] ∨ x∈vs.drop (i+1) := by
        rw [List.drop_eq_getElem_cons hlt,List.mem_cons]
      rw [if_pos hlt,if_neg one_ne_zero,h.data_used hlt]
      by_cases hx : x=vs[i]
      · rw [if_pos ⟨hx,rfl⟩,if_pos (hm.mpr (Or.inl hx))]
      · rw [if_neg (fun hh => hx hh.1),ih (i+1) (by omega) (by omega)]
        simp only [hm,hx,false_or]
    · have he : i=vs.length := by omega
      have hs : st≠[] := by
        intro hn
        simp [hn] at hsz
        omega
      simp [he,hs]

/-- A block with a free slot takes the value there and stays well formed. -/
theorem BlockHolds.stored {b : Block} {vs st : List ℤ} {y x : ℤ} (h : BlockHolds b vs (y::st)) :
    BlockHolds {b with used := store b.used vs.length 1,data := store b.data vs.length x}
      (vs++[x]) st where
  size := by have := h.size; simp only [List.length_append,List.length_cons,List.length_nil] at *; omega
  used := by
    intro i hi
    by_cases he : i=vs.length
    · simp [he]
    · simp only [store_other he,h.used i hi,List.length_append,List.length_cons,List.length_nil]
      by_cases hl : i < vs.length
      · rw [if_pos hl,if_pos (by omega)]
      · rw [if_neg hl,if_neg (by omega)]
  data := by
    intro i hi
    by_cases he : i=vs.length
    · simp [he]
    · simp only [store_other he]
      rw [←h.data i hi]
      rcases Nat.lt_or_gt_of_ne he with hl|hg
      · simp [List.getElem?_append_left hl]
      · obtain ⟨j,rfl⟩ : ∃ j,i=vs.length+(j+1) := ⟨i-vs.length-1,by omega⟩
        have htail : ∀ z : ℤ,(vs++z::st)[vs.length+(j+1)]?=st[j]? := fun z => by
          rw [List.getElem?_append_right (by omega),Nat.add_sub_cancel_left,List.getElem?_cons_succ]
        rw [List.append_assoc,List.singleton_append,htail x,htail y]

/-- A new overflow block holding one value. -/
theorem BlockHolds.single (x : ℤ) :
    BlockHolds {zeroBlock with used := store zeroBlock.used 0 1,data := store zeroBlock.data 0 x}
      [x] (List.replicate (blockDepth-1) 0) where
  size := by simp [blockDepth]
  used := by
    intro i hi
    by_cases he : i=0
    · simp [he]
    · simp [he,store_other,zeroBlock]
  data := by
    intro i hi
    rcases i with _|i
    · simp
    · have : i < blockDepth-1 := by omega
      simp [store_other,zeroBlock,this]

/-- What an insertion does to a chain, and that it leaves every block outside
the chain alone apart from the one it obtains. -/
theorem addLoop_spec (A : Allocator) {m : Memory} {a : ℕ} {as : List ℕ} {vs st : List ℤ} (x : ℤ)
    (h : Holds m (a::as) vs st) (hd : (a::as).Nodup) {fuel : ℕ} (hf : as.length < fuel) :
    (x∈vs → addLoop A x fuel m a=some (m,2)) ∧
    (x∉vs → ∃ m' as' st',addLoop A x fuel m a=some (m',0) ∧ Holds m' (a::as') (vs++[x]) st' ∧
      (as'=as ∨ as'=as++[A.malloc m]) ∧
      (∀ c,c∉a::as' → m'.cell c=m.cell c)) := by
  generalize hl : a::as=l at h
  induction h generalizing a as fuel with
  | @last a0 b vs st ha hn hb =>
    cases hl
    obtain ⟨f,rfl⟩ : ∃ f,fuel=f+1 := ⟨fuel-1,by omega⟩
    have hfor := addFor_range hb x blockDepth 0 (by simp) (by simp)
    rw [←List.range_eq_range',List.drop_zero] at hfor
    rw [addLoop,ha]
    simp only [hfor,hn]
    constructor
    · intro hx
      simp [hx]
    · intro hx
      cases st with
      | nil =>
        have hne : A.malloc m≠a0 := by
          intro he
          have hfr := A.fresh m
          rw [he,ha] at hfr
          cases hfr
        simp only [if_neg hx,if_true,getNewList]
        refine ⟨_,[A.malloc m],List.replicate (blockDepth-1) 0,rfl,?_,Or.inr rfl,?_⟩
        · have hb' : BlockHolds {b with next := some (A.malloc m)} vs [] := ⟨hb.size,hb.used,hb.data⟩
          refine .link (b:={b with next := some (A.malloc m)}) ?_ rfl hb' (by simp)
            (.last (b:={zeroBlock with used := store zeroBlock.used 0 1,data := store zeroBlock.data 0 x})
              ?_ rfl (BlockHolds.single x))
          · simp [hne.symm]
          · simp
        · intro c hc
          simp only [List.mem_cons,List.not_mem_nil,or_false,not_or] at hc
          simp [hc.1,hc.2]
      | cons y st =>
        simp only [if_neg hx,reduceCtorEq,if_false]
        refine ⟨_,[],st,rfl,.last (Memory.write_same _ _ _) rfl (hn ▸ hb.stored),Or.inl rfl,?_⟩
        intro c hc
        simp only [List.mem_cons,List.not_mem_nil,or_false] at hc
        simp [hc]
  | @link a0 a' as' b c vs st ha hn hb hv hr ih =>
    cases hl
    obtain ⟨f,rfl⟩ : ∃ f,fuel=f+1 := ⟨fuel-1,by omega⟩
    have hfor := addFor_range hb x blockDepth 0 (by simp) (by simp)
    rw [←List.range_eq_range',List.drop_zero] at hfor
    obtain ⟨hin,hout⟩ := ih hd.of_cons (by simpa using hf) rfl
    rw [addLoop,ha]
    simp only [hfor,hn]
    by_cases hc : x∈c
    · simp [hc]
    · simp only [if_true,List.mem_append,hc,false_or]
      refine ⟨hin,fun hx => ?_⟩
      obtain ⟨m',as2,st',he,hh,hs,hfr⟩ := hout hx
      refine ⟨m',a'::as2,st',he,?_,?_,fun j hj => hfr j (fun hj' => hj (List.mem_cons_of_mem _ hj'))⟩
      · have hne : a0∉a'::as2 := by
          intro hm
          rcases hs with rfl|rfl
          · exact (List.nodup_cons.mp hd).1 hm
          · rw [←List.cons_append,List.mem_append] at hm
            rcases hm with hm|hm
            · exact (List.nodup_cons.mp hd).1 hm
            · have hfr := A.fresh m
              rw [←List.mem_singleton.mp hm,ha] at hfr
              cases hfr
        rw [List.append_assoc]
        exact .link ((hfr a0 hne).trans ha) hn hb (by simp) hh
      · rcases hs with rfl|rfl
        · exact Or.inl rfl
        · exact Or.inr rfl

/-! ## The scan of a deletion -/

/-- Victims recorded over a run of slots. -/
def scanHits (x : ℤ) (p : ℕ) (b : Block) (is : List ℕ) (s : DelScan) : DelScan :=
  is.foldl (fun s i => s.matchSlot x p b i) s

/-- Looking for the value leaves what was found of the last slot. -/
@[simp] theorem matchSlot_lastFound (x : ℤ) (p : ℕ) (b : Block) (i : ℕ) (s : DelScan) :
    (s.matchSlot x p b i).lastFound=s.lastFound := by
  unfold DelScan.matchSlot
  split <;> rfl

/-- A used slot is not the first unused one. -/
theorem lastSlot_of_used {p t : ℕ} {b : Block} {i : ℕ} (s : DelScan) (h : b.used i≠0) :
    s.lastSlot p t b i=s := if_neg h

/-- Used slots only record victims. -/
theorem delFor_used {x : ℤ} {p t : ℕ} {b : Block} (is rest : List ℕ) (s : DelScan)
    (hs : s.lastFound=false) (hu : ∀ i ∈ is,b.used i≠0) :
    delFor x p t b (is++rest) s=delFor x p t b rest (scanHits x p b is s) := by
  induction is generalizing s with
  | nil => rfl
  | cons i is ih =>
    rw [List.cons_append,delFor]
    rw [lastSlot_of_used _ (hu i (by simp)),if_neg (by simp [hs])]
    exact ih _ (by simpa using hs) fun j hj => hu j (List.mem_cons_of_mem _ hj)

/-- Over the used slots of a block the only possible victim is the slot that
holds the value. -/
theorem scanHits_used {x : ℤ} {p : ℕ} {b : Block} {vs st : List ℤ} (h : BlockHolds b vs st)
    (hd : vs.Nodup) (s : DelScan) (n : ℕ) (hn : n≤vs.length) :
    scanHits x p b (List.range n) s=
      if x∈vs.take n then {s with delN := vs.idxOf x,delP := some p,delFound := true} else s := by
  induction n with
  | zero => simp [scanHits]
  | succ n ih =>
    have hlt : n < vs.length := by omega
    have hm : x∈vs.take (n+1) ↔ x∈vs.take n ∨ x=vs[n] := by
      rw [List.take_succ_eq_append_getElem hlt,List.mem_append,List.mem_singleton]
    have hstep : scanHits x p b (List.range (n+1)) s=
        (scanHits x p b (List.range n) s).matchSlot x p b n := by
      simp [scanHits,List.range_succ]
    rw [hstep,ih (by omega),DelScan.matchSlot,h.data_used hlt]
    by_cases hx : x=vs[n]
    · have hi : vs.idxOf x=n := by rw [hx]; exact hd.idxOf_getElem n hlt
      rw [if_pos hx,if_pos (hm.mpr (Or.inr hx)),hi]
      split <;> rfl
    · rw [if_neg hx]
      simp only [hm,hx,or_false]

/-- The locals once the victim is known and the last slot is not. -/
def found (d n : ℕ) : DelScan := ⟨none,some d,0,n,true,false⟩

/-- The locals once both are known: the victim is either the one recorded
before or the unused slot at which the scan stopped. -/
def settled (al k d n : ℕ) (hit : Bool) : DelScan :=
  ⟨some al,some (if hit=true then al else d),k-1,if hit=true then k else n,true,true⟩

/-- With the victim known the scan stops at the first unused slot, which
replaces the victim when its stale payload matches. -/
theorem delFor_found {x : ℤ} {p t d n : ℕ} {b : Block} {vs : List ℤ} {y : ℤ} {st : List ℤ}
    (h : BlockHolds b vs (y::st)) (hv : vs≠[]) (r : ℕ) :
    delFor x p t b (List.range' vs.length (r+1)) (found d n)=
      (settled p vs.length d n (decide (y=x)),true) := by
  have hp : 0 < vs.length := List.length_pos_of_ne_nil hv
  have hsz := h.size
  simp only [List.length_cons] at hsz
  have hu : b.used vs.length=0 := by rw [h.used _ (by omega),if_neg (lt_irrefl _)]
  have hy : b.data vs.length=y := h.data_stale (j:=0) (by simp)
  rw [List.range'_succ,delFor]
  by_cases hx : x=y
  · simp [DelScan.matchSlot,DelScan.lastSlot,hu,hy,hp,hx,found,settled]
  · simp [DelScan.matchSlot,DelScan.lastSlot,hu,hy,hp,hx,Ne.symm hx,found,settled]

/-- Without a victim the scan goes on over the unused slots and takes the
first stale payload that matches, if there is one. -/
theorem delFor_stale {x : ℤ} {p t : ℕ} {b : Block} (k r : ℕ) (s : DelScan)
    (hu : ∀ i,k ≤ i → i < k+r → b.used i=0) (hs : s.delFound=false) :
    ((∀ i,k ≤ i → i < k+r → b.data i≠x) →
      ∃ s',delFor x p t b (List.range' k r) s=(s',false) ∧ s'.delFound=false) ∧
    (∀ j,j < r → b.data (k+j)=x → (∀ i,i < j → b.data (k+i)≠x) →
      delFor x p t b (List.range' k r) s=
        (⟨if 0 < k+j then some p else some t,some p,if 0 < k+j then k+j-1 else blockDepth-1,
          k+j,true,true⟩,true)) := by
  induction r generalizing k s with
  | zero => exact ⟨fun _ => ⟨s,rfl,hs⟩,fun j hj => by omega⟩
  | succ r ih =>
    have hk : b.used k=0 := hu k le_rfl (by omega)
    rw [List.range'_succ,delFor]
    by_cases hx : x=b.data k
    · refine ⟨fun hn => (hn k le_rfl (by omega) hx.symm).elim,fun j hj he hm => ?_⟩
      have hj0 : j=0 := by
        by_contra hne
        exact hm 0 (by omega) hx.symm
      subst hj0
      by_cases hp : 0 < k <;> simp [DelScan.matchSlot,DelScan.lastSlot,hk,hx,hp]
    · let s' := (s.matchSlot x p b k).lastSlot p t b k
      have hs' : s'.delFound=false := by
        simp only [s',DelScan.matchSlot,if_neg hx,DelScan.lastSlot,hk,if_true]
        split <;> exact hs
      obtain ⟨h1,h2⟩ := ih (k+1) s' (fun i hi hl => hu i (by omega) (by omega)) hs'
      rw [if_neg (by simp [s',hs'])]
      refine ⟨fun hn => h1 fun i hi hl => hn i (by omega) (by omega),fun j hj he hm => ?_⟩
      obtain ⟨j',rfl⟩ : ∃ j',j=j'+1 := by
        cases j with
        | zero => exact (hx he.symm).elim
        | succ j' => exact ⟨j',rfl⟩
      have hshift : ∀ i,k+1+i=k+(i+1) := fun i => by omega
      have := h2 j' (by omega) (by rw [hshift]; exact he)
        fun i hi => by rw [hshift]; exact hm (i+1) (by omega)
      rw [hshift] at this
      exact this

/-- The trailing pointer when the scan stops inside the last block. -/
def trail (t : ℕ) : List ℕ → ℕ
  | [] => t
  | [_] => t
  | a::a'::as => trail a (a'::as)

/-- The last block of a chain from its first block and the rest. -/
def lastAddr (a : ℕ) : List ℕ → ℕ
  | [] => a
  | a'::as => lastAddr a' as

/-- Used slots in the last block of a chain. -/
def lastCount (as : List ℕ) (vs : List ℤ) : ℕ := vs.length-blockDepth*(as.length-1)

/-- The slots of a block are those in use and those behind them. -/
theorem range_split (n r : ℕ) (h : n+r=blockDepth) :
    List.range blockDepth=List.range n++List.range' n r := by
  rw [←h,List.range_eq_range',List.range_eq_range',←List.range'_append_1]
  simp

/-- The whole scan of one block whose used slots come first. -/
theorem delFor_block {x : ℤ} {p t : ℕ} {b : Block} {vs st : List ℤ} (h : BlockHolds b vs st)
    (hd : vs.Nodup) (s : DelScan) (hs : s.lastFound=false) :
    delFor x p t b (List.range blockDepth) s=
      delFor x p t b (List.range' vs.length st.length)
        (if x∈vs then {s with delN := vs.idxOf x,delP := some p,delFound := true} else s) := by
  have hsz := h.size
  rw [range_split vs.length st.length hsz,delFor_used _ _ s hs]
  · rw [scanHits_used h hd s vs.length le_rfl,List.take_length]
  · intro i hi
    have hlt : i < vs.length := by simpa using hi
    rw [h.used i (by omega),if_pos hlt]
    exact one_ne_zero

/-- A full block in front does not change the count of the last one. -/
theorem lastCount_link {a a' : ℕ} {as : List ℕ} {b : Block} {c vs : List ℤ}
    (hb : BlockHolds b c []) : lastCount (a::a'::as) (c++vs)=lastCount (a'::as) vs := by
  have := hb.length_full
  simp only [lastCount,List.length_append,List.length_cons,this,Nat.add_sub_cancel]
  rw [Nat.mul_add]
  omega

/-- The scan of a chain that lies behind the victim. -/
theorem delLoop_found {x : ℤ} {m : Memory} {a : ℕ} {as : List ℕ} {vs st : List ℤ}
    (h : Holds m (a::as) vs st) (hd : vs.Nodup) (hx : x∉vs) (hv : vs≠[]) {fuel : ℕ}
    (hf : as.length < fuel) (t d n : ℕ) :
    delLoop x m fuel a t (found d n)=
      some (settled (lastAddr a as) (lastCount (a::as) vs) d n
        (decide (st.head?=some x)),if st=[] then lastAddr a as else trail t (a::as)) := by
  generalize hl : a::as=l at h
  induction h generalizing a as fuel t with
  | @last a0 b vs st ha hn hb =>
    cases hl
    obtain ⟨f,rfl⟩ : ∃ f,fuel=f+1 := ⟨fuel-1,by omega⟩
    have hfor := delFor_block (x:=x) (p:=a0) (t:=t) hb hd (found d n) rfl
    rw [if_neg hx] at hfor
    rw [delLoop,ha]
    simp only [hn,hfor]
    cases st with
    | nil =>
      have hfl := hb.length_full
      simp [delFor,settled,found,lastCount,lastAddr,hfl]
    | cons y st =>
      rw [List.length_cons,delFor_found hb hv]
      simp [lastCount,lastAddr,trail]
  | @link a0 a' as' b c vs st ha hn hb hv' hr ih =>
    cases hl
    obtain ⟨f,rfl⟩ : ∃ f,fuel=f+1 := ⟨fuel-1,by omega⟩
    rw [List.mem_append,not_or] at hx
    have hfor := delFor_block (x:=x) (p:=a0) (t:=t) hb (List.nodup_append.mp hd).1 (found d n) rfl
    rw [if_neg hx.1] at hfor
    rw [delLoop,ha]
    simp only [hn,hfor,List.length_nil,List.range'_zero,delFor]
    rw [ih (List.nodup_append.mp hd).2.1 hx.2 hv' (by simpa using hf) a0 rfl,lastCount_link hb]
    rfl

/-- The scan of a whole chain for a value in a used slot. -/
theorem delLoop_mem {x : ℤ} {m : Memory} {a : ℕ} {as : List ℕ} {vs st : List ℤ}
    (h : Holds m (a::as) vs st) (hd : vs.Nodup) (hx : x∈vs) {fuel : ℕ}
    (hf : as.length < fuel) (t : ℕ) :
    ∃ d,(a::as)[vs.idxOf x/blockDepth]?=some d ∧
      delLoop x m fuel a t DelScan.start=
        some (settled (lastAddr a as) (lastCount (a::as) vs) d (vs.idxOf x%blockDepth)
          (decide (st.head?=some x)),if st=[] then lastAddr a as else trail t (a::as)) := by
  generalize hl : a::as=l at h
  induction h generalizing a as fuel t with
  | @last a0 b vs st ha hn hb =>
    cases hl
    obtain ⟨f,rfl⟩ : ∃ f,fuel=f+1 := ⟨fuel-1,by omega⟩
    have hsz := hb.size
    have hlt : vs.idxOf x < blockDepth := by
      have := List.idxOf_lt_length_of_mem hx
      omega
    have hfor := delFor_block (x:=x) (p:=a0) (t:=t) hb hd DelScan.start rfl
    rw [if_pos hx] at hfor
    refine ⟨a0,by simp [Nat.div_eq_of_lt hlt],?_⟩
    rw [delLoop,ha,Nat.mod_eq_of_lt hlt]
    simp only [hn,hfor]
    cases st with
    | nil =>
      have hfl := hb.length_full
      simp [delFor,settled,DelScan.start,lastCount,lastAddr,hfl]
    | cons y st =>
      have := delFor_found (x:=x) (p:=a0) (t:=t) (d:=a0) (n:=vs.idxOf x) hb (List.ne_nil_of_mem hx) st.length
      rw [List.length_cons]
      simp only [found] at this
      simp only [DelScan.start,this]
      simp [lastCount,lastAddr,trail]
  | @link a0 a' as' b c vs st ha hn hb hv' hr ih =>
    cases hl
    obtain ⟨f,rfl⟩ : ∃ f,fuel=f+1 := ⟨fuel-1,by omega⟩
    obtain ⟨hdc,hdv,hdis⟩ := List.nodup_append.mp hd
    have hfl := hb.length_full
    have hfor := delFor_block (x:=x) (p:=a0) (t:=t) hb hdc DelScan.start rfl
    rw [delLoop,ha]
    simp only [hn,hfor,List.length_nil,List.range'_zero,delFor]
    by_cases hc : x∈c
    · have hxv : x∉vs := fun hv => hdis x hc x hv rfl
      have hlt : c.idxOf x < blockDepth := by
        have := List.idxOf_lt_length_of_mem hc
        omega
      have hi : (c++vs).idxOf x=c.idxOf x := List.idxOf_append_of_mem hc
      refine ⟨a0,by simp [hi,Nat.div_eq_of_lt hlt],?_⟩
      rw [if_pos hc,hi,Nat.mod_eq_of_lt hlt,lastCount_link hb]
      have := delLoop_found hr hdv hxv hv' (by simpa using hf) a0 a0 (c.idxOf x)
      simp only [found] at this
      simp only [DelScan.start,this]
      rfl
    · have hxv : x∈vs := (List.mem_append.mp hx).resolve_left hc
      have hi : (c++vs).idxOf x=vs.idxOf x+blockDepth := by
        rw [List.idxOf_append_of_notMem hc,hfl]
        omega
      obtain ⟨d,hd1,hd2⟩ := ih hdv hxv (by simpa using hf) a0 rfl
      refine ⟨d,?_,?_⟩
      · rw [hi,Nat.add_div_right _ (by simp [blockDepth]),List.getElem?_cons_succ]
        exact hd1
      · rw [if_neg hc,hd2,hi,Nat.add_mod_right,lastCount_link hb]
        rfl

/-- The scan of a chain for a value in no used slot. -/
theorem delLoop_notMem {x : ℤ} {m : Memory} {a : ℕ} {as : List ℕ} {vs st : List ℤ}
    (h : Holds m (a::as) vs st) (hd : vs.Nodup) (hx : x∉vs) {fuel : ℕ}
    (hf : as.length < fuel) (t : ℕ) :
    (x∉st → ∃ s t',delLoop x m fuel a t DelScan.start=some (s,t') ∧ s.delFound=false) ∧
    (x∈st → delLoop x m fuel a t DelScan.start=
      let al := lastAddr a as
      let i := lastCount (a::as) vs+st.idxOf x
      some (⟨if 0 < i then some al else some (trail t (a::as)),some al,
        if 0 < i then i-1 else blockDepth-1,i,true,true⟩,trail t (a::as))) := by
  generalize hl : a::as=l at h
  induction h generalizing a as fuel t with
  | @last a0 b vs st ha hn hb =>
    cases hl
    obtain ⟨f,rfl⟩ : ∃ f,fuel=f+1 := ⟨fuel-1,by omega⟩
    have hsz := hb.size
    have hfor := delFor_block (x:=x) (p:=a0) (t:=t) hb hd DelScan.start rfl
    rw [if_neg hx] at hfor
    obtain ⟨h1,h2⟩ := delFor_stale (x:=x) (p:=a0) (t:=t) vs.length st.length DelScan.start
      (fun i hi hlt => by rw [hb.used i (by omega),if_neg (by omega)]) rfl
    rw [delLoop,ha]
    simp only [hn,hfor]
    constructor
    · intro hs
      obtain ⟨s',he,hs'⟩ := h1 fun i hi hlt hne => by
        obtain ⟨j,rfl⟩ : ∃ j,i=vs.length+j := ⟨i-vs.length,by omega⟩
        rw [hb.data_stale (by omega)] at hne
        exact hs (hne ▸ List.getElem_mem _)
      rw [he]
      exact ⟨_,_,rfl,hs'⟩
    · intro hs
      have hlt := List.idxOf_lt_length_of_mem hs
      have he := h2 (st.idxOf x) hlt (by rw [hb.data_stale hlt]; exact List.getElem_idxOf hlt)
        fun i hi hne => by
          rw [hb.data_stale (by omega)] at hne
          have := List.not_of_lt_findIdx hi
          simp [hne] at this
      rw [he]
      simp [lastCount,lastAddr,trail]
  | @link a0 a' as' b c vs st ha hn hb hv' hr ih =>
    cases hl
    obtain ⟨f,rfl⟩ : ∃ f,fuel=f+1 := ⟨fuel-1,by omega⟩
    rw [List.mem_append,not_or] at hx
    have hfor := delFor_block (x:=x) (p:=a0) (t:=t) hb (List.nodup_append.mp hd).1 DelScan.start rfl
    rw [if_neg hx.1] at hfor
    rw [delLoop,ha]
    simp only [hn,hfor,List.length_nil,List.range'_zero,delFor]
    have := ih (List.nodup_append.mp hd).2.1 hx.2 (by simpa using hf) a0 rfl
    rw [lastCount_link hb]
    exact this

/-! ## The writes of a deletion -/

/-- A value stored in a used slot takes the place of another. -/
theorem BlockHolds.store_used {b : Block} {vs st : List ℤ} (h : BlockHolds b vs st) (i : ℕ) (v : ℤ)
    (hi : i < vs.length) : BlockHolds {b with data := store b.data i v} (vs.set i v) st where
  size := by simpa using h.size
  used := by simpa using h.used
  data := by
    intro j hj
    by_cases he : j=i
    · subst he
      rw [List.getElem?_append_left (by simpa using hi),List.getElem?_set_self hi]
      simp
    · have hd := h.data j hj
      simp only [store_other he]
      rw [←hd]
      by_cases hl : j < vs.length
      · rw [List.getElem?_append_left (by simpa using hl),List.getElem?_append_left hl,
          List.getElem?_set_ne (Ne.symm he)]
      · rw [List.getElem?_append_right (by simpa using hl),
          List.getElem?_append_right (by omega),List.length_set]

/-- A value stored in an unused slot changes only what is left there. -/
theorem BlockHolds.store_stale {b : Block} {vs st : List ℤ} (h : BlockHolds b vs st) (j : ℕ) (v : ℤ) :
    BlockHolds {b with data := store b.data (vs.length+j) v} vs (st.set j v) where
  size := by simpa using h.size
  used := h.used
  data := by
    intro i hi
    have hd := h.data i hi
    by_cases hl : i < vs.length
    · rw [List.getElem?_append_left hl] at hd ⊢
      rw [hd]
      simp [store_other (show i≠vs.length+j by omega)]
    · obtain ⟨n,rfl⟩ : ∃ n,i=vs.length+n := ⟨i-vs.length,by omega⟩
      rw [List.getElem?_append_right (by omega),Nat.add_sub_cancel_left] at hd ⊢
      by_cases he : n=j
      · subst he
        have : n < st.length := by
          have := h.size
          omega
        simp [this]
      · rw [List.getElem?_set_ne (Ne.symm he),hd]
        simp [store_other (show vs.length+n≠vs.length+j by omega)]

/-- Clearing the flag of an unused slot changes nothing. -/
theorem BlockHolds.clear_unused {b : Block} {vs st : List ℤ} (h : BlockHolds b vs st) (i : ℕ)
    (hi : vs.length ≤ i) : BlockHolds {b with used := store b.used i 0} vs st where
  size := h.size
  data := h.data
  used := by
    intro j hj
    by_cases he : j=i
    · rw [he,if_neg (by omega)]
      exact store_same _ _ _
    · simp only [store_other he]
      exact h.used j hj

/-- Clearing the last used slot leaves its payload behind. -/
theorem BlockHolds.clear_last {b : Block} {vs st : List ℤ} {y : ℤ} (h : BlockHolds b (vs++[y]) st) :
    BlockHolds {b with used := store b.used vs.length 0} vs (y::st) where
  size := by
    have := h.size
    simp only [List.length_append,List.length_cons,List.length_nil] at *
    omega
  data := by simpa using h.data
  used := by
    intro j hj
    by_cases he : j=vs.length
    · simp [he]
    · simp only [store_other he,h.used j hj,List.length_append,List.length_cons,List.length_nil]
      by_cases hl : j < vs.length
      · rw [if_pos hl,if_pos (by omega)]
      · rw [if_neg hl,if_neg (by omega)]

/-- The last address of a chain is one of the chain. -/
theorem lastAddr_mem (a : ℕ) (as : List ℕ) : lastAddr a as∈a::as := by
  induction as generalizing a with
  | nil => simp [lastAddr]
  | cons a' as ih => exact List.mem_cons_of_mem _ (ih a')

/-- The last block of a chain, and how a chain follows a new last block. -/
theorem Holds.splitLast {m : Memory} {a : ℕ} {as : List ℕ} {vs st : List ℤ}
    (h : Holds m (a::as) vs st) (hd : (a::as).Nodup) :
    ∃ b pre c,m.cell (lastAddr a as)=some b ∧ b.next=none ∧ BlockHolds b c st ∧ vs=pre++c ∧
      c.length=lastCount (a::as) vs ∧ (as≠[] → c≠[]) ∧
      ∀ m' b' c' st',m'.cell (lastAddr a as)=some b' → b'.next=none → BlockHolds b' c' st' →
        (as≠[] → c'≠[]) → (∀ j ∈ a::as,j≠lastAddr a as → m'.cell j=m.cell j) →
        Holds m' (a::as) (pre++c') st' := by
  generalize hl : a::as=l at h
  induction h generalizing a as with
  | @last a0 b vs st ha hn hb =>
    cases hl
    refine ⟨b,[],vs,ha,hn,hb,rfl,by simp [lastCount],fun h => (h rfl).elim,?_⟩
    intro m' b' c' st' h1 h2 h3 _ _
    exact .last h1 h2 h3
  | @link a0 a' as' b c vs st ha hn hb hv hr ih =>
    cases hl
    obtain ⟨b1,pre,c1,h1,h2,h3,h4,h5,h6,h7⟩ := ih hd.of_cons rfl
    have hc1 : c1≠[] := by
      by_cases hn : as'=[]
      · subst hn
        cases hr with
        | last _ _ hb' =>
          intro hc
          rw [hc,List.length_nil] at h5
          simp only [lastCount,List.length_cons,List.length_nil] at h5
          exact hv (List.length_eq_zero_iff.mp (by omega))
      · exact h6 hn
    refine ⟨b1,c++pre,c1,h1,h2,h3,by rw [h4,List.append_assoc],?_,fun _ => hc1,?_⟩
    · rw [lastCount_link hb]
      exact h5
    · intro m' b' c' st' g1 g2 g3 g4 g5
      have hne : a0≠lastAddr a' as' := by
        intro he
        exact (List.nodup_cons.mp hd).1 (he ▸ lastAddr_mem a' as')
      have hc' : c'≠[] := g4 (by simp)
      rw [List.append_assoc]
      exact .link ((g5 a0 (by simp) hne).trans ha) hn hb (by simp [hc'])
        (h7 m' b' c' st' g1 g2 g3 (fun _ => hc') fun j hj hje => g5 j (List.mem_cons_of_mem _ hj) hje)

/-- A chain without its last block. -/
theorem Holds.dropBlock {m : Memory} {a : ℕ} {as : List ℕ} {vs st : List ℤ}
    (h : Holds m (a::as) vs st) (hd : (a::as).Nodup) (hs : as≠[]) (t : ℕ) :
    ∃ bt pre c,m.cell (trail t (a::as))=some bt ∧ trail t (a::as)≠lastAddr a as ∧
      trail t (a::as)∈a::as ∧ vs=pre++c ∧ c.length=lastCount (a::as) vs ∧
      ∀ m',m'.cell (trail t (a::as))=some {bt with next := none} →
        (∀ j ∈ a::as,j≠lastAddr a as → j≠trail t (a::as) → m'.cell j=m.cell j) →
        Holds m' (a::as.dropLast) pre [] := by
  generalize hl : a::as=l at h
  induction h generalizing a as t with
  | last => cases hl; exact (hs rfl).elim
  | @link a0 a' as' b c vs st ha hn hb hv hr ih =>
    cases hl
    have hne : a0≠lastAddr a' as' := by
      intro he
      exact (List.nodup_cons.mp hd).1 (he ▸ lastAddr_mem a' as')
    cases as' with
    | nil =>
      refine ⟨b,c,vs,ha,hne,by simp [trail],rfl,?_,?_⟩
      · rw [lastCount_link hb]
        simp [lastCount]
      · intro m' h1 _
        exact .last h1 rfl ⟨hb.size,hb.used,hb.data⟩
    | cons a2 as2 =>
      obtain ⟨bt,pre,c1,h1,h2,h3,h4,h5,h6⟩ := ih hd.of_cons (by simp) a0 rfl
      refine ⟨bt,c++pre,c1,h1,h2,List.mem_cons_of_mem _ h3,by rw [h4,List.append_assoc],?_,?_⟩
      · rw [lastCount_link hb]
        exact h5
      · intro m' g1 g2
        have hna : a0≠trail a0 (a'::a2::as2) := by
          intro he
          exact (List.nodup_cons.mp hd).1 (he ▸ h3)
        have hr' := h6 m' g1 fun j hj hj1 hj2 => g2 j (List.mem_cons_of_mem _ hj) hj1 hj2
        have hpre : pre≠[] := by
          have := hr'.length_bounds.1
          rintro rfl
          simp [blockDepth] at this
        exact .link ((g2 a0 (by simp) hne hna).trans ha) hn hb hpre hr'

/-- Overwrite the payload of a used slot. -/
theorem Holds.setData {m : Memory} {as : List ℕ} {vs st : List ℤ} (h : Holds m as vs st)
    (hd : as.Nodup) {q p : ℕ} {b : Block} (hq : q < vs.length) (hp : as[q/blockDepth]?=some p)
    (hb : m.cell p=some b) (v : ℤ) :
    Holds (m.write p {b with data := store b.data (q%blockDepth) v}) as (vs.set q v) st := by
  induction h generalizing q with
  | @last a0 b0 vs st ha hn hb0 =>
    have hsz := hb0.size
    have hlt : q < blockDepth := by omega
    rw [Nat.div_eq_of_lt hlt,List.getElem?_cons_zero] at hp
    cases hp
    rw [ha] at hb
    cases hb
    rw [Nat.mod_eq_of_lt hlt]
    exact .last (Memory.write_same _ _ _) hn (hb0.store_used q v hq)
  | @link a0 a' as' b0 c vs st ha hn hb0 hv hr ih =>
    have hfl := hb0.length_full
    by_cases hlt : q < blockDepth
    · rw [Nat.div_eq_of_lt hlt,List.getElem?_cons_zero] at hp
      cases hp
      rw [ha] at hb
      cases hb
      rw [Nat.mod_eq_of_lt hlt,List.set_append_left _ _ (by omega)]
      refine .link (Memory.write_same _ _ _) hn (hb0.store_used q v (by omega)) hv (hr.frame ?_)
      intro j hj
      refine Memory.write_other ?_
      rintro rfl
      exact (List.nodup_cons.mp hd).1 hj
    · obtain ⟨q',rfl⟩ : ∃ q',q=q'+blockDepth := ⟨q-blockDepth,by omega⟩
      rw [Nat.add_div_right _ (by simp [blockDepth]),List.getElem?_cons_succ] at hp
      rw [List.length_append] at hq
      have hi := ih hd.of_cons (by omega) hp
      rw [Nat.add_mod_right,List.set_append_right _ _ (by omega),hfl,Nat.add_sub_cancel]
      have hne : a0≠p := by
        rintro rfl
        exact (List.nodup_cons.mp hd).1 (List.mem_of_getElem? hp)
      exact .link ((Memory.write_other hne).trans ha) hn hb0 (by simpa using hv) hi

end StudyCode.ArrayList
