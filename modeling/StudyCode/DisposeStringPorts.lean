import StudyCode.DisposeStringTokens

/-!
# What the port list parser accepts

Every token is a text of its own once the buffer is cut, and its range is read
from that text alone. The parser stores the numbers of all ranges in order or
rejects the list. It sees the low half of an integer only: a list is a list for
it when the integers are ports in their low halves.
-/

namespace StudyCode.DisposeString

open Checked

/-! ## Ranges of tokens -/

section Ranges

variable (view : ℤ → ℤ)

/-- An integer that takes up the whole text and is from 1 to 32 in some view of
its value. -/
def integer? (u : List UInt8) : Option ℕ :=
  if (strtoll (baseOf u) u).2=u.length ∧ 1 ≤ view (strtoll (baseOf u) u).1 ∧
    view (strtoll (baseOf u) u).1 ≤ 32 then some (view (strtoll (baseOf u) u).1).toNat else none

/-- The bounds of a token: one integer, or two joined by the first dash, in
either order. -/
def bounds? (t : List UInt8) : Option (ℕ×ℕ) :=
  if 45 ∈ t then do
    let x ← integer? view (t.takeWhile (· ≠ 45))
    let y ← integer? view (t.drop ((t.takeWhile (· ≠ 45)).length+1))
    some (min x y,max x y)
  else do
    let x ← integer? view t
    some (x,x)

/-- The numbers of a token, each one less than a port. -/
def numbersOf (t : List UInt8) : List ℕ :=
  match bounds? view t with
  | some b => List.range' (b.1-1) (b.2+1-b.1)
  | none => []

end Ranges

/-! ## Integers -/

/-- A number ends inside of the text. -/
theorem strtoll_consumed_le (base : ℕ) (t : List UInt8) : (strtoll base t).2 ≤ t.length := by
  unfold strtoll
  dsimp only
  split
  · exact Nat.zero_le _
  · rename_i hne
    have hpos := List.length_pos_iff.mpr hne
    have hle := List.Sublist.length_le (List.takeWhile_sublist (isDigitIn base)
      (l := (t.drop (t.takeWhile isSpace).length).drop
        (signLength (t.drop (t.takeWhile isSpace).length)+
          markLength base ((t.drop (t.takeWhile isSpace).length).drop
            (signLength (t.drop (t.takeWhile isSpace).length))))))
    rw [List.length_drop,List.length_drop] at hle
    omega

/-- The low half is a value of int. -/
theorem toInt_range (v : ℤ) : -2^63 ≤ toInt v ∧ toInt v < 2^63 := by
  unfold toInt
  have hle := Int.le_bmod (x := v) (m := 2^32) (by norm_num)
  have hlt := Int.bmod_lt (x := v) (m := 2^32) (by norm_num)
  norm_num at hle hlt ⊢
  omega

/-- A port is its own low half. -/
theorem toInt_port {v : ℤ} (h1 : 1 ≤ v) (h32 : v ≤ 32) : toInt v=v := by
  unfold toInt
  rw [Int.bmod_eq_of_le] <;> norm_num <;> omega

/-- A value is a port exactly when its unsigned image is one. -/
theorem toU64_port {z : ℤ} (h : -2^63 ≤ z) (h' : z < 2^63) :
    (1 ≤ toU64 z ∧ toU64 z ≤ 32 ↔ 1 ≤ z ∧ z ≤ 32) ∧
      (1 ≤ z ∧ z ≤ 32 → toU64 z=z.toNat) := by
  unfold toU64
  omega

/-- The bounds of a range are put in order. -/
theorem ordered_eq (l h : ℕ) : ordered l h=(min l h,max l h) := by
  unfold ordered
  split
  · rename_i hlt
    have hh : l ^^^ h ^^^ h=l := by rw [Nat.xor_assoc,Nat.xor_self,Nat.xor_zero]
    have hl : l ^^^ h ^^^ l=h := by
      rw [Nat.xor_comm (l ^^^ h),←Nat.xor_assoc,Nat.xor_self,Nat.zero_xor]
    dsimp only
    rw [hh,hl,min_eq_right hlt.le,max_eq_left hlt.le]
  · rw [min_eq_left (by omega),max_eq_right (by omega)]

variable {pre t post : List UInt8}

/-- A text inside of a buffer ends at its zero. -/
theorem cString_eq (ht : ∀ c ∈ t,c ≠ 0) : cString (pre++t++0::post) pre.length=some t := by
  have hdrop : (pre++t++0::post).drop pre.length=t++0::post := by
    rw [List.append_assoc,List.drop_left]
  rw [cString,Int.toNat_natCast,hdrop,takeWhile_terminated ht]
  simp

/-- The value of a text that is one integer. -/
def whole (u : List UInt8) : Option ℕ :=
  if (strtoll (baseOf u) u).2=u.length then some (toU64 (toInt (strtoll (baseOf u) u).1)) else none

/-- A text that is an integer from its start to its end. -/
theorem wholeInteger_eq (ht : ∀ c ∈ t,c ≠ 0) :
    wholeInteger (pre++t++0::post) pre.length=some (whole t) := by
  have hle := strtoll_consumed_le (baseOf t) t
  have hint : getInteger (pre++t++0::post) pre.length=
      some (toU64 (toInt (strtoll (baseOf t) t).1),(pre.length : ℤ)+(strtoll (baseOf t) t).2) := by
    rw [getInteger,cString_eq ht]
    rfl
  rw [wholeInteger,hint,whole]
  generalize (strtoll (baseOf t) t).2=k at hle
  have hcast : ((pre.length : ℤ)+k)=((pre.length+k : ℕ) : ℤ) := by
    push_cast
    rfl
  have hcell : cellAt (pre++t++0::post) ((pre.length : ℤ)+k)=(t++0::post)[k]? := by
    rw [hcast,cellAt_natCast,List.append_assoc,List.getElem?_append_right (by omega),
      Nat.add_sub_cancel_left]
  simp only [Option.bind_eq_bind,Option.bind_some,hcell]
  rcases hle.lt_or_eq with hlt|rfl
  · have hne := ht _ (List.getElem_mem hlt)
    rw [List.getElem?_append_left hlt,List.getElem?_eq_getElem hlt,if_neg hlt.ne]
    simp [hne]
  · simp

/-- The bounds that the parser goes on with. -/
def inRange (b : ℕ×ℕ) : Bool := ¬(b.1 < 1 ∨ b.1 > 32 ∨ b.2 < 1 ∨ b.2 > 32)

/-- A port is such an integer from 1 to 32. -/
theorem integer?_eq_filter (u : List UInt8) :
    integer? toInt u=(whole u).filter fun x => 1 ≤ x ∧ x ≤ 32 := by
  obtain ⟨h1,h2⟩ := toInt_range (strtoll (baseOf u) u).1
  obtain ⟨hiff,heq⟩ := toU64_port h1 h2
  rw [integer?,whole]
  by_cases hfull : (strtoll (baseOf u) u).2=u.length
  · rw [if_pos hfull,Option.filter_some]
    by_cases hport : 1 ≤ toInt (strtoll (baseOf u) u).1 ∧ toInt (strtoll (baseOf u) u).1 ≤ 32
    · rw [if_pos ⟨hfull,hport⟩,if_pos (decide_eq_true (hiff.mpr hport)),heq hport]
    · rw [if_neg fun h => hport h.2,if_neg fun h => hport (hiff.mp (of_decide_eq_true h))]
  · rw [if_neg hfull,if_neg fun h => hfull h.1]
    rfl

/-- Ordered bounds are ports when both are. -/
theorem inRange_pair (x y : ℕ) :
    inRange (min x y,max x y)=true ↔ (1 ≤ x ∧ x ≤ 32) ∧ 1 ≤ y ∧ y ≤ 32 := by
  simp only [inRange,decide_eq_true_eq]
  omega

/-- The range of a token by its text alone. -/
def rangeOf (t : List UInt8) : Option (ℕ×ℕ) :=
  if 45 ∈ t then
    (whole (t.takeWhile (· ≠ 45))).bind fun l =>
      (whole (t.drop ((t.takeWhile (· ≠ 45)).length+1))).map fun h => ordered l h
  else (whole t).map fun l => (l,l)

/-- The bounds that pass the test are those of the token. -/
theorem rangeOf_filter (t : List UInt8) : (rangeOf t).filter inRange=bounds? toInt t := by
  unfold rangeOf bounds?
  split
  · rw [integer?_eq_filter,integer?_eq_filter]
    cases whole (t.takeWhile (· ≠ 45)) with
    | none => rfl
    | some x =>
      cases whole (t.drop ((t.takeWhile (· ≠ 45)).length+1)) with
      | none => by_cases hx : 1 ≤ x ∧ x ≤ 32 <;> simp [Option.filter_some,hx]
      | some y =>
        have hpair := inRange_pair x y
        by_cases hx : 1 ≤ x ∧ x ≤ 32
        · by_cases hy : 1 ≤ y ∧ y ≤ 32
          · simp [Option.filter_some,hx,hy,ordered_eq,hpair.mpr ⟨hx,hy⟩]
          · have hno : inRange (min x y,max x y)=false := by
              rw [Bool.eq_false_iff,Ne,hpair]
              exact fun h => hy h.2
            simp [Option.filter_some,hx,hy,ordered_eq,hno]
        · have hno : inRange (min x y,max x y)=false := by
            rw [Bool.eq_false_iff,Ne,hpair]
            exact fun h => hx h.1
          simp [Option.filter_some,hx,ordered_eq,hno]
  · rw [integer?_eq_filter]
    cases whole t with
    | none => rfl
    | some x =>
      have hpair := inRange_pair x x
      rw [min_self,max_self,and_self] at hpair
      by_cases hx : 1 ≤ x ∧ x ≤ 32
      · simp [Option.filter_some,hx,hpair.mpr hx]
      · have hno : inRange (x,x)=false := by
          rw [Bool.eq_false_iff,Ne,hpair]
          exact hx
        simp [Option.filter_some,hx,hno]

/-- `get_range` on a token keeps the length of the buffer and finds the range
of the token. -/
theorem getRange_spec (ht : ∀ c ∈ t,c ≠ 0) :
    ∃ t' : List UInt8,t'.length=t.length ∧
      getRange (pre++t++0::post) pre.length=some (pre++t'++0::post,rangeOf t) := by
  by_cases hd : 45 ∈ t
  · obtain ⟨a,b,rfl,ha⟩ := List.eq_append_cons_of_mem hd
    have hchr : strchr (pre++(a++45::b)++0::post) pre.length 45=
        some (some (((pre++a).length : ℕ) : ℤ)) := by
      have hidx : (a++45::b).idxOf 45=a.length := by
        rw [List.idxOf_append_of_notMem ha]
        simp
      rw [strchr,cString_eq ht]
      simp [hidx]
    have hput : putAt (pre++(a++45::b)++0::post) (((pre++a).length : ℕ) : ℤ) 0=
        some (pre++a++0::(b++0::post)) := by
      have h := putAt_length (pre++a) (b++0::post) 45 0
      simpa using h
    have hfirst : wholeInteger (pre++a++0::(b++0::post)) pre.length=some (whole a) :=
      wholeInteger_eq fun c hc => ht c (by simp [hc])
    have hsecond : wholeInteger (pre++a++0::(b++0::post)) ((((pre++a).length : ℕ) : ℤ)+1)=
        some (whole b) := by
      have h : wholeInteger (pre++a++[0]++b++0::post) (pre++a++[0]).length=some (whole b) :=
        wholeInteger_eq fun c hc => ht c (by simp [hc])
      simpa [Nat.add_assoc,Int.add_assoc] using h
    have hdash : ∀ c ∈ a,c ≠ 45 := fun c hc h => ha (h ▸ hc)
    have htake := takeWhile_terminated hdash b
    refine ⟨a++0::b,by simp,?_⟩
    have hout : pre++(a++0::b)++0::post=pre++a++0::(b++0::post) := by simp
    rw [hout,getRange,hchr,rangeOf,if_pos hd,htake]
    simp only [Option.bind_eq_bind,Option.bind_some,hput,hfirst,hsecond]
    have hdrop : (a++45::b).drop (a.length+1)=b := by simp
    rw [hdrop]
    cases whole a with
    | none => rfl
    | some l => cases whole b <;> rfl
  · have hchr : strchr (pre++t++0::post) pre.length 45=some none := by
      rw [strchr,cString_eq ht]
      simp [hd]
    refine ⟨t,rfl,?_⟩
    rw [getRange,hchr,rangeOf,if_neg hd]
    simp only [Option.bind_eq_bind,Option.bind_some,wholeInteger_eq ht]
    cases whole t <;> rfl

/-! ## Numbers -/

/-- The numbers are stored from the first cell on, and they fit. -/
structure Stored (xs : List ℕ) (s : Block ℕ×ℤ) : Prop where
  /-- The list has 256 cells. -/
  size : s.1.size=256
  /-- Counter. -/
  count : s.2=xs.length
  /-- The numbers fit. -/
  fits : xs.length ≤ 256
  /-- The cells in use. -/
  cells : ∀ k,k < xs.length → some (s.1.cell k)=xs[k]?

/-- One number is stored unless the list is full. -/
theorem storeTurn_spec {xs : List ℕ} {s : Block ℕ×ℤ} (h : Stored xs s) {j : ℕ} (h1 : 1 ≤ j)
    (h32 : j ≤ 32) :
    ∃ o,storeTurn j s=some o ∧
      Sum.elim (fun _ => xs.length=256) (Stored (xs++[j-1])) o := by
  obtain ⟨b,n⟩ := s
  obtain ⟨hsize,hcount,hfits,hcells⟩ := h
  dsimp only at hsize hcount hcells
  subst hcount
  by_cases hfull : xs.length=256
  · refine ⟨.inl b,?_,hfull⟩
    rw [storeTurn,if_pos (by dsimp only; omega)]
  · have hlt : xs.length < b.size := by omega
    have hval : (((j : ℤ)-1)%2^32).toNat=j-1 := by omega
    refine ⟨.inr (⟨b.size,Function.update b.cell xs.length (j-1)⟩,((xs.length+1 : ℕ) : ℤ)),?_,
      hsize,by simp,by simp; omega,?_⟩
    · rw [storeTurn,if_neg (by dsimp only; omega),hval,Block.write_natCast hlt,
        Option.bind_eq_bind,Option.bind_some,addInt_one (by omega)]
      rfl
    · intro k hk
      rw [List.length_append,List.length_singleton] at hk
      dsimp only
      by_cases hlast : k=xs.length
      · rw [hlast,Function.update_self]
        simp
      · rw [Function.update_of_ne hlast,hcells k (by omega),
          List.getElem?_append_left (by omega)]

/-- The numbers of one range are stored unless the list gets full. -/
theorem storeRange_spec {xs : List ℕ} {s : Block ℕ×ℤ} (h : Stored xs s) {b : ℕ×ℕ}
    (hb : 1 ≤ b.1 ∧ b.1 ≤ b.2 ∧ b.2 ≤ 32) :
    ∃ o,scanUp storeTurn b.1 (b.2+1) s=some o ∧
      Sum.elim (fun _ => 256 < (xs++List.range' (b.1-1) (b.2+1-b.1)).length)
        (Stored (xs++List.range' (b.1-1) (b.2+1-b.1))) o := by
  have hstart : Stored (xs++List.range' (b.1-1) (b.1-b.1)) s := by simpa using h
  have hcast : ((b.2 : ℤ)+1)=((b.2+1 : ℕ) : ℤ) := by
    push_cast
    rfl
  rw [hcast]
  refine scanUp_spec (fun j => Stored (xs++List.range' (b.1-1) (j-b.1)))
    (fun _ => 256 < (xs++List.range' (b.1-1) (b.2+1-b.1)).length) (by omega) hstart ?_
  intro j s hlo hhi hinv
  obtain ⟨o,ho,hspec⟩ := storeTurn_spec hinv (show 1 ≤ j by omega) (by omega)
  refine ⟨o,ho,?_⟩
  cases o with
  | inl r =>
    simp only [Sum.elim_inl,List.length_append,List.length_range'] at hspec ⊢
    omega
  | inr t =>
    have hnext : xs++List.range' (b.1-1) (j+1-b.1)=
        xs++List.range' (b.1-1) (j-b.1)++[j-1] := by
      rw [show j+1-b.1=j-b.1+1 by omega,List.range'_1_concat,List.append_assoc,
        show b.1-1+(j-b.1)=j-1 by omega]
    simp only [Sum.elim_inr] at hspec ⊢
    rw [hnext]
    exact hspec

/-! ## Tokens -/

/-- The bounds of a range are in order. -/
theorem rangeOf_ordered {t : List UInt8} {b : ℕ×ℕ} (h : rangeOf t=some b) : b.1 ≤ b.2 := by
  unfold rangeOf at h
  split at h
  · obtain ⟨l,-,hmap⟩ := Option.bind_eq_some_iff.mp h
    obtain ⟨u,-,rfl⟩ := Option.map_eq_some_iff.mp hmap
    rw [ordered_eq]
    exact min_le_max
  · obtain ⟨l,-,rfl⟩ := Option.map_eq_some_iff.mp h
    exact le_rfl

/-- The bounds of a token are its range, if the parser goes on with that. -/
theorem bounds?_of_range {t : List UInt8} {b : ℕ×ℕ} (h : rangeOf t=some b) :
    bounds? toInt t=if b.1 < 1 ∨ b.1 > 32 ∨ b.2 < 1 ∨ b.2 > 32 then none else some b := by
  rw [←rangeOf_filter,h,Option.filter_some]
  by_cases hout : b.1 < 1 ∨ b.1 > 32 ∨ b.2 < 1 ∨ b.2 > 32
  · rw [if_pos hout,inRange,if_neg fun hin => absurd hout (of_decide_eq_true hin)]
  · rw [if_neg hout,inRange,if_pos (decide_eq_true hout)]

/-- A token without bounds has none as ports. -/
theorem bounds?_of_none {t : List UInt8} (h : rangeOf t=none) : bounds? toInt t=none := by
  rw [←rangeOf_filter,h]
  rfl

/-- All tokens have bounds and their numbers fit. -/
def Fit (view : ℤ → ℤ) (ts : List (List UInt8)) : Prop :=
  (∀ t ∈ ts,(bounds? view t).isSome) ∧ (ts.flatMap (numbersOf view)).length ≤ 256

/-- Every token of a list that fits has bounds. -/
theorem Fit.bounds_ne_none {ts : List (List UInt8)} (h : Fit toInt ts) {t : List UInt8}
    (ht : t ∈ ts) : bounds? toInt t ≠ none :=
  Option.isSome_iff_ne_none.mp (h.1 t ht)

/-- The numbers of the first tokens fit as well. -/
theorem Fit.take {ts : List (List UInt8)} (h : Fit toInt ts) (i : ℕ) :
    ((ts.take i).flatMap (numbersOf toInt)).length ≤ 256 := by
  have hall := h.2
  rw [←List.take_append_drop i ts,List.flatMap_append,List.length_append] at hall
  omega

/-- The state of the loop in front of a token. -/
structure Ready (ts : List (List UInt8)) (post : List UInt8) (i : ℕ)
    (s : List UInt8×Block ℕ×ℤ) : Prop where
  /-- The tokens before are behind the position of this one. -/
  buf : ∃ front,front.length=(cut (ts.take i)).length ∧ s.1=front++cut (ts.drop i)++post
  /-- The tokens before have bounds. -/
  good : ∀ t ∈ ts.take i,(bounds? toInt t).isSome
  /-- Their numbers are stored. -/
  stored : Stored ((ts.take i).flatMap (numbersOf toInt)) s.2

/-- One token: its numbers are stored, or the list is rejected rightly. -/
theorem tokenTurn_spec {ts : List (List UInt8)} {post : List UInt8} {tokenList : Block ℤ}
    (hnul : ∀ t ∈ ts,∀ c ∈ t,c ≠ 0) (hsize : tokenList.size=ts.length)
    (hcell : ∀ k < ts.length,tokenList.cell k=((cut (ts.take k)).length : ℤ))
    {i : ℕ} (hi : i < ts.length) {s : List UInt8×Block ℕ×ℤ} (h : Ready ts post i s) :
    ∃ o,tokenTurn tokenList i s=some o ∧
      Sum.elim (fun _ => ¬Fit toInt ts) (Ready ts post (i+1)) o := by
  obtain ⟨⟨front,hfront,hbuf⟩,hgood,hstored⟩ := h
  obtain ⟨buf,s⟩ := s
  dsimp only at hbuf hstored
  subst hbuf
  have hmem : ts[i] ∈ ts := List.getElem_mem hi
  have htake : ts.take (i+1)=ts.take i++[ts[i]] := (List.take_append_getElem hi).symm
  have hsplit : front++cut (ts.drop i)++post=
      front++ts[i]++0::(cut (ts.drop (i+1))++post) := by
    rw [List.drop_eq_getElem_cons hi,cut_cons]
    simp
  have hread : tokenList.read i=some ((front.length : ℕ) : ℤ) := by
    rw [Block.read_natCast (by omega),hcell i hi,hfront]
  obtain ⟨t',hlen,hrange⟩ : ∃ t' : List UInt8,t'.length=ts[i].length ∧
      getRange (front++ts[i]++0::(cut (ts.drop (i+1))++post)) front.length=
        some (front++t'++0::(cut (ts.drop (i+1))++post),rangeOf ts[i]) :=
    getRange_spec (hnul ts[i] hmem)
  unfold tokenTurn
  simp only [Option.bind_eq_bind,hread,Option.bind_some,hsplit,hrange]
  cases hr : rangeOf ts[i] with
  | none =>
    exact ⟨_,rfl,fun hfit => hfit.bounds_ne_none hmem (bounds?_of_none hr)⟩
  | some b =>
    have hval := bounds?_of_range hr
    by_cases hin : b.1 < 1 ∨ b.1 > 32 ∨ b.2 < 1 ∨ b.2 > 32
    · rw [if_pos hin] at hval
      exact ⟨_,if_pos hin,fun hfit => hfit.bounds_ne_none hmem hval⟩
    · have hb := rangeOf_ordered hr
      rw [if_neg hin] at hval
      have hnumbers : numbersOf toInt ts[i]=List.range' (b.1-1) (b.2+1-b.1) := by
        rw [numbersOf,hval]
      have hall : (ts.take (i+1)).flatMap (numbersOf toInt)=
          (ts.take i).flatMap (numbersOf toInt)++List.range' (b.1-1) (b.2+1-b.1) := by
        rw [htake,List.flatMap_append,List.flatMap_singleton,hnumbers]
      obtain ⟨o,ho,hspec⟩ := storeRange_spec hstored (b := b) (by omega)
      simp only [if_neg hin,ho,Option.bind_some]
      refine ⟨_,rfl,?_⟩
      cases o with
      | inl l =>
        simp only [Sum.elim_inl,←hall] at hspec ⊢
        exact fun hfit => absurd (hfit.take (i+1)) (by omega)
      | inr u =>
        simp only [Sum.elim_inr] at hspec ⊢
        refine ⟨⟨front++t'++[0],?_,by simp⟩,?_,?_⟩
        · rw [htake,cut,List.flatMap_append]
          simp [hlen,hfront,cut]
        · rw [htake,List.forall_mem_append]
          exact ⟨hgood,by simp [hval]⟩
        · rw [hall]
          exact hspec

/-! ## Lists -/

section Lists

variable (view : ℤ → ℤ) (s : List UInt8)

/-- The lists of ports. -/
def Listed : Prop :=
  (∀ t ∈ s.splitOn 44,t ≠ []) ∧ (s.splitOn 44).length ≤ 256 ∧ Fit view (s.splitOn 44)

/-- The numbers of a list in the order of its tokens. -/
def numbers : List ℕ := (s.splitOn 44).flatMap (numbersOf view)

/-- What a parser of the lists leaves behind. -/
structure Parsed (intCount : ℕ) (r : Outcome) : Prop where
  /-- Exactly the lists are accepted. -/
  accepts : r.ret=0 ↔ Listed view s
  /-- The count of an accepted list. -/
  count : r.ret=0 → r.intCount=(numbers view s).length
  /-- The numbers of an accepted list. -/
  stores : r.ret=0 → ∀ k < (numbers view s).length,some (r.intList.cell k)=(numbers view s)[k]?
  /-- The count is left alone otherwise. -/
  keeps : r.ret ≠ 0 → r.intCount=intCount

end Lists

/-- The parser ends, stays inside of its arrays, and does what it is for. -/
def Meets (s : List UInt8) : Prop :=
  ∀ (post : List UInt8) (fuel : ℕ) (junk : ℕ → ℤ) (intList : Block ℕ) (intCount : ℕ),
    s.length < fuel → intList.size=256 →
      ∃ r,getIntList fuel junk (s++0::post) intList intCount=some r ∧ Parsed id s intCount r

/-- The text begins with 2^31 tokens that are not empty. -/
def ManyTokens (s : List UInt8) : Prop :=
  2^31 ≤ (s.splitOn 44).length ∧ ∀ t ∈ (s.splitOn 44).take (2^31),t ≠ []

/-- The characters of a token are characters of the text. -/
theorem mem_of_mem_splitOn {d c : UInt8} {s t : List UInt8} (ht : t ∈ s.splitOn d) (hc : c ∈ t) :
    c ∈ s := by
  induction s using tokens_induct (d := d) with
  | hone u hu =>
    rw [List.splitOn_eq_singleton hu,List.mem_singleton] at ht
    exact ht ▸ hc
  | hmore u s hu ih =>
    rw [List.splitOn_append_cons_self_of_not_mem hu,List.mem_cons] at ht
    rcases ht with rfl|ht
    · exact List.mem_append_left _ hc
    · exact List.mem_append_right _ (List.mem_cons_of_mem _ (ih ht))

/-- The loop over the tokens accepts exactly what fits and stores its numbers. -/
theorem tokens_spec {ts : List (List UInt8)} (hnul : ∀ t ∈ ts,∀ c ∈ t,c ≠ 0)
    {tokenList : Block ℤ} (hsize : tokenList.size=ts.length)
    (hcell : ∀ k < ts.length,tokenList.cell k=((cut (ts.take k)).length : ℤ))
    (post : List UInt8) {intList : Block ℕ} (h256 : intList.size=256) :
    ∃ o,scanUp (tokenTurn tokenList) 0 (ts.length : ℕ) (cut ts++post,intList,0)=some o ∧
      Sum.elim (fun _ => ¬Fit toInt ts)
        (fun e => Fit toInt ts ∧ Stored (ts.flatMap (numbersOf toInt)) e.2) o := by
  have hstart : Ready ts post 0 (cut ts++post,intList,0) :=
    ⟨⟨[],rfl,rfl⟩,by simp,⟨h256,rfl,by simp,by simp⟩⟩
  obtain ⟨o,ho,hspec⟩ := scanUp_spec (Ready ts post) (fun _ => ¬Fit toInt ts) (Nat.zero_le ts.length)
    hstart fun i s _ hi h => tokenTurn_spec hnul hsize hcell hi h
  refine ⟨o,by exact_mod_cast ho,?_⟩
  cases o with
  | inl e => exact hspec
  | inr e =>
    obtain ⟨-,hgood,hstored⟩ := hspec
    rw [List.take_length] at hgood hstored
    exact ⟨⟨hgood,hstored.fits⟩,hstored⟩

variable {s : List UInt8}

/-- The count of the tokens is that of the parts between commas. -/
theorem getTokenCount_eq (hs : ∀ c ∈ s,c ≠ 0) (post : List UInt8) {fuel : ℕ}
    (hf : s.length < fuel) :
    getTokenCount fuel (s++0::post) 44=tally 0 (s.splitOn 44) :=
  countLoop_eq (by decide) hs [] post hf 0

/-- The tokens of a short text are listed in a list that the count gives. -/
theorem getTokenList_spec (hs : ∀ c ∈ s,c ≠ 0) (post : List UInt8) {fuel : ℕ}
    (hf : s.length < fuel) (hle : (s.splitOn 44).length ≤ 256) (junk : ℕ → ℤ) :
    ∃ l,getTokenList fuel (s++0::post) 44 ⟨(s.splitOn 44).length,junk⟩=
        some (cut (s.splitOn 44)++post,l) ∧
      l.size=(s.splitOn 44).length ∧
      ∀ k < (s.splitOn 44).length,l.cell k=((cut ((s.splitOn 44).take k)).length : ℤ) := by
  have hroom : 0+(s.splitOn 44).length ≤ (⟨(s.splitOn 44).length,junk⟩ : Block ℤ).size := by
    rw [Nat.zero_add]
  obtain ⟨l,hl,hsize,-,hcells⟩ :=
    listLoop_spec (by decide) hs [] post hf hroom (by rwa [Nat.zero_add])
  exact ⟨l,hl,hsize,by simpa using hcells⟩

/-- A text that is no list of ports is rejected. -/
theorem parsed_reject (h : ¬Listed toInt s) (intCount : ℕ) (buf : List UInt8) (l : Block ℕ) :
    Parsed toInt s intCount ⟨-1,buf,l,intCount⟩ :=
  have hret : (-1 : ℤ) ≠ 0 := by decide
  ⟨⟨fun hr => absurd hr hret,fun hl => absurd hl h⟩,fun hr => absurd hr hret,
    fun hr => absurd hr hret,fun _ => rfl⟩

/-- Without an overflow the parser handles the lists of low halves. -/
theorem getIntList_parses (hs : ∀ c ∈ s,c ≠ 0) {r : ℤ×ℤ} (hr : tally 0 (s.splitOn 44)=some r)
    (post : List UInt8) {fuel : ℕ} (junk : ℕ → ℤ) {intList : Block ℕ} (intCount : ℕ)
    (hf : s.length < fuel) (h256 : intList.size=256) :
    ∃ o,getIntList fuel junk (s++0::post) intList intCount=some o ∧
      Parsed toInt s intCount o := by
  have hcount := getTokenCount_eq hs post hf
  rw [hr] at hcount
  rw [getIntList,hcount,Option.bind_eq_bind,Option.bind_some]
  rcases tally_eq_some (n := 0) hr with ⟨hall,rfl⟩|⟨hempty,hneg⟩
  · rw [Nat.cast_zero,zero_add]
    by_cases hmany : 256 < (s.splitOn 44).length
    · rw [if_pos (.inr (by dsimp only; omega))]
      exact ⟨_,rfl,parsed_reject (fun h => by have := h.2.1; omega) _ _ _⟩
    · obtain ⟨l,hl,hsize,hcells⟩ := getTokenList_spec hs post hf (by omega) junk
      obtain ⟨o,ho,hspec⟩ := tokens_spec
        (fun t ht c hc => hs c (mem_of_mem_splitOn ht hc)) hsize hcells post h256
      rw [if_neg (by dsimp only; omega),Int.toNat_natCast,hl,Option.bind_eq_bind,
        Option.bind_some,ho,Option.bind_eq_bind,Option.bind_some]
      cases o with
      | inl e => exact ⟨_,rfl,parsed_reject (fun h => hspec h.2.2) _ _ _⟩
      | inr e =>
        obtain ⟨hfit,hstored⟩ := hspec
        have hlen : e.2.2.toNat=(numbers toInt s).length := by
          rw [hstored.count,Int.toNat_natCast]
          rfl
        exact ⟨_,rfl,⟨fun _ => ⟨hall,by omega,hfit⟩,fun _ => rfl⟩,fun _ => hlen,
          fun _ => hstored.cells,fun h => absurd rfl h⟩
  · rw [if_pos (.inl (by omega))]
    exact ⟨_,rfl,parsed_reject (fun h => absurd rfl (h.1 _ hempty)) _ _ _⟩

/-- The count overflows exactly on many tokens. -/
theorem tally_eq_none_iff_manyTokens (s : List UInt8) :
    tally 0 (s.splitOn 44)=none ↔ ManyTokens s := by
  have hnone := tally_eq_none_iff (n := 0) (by norm_num) (s.splitOn 44)
  rwa [Nat.zero_add,Nat.sub_zero] at hnone

/-- With an overflow the parser has no value. -/
theorem not_meets_of_manyTokens (hs : ∀ c ∈ s,c ≠ 0) (hmany : ManyTokens s) : ¬Meets s := by
  intro hmeets
  have hcount := getTokenCount_eq hs [] (Nat.lt_succ_self s.length)
  rw [(tally_eq_none_iff_manyTokens s).mpr hmany] at hcount
  obtain ⟨r,hr,-⟩ := hmeets [] (s.length+1) (fun _ => 0) ⟨256,fun _ => 0⟩ 0 (by omega) rfl
  rw [getIntList,hcount] at hr
  simp at hr

/-! ## Low halves -/

/-- The texts that a token has for integers. -/
def integersOf (t : List UInt8) : List (List UInt8) :=
  if 45 ∈ t then [t.takeWhile (· ≠ 45),t.drop ((t.takeWhile (· ≠ 45)).length+1)] else [t]

/-- The value of the integer in front of a text is a port. -/
def IsPort (u : List UInt8) : Prop :=
  1 ≤ (strtoll (baseOf u) u).1 ∧ (strtoll (baseOf u) u).1 ≤ 32

instance instDecidableIsPort (u : List UInt8) : Decidable (IsPort u) :=
  inferInstanceAs (Decidable (_ ∧ _))

/-- A list of integers that are ports in their low halves, one of which is none
itself. -/
def Narrowed (s : List UInt8) : Prop :=
  Listed toInt s ∧ ∃ t ∈ s.splitOn 44,∃ u ∈ integersOf t,¬IsPort u

/-- A port that a text is in itself is the same in its low half. -/
theorem integer?_toInt {u : List UInt8} (h : IsPort u) : integer? id u=integer? toInt u := by
  rw [integer?,integer?,toInt_port h.1 h.2,id]

/-- A text that is a port has a value that is one. -/
theorem isPort_of_integer? {u : List UInt8} (h : integer? id u ≠ none) : IsPort u := by
  rw [integer?] at h
  split at h
  · next hport => exact hport.2
  · exact absurd rfl h

/-- Tokens whose integers are ports are read alike. -/
theorem bounds?_toInt {t : List UInt8} (h : ∀ u ∈ integersOf t,IsPort u) :
    bounds? id t=bounds? toInt t := by
  unfold integersOf at h
  unfold bounds?
  split at h
  · next hd =>
    rw [if_pos hd,if_pos hd,integer?_toInt (h _ List.mem_cons_self),
      integer?_toInt (h _ (List.mem_cons_of_mem _ List.mem_cons_self))]
  · next hd =>
    rw [if_neg hd,if_neg hd,integer?_toInt (h _ List.mem_cons_self)]

/-- The integers of a token with bounds are ports. -/
theorem isPort_of_bounds? {t u : List UInt8} (h : bounds? id t ≠ none) (hu : u ∈ integersOf t) :
    IsPort u := by
  unfold integersOf at hu
  unfold bounds? at h
  split at hu
  · next hd =>
    rw [if_pos hd] at h
    have hfirst : integer? id (t.takeWhile (· ≠ 45)) ≠ none := fun hn => h (by rw [hn]; rfl)
    have hsecond : integer? id (t.drop ((t.takeWhile (· ≠ 45)).length+1)) ≠ none := fun hn => by
      refine h ?_
      rw [hn]
      cases integer? id (t.takeWhile (· ≠ 45)) <;> rfl
    rcases List.mem_cons.mp hu with rfl|hu
    · exact isPort_of_integer? hfirst
    · rw [List.mem_singleton.mp hu]
      exact isPort_of_integer? hsecond
  · next hd =>
    rw [if_neg hd] at h
    rw [List.mem_singleton.mp hu]
    exact isPort_of_integer? fun hn => h (by rw [hn]; rfl)

/-- Where all integers are ports, the lists and their numbers are the same. -/
theorem listed_toInt (h : ∀ t ∈ s.splitOn 44,∀ u ∈ integersOf t,IsPort u) :
    (Listed id s ↔ Listed toInt s) ∧ numbers id s=numbers toInt s := by
  have hbounds : ∀ t ∈ s.splitOn 44,bounds? id t=bounds? toInt t := fun t ht => bounds?_toInt (h t ht)
  have hnumbers : (s.splitOn 44).flatMap (numbersOf id)=(s.splitOn 44).flatMap (numbersOf toInt) :=
    List.flatMap_congr fun t ht => by rw [numbersOf,numbersOf,hbounds t ht]
  refine ⟨?_,hnumbers⟩
  have hsome : (∀ t ∈ s.splitOn 44,(bounds? id t).isSome) ↔
      ∀ t ∈ s.splitOn 44,(bounds? toInt t).isSome :=
    forall₂_congr fun t ht => by rw [hbounds t ht]
  rw [Listed,Listed,Fit,Fit,hnumbers,hsome]

/-- The integers of a list are ports. -/
theorem Listed.ports (h : Listed id s) : ∀ t ∈ s.splitOn 44,∀ u ∈ integersOf t,IsPort u :=
  fun t ht _ hu => isPort_of_bounds? (Option.isSome_iff_ne_none.mp (h.2.2.1 t ht)) hu

/-- What handles the lists of low halves handles the lists unless an integer is a
port in its low half only. -/
theorem Parsed.of_toInt {intCount : ℕ} {r : Outcome} (hn : ¬Narrowed s)
    (h : Parsed toInt s intCount r) : Parsed id s intCount r := by
  by_cases hports : ∀ t ∈ s.splitOn 44,∀ u ∈ integersOf t,IsPort u
  · obtain ⟨hlisted,hnumbers⟩ := listed_toInt hports
    refine ⟨h.accepts.trans hlisted.symm,?_,?_,h.keeps⟩
    · rw [hnumbers]
      exact h.count
    · rw [hnumbers]
      exact h.stores
  · have hnot : ¬Listed id s := fun hl => hports hl.ports
    have hrej : r.ret ≠ 0 := fun hr => by
      push Not at hports
      exact hn ⟨h.accepts.mp hr,hports⟩
    exact ⟨iff_of_false hrej hnot,fun hr => absurd hr hrej,fun hr => absurd hr hrej,h.keeps⟩

/-- A list with an integer that is a port in its low half only is accepted. -/
theorem not_meets_of_narrowed (hs : ∀ c ∈ s,c ≠ 0) (hn : Narrowed s) : ¬Meets s := by
  intro hmeets
  obtain ⟨hlisted,t,ht,u,hu,hport⟩ := hn
  have hfew : ¬ManyTokens s := fun hmany => by
    have h1 := hmany.1
    have h2 := hlisted.2.1
    omega
  obtain ⟨r,hr⟩ := Option.ne_none_iff_exists'.mp (mt (tally_eq_none_iff_manyTokens s).mp hfew)
  have hparses : ∃ o,getIntList (s.length+1) (fun _ => 0) (s++[0]) ⟨256,fun _ => 0⟩ 0=some o ∧
      Parsed toInt s 0 o := getIntList_parses hs hr [] (fun _ => 0) 0 (Nat.lt_succ_self s.length) rfl
  obtain ⟨o,ho,hparsed⟩ := hparses
  obtain ⟨o1,ho1,hmeant⟩ := hmeets [] (s.length+1) (fun _ => 0) ⟨256,fun _ => 0⟩ 0 (by omega) rfl
  rw [ho] at ho1
  obtain rfl := Option.some.inj ho1
  exact hport ((hmeant.accepts.mp (hparsed.accepts.mpr hlisted)).ports t ht u hu)

/-- The parser does what it is for exactly on texts that do not begin with 2^31
tokens, whose number is an int, and in which no integer is a port in its low
half only. -/
theorem meets_iff (hs : ∀ c ∈ s,c ≠ 0) : Meets s ↔ ¬ManyTokens s ∧ ¬Narrowed s := by
  constructor
  · exact fun hmeets => ⟨fun hmany => not_meets_of_manyTokens hs hmany hmeets,
      fun hn => not_meets_of_narrowed hs hn hmeets⟩
  · rintro ⟨hfew,hn⟩ post fuel junk intList intCount hf h256
    obtain ⟨r,hr⟩ := Option.ne_none_iff_exists'.mp (mt (tally_eq_none_iff_manyTokens s).mp hfew)
    obtain ⟨o,ho,hparsed⟩ := getIntList_parses hs hr post junk intCount hf h256
    exact ⟨o,ho,hparsed.of_toInt hn⟩

/-- The list `3-1,0x10` is parsed. -/
theorem meets_two_tokens : Meets [51,45,49,44,48,120,49,48] := by
  have hsplit : (List.splitOn 44 [51,45,49,44,48,120,49,48] : List (List UInt8))=
      [[51,45,49],[48,120,49,48]] := by decide
  refine (meets_iff (by decide +kernel)).mpr ⟨fun h => ?_,?_⟩
  · have := h.1
    rw [hsplit] at this
    norm_num at this
  · rintro ⟨-,t,ht,u,hu,hport⟩
    rw [hsplit] at ht
    rcases List.mem_cons.mp ht with rfl|ht
    · rcases List.mem_cons.mp hu with rfl|hu
      · exact hport (by decide)
      · rw [List.mem_singleton.mp hu] at hport
        exact hport (by decide)
    · rw [List.mem_singleton.mp ht] at hu
      rw [List.mem_singleton.mp hu] at hport
      exact hport (by decide)

/-- The text `4294967297` is taken for port 1. -/
theorem not_meets_wide : ¬Meets [52,50,57,52,57,54,55,50,57,55] := by
  have hsplit : (List.splitOn 44 [52,50,57,52,57,54,55,50,57,55] : List (List UInt8))=
      [[52,50,57,52,57,54,55,50,57,55]] := by decide
  refine not_meets_of_narrowed (by decide +kernel) ⟨⟨?_,?_,?_,?_⟩,?_⟩ <;> rw [hsplit]
  · decide
  · decide
  · decide
  · decide
  · exact ⟨_,List.mem_cons_self,_,List.mem_cons_self,by decide⟩

/-- The text of many tokens `1`. -/
def ones (n : ℕ) : List UInt8 := [44].intercalate (List.replicate n [49])

/-- A long list of ones has many tokens. -/
theorem ones_manyTokens {n : ℕ} (h : 2^31 ≤ n) : ManyTokens (ones n) := by
  have hsplit : (ones n).splitOn 44=List.replicate n [49] := by
    refine List.splitOn_intercalate 44 ?_ ?_
    · intro t ht
      rw [List.eq_of_mem_replicate ht]
      decide
    · rw [Ne,List.replicate_eq_nil_iff]
      omega
  rw [ManyTokens,hsplit,List.length_replicate]
  refine ⟨h,fun t ht => ?_⟩
  rw [List.eq_of_mem_replicate (List.mem_of_mem_take ht)]
  decide

/-- A list of ones has no zero byte. -/
theorem ones_ne_zero (n : ℕ) : ∀ c ∈ ones n,c ≠ 0 := by
  induction n with
  | zero => simp [ones]
  | succ n ih =>
    cases n with
    | zero => decide +kernel
    | succ n =>
      have hstep : ones (n+2)=49::44::ones (n+1) := by
        rw [ones,List.replicate_succ,List.replicate_succ,List.intercalate_cons_cons,
          ←List.replicate_succ]
        rfl
      rw [hstep]
      simpa using ih

/-- A list of 2^31 tokens has no number of tokens in int. -/
theorem not_meets_ones : ¬Meets (ones (2^31)) :=
  not_meets_of_manyTokens (ones_ne_zero _) (ones_manyTokens le_rfl)

end StudyCode.DisposeString
