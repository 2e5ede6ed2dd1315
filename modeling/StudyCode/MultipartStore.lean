import StudyCode.MultipartRoundTrip

/-!
# Instances as stores of fields

An instance keeps its parts in a table and the position of each name beside it.
The two agree after a body with different names was decoded, and setting a
field keeps them so. Removing a part moves the ones behind it up, but not their
positions: an instance stands for a store of fields exactly as long as only the
last part is removed.
-/

namespace StudyCode.Multipart

/-! ## The store -/

/-- The calls that change an instance. -/
inductive Call where
  /-- Set a field. -/
  | set (name value : Text)
  /-- Remove a field. -/
  | delete (name : Text)

/-- A call on an instance. -/
def Data.call (m : Data) : Call → Option Data
  | .set name value => m.setSimple name value
  | .delete name => some (m.delete name)

/-- A call on a store. -/
def storeCall (f : Text → Option Text) : Call → Text → Option Text
  | .set name value => Function.update f name (some value)
  | .delete name => Function.update f name none

/-- The instance gives the values of the store. -/
def Agrees (m : Data) (f : Text → Option Text) : Prop := ∀ name,(m.get name).map (·.value)=f name

/-- Positions and parts belong together. -/
structure Consistent (m : Data) : Prop where
  /-- The position of a part is that of its name. -/
  found : ∀ i p,m.data[i]?=some p → m.indexes.lookup p.name=some (i+1)
  /-- At the position of a name is a part with the name. -/
  only : ∀ name j,m.indexes.lookup name=some j → ∃ i p,j=i+1 ∧ m.data[i]?=some p ∧ p.name=name
  /-- There are as many names as parts. -/
  size : m.indexes.keys.length=m.data.length

/-- A call that removes nothing but the last part. -/
def ClearCall (m : Data) : Call → Prop
  | .set _ _ => True
  | .delete name => m.indexes.lookup name=none ∨ m.indexes.lookup name=some m.data.length

/-- A part is found by its name. -/
theorem Consistent.get {m : Data} (h : Consistent m) {i : ℕ} {p : Part} (hp : m.data[i]?=some p) :
    m.get p.name=some p := by
  rw [Data.get,h.found i p hp]
  exact hp

/-- A part by its index. -/
theorem Data.get_of_lookup {m : Data} {name : Text} {i : ℕ}
    (h : m.indexes.lookup name=some (i+1)) : m.get name=m.data[i]? := by
  rw [get,h]
  rfl

/-- A name without an index. -/
theorem Data.get_of_none {m : Data} {name : Text} (h : m.indexes.lookup name=none) :
    m.get name=none := by
  rw [get,h]
  rfl

/-! ## Calls -/

/-- Setting a field that is there. -/
theorem Consistent.setOld {m : Data} (h : Consistent m) {name value : Text} {i : ℕ} {p : Part}
    (hp : m.data[i]?=some p) (hname : p.name=name) :
    ∃ n : Data,m.setSimple name value=some n ∧ Consistent n ∧
      n.get name=some (simplePart name value) ∧ ∀ x,x≠name → n.get x=m.get x := by
  have hlook : m.indexes.lookup name=some (i+1) := hname ▸ h.found i p hp
  obtain ⟨hi,-⟩ := List.getElem?_eq_some_iff.1 hp
  refine ⟨⟨m.data.set i (simplePart name value),m.indexes⟩,?_,⟨fun k q hq => ?_,fun x j hj => ?_,?_⟩,
    ?_,fun x hx => ?_⟩
  · rw [Data.setSimple,hlook]
    dsimp only
    rw [writeAt,if_pos ⟨by omega,by omega⟩]
    rfl
  · by_cases hk : k=i
    · rw [hk] at hq ⊢
      rw [List.getElem?_set_self hi] at hq
      cases hq
      exact hlook
    · rw [List.getElem?_set_ne (Ne.symm hk)] at hq
      exact h.found k q hq
  · obtain ⟨k,q,hk,hq,hqx⟩ := h.only x j hj
    by_cases hki : k=i
    · refine ⟨i,simplePart name value,hki ▸ hk,List.getElem?_set_self hi,?_⟩
      rw [hki,hp] at hq
      cases hq
      exact hname.symm.trans hqx
    · exact ⟨k,q,hk,by rw [List.getElem?_set_ne (Ne.symm hki)]; exact hq,hqx⟩
  · rw [List.length_set]
    exact h.size
  · rw [Data.get_of_lookup (m:=⟨m.data.set i (simplePart name value),m.indexes⟩) hlook]
    exact List.getElem?_set_self hi
  · cases hxl : m.indexes.lookup x with
    | none =>
      rw [Data.get_of_none hxl]
      exact Data.get_of_none (m:=⟨_,_⟩) hxl
    | some j =>
      obtain ⟨k,q,rfl,hq,hqx⟩ := h.only x j hxl
      have hki : k≠i := by
        rintro rfl
        rw [hp] at hq
        cases hq
        exact hx (hqx.symm.trans hname)
      rw [Data.get_of_lookup hxl]
      refine (Data.get_of_lookup (m:=⟨m.data.set i (simplePart name value),_⟩) hxl).trans ?_
      exact List.getElem?_set_ne (Ne.symm hki)

/-- A new key is one more. -/
theorem length_keys_insert {α β : Type} [DecidableEq α] {s : AList fun _ : α => β} {a : α} (b : β)
    (h : s.lookup a=none) : (s.insert a b).keys.length=s.keys.length+1 := by
  rw [AList.keys_insert,List.erase_of_not_mem (AList.lookup_eq_none.1 h),List.length_cons]

/-- A key less. -/
theorem length_keys_erase {α β : Type} [DecidableEq α] {s : AList fun _ : α => β} {a : α} {b : β}
    (h : s.lookup a=some b) : (s.erase a).keys.length=s.keys.length-1 := by
  have hmem : a ∈ s.keys := AList.lookup_isSome.1 (by rw [h]; rfl)
  rw [AList.keys_erase,List.length_erase_of_mem hmem]

/-- A part with a new name at the end. -/
theorem Consistent.concat {parts : List Part} {indexes : AList fun _ : Text => ℕ}
    (h : Consistent ⟨parts,indexes⟩) {p : Part} (hnone : indexes.lookup p.name=none) :
    Consistent ⟨parts++[p],indexes.insert p.name (parts.length+1)⟩ := by
  have hlast : (parts++[p])[parts.length]?=some p := List.getElem?_concat_length
  have hself : (indexes.insert p.name (parts.length+1)).lookup p.name=some (parts.length+1) :=
    AList.lookup_insert _
  have hother : ∀ x,x≠p.name →
      (indexes.insert p.name (parts.length+1)).lookup x=indexes.lookup x :=
    fun x hx => AList.lookup_insert_ne hx
  refine ⟨fun k q hq => ?_,fun x j hj => ?_,?_⟩
  · change (parts++[p])[k]?=some q at hq
    by_cases hk : k < parts.length
    · rw [List.getElem?_append_left hk] at hq
      have hkeep := h.found k q hq
      have hne : q.name≠p.name := fun he => by
        rw [he,hnone] at hkeep
        cases hkeep
      exact (hother _ hne).trans hkeep
    · obtain ⟨hlt,-⟩ := List.getElem?_eq_some_iff.1 hq
      rw [List.length_append,List.length_singleton] at hlt
      obtain rfl : k=parts.length := by omega
      rw [hlast] at hq
      cases hq
      exact hself
  · by_cases hx : x=p.name
    · rw [hx,show _=_ from hself] at hj
      cases hj
      exact ⟨parts.length,p,rfl,hlast,hx.symm⟩
    · rw [show _=_ from hother x hx] at hj
      obtain ⟨k,q,hk,hq,hqx⟩ := h.only x j hj
      obtain ⟨hlt,-⟩ := List.getElem?_eq_some_iff.1 hq
      exact ⟨k,q,hk,(List.getElem?_append_left hlt).trans hq,hqx⟩
  · change (indexes.insert p.name (parts.length+1)).keys.length=(parts++[p]).length
    rw [length_keys_insert _ hnone,List.length_append]
    exact congrArg (·+1) h.size

/-- Setting a new field. -/
theorem Consistent.setNew {m : Data} (h : Consistent m) {name value : Text}
    (hlook : m.indexes.lookup name=none) :
    ∃ n : Data,m.setSimple name value=some n ∧ Consistent n ∧
      n.get name=some (simplePart name value) ∧ ∀ x,x≠name → n.get x=m.get x := by
  refine ⟨⟨m.data++[simplePart name value],m.indexes.insert name (m.data.length+1)⟩,?_,
    Consistent.concat (p:=simplePart name value) h hlook,?_,fun x hx => ?_⟩
  · rw [Data.setSimple,hlook]
    dsimp only
    rw [h.size,writeAt,if_neg (by omega),if_pos rfl]
    rfl
  · exact (Data.get_of_lookup (m:=⟨_,_⟩) (AList.lookup_insert _)).trans List.getElem?_concat_length
  · have hother : (m.indexes.insert name (m.data.length+1)).lookup x=m.indexes.lookup x :=
      AList.lookup_insert_ne hx
    cases hxl : m.indexes.lookup x with
    | none =>
      rw [Data.get_of_none hxl]
      exact Data.get_of_none (m:=⟨_,_⟩) (hother.trans hxl)
    | some j =>
      obtain ⟨k,q,rfl,hq,-⟩ := h.only x j hxl
      obtain ⟨hlt,-⟩ := List.getElem?_eq_some_iff.1 hq
      rw [Data.get_of_lookup hxl]
      refine (Data.get_of_lookup (m:=⟨_,_⟩) (hother.trans hxl)).trans ?_
      exact List.getElem?_append_left hlt

/-- Removing a field that is there. -/
theorem Consistent.get_delete {m : Data} (h : Consistent m) {name : Text} {i : ℕ}
    (hlook : m.indexes.lookup name=some (i+1)) :
    m.delete name=⟨m.data.eraseIdx i,m.indexes.erase name⟩ ∧ i < m.data.length := by
  obtain ⟨k,p,hk,hp,-⟩ := h.only name (i+1) hlook
  obtain rfl : i=k := by omega
  obtain ⟨hi,-⟩ := List.getElem?_eq_some_iff.1 hp
  refine ⟨?_,hi⟩
  rw [Data.delete,hlook]
  dsimp only
  rw [if_pos ⟨by omega,by omega⟩]
  rfl

/-- Removing the last part. -/
theorem Consistent.deleteLast {m : Data} (h : Consistent m) {name : Text}
    (hlook : m.indexes.lookup name=some m.data.length) :
    Consistent (m.delete name) ∧ (m.delete name).get name=none ∧
      ∀ x,x≠name → (m.delete name).get x=m.get x := by
  obtain ⟨i,p,hi,hp,hname⟩ := h.only name _ hlook
  rw [hi] at hlook
  obtain ⟨hdel,-⟩ := h.get_delete hlook
  have hself : (m.indexes.erase name).lookup name=none := AList.lookup_erase name _
  have hother : ∀ x,x≠name → (m.indexes.erase name).lookup x=m.indexes.lookup x :=
    fun x hx => AList.lookup_erase_ne hx
  have hkeep : ∀ k,k < i → (m.data.eraseIdx i)[k]?=m.data[k]? := fun k hk =>
    List.getElem?_eraseIdx_of_lt hk
  have hlen : (m.data.eraseIdx i).length=i := by
    rw [List.length_eraseIdx_of_lt (by omega)]
    omega
  -- a part with another name stands in front of the last one
  have hbefore : ∀ x k q,x≠name → m.data[k]?=some q → q.name=x → k < i := fun x k q hx hq hqx => by
    obtain ⟨hlt,-⟩ := List.getElem?_eq_some_iff.1 hq
    by_contra hge
    obtain rfl : k=i := by omega
    rw [hp] at hq
    cases hq
    exact hx (hqx.symm.trans hname)
  rw [hdel]
  refine ⟨⟨fun k q hq => ?_,fun x j hj => ?_,?_⟩,Data.get_of_none (m:=⟨_,_⟩) hself,fun x hx => ?_⟩
  · change (m.data.eraseIdx i)[k]?=some q at hq
    obtain ⟨hlt,-⟩ := List.getElem?_eq_some_iff.1 hq
    rw [hlen] at hlt
    rw [hkeep k hlt] at hq
    have hold := h.found k q hq
    have hne : q.name≠name := fun he => by
      rw [he,hlook] at hold
      cases hold
      omega
    exact (hother q.name hne).trans hold
  · by_cases hx : x=name
    · subst hx
      rw [show _=_ from hself] at hj
      cases hj
    · rw [show _=_ from hother x hx] at hj
      obtain ⟨k,q,hk,hq,hqx⟩ := h.only x j hj
      exact ⟨k,q,hk,(hkeep k (hbefore x k q hx hq hqx)).trans hq,hqx⟩
  · change (m.indexes.erase name).keys.length=(m.data.eraseIdx i).length
    rw [length_keys_erase hlook,h.size,hlen]
    omega
  · cases hxl : m.indexes.lookup x with
    | none =>
      rw [Data.get_of_none hxl]
      exact Data.get_of_none (m:=⟨_,_⟩) ((hother x hx).trans hxl)
    | some j =>
      obtain ⟨k,q,rfl,hq,hqx⟩ := h.only x j hxl
      rw [Data.get_of_lookup hxl]
      refine (Data.get_of_lookup (m:=⟨_,_⟩) ((hother x hx).trans hxl)).trans ?_
      exact hkeep k (hbefore x k q hx hq hqx)

/-- A call that is clear keeps positions and parts together and does to the store what it
says. -/
theorem Consistent.call {m : Data} (h : Consistent m) {c : Call} (hc : ClearCall m c)
    {f : Text → Option Text} (hf : Agrees m f) :
    ∃ n,m.call c=some n ∧ Consistent n ∧ Agrees n (storeCall f c) := by
  cases c with
  | set name value =>
    have hset : ∃ n : Data,m.setSimple name value=some n ∧ Consistent n ∧
        n.get name=some (simplePart name value) ∧ ∀ x,x≠name → n.get x=m.get x := by
      cases hlook : m.indexes.lookup name with
      | none => exact h.setNew hlook
      | some j =>
        obtain ⟨i,p,-,hp,hname⟩ := h.only name j hlook
        exact h.setOld hp hname
    obtain ⟨n,hn,hcons,hself,hother⟩ := hset
    refine ⟨n,hn,hcons,fun x => ?_⟩
    by_cases hx : x=name
    · rw [hx,hself,storeCall,Function.update_self]
      rfl
    · rw [hother x hx,hf x,storeCall,Function.update_of_ne hx]
  | delete name =>
    obtain hnone | hlast := hc
    · have hdel : m.delete name=m := by
        rw [Data.delete,hnone]
      refine ⟨m,congrArg some hdel,h,fun x => ?_⟩
      by_cases hx : x=name
      · rw [hx,storeCall,Function.update_self,Data.get_of_none hnone]
        rfl
      · rw [hf x,storeCall,Function.update_of_ne hx]
    · obtain ⟨hcons,hself,hother⟩ := h.deleteLast hlast
      refine ⟨m.delete name,rfl,hcons,fun x => ?_⟩
      by_cases hx : x=name
      · rw [hx,hself,storeCall,Function.update_self]
        rfl
      · rw [hother x hx,hf x,storeCall,Function.update_of_ne hx]

/-- Removing a part in front of another one loses the last part. -/
theorem Consistent.unclear {m : Data} (h : Consistent m) {c : Call} (hc : ¬ClearCall m c)
    {f : Text → Option Text} (hf : Agrees m f) {n : Data} (hn : m.call c=some n) :
    ¬Agrees n (storeCall f c) := fun hag => by
  cases c with
  | set name value => exact hc trivial
  | delete name =>
    cases hlook : m.indexes.lookup name with
    | none => exact hc (Or.inl hlook)
    | some j =>
      obtain ⟨i,p,rfl,hp,hname⟩ := h.only name j hlook
      obtain ⟨hdel,hi⟩ := h.get_delete hlook
      have hlt : i+1 < m.data.length := by
        have hne : i+1≠m.data.length := fun he => hc (Or.inr (he ▸ hlook))
        omega
      obtain ⟨q,hq⟩ : ∃ q,m.data[m.data.length-1]?=some q :=
        ⟨_,List.getElem?_eq_getElem (by omega)⟩
      have hqlook := h.found _ q hq
      have hqname : q.name≠name := fun he => by
        rw [he,hlook] at hqlook
        cases hqlook
        omega
      have hstore : storeCall f (.delete name) q.name=some q.value := by
        rw [storeCall,Function.update_of_ne hqname,←hf q.name,h.get hq]
        rfl
      have hlost : (m.delete name).get q.name=none := by
        rw [hdel]
        refine (Data.get_of_lookup (m:=⟨_,_⟩)
          ((AList.lookup_erase_ne hqname).trans hqlook)).trans ?_
        refine List.getElem?_eq_none_iff.2 ?_
        change (m.data.eraseIdx i).length ≤ _
        rw [List.length_eraseIdx_of_lt hi]
      cases hn
      have hq2 := hag q.name
      rw [hlost,hstore] at hq2
      cases hq2

/-! ## Runs -/

/-- After every call of a run the instance gives the values of the store. -/
def RunAgrees (m : Data) (f : Text → Option Text) : List Call → Prop
  | [] => Agrees m f
  | c::cs => Agrees m f ∧ ∃ n,m.call c=some n ∧ RunAgrees n (storeCall f c) cs

/-- No call of a run removes a part in front of another one. -/
def ClearRun (m : Data) : List Call → Prop
  | [] => True
  | c::cs => ClearCall m c ∧ ∃ n,m.call c=some n ∧ ClearRun n cs

/-- A run agrees at its start. -/
theorem RunAgrees.head {m : Data} {f : Text → Option Text} {cs : List Call}
    (h : RunAgrees m f cs) : Agrees m f := by
  cases cs with
  | nil => exact h
  | cons c cs => exact h.1

/-- A run agrees exactly when it is clear. -/
theorem Consistent.run {m : Data} (h : Consistent m) {f : Text → Option Text} (hf : Agrees m f)
    (cs : List Call) : RunAgrees m f cs ↔ ClearRun m cs := by
  induction cs generalizing m f with
  | nil => exact ⟨fun _ => trivial,fun _ => hf⟩
  | cons c cs ih =>
    by_cases hc : ClearCall m c
    · obtain ⟨n,hn,hcons,hag⟩ := h.call hc hf
      have hiff := ih hcons hag
      constructor
      · rintro ⟨-,k,hk,hrun⟩
        cases hn.symm.trans hk
        exact ⟨hc,n,hn,hiff.1 hrun⟩
      · rintro ⟨-,k,hk,hrun⟩
        cases hn.symm.trans hk
        exact ⟨hf,n,hn,hiff.2 hrun⟩
    · constructor
      · rintro ⟨-,k,hk,hrun⟩
        exact absurd hrun.head (h.unclear hc hf hk)
      · rintro ⟨hc',-⟩
        exact absurd hc' hc

/-! ## Decoded bodies -/

/-- A boundary keeps the indexes. -/
theorem State.boundary_indexes {d e : State} (hd : d.indexes=indexesOf d.data)
    (h : d.boundary=some e) : e.indexes=indexesOf e.data := by
  unfold State.boundary at h
  cases hname : d.partName with
  | none =>
    rw [hname] at h
    cases h
    exact hd
  | some name =>
    rw [hname] at h
    obtain ⟨v,-,hv⟩ := Option.map_eq_some_iff.1 h
    cases hv
    simp only [State.store]
    rw [indexesOf_concat,hd]

/-- A turn of decode keeps the positions right. -/
theorem turn_indexes {boundary line after next : Text} {d e : State}
    (hd : d.indexes=indexesOf d.data) (h : turn boundary line after d=some (e,next)) :
    e.indexes=indexesOf e.data := by
  have hfst : ∀ x : State×Text,x.1.indexes=indexesOf x.1.data → some x=some (e,next) →
      e.indexes=indexesOf e.data := fun x hx hxe => by
    cases hxe
    exact hx
  have hheader : ∀ f : State,f.indexes=indexesOf f.data →
      (f.header line after).1.indexes=indexesOf (f.header line after).1.data := fun f hf => by
    unfold State.header
    dsimp only
    split_ifs <;> exact hf
  unfold turn at h
  by_cases h1 : line=[]
  · rw [if_pos h1] at h
    refine hfst _ ?_ h
    dsimp only
    split_ifs <;> exact hd
  rw [if_neg h1] at h
  by_cases h2 : delimiter boundary <+: line
  · rw [if_pos h2] at h
    obtain ⟨f,hf,hfe⟩ := Option.map_eq_some_iff.1 h
    exact hfst (f,after.tail) (State.boundary_indexes hd hf) (congrArg some hfe)
  rw [if_neg h2] at h
  by_cases h3 : d.processing=false ∧ isDisposition line=true
  · rw [if_pos h3] at h
    exact hfst _ (hheader {d with partName := names line d.partName} hd) h
  rw [if_neg h3] at h
  by_cases h4 : d.processing=false ∧ isHeader line=true
  · rw [if_pos h4] at h
    exact hfst _ (hheader _ hd) h
  · rw [if_neg h4] at h
    refine hfst _ ?_ h
    dsimp only
    split_ifs <;> exact hd

/-- The loop keeps the indexes. -/
theorem decodeLoop_indexes {boundary : Text} {fuel : ℕ} {rest : Text} {d e : State}
    (hd : d.indexes=indexesOf d.data) (h : decodeLoop boundary fuel rest d=some e) :
    e.indexes=indexesOf e.data := by
  induction fuel generalizing rest d with
  | zero => cases h
  | succ fuel ih =>
    rw [decodeLoop] at h
    cases hturn : turn boundary (rest.takeWhile fun c => !isBreak c)
        (rest.dropWhile fun c => !isBreak c) d with
    | none =>
      rw [hturn] at h
      cases h
    | some r =>
      obtain ⟨f,next⟩ := r
      rw [hturn] at h
      dsimp only at h
      have hf := turn_indexes hd hturn
      split_ifs at h
      · cases h
        exact hf
      · exact ih hf h

/-- Decoding builds the indexes. -/
theorem decode_indexes {body boundary : Text} {m : Data} (h : decode body boundary=some m) :
    m.indexes=indexesOf m.data := by
  obtain ⟨d,hd,rfl⟩ := Option.map_eq_some_iff.1 h
  have hind := decodeLoop_indexes (d:=State.init) rfl hd
  dsimp only
  unfold State.finish
  cases d.partName with
  | none => exact hind
  | some name =>
    simp only [State.store]
    rw [indexesOf_concat,hind]

/-- Positions of parts with different names. -/
theorem consistent_indexesOf (parts : List Part) (hnames : (parts.map Part.name).Nodup) :
    Consistent ⟨parts,indexesOf parts⟩ := by
  induction parts using List.reverseRecOn with
  | nil => exact ⟨fun i p h => (by cases h),fun name j h => (by cases h),rfl⟩
  | append_singleton parts p ih =>
    rw [List.map_append,List.nodup_append] at hnames
    obtain ⟨hold,-,hdis⟩ := hnames
    have h := ih hold
    have hnone : (indexesOf parts).lookup p.name=none := by
      cases hlook : (indexesOf parts).lookup p.name with
      | none => rfl
      | some j =>
        obtain ⟨i,q,-,hq,hqn⟩ := h.only p.name j hlook
        have hmem := List.mem_map_of_mem (f:=Part.name) (List.mem_of_getElem? hq)
        exact absurd hqn (hdis _ hmem _ (by simp))
    rw [indexesOf_concat]
    exact h.concat hnone

/-- The values of the parts by their names. -/
def fields (parts : List Part) (name : Text) : Option Text :=
  (parts.find? fun p => p.name=name).map (·.value)

/-- Consistent data hold the fields. -/
theorem Consistent.fields {m : Data} (h : Consistent m) : Agrees m (fields m.data) := fun name => by
  unfold Multipart.fields
  cases hfind : m.data.find? (fun p => p.name=name) with
  | none =>
    have hlook : m.indexes.lookup name=none := by
      cases hlook : m.indexes.lookup name with
      | none => rfl
      | some j =>
        obtain ⟨i,p,-,hp,hname⟩ := h.only name j hlook
        have hnot := List.find?_eq_none.1 hfind p (List.mem_of_getElem? hp)
        exact absurd (decide_eq_true hname) hnot
    rw [Data.get_of_none hlook]
  | some p =>
    have hname : p.name=name := by
      have := List.find?_some hfind
      exact of_decide_eq_true this
    obtain ⟨i,hi,hp⟩ := List.getElem_of_mem (List.mem_of_find?_eq_some hfind)
    rw [←hname,h.get (i:=i) (p:=p) (by rw [List.getElem?_eq_getElem hi,hp])]

/-- An instance made of a body whose names differ is a store of fields through a run of
calls exactly when no call removes a part in front of another one. -/
theorem store_run (body boundary : Text) (m : Data) (hm : decode body boundary=some m)
    (hnames : (m.data.map Part.name).Nodup) (cs : List Call) :
    RunAgrees m (fields m.data) cs ↔ ClearRun m cs := by
  have hind := decode_indexes hm
  have hcons : Consistent m := by
    have h := consistent_indexesOf m.data hnames
    rw [←hind] at h
    exact h
  exact hcons.run hcons.fields cs

/-- Two fields. -/
def twoParts : List Part :=
  [simplePart ['x'] ['1'],simplePart ['y'] ['2']]

/-- A body of two fields is decoded to these. -/
theorem decode_twoParts : ∃ m,decode (encode twoParts ['b']) ['b']=some m ∧
    m=⟨twoParts,indexesOf twoParts⟩ := by
  have hdata : (decode (encode twoParts ['b']) ['b']).map Data.data=some twoParts := by decide +kernel
  obtain ⟨m,hm,hd⟩ := Option.map_eq_some_iff.1 hdata
  refine ⟨m,hm,?_⟩
  have hi := decode_indexes hm
  cases m
  simp only at hd hi
  rw [hi,hd]

/-- The instance of two fields agrees with its store when the last one is removed,
and no longer when the first one is. -/
theorem store_run_two : ∃ m,decode (encode twoParts ['b']) ['b']=some m ∧
    RunAgrees m (fields m.data) [.delete ['y'],.set ['x'] ['3']] ∧
    ¬RunAgrees m (fields m.data) [.delete ['x']] := by
  obtain ⟨_,hm,rfl⟩ := decode_twoParts
  have hnames : (twoParts.map Part.name).Nodup := by decide
  refine ⟨_,hm,(store_run _ _ _ hm hnames _).2 ?_,fun h => ?_⟩
  · exact ⟨.inr rfl,_,rfl,trivial,_,rfl,trivial⟩
  · obtain ⟨hclear,-⟩ := (store_run _ _ _ hm hnames _).1 h
    obtain h1|h1 := hclear
    · cases h1
    · cases h1
end StudyCode.Multipart
