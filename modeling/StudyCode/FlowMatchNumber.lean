import StudyCode.FlowMatch

/-!
# Numbers of flows

A new flow gets a name and a number from two globals. The globals are set for
TCP and UDP flows only and keep their values for flows of other protocols, and
the number of a UDP flow is read from the counter of the TCP flows. Both show
at the first flow for which they make a difference.
-/

namespace StudyCode.FlowMatch

/-! ## What has been seen -/

/-- The reports that have shown a flow for the first time, in order. The script
knows a flow by its formatted id. -/
def firsts (format : ℕ → String) (rs : List Report) : List Report :=
  rs.foldl (fun seen r =>
    if format r.flowid ∈ seen.map (fun a => format a.flowid) then seen else seen++[r]) []

/-- A report shows a flow that none of the earlier ones has shown. -/
def IsNew (format : ℕ → String) (before : List Report) (r : Report) : Prop :=
  ∀ a ∈ before,format a.flowid≠format r.flowid

/-- Flows of a protocol. -/
def ofProto (proto : ℕ) (flows : List Report) : ℕ := flows.countP fun r => r.tuple.proto=proto

/-- The counters are the numbers of TCP and UDP flows seen. -/
structure Exact (format : ℕ → String) (rs : List Report) : Prop where
  /-- The flows of TCP are counted. -/
  tcp : (logs format rs).tcpFlowNum=ofProto 6 (firsts format rs)
  /-- The flows of UDP are counted. -/
  udp : (logs format rs).udpFlowNum=ofProto 17 (firsts format rs)

/-- What the report of a new flow leaves: the name and the number of the flow,
or counters that stay where the protocol is another one. -/
structure Numbered (format : ℕ → String) (before : List Report) (r : Report) (f : Flow) :
    Prop where
  /-- A flow of TCP has the number of those before. -/
  tcp : r.tuple.proto=6 → f.flowSque=(some .tcp,some (ofProto 6 (firsts format before)))
  /-- A flow of UDP has the number of those before. -/
  udp : r.tuple.proto=17 → f.flowSque=(some .udp,some (ofProto 17 (firsts format before)))
  /-- Any other flow has neither name, and the counters stay. -/
  other : r.tuple.proto≠6 → r.tuple.proto≠17 →
    f.flowSque.1≠some .tcp ∧ f.flowSque.1≠some .udp ∧
      (logs format (before++[r])).tcpFlowNum=(logs format before).tcpFlowNum ∧
      (logs format (before++[r])).udpFlowNum=(logs format before).udpFlowNum

/-- At every time of a run the counters are exact, and every new flow is
numbered. -/
def NumbersFlows (format : ℕ → String) (rs : List Report) : Prop :=
  ∀ before,before <+: rs → Exact format before ∧
    ∀ r,before++[r] <+: rs → IsNew format before r →
      ∃ f,(logs format (before++[r])).flowDic.lookup (format r.flowid)=some f ∧
        Numbered format before r f

/-- A new flow may come: a UDP flow while as many TCP as UDP flows have been
seen, a flow of another protocol while none of them has. -/
def Fits (seen : List Report) (r : Report) : Prop :=
  (r.tuple.proto=17 → ofProto 6 seen=ofProto 17 seen) ∧
    (r.tuple.proto≠6 → r.tuple.proto≠17 → ∀ a ∈ seen,a.tuple.proto≠6 ∧ a.tuple.proto≠17)

/-- All new flows of a run fit. -/
def AllFit (format : ℕ → String) (rs : List Report) : Prop :=
  ∀ before r,before++[r] <+: rs → IsNew format before r → Fits (firsts format before) r

variable {format : ℕ → String} {rs before : List Report} {r : Report}

/-- One report more of a protocol. -/
theorem ofProto_concat (proto : ℕ) (seen : List Report) (r : Report) :
    ofProto proto (seen++[r])=ofProto proto seen+if r.tuple.proto=proto then 1 else 0 := by
  rw [ofProto,List.countP_append,List.countP_singleton]
  by_cases h : r.tuple.proto=proto
  · rw [if_pos h,if_pos (decide_eq_true h)]
    rfl
  · rw [if_neg h,if_neg (by rw [decide_eq_true_iff]; exact h)]
    rfl

/-- One report more, which may be the first of its flow. -/
theorem firsts_concat (format : ℕ → String) (rs : List Report) (r : Report) :
    firsts format (rs++[r])=
      if format r.flowid ∈ (firsts format rs).map (fun a => format a.flowid) then firsts format rs
      else firsts format rs++[r] := by
  rw [firsts,List.foldl_append]
  rfl

/-- The flows seen are those of all reports. -/
theorem mem_firsts_key (format : ℕ → String) (rs : List Report) (k : String) :
    k ∈ (firsts format rs).map (fun a => format a.flowid) ↔ ∃ a ∈ rs,format a.flowid=k := by
  induction rs using List.reverseRecOn with
  | nil => simp [firsts]
  | append_singleton rs r ih =>
    rw [firsts_concat]
    split
    case isTrue h =>
      rw [ih]
      constructor
      · rintro ⟨a,ha,hk⟩
        exact ⟨a,List.mem_append_left _ ha,hk⟩
      · rintro ⟨a,ha,hk⟩
        rcases List.mem_append.mp ha with ha|ha
        · exact ⟨a,ha,hk⟩
        · obtain rfl := List.mem_singleton.mp ha
          rw [←ih,←hk]
          exact h
    case isFalse h =>
      rw [List.map_append,List.mem_append,ih]
      constructor
      · rintro (⟨a,ha,hk⟩|hk)
        · exact ⟨a,List.mem_append_left _ ha,hk⟩
        · exact ⟨r,by simp,(List.mem_singleton.mp hk).symm⟩
      · rintro ⟨a,ha,hk⟩
        rcases List.mem_append.mp ha with ha|ha
        · exact Or.inl ⟨a,ha,hk⟩
        · obtain rfl := List.mem_singleton.mp ha
          exact Or.inr (List.mem_singleton.mpr hk.symm)

/-- The first report of a flow is kept. -/
theorem firsts_new (h : IsNew format before r) :
    firsts format (before++[r])=firsts format before++[r] := by
  rw [firsts_concat,if_neg]
  rw [mem_firsts_key]
  rintro ⟨a,ha,hk⟩
  exact h a ha hk

/-- A later report is not. -/
theorem firsts_old (h : ¬IsNew format before r) :
    firsts format (before++[r])=firsts format before := by
  rw [firsts_concat,if_pos]
  rw [mem_firsts_key]
  by_contra hno
  exact h fun a ha hk => hno ⟨a,ha,hk⟩

/-! ## One report -/

/-- The table holds the flows of all reports. -/
theorem lookup_eq_none_iff (format : ℕ → String) (before : List Report) (r : Report) :
    (logs format before).flowDic.lookup (format r.flowid)=none ↔ IsNew format before r := by
  rcases logs_balanced format before (format r.flowid) with ⟨hnone,hlast⟩|⟨f,a,hsome,hlast,-⟩
  · refine ⟨fun _ a ha hk => ?_,fun _ => hnone⟩
    rw [lastWithKey,List.getLast?_eq_none_iff] at hlast
    have hmem : a ∈ before.filter fun a => format a.flowid=format r.flowid :=
      List.mem_filter.mpr ⟨ha,decide_eq_true hk⟩
    rw [hlast] at hmem
    cases hmem
  · constructor
    · intro hnone
      rw [hsome] at hnone
      cases hnone
    · intro hnew
      obtain ⟨ha,hk⟩ := List.mem_filter.mp (List.mem_of_getLast? hlast)
      exact absurd (of_decide_eq_true hk) (hnew a ha)

/-- Booking leaves the number of a flow alone. -/
theorem book_flowSque (r : Report) (f : Flow) : (book r f).flowSque=f.flowSque := by
  unfold book
  dsimp only
  split <;> rfl

/-- The globals that number flows. -/
structure SameNumbers (s s1 : Script) : Prop where
  /-- The flows of TCP stay. -/
  tcp : s1.tcpFlowNum=s.tcpFlowNum
  /-- The flows of UDP stay. -/
  udp : s1.udpFlowNum=s.udpFlowNum
  /-- The type stays. -/
  type : s1.flowType=s.flowType

/-- Counting depends on nothing else. -/
theorem SameNumbers.countType {s s1 : Script} (h : SameNumbers s s1) :
    SameNumbers (FlowMatch.countType s) (FlowMatch.countType s1) := by
  unfold FlowMatch.countType
  rw [h.type]
  split_ifs
  · exact ⟨congrArg (·+1) h.tcp,h.udp,rfl⟩
  · exact ⟨h.tcp,congrArg (·+1) h.udp,rfl⟩
  · exact h

/-- A known flow leaves them alone. -/
theorem log_old {s : Script} (h : s.flowDic.lookup (format r.flowid)≠none) :
    SameNumbers s (log format r s) := by
  unfold log
  dsimp only
  rw [if_neg h]
  split <;> exact ⟨rfl,rfl,rfl⟩

/-- A new flow is numbered by the globals, which are set and counted up then. -/
theorem log_new {s : Script} (h : s.flowDic.lookup (format r.flowid)=none) :
    SameNumbers (countType (setType r.tuple.proto s)) (log format r s) ∧
      ∃ f,(log format r s).flowDic.lookup (format r.flowid)=some f ∧
        f.flowSque=((setType r.tuple.proto s).flowType,(setType r.tuple.proto s).flowNum) := by
  have hset : setType r.tuple.proto {s with flowAll := s.flowAll+1}=
      {setType r.tuple.proto s with flowAll := s.flowAll+1} := by
    unfold setType
    dsimp only
    split_ifs <;> rfl
  unfold log
  dsimp only
  rw [if_pos h]
  have hsame : SameNumbers (countType (setType r.tuple.proto s))
      (register (format r.flowid) r {s with flowAll := s.flowAll+1}) := by
    refine SameNumbers.countType ?_
    rw [hset]
    exact ⟨rfl,rfl,rfl⟩
  have hdic : (register (format r.flowid) r {s with flowAll := s.flowAll+1}).flowDic=
      s.flowDic.insert (format r.flowid) (newFlow r.tuple
        (setType r.tuple.proto {s with flowAll := s.flowAll+1})) := by
    unfold register
    rw [(countType_same _).flowDic,insertFlow,(setType_same _ _).flowDic]
  have hlook : (register (format r.flowid) r {s with flowAll := s.flowAll+1}).flowDic.lookup
      (format r.flowid)=some (newFlow r.tuple
        (setType r.tuple.proto {s with flowAll := s.flowAll+1})) := by
    rw [hdic]
    exact AList.lookup_insert _
  rw [hlook]
  refine ⟨⟨hsame.tcp,hsame.udp,hsame.type⟩,_,AList.lookup_insert _,?_⟩
  rw [book_flowSque,newFlow,hset]

/-! ## The globals over a run -/

/-- The name is unset as long as no TCP or UDP flow has been seen. -/
theorem flowType_eq_none_iff (format : ℕ → String) (rs : List Report) :
    (logs format rs).flowType=none ↔
      ∀ a ∈ firsts format rs,a.tuple.proto≠6 ∧ a.tuple.proto≠17 := by
  induction rs using List.reverseRecOn with
  | nil =>
    refine ⟨fun _ a ha => ?_,fun _ => rfl⟩
    cases ha
  | append_singleton rs r ih =>
    rw [logs_concat]
    by_cases hnew : IsNew format rs r
    · obtain ⟨hs,-⟩ := log_new ((lookup_eq_none_iff format rs r).mpr hnew)
      have hcount : (countType (setType r.tuple.proto (logs format rs))).flowType=
          (setType r.tuple.proto (logs format rs)).flowType := by
        unfold countType
        split_ifs <;> rfl
      rw [hs.type,hcount,firsts_new hnew]
      simp only [List.mem_append,List.mem_singleton,or_imp,forall_and,forall_eq]
      by_cases h6 : r.tuple.proto=6
      · simp [setType,h6]
      · by_cases h17 : r.tuple.proto=17
        · simp [setType,h17]
        · simp only [setType,h6,h17,if_false,ne_eq,not_false_eq_true,and_true]
          rw [ih]
          exact forall₂_and
    · have hold : (logs format rs).flowDic.lookup (format r.flowid)≠none :=
        fun h => hnew ((lookup_eq_none_iff format rs r).mp h)
      rw [(log_old hold).type,firsts_old hnew,ih]

/-- A report of a known flow keeps the numbers exact. -/
theorem Exact.old (h : Exact format before) (hold : ¬IsNew format before r) :
    Exact format (before++[r]) := by
  have hfound : (logs format before).flowDic.lookup (format r.flowid)≠none :=
    fun hn => hold ((lookup_eq_none_iff format before r).mp hn)
  have hs := log_old hfound
  refine ⟨?_,?_⟩
  · rw [logs_concat,hs.tcp,h.tcp,firsts_old hold]
  · rw [logs_concat,hs.udp,h.udp,firsts_old hold]

/-- What a new flow sets and counts up is counted as it should be. -/
def Counts (format : ℕ → String) (before : List Report) (r : Report) : Prop :=
  (countType (setType r.tuple.proto (logs format before))).tcpFlowNum=
      ofProto 6 (firsts format before)+(if r.tuple.proto=6 then 1 else 0) ∧
    (countType (setType r.tuple.proto (logs format before))).udpFlowNum=
      ofProto 17 (firsts format before)+if r.tuple.proto=17 then 1 else 0

/-- A new flow keeps the numbers exact when it is counted. -/
theorem exact_concat_iff (hnew : IsNew format before r)
    (hs : SameNumbers (countType (setType r.tuple.proto (logs format before)))
      (logs format (before++[r]))) : Exact format (before++[r]) ↔ Counts format before r := by
  rw [Counts,←ofProto_concat,←ofProto_concat,←firsts_new hnew,←hs.tcp,←hs.udp]
  exact ⟨fun he => ⟨he.tcp,he.udp⟩,fun he => ⟨he.1,he.2⟩⟩

variable {f : Flow}

/-- A TCP flow is always right. -/
theorem Exact.new_tcp (h : Exact format before) (h6 : r.tuple.proto=6)
    (hsque : f.flowSque=((setType r.tuple.proto (logs format before)).flowType,
      (setType r.tuple.proto (logs format before)).flowNum)) :
    (Counts format before r ∧ Numbered format before r f) ↔ Fits (firsts format before) r := by
  have hset : setType r.tuple.proto (logs format before)={logs format before with
      flowType := some .tcp
      flowNum := some (logs format before).tcpFlowNum} := by simp [setType,h6]
  rw [hset] at hsque
  rw [Counts,hset]
  refine ⟨fun _ => ⟨fun h17 => by omega,fun hne => absurd h6 hne⟩,fun _ => ⟨⟨?_,?_⟩,?_,?_,?_⟩⟩
  · rw [if_pos h6,←h.tcp]
    rfl
  · rw [if_neg (by omega),Nat.add_zero,←h.udp]
    rfl
  · intro _
    rw [hsque,h.tcp]
  · intro h17
    omega
  · intro hne
    exact absurd h6 hne

/-- A UDP flow gets the number of TCP flows. -/
theorem Exact.new_udp (h : Exact format before) (h17 : r.tuple.proto=17)
    (hsque : f.flowSque=((setType r.tuple.proto (logs format before)).flowType,
      (setType r.tuple.proto (logs format before)).flowNum)) :
    (Counts format before r ∧ Numbered format before r f) ↔ Fits (firsts format before) r := by
  have h6 : r.tuple.proto≠6 := by omega
  have hset : setType r.tuple.proto (logs format before)={logs format before with
      flowType := some .udp
      flowNum := some (logs format before).tcpFlowNum} := by simp [setType,h17]
  rw [hset] at hsque
  rw [Counts,hset]
  constructor
  · rintro ⟨-,hn⟩
    have hnum := hn.udp h17
    rw [hsque,h.tcp] at hnum
    refine ⟨fun _ => ?_,fun _ hne => absurd h17 hne⟩
    simpa using hnum
  · intro hfit
    refine ⟨⟨?_,?_⟩,?_,?_,?_⟩
    · rw [if_neg h6,Nat.add_zero,←h.tcp]
      rfl
    · rw [if_pos h17,←h.udp]
      rfl
    · intro hne
      exact absurd hne h6
    · intro _
      rw [hsque,h.tcp,hfit.1 h17]
    · intro _ hne
      exact absurd h17 hne

/-- Any other flow takes over what the globals hold. -/
theorem Exact.new_other (h : Exact format before) (h6 : r.tuple.proto≠6) (h17 : r.tuple.proto≠17)
    (hs : SameNumbers (countType (setType r.tuple.proto (logs format before)))
      (logs format (before++[r])))
    (hsque : f.flowSque=((setType r.tuple.proto (logs format before)).flowType,
      (setType r.tuple.proto (logs format before)).flowNum)) :
    (Counts format before r ∧ Numbered format before r f) ↔ Fits (firsts format before) r := by
  have hset : setType r.tuple.proto (logs format before)=logs format before := by
    simp [setType,h6,h17]
  have hfits : Fits (firsts format before) r ↔ (logs format before).flowType=none := by
    rw [flowType_eq_none_iff format before]
    exact ⟨fun hfit => hfit.2 h6 h17,fun hall => ⟨fun h => absurd h h17,fun _ _ => hall⟩⟩
  rw [hset] at hsque hs
  rw [hfits,Counts,hset]
  constructor
  · rintro ⟨-,hn⟩
    obtain ⟨htcp,hudp,-⟩ := hn.other h6 h17
    rw [hsque] at htcp hudp
    cases htype : (logs format before).flowType with
    | none => rfl
    | some t =>
      cases t with
      | tcp => exact absurd htype htcp
      | udp => exact absurd htype hudp
  · intro hnone
    have hcount : countType (logs format before)=logs format before := by
      rw [countType,hnone,if_neg (by simp),if_neg (by simp)]
    rw [hcount] at hs ⊢
    refine ⟨⟨?_,?_⟩,?_,?_,?_⟩
    · rw [if_neg h6,Nat.add_zero,h.tcp]
    · rw [if_neg h17,Nat.add_zero,h.udp]
    · intro hp
      exact absurd hp h6
    · intro hp
      exact absurd hp h17
    · intro _ _
      rw [hsque,hnone]
      exact ⟨by simp,by simp,hs.tcp,hs.udp⟩

/-- Behind exact counters a new flow is numbered and counted if and only if it
fits. -/
theorem Exact.new_iff (h : Exact format before) (hnew : IsNew format before r) :
    (Exact format (before++[r]) ∧
      ∃ f,(logs format (before++[r])).flowDic.lookup (format r.flowid)=some f ∧
        Numbered format before r f) ↔ Fits (firsts format before) r := by
  obtain ⟨hs,f,hf,hsque⟩ := log_new ((lookup_eq_none_iff format before r).mpr hnew)
  rw [←logs_concat] at hs hf
  have hentry : (∃ f,(logs format (before++[r])).flowDic.lookup (format r.flowid)=some f ∧
      Numbered format before r f) ↔ Numbered format before r f := by
    constructor
    · rintro ⟨g,hg,hn⟩
      rw [hf] at hg
      cases hg
      exact hn
    · exact fun hn => ⟨f,hf,hn⟩
  rw [exact_concat_iff hnew hs,hentry]
  by_cases h6 : r.tuple.proto=6
  · exact h.new_tcp h6 hsque
  · by_cases h17 : r.tuple.proto=17
    · exact h.new_udp h17 hsque
    · exact h.new_other h6 h17 hs hsque

/-! ## Runs -/

/-- While all flows fit, the numbers are exact. -/
theorem AllFit.exact (h : AllFit format rs) : ∀ before,before <+: rs → Exact format before := by
  intro before
  induction before using List.reverseRecOn with
  | nil => exact fun _ => ⟨rfl,rfl⟩
  | append_singleton before r ih =>
    intro hpre
    have hex := ih ((List.prefix_append before [r]).trans hpre)
    by_cases hnew : IsNew format before r
    · exact ((hex.new_iff hnew).mpr (h before r hpre hnew)).1
    · exact hex.old hnew

/-- Exact numbers show that all flows fit. -/
theorem NumbersFlows.allFit (h : NumbersFlows format rs) : AllFit format rs := by
  intro before r hpre hnew
  obtain ⟨hex,hall⟩ := h before ((List.prefix_append before [r]).trans hpre)
  exact (hex.new_iff hnew).mp ⟨(h (before++[r]) hpre).1,hall r hpre hnew⟩

/-- A run numbers its flows if and only if every new flow fits. -/
theorem numbersFlows_iff_allFit (format : ℕ → String) (rs : List Report) :
    NumbersFlows format rs ↔ AllFit format rs := by
  refine ⟨NumbersFlows.allFit,fun h before hpre => ⟨h.exact before hpre,?_⟩⟩
  intro r hpre' hnew
  exact (((h.exact before hpre).new_iff hnew).mpr (h before r hpre' hnew)).2

/-- A TCP flow with an id. -/
def tcpReport (id : ℕ) : Report := ⟨⟨"10.0.0.1","10.0.0.2",6,40000,80⟩,false,1,60,1,60,id⟩

/-- A UDP flow with an id. -/
def udpReport (id : ℕ) : Report := ⟨⟨"10.0.0.1","10.0.0.2",17,40000,53⟩,false,1,60,1,60,id⟩

/-- Behind one TCP flow the first UDP flow gets number 1. -/
theorem numbersFlows_tcp_udp_false : ¬NumbersFlows Nat.repr [tcpReport 1,udpReport 2] := by
  intro h
  have hnew : IsNew Nat.repr [tcpReport 1] (udpReport 2) := by
    intro a ha
    obtain rfl := List.mem_singleton.mp ha
    decide
  have hnum := (h.allFit [tcpReport 1] (udpReport 2) (List.prefix_refl _) hnew).1 rfl
  revert hnum
  decide

end StudyCode.FlowMatch
