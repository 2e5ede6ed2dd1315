import Mathlib.Data.List.AList
import Mathlib.Tactic

/-!
# Accounting of flows with and without alerts

Each call of log reports the cumulative counters of one flow. The script books
the difference to what it has booked already to one of two sets of totals of the
flow, depending on whether the flow has alerts now.
-/

namespace StudyCode.FlowMatch

/-- The type of a flow. -/
inductive FlowType where
  | tcp
  | udp
  deriving DecidableEq

/-- The addresses of a flow. -/
structure FlowTuple where
  /-- The source address. -/
  srcip : String
  /-- The destination address. -/
  dstip : String
  /-- The protocol. -/
  proto : ℕ
  /-- The source port. -/
  sp : ℕ
  /-- The destination port. -/
  dp : ℕ

/-- What the functions of the engine return in a call of log. -/
structure Report where
  /-- SCFlowTuple. -/
  tuple : FlowTuple
  /-- SCFlowHasAlerts. -/
  hasAlerts : Bool
  /-- SCFlowStats: packets to the server. -/
  tscnt : ℕ
  /-- SCFlowStats: bytes to the server. -/
  tsbytes : ℕ
  /-- SCFlowStats: packets to the client. -/
  tccnt : ℕ
  /-- SCFlowStats: bytes to the client. -/
  tcbytes : ℕ
  /-- SCFlowId. -/
  flowid : ℕ

/-- The record of a flow in flow_dic. -/
structure Flow where
  /-- Packets to the server without an alert. -/
  noMatchTscnt : ℤ
  /-- Packets to the client without an alert. -/
  noMatchTccnt : ℤ
  /-- Bytes to the server without an alert. -/
  noMatchTsbytes : ℤ
  /-- Bytes to the client without an alert. -/
  noMatchTcbytes : ℤ
  /-- Packets to the server with an alert. -/
  matchTscnt : ℤ
  /-- Packets to the client with an alert. -/
  matchTccnt : ℤ
  /-- Bytes to the server with an alert. -/
  matchTsbytes : ℤ
  /-- Bytes to the client with an alert. -/
  matchTcbytes : ℤ
  /-- The addresses and ports. -/
  flowtuple : FlowTuple
  /-- The type and its number in it. -/
  flowSque : Option FlowType × Option ℕ

/-- The globals of the script. -/
structure Script where
  /-- The reports. -/
  flowAll : ℕ
  /-- The reports with alerts. -/
  flowMatch : ℕ
  /-- The flows of UDP. -/
  udpFlowNum : ℕ
  /-- The flows of TCP. -/
  tcpFlowNum : ℕ
  /-- The flows by their names. -/
  flowDic : AList fun _ : String => Flow
  /-- The type that was set last. -/
  flowType : Option FlowType
  /-- The number that was set last. -/
  flowNum : Option ℕ

/-- setup, after the script was loaded. -/
def setup : Script := ⟨0,0,0,0,∅,none,none⟩

/-- The type and the number of a new flow. -/
def setType (proto : ℕ) (s : Script) : Script :=
  let s := if proto=6 then {s with
      flowType := some .tcp
      flowNum := some s.tcpFlowNum} else s
  if proto=17 then {s with
      flowType := some .udp
      flowNum := some s.tcpFlowNum} else s

/-- The record of a new flow. -/
def newFlow (tuple : FlowTuple) (s : Script) : Flow :=
  ⟨0,0,0,0,0,0,0,0,tuple,(s.flowType,s.flowNum)⟩

/-- The numbers of the flows after a new one. -/
def countType (s : Script) : Script :=
  if s.flowType=some .tcp then {s with tcpFlowNum := s.tcpFlowNum+1}
  else if s.flowType=some .udp then {s with udpFlowNum := s.udpFlowNum+1}
  else s

/-- A new flow is put into flow_dic. -/
def insertFlow (idstr : String) (tuple : FlowTuple) (s : Script) : Script :=
  {s with flowDic := s.flowDic.insert idstr (newFlow tuple s)}

/-- The branch of log for a flow that is not in flow_dic. -/
def register (idstr : String) (r : Report) (s : Script) : Script :=
  countType (insertFlow idstr r.tuple (setType r.tuple.proto s))

/-- The updates of the totals of a flow. -/
def book (r : Report) (f : Flow) : Flow :=
  let currentTscnt := r.tscnt-f.noMatchTscnt-f.matchTscnt
  let currentTccnt := r.tccnt-f.noMatchTccnt-f.matchTccnt
  let currentTsbytes := r.tsbytes-f.noMatchTsbytes-f.matchTsbytes
  let currentTcbytes := r.tcbytes-f.noMatchTcbytes-f.matchTcbytes
  if r.hasAlerts then {f with
      matchTscnt := currentTscnt+f.matchTscnt
      matchTccnt := currentTccnt+f.matchTccnt
      matchTsbytes := currentTsbytes+f.matchTsbytes
      matchTcbytes := currentTcbytes+f.matchTcbytes}
  else {f with
      noMatchTscnt := currentTscnt+f.noMatchTscnt
      noMatchTccnt := currentTccnt+f.noMatchTccnt
      noMatchTsbytes := currentTsbytes+f.noMatchTsbytes
      noMatchTcbytes := currentTcbytes+f.noMatchTcbytes}

/-- The function log. The number of a flow is formatted to the key of flow_dic. -/
def log (format : ℕ → String) (r : Report) (s : Script) : Script :=
  let s := {s with flowAll := s.flowAll+1}
  let idstr := format r.flowid
  let s := if s.flowDic.lookup idstr=none then register idstr r s else s
  match s.flowDic.lookup idstr with
  | none => s
  | some f => {s with
      flowMatch := if r.hasAlerts then s.flowMatch+1 else s.flowMatch
      flowDic := s.flowDic.insert idstr (book r f)}

/-- The script after some calls of log. -/
def logs (format : ℕ → String) (rs : List Report) : Script :=
  rs.foldl (fun s r => log format r s) setup

/-- The totals of deinit over the flows in some order. -/
def deinit (pairs : List Flow) : ℤ × ℤ :=
  pairs.foldl (fun t f =>
    (t.1+f.matchTsbytes+f.matchTcbytes+f.noMatchTsbytes+f.noMatchTcbytes,
      t.2+f.matchTsbytes+f.matchTcbytes)) (0,0)

/-- The flows of flow_dic. -/
def Script.flows (s : Script) : List Flow := s.flowDic.entries.map Sigma.snd

/-! ## One call -/

/-- The totals of a flow are what was reported. -/
structure Balanced (f : Flow) (r : Report) : Prop where
  /-- Packets to the server add up. -/
  tscnt : f.matchTscnt+f.noMatchTscnt=r.tscnt
  /-- Packets to the client add up. -/
  tccnt : f.matchTccnt+f.noMatchTccnt=r.tccnt
  /-- Bytes to the server add up. -/
  tsbytes : f.matchTsbytes+f.noMatchTsbytes=r.tsbytes
  /-- Bytes to the client add up. -/
  tcbytes : f.matchTcbytes+f.noMatchTcbytes=r.tcbytes

/-- Booking a report balances the flow. -/
theorem book_balanced (r : Report) (f : Flow) : Balanced (book r f) r := by
  unfold book
  cases r.hasAlerts with
  | true =>
    rw [if_pos rfl]
    exact ⟨by ring,by ring,by ring,by ring⟩
  | false =>
    rw [if_neg Bool.false_ne_true]
    exact ⟨by ring,by ring,by ring,by ring⟩

/-- What a change of the types and numbers leaves alone. -/
structure SameFlows (s s1 : Script) : Prop where
  /-- The reports stay. -/
  flowAll : s1.flowAll=s.flowAll
  /-- The reports with alerts stay. -/
  flowMatch : s1.flowMatch=s.flowMatch
  /-- The flows stay. -/
  flowDic : s1.flowDic=s.flowDic

/-- Setting the type leaves the flows. -/
theorem setType_same (proto : ℕ) (s : Script) : SameFlows s (setType proto s) := by
  unfold setType
  dsimp only
  split_ifs <;> exact ⟨rfl,rfl,rfl⟩

/-- Counting the types leaves the flows. -/
theorem countType_same (s : Script) : SameFlows s (countType s) := by
  unfold countType
  split_ifs <;> exact ⟨rfl,rfl,rfl⟩

/-- A flow without bookings. -/
def Fresh (f : Flow) : Prop := ∃ tuple s,f=newFlow tuple s

/-- A new flow is registered empty. -/
theorem register_spec (idstr : String) (r : Report) (s : Script) :
    ∃ f,Fresh f ∧ (register idstr r s).flowDic=s.flowDic.insert idstr f ∧
      (register idstr r s).flowAll=s.flowAll ∧ (register idstr r s).flowMatch=s.flowMatch := by
  have h1 := setType_same r.tuple.proto s
  have h2 := countType_same (insertFlow idstr r.tuple (setType r.tuple.proto s))
  refine ⟨newFlow r.tuple (setType r.tuple.proto s),⟨_,_,rfl⟩,?_,?_,?_⟩
  · exact h2.flowDic.trans (by rw [insertFlow,h1.flowDic])
  · exact h2.flowAll.trans h1.flowAll
  · exact h2.flowMatch.trans h1.flowMatch

/-- What a call of log does: it books the report to the flow, which is a new one
when there was none. -/
structure Logged (idstr : String) (r : Report) (s s1 : Script) (f : Flow) : Prop where
  /-- The flow before. -/
  found : s.flowDic.lookup idstr=some f ∨ (s.flowDic.lookup idstr=none ∧ Fresh f)
  /-- The flow after. -/
  booked : s1.flowDic.lookup idstr=some (book r f)
  /-- The other flows. -/
  others : ∀ k,k≠idstr → s1.flowDic.lookup k=s.flowDic.lookup k
  /-- The number of calls. -/
  flowAll : s1.flowAll=s.flowAll+1
  /-- The number of calls with alerts. -/
  flowMatch : s1.flowMatch=s.flowMatch+if r.hasAlerts then 1 else 0

/-- One alert more. -/
theorem add_alert (n : ℕ) (b : Bool) : (if b then n+1 else n)=n+if b then 1 else 0 := by
  cases b with
  | true => rfl
  | false => rfl

/-- What one report logs. -/
theorem log_spec (format : ℕ → String) (r : Report) (s : Script) :
    ∃ f,Logged (format r.flowid) r s (log format r s) f := by
  unfold log
  dsimp only
  cases hl : s.flowDic.lookup (format r.flowid) with
  | some f =>
    refine ⟨f,?_⟩
    rw [if_neg (Option.some_ne_none f)]
    dsimp only
    rw [hl]
    constructor
    · exact Or.inl hl
    · exact AList.lookup_insert _
    · exact fun k hk => AList.lookup_insert_ne hk
    · rfl
    · exact add_alert _ _
  | none =>
    rw [if_pos rfl]
    obtain ⟨f,hf,hdic,hall,hmatch⟩ := register_spec (format r.flowid) r
      {s with flowAll := s.flowAll+1}
    generalize register (format r.flowid) r {s with flowAll := s.flowAll+1}=s1 at hdic hall hmatch
    have hl1 : s1.flowDic.lookup (format r.flowid)=some f := by
      rw [hdic]
      exact AList.lookup_insert _
    rw [hl1]
    refine ⟨f,?_⟩
    constructor
    · exact Or.inr ⟨hl,hf⟩
    · exact AList.lookup_insert _
    · intro k hk
      show (s1.flowDic.insert (format r.flowid) (book r f)).lookup k=s.flowDic.lookup k
      rw [AList.lookup_insert_ne hk,hdic,AList.lookup_insert_ne hk]
    · exact hall
    · show (if r.hasAlerts then s1.flowMatch+1 else s1.flowMatch)=_
      rw [hmatch]
      exact add_alert _ _

/-! ## Runs -/

/-- The latest report of a flow. -/
def lastReport (rs : List Report) (i : ℕ) : Option Report :=
  (rs.filter fun r => r.flowid=i).getLast?

/-- The latest report with a key. -/
def lastWithKey (format : ℕ → String) (rs : List Report) (k : String) : Option Report :=
  (rs.filter fun r => format r.flowid=k).getLast?

/-- One report more. -/
theorem logs_concat (format : ℕ → String) (rs : List Report) (r : Report) :
    logs format (rs++[r])=log format r (logs format rs) := by
  unfold logs
  rw [List.foldl_append]
  rfl

/-- The last report with a key. -/
theorem lastWithKey_concat (format : ℕ → String) (rs : List Report) (r : Report) (k : String) :
    lastWithKey format (rs++[r]) k=
      if format r.flowid=k then some r else lastWithKey format rs k := by
  unfold lastWithKey
  rw [List.filter_append,List.filter_singleton]
  by_cases hk : format r.flowid=k
  · rw [if_pos hk,decide_eq_true hk]
    exact List.getLast?_concat
  · rw [if_neg hk,decide_eq_false hk]
    exact congrArg List.getLast? (List.append_nil _)

/-- Every flow is balanced with its latest report. -/
theorem logs_balanced (format : ℕ → String) (rs : List Report) (k : String) :
    ((logs format rs).flowDic.lookup k=none ∧ lastWithKey format rs k=none) ∨
      ∃ f r,(logs format rs).flowDic.lookup k=some f ∧ lastWithKey format rs k=some r ∧
        Balanced f r := by
  induction rs using List.reverseRecOn with
  | nil => exact Or.inl ⟨AList.lookup_empty k,rfl⟩
  | append_singleton rs r ih =>
    obtain ⟨f,hf⟩ := log_spec format r (logs format rs)
    rw [logs_concat,lastWithKey_concat]
    by_cases hk : format r.flowid=k
    · rw [if_pos hk]
      right
      refine ⟨book r f,r,?_,rfl,book_balanced r f⟩
      rw [←hk]
      exact hf.booked
    · rw [if_neg hk,hf.others k (fun h => hk h.symm)]
      exact ih

/-- Reports and alerts are counted. -/
theorem logs_counts (format : ℕ → String) (rs : List Report) :
    (logs format rs).flowAll=rs.length ∧ (logs format rs).flowMatch=rs.countP Report.hasAlerts := by
  induction rs using List.reverseRecOn with
  | nil => exact ⟨rfl,rfl⟩
  | append_singleton rs r ih =>
    obtain ⟨f,hf⟩ := log_spec format r (logs format rs)
    rw [logs_concat,hf.flowAll,hf.flowMatch,ih.1,ih.2,List.length_append,List.countP_append,
      List.countP_singleton]
    exact ⟨rfl,rfl⟩

/-- The byte counters of a flow never decrease. -/
def NeverDecrease (rs : List Report) : Prop :=
  rs.Pairwise fun a b => a.flowid=b.flowid → a.tsbytes ≤ b.tsbytes ∧ a.tcbytes ≤ b.tcbytes

/-- The bytes of a flow without alerts are not negative. -/
def NonNeg (f : Flow) : Prop := 0 ≤ f.noMatchTsbytes ∧ 0 ≤ f.noMatchTcbytes

/-- The first report of a flow books nothing negative. -/
theorem book_nonNeg_fresh {f : Flow} (r : Report) (h : Fresh f) : NonNeg (book r f) := by
  obtain ⟨tuple,s,rfl⟩ := h
  unfold book newFlow
  cases r.hasAlerts with
  | true => exact ⟨le_rfl,le_rfl⟩
  | false =>
    rw [if_neg Bool.false_ne_true]
    constructor
    · show (0 : ℤ) ≤ r.tsbytes-0-0+0
      simp
    · show (0 : ℤ) ≤ r.tcbytes-0-0+0
      simp

/-- Counters that do not decrease book nothing negative. -/
theorem book_nonNeg {f : Flow} {r r0 : Report} (h : NonNeg f) (hb : Balanced f r0)
    (hts : r0.tsbytes ≤ r.tsbytes) (htc : r0.tcbytes ≤ r.tcbytes) : NonNeg (book r f) := by
  have h1 := hb.tsbytes
  have h2 := hb.tcbytes
  unfold book
  cases r.hasAlerts with
  | true => exact h
  | false =>
    rw [if_neg Bool.false_ne_true]
    obtain ⟨h3,h4⟩ := h
    constructor
    · show (0 : ℤ) ≤ r.tsbytes-f.noMatchTsbytes-f.matchTsbytes+f.noMatchTsbytes
      omega
    · show (0 : ℤ) ≤ r.tcbytes-f.noMatchTcbytes-f.matchTcbytes+f.noMatchTcbytes
      omega

/-- The flow ids are distinct after formatting. -/
def Distinct (format : ℕ → String) (rs : List Report) : Prop :=
  ∀ a ∈ rs,∀ b ∈ rs,format a.flowid=format b.flowid → a.flowid=b.flowid

/-- No flow of a run has negative bytes. -/
theorem logs_nonNeg {format : ℕ → String} {rs : List Report} (hd : Distinct format rs)
    (hn : NeverDecrease rs) {k : String} {f : Flow}
    (hf : (logs format rs).flowDic.lookup k=some f) : NonNeg f := by
  induction rs using List.reverseRecOn generalizing k f with
  | nil => exact absurd hf (by rw [show logs format []=setup from rfl]; simp [setup])
  | append_singleton rs r ih =>
    have hd2 : Distinct format rs := fun a ha b hb =>
      hd a (List.mem_append_left _ ha) b (List.mem_append_left _ hb)
    obtain ⟨hn2,-,hlast⟩ := List.pairwise_append.mp hn
    obtain ⟨g,hg⟩ := log_spec format r (logs format rs)
    rw [logs_concat] at hf
    by_cases hk : k=format r.flowid
    · rw [hk,hg.booked] at hf
      cases hf
      rcases hg.found with hfound|⟨-,hfresh⟩
      · rcases logs_balanced format rs (format r.flowid) with ⟨h1,-⟩|⟨f0,r0,h1,h2,h3⟩
        · rw [h1] at hfound
          cases hfound
        · rw [h1] at hfound
          cases hfound
          have hmem := List.mem_of_getLast? h2
          obtain ⟨hr0,hkey⟩ := List.mem_filter.mp hmem
          have hid : r0.flowid=r.flowid := hd r0 (List.mem_append_left _ hr0) r
            (List.mem_append_right _ List.mem_cons_self) (of_decide_eq_true hkey)
          obtain ⟨h4,h5⟩ := hlast r0 hr0 r List.mem_cons_self hid
          exact book_nonNeg (ih hd2 hn2 h1) h3 h4 h5
      · exact book_nonNeg_fresh r hfresh
    · rw [hg.others k hk] at hf
      exact ih hd2 hn2 hf

/-! ## The totals of deinit -/

/-- The bytes of a flow. -/
def Flow.bytes (f : Flow) : ℤ := f.matchTsbytes+f.matchTcbytes+f.noMatchTsbytes+f.noMatchTcbytes

/-- The bytes of a flow with alerts. -/
def Flow.matchBytes (f : Flow) : ℤ := f.matchTsbytes+f.matchTcbytes

/-- The sums at the end. -/
theorem deinit_eq (pairs : List Flow) :
    deinit pairs=((pairs.map Flow.bytes).sum,(pairs.map Flow.matchBytes).sum) := by
  have hfold : ∀ t : ℤ × ℤ,pairs.foldl (fun t f =>
      (t.1+f.matchTsbytes+f.matchTcbytes+f.noMatchTsbytes+f.noMatchTcbytes,
        t.2+f.matchTsbytes+f.matchTcbytes)) t=
      (t.1+(pairs.map Flow.bytes).sum,t.2+(pairs.map Flow.matchBytes).sum) := by
    induction pairs with
    | nil => simp
    | cons f pairs ih =>
      intro t
      rw [List.foldl_cons,ih,List.map_cons,List.map_cons,List.sum_cons,List.sum_cons]
      unfold Flow.bytes Flow.matchBytes
      refine Prod.ext ?_ ?_
      · dsimp only
        ring
      · dsimp only
        ring
  unfold deinit
  rw [hfold]
  simp

/-- The bytes in the latest report of a flow. -/
def lastBytes (rs : List Report) (i : ℕ) : ℤ :=
  ((lastReport rs i).map fun r => (r.tsbytes : ℤ)+r.tcbytes).getD 0

/-- A flow has the bytes of its last report. -/
theorem Balanced.bytes {f : Flow} {r : Report} (h : Balanced f r) :
    f.bytes=(r.tsbytes : ℤ)+r.tcbytes := by
  unfold Flow.bytes
  rw [←h.tsbytes,←h.tcbytes]
  ring

/-- With distinct names the last report of a flow is the last with its name. -/
theorem lastWithKey_format {format : ℕ → String} {rs : List Report} (hd : Distinct format rs)
    {r : Report} (hr : r ∈ rs) : lastWithKey format rs (format r.flowid)=lastReport rs r.flowid := by
  unfold lastWithKey lastReport
  refine congrArg List.getLast? (List.filter_congr fun a ha => ?_)
  exact decide_eq_decide.mpr ⟨hd a ha r hr,congrArg format⟩

/-- Every flow reported is booked. -/
theorem lookup_ne_none (format : ℕ → String) {rs : List Report} {r : Report} (hr : r ∈ rs) :
    ∃ f last,(logs format rs).flowDic.lookup (format r.flowid)=some f ∧
      lastWithKey format rs (format r.flowid)=some last ∧ Balanced f last := by
  rcases logs_balanced format rs (format r.flowid) with ⟨-,h⟩|h
  · have hmem : r ∈ rs.filter fun a => format a.flowid=format r.flowid :=
      List.mem_filter.mpr ⟨hr,decide_eq_true rfl⟩
    rw [lastWithKey,List.getLast?_eq_none_iff] at h
    rw [h] at hmem
    exact absurd hmem List.not_mem_nil
  · exact h

/-- The keys of flow_dic are the formatted ids of the flows. -/
theorem logs_keys (format : ℕ → String) (rs : List Report) :
    (logs format rs).flowDic.keys.toFinset=(rs.map Report.flowid).toFinset.image format := by
  ext k
  rw [List.mem_toFinset,←AList.mem_keys,Finset.mem_image]
  constructor
  · intro hk
    rcases logs_balanced format rs k with ⟨h,-⟩|⟨f,r,-,h,-⟩
    · exact absurd hk (AList.lookup_eq_none.mp h)
    · obtain ⟨hr,hkey⟩ := List.mem_filter.mp (List.mem_of_getLast? h)
      exact ⟨r.flowid,List.mem_toFinset.mpr (List.mem_map_of_mem hr),of_decide_eq_true hkey⟩
  · rintro ⟨i,hi,rfl⟩
    obtain ⟨r,hr,rfl⟩ := List.mem_map.mp (List.mem_toFinset.mp hi)
    obtain ⟨f,last,h,-,-⟩ := lookup_ne_none format hr
    by_contra hk
    rw [AList.lookup_eq_none.mpr hk] at h
    cases h

/-- A sum over the flows is a sum over the flow ids. -/
theorem sum_flows {format : ℕ → String} {rs : List Report} (hd : Distinct format rs)
    (g : Flow → ℤ) :
    (((logs format rs).flows).map g).sum=
      ∑ i ∈ (rs.map Report.flowid).toFinset,
        (((logs format rs).flowDic.lookup (format i)).map g).getD 0 := by
  have hinj : Set.InjOn format ((rs.map Report.flowid).toFinset : Set ℕ) := by
    intro i hi j hj hij
    obtain ⟨a,ha,rfl⟩ := List.mem_map.mp (List.mem_toFinset.mp hi)
    obtain ⟨b,hb,rfl⟩ := List.mem_map.mp (List.mem_toFinset.mp hj)
    exact hd a ha b hb hij
  have hentries : (((logs format rs).flows).map g)=(logs format rs).flowDic.keys.map fun k =>
      (((logs format rs).flowDic.lookup k).map g).getD 0 := by
    unfold Script.flows AList.keys List.keys
    rw [List.map_map,List.map_map]
    refine List.map_congr_left fun e he => ?_
    have hl : (logs format rs).flowDic.lookup e.1=some e.2 := AList.mem_lookup_iff.mpr he
    show g e.2=(((logs format rs).flowDic.lookup e.1).map g).getD 0
    rw [hl]
    rfl
  rw [hentries,←List.sum_toFinset _ (AList.keys_nodup _),logs_keys,Finset.sum_image hinj]

/-- After any calls of log on any flows: the totals of each flow add up to its
latest counters; the calls and the calls with alerts are counted; and the total
of deinit is the sum of the latest bytes of all flows, which the bytes with
alerts do not exceed when the counters never decrease. -/
theorem accounting_conserved (format : ℕ → String) (rs : List Report) (hd : Distinct format rs) :
    (∀ r ∈ rs,∃ f last,(logs format rs).flowDic.lookup (format r.flowid)=some f ∧
        lastReport rs r.flowid=some last ∧ Balanced f last) ∧
      (logs format rs).flowAll=rs.length ∧
      (logs format rs).flowMatch=rs.countP Report.hasAlerts ∧
      ∀ pairs,pairs.Perm (logs format rs).flows →
        (deinit pairs).1=∑ i ∈ (rs.map Report.flowid).toFinset,lastBytes rs i ∧
          (NeverDecrease rs →
            (deinit pairs).2 ≤ ∑ i ∈ (rs.map Report.flowid).toFinset,lastBytes rs i) := by
  have hflow : ∀ r ∈ rs,∃ f last,(logs format rs).flowDic.lookup (format r.flowid)=some f ∧
      lastReport rs r.flowid=some last ∧ Balanced f last := by
    intro r hr
    obtain ⟨f,last,h1,h2,h3⟩ := lookup_ne_none format hr
    rw [lastWithKey_format hd hr] at h2
    exact ⟨f,last,h1,h2,h3⟩
  refine ⟨hflow,(logs_counts format rs).1,(logs_counts format rs).2,fun pairs hp => ?_⟩
  rw [deinit_eq,(hp.map _).sum_eq,(hp.map _).sum_eq,sum_flows hd,sum_flows hd]
  dsimp only
  refine ⟨Finset.sum_congr rfl fun i hi => ?_,fun hn => Finset.sum_le_sum fun i hi => ?_⟩
  · obtain ⟨r,hr,rfl⟩ := List.mem_map.mp (List.mem_toFinset.mp hi)
    obtain ⟨f,last,h1,h2,h3⟩ := hflow r hr
    rw [lastBytes,h1,h2]
    exact h3.bytes
  · obtain ⟨r,hr,rfl⟩ := List.mem_map.mp (List.mem_toFinset.mp hi)
    obtain ⟨f,last,h1,h2,h3⟩ := hflow r hr
    obtain ⟨h4,h5⟩ := logs_nonNeg hd hn h1
    rw [lastBytes,h1,h2]
    show f.matchBytes ≤ (last.tsbytes : ℤ)+last.tcbytes
    rw [←h3.bytes]
    unfold Flow.matchBytes Flow.bytes
    omega

/-- The format %.0f of a number that is exact. -/
def formatExact (n : ℕ) : String := String.ofList (Nat.toDigits 10 n)

/-- Three reports of two flows; the first flow gets an alert. -/
def twoFlows : List Report :=
  let tuple : FlowTuple := ⟨"10.0.0.1","10.0.0.2",6,4000,80⟩
  [⟨tuple,false,1,100,1,50,7⟩,⟨tuple,false,1,10,0,0,9⟩,⟨tuple,true,2,250,3,80,7⟩]

/-- Two flows. -/
theorem accounting_twoFlows :
    Distinct formatExact twoFlows ∧
      (deinit (logs formatExact twoFlows).flows).1=
        ∑ i ∈ (twoFlows.map Report.flowid).toFinset,lastBytes twoFlows i := by
  have hd : Distinct formatExact twoFlows := by
    intro a _ b _ h
    have h2 := congrArg (fun s => Nat.ofDigitChars 10 (String.toList s) 0) h
    simpa only [formatExact,String.toList_ofList,Nat.ofDigitChars_ten_toDigits] using h2
  exact ⟨hd,((accounting_conserved formatExact twoFlows hd).2.2.2 _ (List.Perm.refl _)).1⟩

end StudyCode.FlowMatch
