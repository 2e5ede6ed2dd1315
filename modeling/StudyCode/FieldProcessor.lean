import Mathlib.Tactic

/-!
# The field processor

The switch SDK is a store of groups and entries. Each of its calls either fails
and changes nothing or has its effect; which calls fail beyond those that the
store refuses is given from outside by the number of the call. The driver keeps
the array group_used beside the store.
-/

namespace StudyCode.FieldProcessor

/-! ## The store of the SDK -/

/-- The qualifiers of a group. -/
inductive Qualifier where
  | srcIp
  | dstIp
  | l4DstPort
  | l4SrcPort
  | tcpControl
  | ipFlags
  | ipProtocol
  | inPorts
  | outerVlan
  | srcIp6
  | dstIp6
  | dstPort
  deriving DecidableEq

/-- A qualifier of an entry with its data and mask. -/
inductive Qualify where
  | ipProtocol (data : UInt32) (mask : UInt8)
  | tcpControl (data : UInt32) (mask : UInt8)
  | srcIp (data mask : UInt32)
  | dstIp (data mask : UInt32)
  | outerVlan (data mask : UInt16)
  | l4SrcPort (data mask : UInt16)
  | l4DstPort (data mask : UInt16)
  | ipFlags (data mask : UInt8)
  | packetFormat (data mask : UInt8)
  | inPorts (data : ℤ) (mask : UInt32)
  | dstPort (modid modidMask : UInt8) (port : ℤ) (portMask : UInt8)
  deriving DecidableEq

/-- The actions of an entry. -/
inductive Action where
  | addClassTag
  | drop
  | egressMask
  deriving DecidableEq

/-- A group. -/
structure Group where
  /-- The qualifiers. -/
  qset : List Qualifier
  /-- The priority. -/
  prio : ℤ
  deriving DecidableEq

/-- An entry. -/
structure Entry where
  /-- The group. -/
  gid : ℤ
  /-- The priority. -/
  prio : ℤ
  /-- The qualifiers. -/
  qualifiers : List Qualify
  /-- The actions with their parameters. -/
  actions : List (Action × ℤ × ℤ)
  /-- The entry is in the hardware. -/
  installed : Bool
  deriving DecidableEq

/-- The store. -/
structure Sdk where
  /-- The groups by number. -/
  groups : ℤ → Option Group
  /-- The entries with their numbers. -/
  entries : List (ℤ × Entry)

/-- What the switch decides: the number of a new entry, which no entry has, and
the room of a group. -/
structure Switch where
  /-- The number of a new entry. -/
  newEid : Sdk → ℤ
  /-- No entry has that number. -/
  fresh : ∀ sdk,∀ p ∈ sdk.entries,p.1≠newEid sdk
  /-- The room of a group. -/
  entriesTotal : ℤ → ℤ

/-- The status of a group. -/
structure GroupStatus where
  /-- The room. -/
  entriesTotal : ℤ
  /-- The room that is left. -/
  entriesFree : ℤ

/-- The number of the entries of a group. -/
def Sdk.count (sdk : Sdk) (gid : ℤ) : ℕ := sdk.entries.countP fun p => decide (p.2.gid=gid)

/-- bcm_field_init. -/
def Sdk.init (_ : Sdk) : Option (Unit × Sdk) := some ((),⟨fun _ => none,[]⟩)

/-- bcm_field_group_create_id. -/
def Sdk.groupCreateId (qset : List Qualifier) (prio gid : ℤ) (sdk : Sdk) : Option (Unit × Sdk) :=
  if sdk.groups gid=none then
    some ((),{sdk with groups := Function.update sdk.groups gid (some ⟨qset,prio⟩)})
  else none

/-- bcm_field_group_destroy. -/
def Sdk.groupDestroy (gid : ℤ) (sdk : Sdk) : Option (Unit × Sdk) :=
  if sdk.groups gid=none then none
  else some ((),{sdk with groups := Function.update sdk.groups gid none})

/-- bcm_field_group_status_get. -/
def Switch.groupStatusGet (w : Switch) (gid : ℤ) (sdk : Sdk) : Option (GroupStatus × Sdk) :=
  if sdk.groups gid=none then none
  else some (⟨w.entriesTotal gid,w.entriesTotal gid-sdk.count gid⟩,sdk)

/-- bcm_field_entry_create. -/
def Switch.entryCreate (w : Switch) (gid : ℤ) (sdk : Sdk) : Option (ℤ × Sdk) :=
  if sdk.groups gid=none then none
  else some (w.newEid sdk,{sdk with entries := sdk.entries++[(w.newEid sdk,⟨gid,0,[],[],false⟩)]})

/-- The calls that change one entry. -/
def Sdk.updateEntry (eid : ℤ) (f : Entry → Entry) (sdk : Sdk) : Option (Unit × Sdk) :=
  if sdk.entries.any fun p => p.1=eid then
    some ((),{sdk with entries := sdk.entries.map fun p => if p.1=eid then (p.1,f p.2) else p})
  else none

/-- bcm_field_entry_prio_set. -/
def Sdk.entryPrioSet (eid prio : ℤ) : Sdk → Option (Unit × Sdk) :=
  Sdk.updateEntry eid fun e => {e with prio := prio}

/-- bcm_field_qualify. -/
def Sdk.qualify (eid : ℤ) (q : Qualify) : Sdk → Option (Unit × Sdk) :=
  Sdk.updateEntry eid fun e => {e with qualifiers := e.qualifiers++[q]}

/-- bcm_field_action_add. -/
def Sdk.actionAdd (eid : ℤ) (a : Action) (param0 param1 : ℤ) : Sdk → Option (Unit × Sdk) :=
  Sdk.updateEntry eid fun e => {e with actions := e.actions++[(a,param0,param1)]}

/-- bcm_field_action_remove. -/
def Sdk.actionRemove (eid : ℤ) (a : Action) : Sdk → Option (Unit × Sdk) :=
  Sdk.updateEntry eid fun e => {e with actions := e.actions.filter fun b => b.1≠a}

/-- bcm_field_entry_install. -/
def Sdk.entryInstall (eid : ℤ) : Sdk → Option (Unit × Sdk) :=
  Sdk.updateEntry eid fun e => {e with installed := true}

/-- bcm_field_entry_remove. -/
def Sdk.entryRemove (eid : ℤ) : Sdk → Option (Unit × Sdk) :=
  Sdk.updateEntry eid fun e => {e with installed := false}

/-- bcm_field_entry_destroy. -/
def Sdk.entryDestroy (eid : ℤ) (sdk : Sdk) : Option (Unit × Sdk) :=
  if sdk.entries.any fun p => p.1=eid then
    some ((),{sdk with entries := sdk.entries.filter fun p => p.1≠eid})
  else none

/-! ## The driver -/

/-- G_GROUP_NUM. -/
def groupNum : ℤ := 8

/-- G_RULE_NUM. -/
def ruleNum : ℤ := 64

/-- The state of the driver and of the switch. -/
structure State where
  /-- The store of the switch. -/
  sdk : Sdk
  /-- The array group_used. -/
  groupUsed : ℤ → ℤ
  /-- The array was accessed outside of its bounds. -/
  outside : Bool
  /-- The number of SDK calls so far. -/
  calls : ℕ

/-- An SDK call, which fails when it is told to or when the store refuses it. -/
def State.call {α : Type} (ok : ℕ → Bool) (op : Sdk → Option (α × Sdk)) (s : State) :
    Option α × State :=
  match (if ok s.calls then op s.sdk else none) with
  | none => (none,{s with calls := s.calls+1})
  | some (a,sdk) => (some a,{s with
      sdk := sdk
      calls := s.calls+1})

/-- An access of the array. -/
def State.touch (s : State) (i : ℤ) : State :=
  {s with outside := s.outside || !decide (0 ≤ i ∧ i < groupNum)}

/-- A write to the array. -/
def State.setUsed (s : State) (i v : ℤ) : State :=
  {s.touch i with groupUsed := Function.update s.groupUsed i v}

/-- The fields of bcm_fp_entry_t. -/
structure FpEntry where
  /-- Which keys are compared. -/
  keyMask : UInt32
  /-- The protocol. -/
  protocol : UInt32
  /-- The source address. -/
  sip : UInt32
  /-- Its mask. -/
  sipMask : UInt32
  /-- The destination address. -/
  dip : UInt32
  /-- Its mask. -/
  dipMask : UInt32
  /-- The outer tag. -/
  outerVlan : UInt16
  /-- Its mask. -/
  outerVlanMask : UInt16
  /-- The least source port. -/
  minSport : UInt16
  /-- The greatest source port. -/
  maxSport : UInt16
  /-- The mask of the source port. -/
  sportMask : UInt16
  /-- The least destination port. -/
  minDport : UInt16
  /-- The greatest destination port. -/
  maxDport : UInt16
  /-- The mask of the destination port. -/
  dportMask : UInt16
  /-- The flags of TCP. -/
  tcpFlag : UInt32
  /-- The destination trunk. -/
  dstporttgid : ℤ
  /-- The ports that packets come in at. -/
  inports : ℤ
  /-- The version of IP. -/
  ipversion : ℤ
  /-- The number of the rule. -/
  ruleid : ℤ
  /-- The group. -/
  gid : ℤ
  /-- The entry in the switch. -/
  eid : ℤ

/-- set_field_init. -/
def setFieldInit (ok : ℕ → Bool) (s : State) : ℤ × State :=
  match s.call ok Sdk.init with
  | (none,s) => (-1,s)
  | (some _,s) =>
    (0,{s with groupUsed := fun i => if 0 ≤ i ∧ i < groupNum then 0 else s.groupUsed i})

/-- set_field_remove_entry. -/
def setFieldRemoveEntry (w : Switch) (ok : ℕ → Bool) (fp : FpEntry) (s : State) : ℤ × State :=
  match s.call ok (Sdk.entryRemove fp.eid) with
  | (none,s) => (-1,s)
  | (some _,s) =>
    match s.call ok (Sdk.entryDestroy fp.eid) with
    | (none,s) => (-1,s)
    | (some _,s) =>
      match s.call ok (w.groupStatusGet fp.gid) with
      | (none,s) => (-1,s)
      | (some status,s) =>
        if status.entriesFree=status.entriesTotal then
          match s.call ok (Sdk.groupDestroy fp.gid) with
          | (none,s) => (-1,s)
          | (some _,s) => (0,s.setUsed (fp.gid-1) 0)
        else (0,s)

/-- The fields of bcm_fp_entry_action_t. -/
structure FpEntryAction where
  /-- The entry. -/
  eid : ℤ
  /-- The action. -/
  action : ℤ
  /-- Its first parameter. -/
  param0 : ℤ
  /-- Its second parameter. -/
  param1 : ℤ

/-- The action of a number. -/
def actionOf (action : ℤ) : Option Action :=
  if action=0 then some .drop
  else if action=1 then some .egressMask
  else if action=2 then some .egressMask
  else none

/-- set_field_add_action. -/
def setFieldAddAction (ok : ℕ → Bool) (fp : FpEntryAction) (s : State) : ℤ × State :=
  match actionOf fp.action with
  | none => (-1,s)
  | some action =>
    match ((s.call ok (Sdk.actionRemove fp.eid .egressMask)).2).call ok
        (Sdk.actionAdd fp.eid action fp.param0 fp.param1) with
    | (none,s) => (-1,s)
    | (some _,s) =>
      match s.call ok (Sdk.entryInstall fp.eid) with
      | (none,s) => (-1,s)
      | (some _,s) => (0,s)

/-- KEY_MODE_TYPICAL. -/
def keyModeTypical : ℤ := 0

/-- KEY_MODE_IPV6_SRC. -/
def keyModeIpv6Src : ℤ := 1

/-- KEY_MODE_IPV6_DST. -/
def keyModeIpv6Dst : ℤ := 2

/-- KEY_MODE_RESERVE. -/
def keyModeReserve : ℤ := 3

/-- _get_fp_key_mode. -/
def getFpKeyMode (keyMask : UInt32) : ℤ :=
  if keyMask &&& 0xffff≠0 ∧ keyMask &&& 0x30000=0 then keyModeTypical
  else if keyMask=0x10000 then keyModeIpv6Src
  else if keyMask=0x20000 then keyModeIpv6Dst
  else -1

/-- _get_fp_qset. -/
def getFpQset (keyMode : ℤ) : List Qualifier :=
  if keyMode=keyModeTypical then
    [.srcIp,.dstIp,.l4DstPort,.l4SrcPort,.tcpControl,.ipFlags,.ipProtocol,.inPorts,.outerVlan]
  else if keyMode=keyModeIpv6Src then [.srcIp6,.inPorts]
  else if keyMode=keyModeIpv6Dst then [.dstIp6,.inPorts]
  else if keyMode=keyModeReserve then [.inPorts,.dstPort]
  else []

/-- Whether one of some bits of the key mask is set. -/
def FpEntry.has (fp : FpEntry) (bits : UInt32) : Bool := fp.keyMask &&& bits≠0

/-- A qualifier that is set under a condition. -/
def qualifyIf (b : Bool) (q : Qualify) : List Qualify := if b then [q] else []

/-- The qualifiers that _add_fp_entry_field sets, in their order. -/
def FpEntry.fields (fp : FpEntry) : List Qualify :=
  [qualifyIf (fp.has 0x0002) (.ipProtocol fp.protocol 0xff),
    qualifyIf (fp.has 0x0fc0) (.tcpControl fp.tcpFlag ((fp.keyMask &&& 0x0fc0) >>> 6).toUInt8),
    qualifyIf (fp.has 0x0004) (.srcIp fp.sip fp.sipMask),
    qualifyIf (fp.has 0x0008) (.dstIp fp.dip fp.dipMask),
    qualifyIf (fp.has 0x1000) (.outerVlan fp.outerVlan fp.outerVlanMask),
    qualifyIf (fp.has 0x0010 && fp.minSport=fp.maxSport) (.l4SrcPort fp.minSport fp.sportMask),
    qualifyIf (fp.has 0x0020 && fp.minDport=fp.maxDport) (.l4DstPort fp.minDport fp.dportMask),
    qualifyIf (fp.has 0x4000) (.ipFlags 0 0x2),
    qualifyIf (fp.has 0x0001) (.packetFormat (if fp.ipversion=0 then 0x10 else 0x20) 0x3f),
    qualifyIf (fp.has 0x8000 || fp.has 0x40000) (.inPorts fp.inports 0x1fffffff),
    qualifyIf (fp.has 0x80000) (.dstPort 0 0 fp.dstporttgid 0x1f)].flatten

/-- A sequence of qualifier calls, left at the first that fails. -/
def qualifyAll (ok : ℕ → Bool) (eid : ℤ) : List Qualify → State → ℤ × State
  | [],s => (0,s)
  | q::qs,s =>
    match s.call ok (Sdk.qualify eid q) with
    | (none,s) => (-1,s)
    | (some _,s) => qualifyAll ok eid qs s

/-- _add_fp_entry_field. -/
def addFpEntryField (ok : ℕ → Bool) (eid : ℤ) (fp : FpEntry) (s : State) : ℤ × State :=
  qualifyAll ok eid fp.fields s

/-- get_gid_prio. -/
def getGidPrio (groupId : ℤ) : ℤ :=
  if groupId < 1 ∨ groupId > groupNum then -1 else groupNum-groupId

/-- create_fp_group_id. -/
def createFpGroupId (ok : ℕ → Bool) (groupId keyMode : ℤ) (s : State) : ℤ × State :=
  if getGidPrio groupId=-1 then (-1,s)
  else if s.groupUsed (groupId-1)=0 then
    match (s.touch (groupId-1)).call ok
        (Sdk.groupCreateId (getFpQset keyMode) (getGidPrio groupId) groupId) with
    | (none,s) => (-1,s)
    | (some _,s) => (groupId,s.setUsed (groupId-1) 1)
  else (groupId,s.touch (groupId-1))

/-- get_rule_entry_prio. -/
def getRuleEntryPrio (ruleId : ℤ) : ℤ :=
  if ruleId < 0 ∨ ruleId > ruleNum then -1 else (65-ruleId)*2^4

/-- The argument of set_field_add_entry after the default rule got its group. -/
def FpEntry.grouped (fp : FpEntry) : FpEntry :=
  if fp.ruleid=ruleNum+1 then {fp with gid := groupNum} else fp

/-- The priority of an entry. -/
def FpEntry.entryPrio (fp : FpEntry) : ℤ :=
  if fp.ruleid=ruleNum+1 then 0 else getRuleEntryPrio fp.ruleid

/-- set_field_add_entry behind the creation of the entry. -/
def fillEntry (ok : ℕ → Bool) (fp : FpEntry) (prio gid eid : ℤ) (s : State) : ℤ × FpEntry × State :=
  match s.call ok (Sdk.entryPrioSet eid prio) with
  | (none,s) => (-1,fp,s)
  | (some _,s) =>
    let r := addFpEntryField ok eid fp s
    if r.1 < 0 then (-1,fp,r.2)
    else
      match (if fp.gid≠0 then (r.2).call ok (Sdk.actionAdd eid .addClassTag fp.gid 0)
        else (some (),r.2)) with
      | (none,s) => (-1,fp,s)
      | (some _,s) =>
        match s.call ok (Sdk.entryInstall eid) with
        | (none,s) => (-1,fp,s)
        | (some _,s) => (0,{fp with
            eid := eid
            gid := gid},s)

/-- set_field_add_entry. -/
def setFieldAddEntry (w : Switch) (ok : ℕ → Bool) (arg : FpEntry) (s : State) :
    ℤ × FpEntry × State :=
  let fp := arg.grouped
  let keyMode := getFpKeyMode fp.keyMask
  if keyMode < 0 then (-1,fp,s)
  else
    let r := createFpGroupId ok fp.gid keyMode s
    if r.1 < 0 then (-1,fp,r.2)
    else
      match (r.2).call ok (w.entryCreate r.1) with
      | (none,s) => (-1,fp,s)
      | (some eid,s) => fillEntry ok fp arg.entryPrio r.1 eid s

/-! ## Runs -/

/-- The calls of the driver. -/
inductive Request where
  /-- set_field_init. -/
  | init
  /-- set_field_add_entry. -/
  | addEntry (fp : FpEntry)
  /-- set_field_remove_entry. -/
  | removeEntry (fp : FpEntry)
  /-- set_field_add_action. -/
  | addAction (fp : FpEntryAction)

/-- The state after a call. -/
def State.serve (w : Switch) (ok : ℕ → Bool) (s : State) : Request → State
  | .init => (setFieldInit ok s).2
  | .addEntry fp => (setFieldAddEntry w ok fp s).2.2
  | .removeEntry fp => (setFieldRemoveEntry w ok fp s).2
  | .addAction fp => (setFieldAddAction ok fp s).2

/-- The state after some calls. -/
def State.run (w : Switch) (ok : ℕ → Bool) (s : State) (rs : List Request) : State :=
  rs.foldl (State.serve w ok) s

/-- The state before the first call, with any store and any array. -/
def powerOn (sdk : Sdk) (used : ℤ → ℤ) : State := ⟨sdk,used,false,0⟩

end StudyCode.FieldProcessor
