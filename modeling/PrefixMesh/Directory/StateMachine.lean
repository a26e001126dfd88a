import Mathlib.Data.Finmap

/-! The replicated state machine of the directory. Commands are the messages of
`directory.proto`; `unset` is a message whose `cmd` is not set, which decodes from
no bytes at all. The epoch counts the commands that changed the membership, so it
never exceeds the number of applied slots and cannot wrap before the slots do. -/

namespace PrefixMesh.Directory

abbrev Bytes := List UInt8

structure NodeInfo where
  nodeId : String
  addr : String
  capacityBytes : Nat
  deriving DecidableEq

structure RebalanceLease where
  leaseId : String
  oldOwner : String
  newOwner : String
  fromEpoch : Nat
  expiresUnixMs : Int
  deriving DecidableEq

inductive ClusterCommand where
  | nodeJoin (info : NodeInfo)
  | nodeLeave (nodeId : String)
  | nodeDead (nodeId : String)
  | leaseGrant (lease : RebalanceLease)
  | leaseRelease (leaseId : String)
  | noop (set : Bool)
  | unset
  deriving DecidableEq

/-- The protobuf runtime. One command has many encodings; each of them decodes to the command. -/
structure Protobuf where
  unmarshal : Bytes → Option ClusterCommand
  encodes : ClusterCommand → Bytes → Bool
  decodes : ∀ cmd raw, encodes cmd raw = true → unmarshal raw = some cmd

abbrev Members := Finmap (fun _ : String => NodeInfo)

structure StateMachine where
  epoch : Nat
  members : Members

def newStateMachine : StateMachine := ⟨0, ∅⟩

/-- The switch of `Apply`: the members after a command, or `none` where `changed` stays false. -/
def StateMachine.changed (sm : StateMachine) : ClusterCommand → Option Members
  | .nodeJoin info =>
      if (sm.members.lookup info.nodeId).all (fun prev => prev.addr != info.addr) then
        some (sm.members.insert info.nodeId info)
      else none
  | .nodeLeave nodeId => if nodeId ∈ sm.members then some (sm.members.erase nodeId) else none
  | .nodeDead nodeId => if nodeId ∈ sm.members then some (sm.members.erase nodeId) else none
  | .leaseGrant _ | .leaseRelease _ | .noop _ | .unset => none

def StateMachine.applyCommand (sm : StateMachine) (cmd : ClusterCommand) : StateMachine :=
  match sm.changed cmd with
  | some members => ⟨sm.epoch + 1, members⟩
  | none => sm

def StateMachine.joined (sm : StateMachine) : ClusterCommand → Option String
  | .nodeJoin info => if (sm.changed (.nodeJoin info)).isSome then some info.nodeId else none
  | _ => none

/-- A command that does not decode is skipped. -/
def StateMachine.apply (pb : Protobuf) (raw : Bytes) (sm : StateMachine) : StateMachine :=
  match pb.unmarshal raw with
  | some cmd => sm.applyCommand cmd
  | none => sm

def StateMachine.hasMember (sm : StateMachine) (nodeId : String) : Bool := decide (nodeId ∈ sm.members)

structure Ring where
  epoch : Nat
  nodes : List NodeInfo
  vnodesPerNode : Nat
  deriving DecidableEq

/-- What `Ring` may return: the nodes come in the order of a map iteration. -/
structure StateMachine.IsRing (sm : StateMachine) (ring : Ring) : Prop where
  epoch : ring.epoch = sm.epoch
  nodes : (ring.nodes : Multiset NodeInfo) = sm.members.entries.map (fun entry => entry.2)
  vnodes : ring.vnodesPerNode = 128

theorem StateMachine.changed_ne (sm : StateMachine) (cmd : ClusterCommand) (members : Members)
    (update : sm.changed cmd = some members) : members ≠ sm.members := by
  intro same
  subst same
  cases cmd with
  | nodeJoin info =>
    simp only [StateMachine.changed, Option.ite_none_right_eq_some, Option.some.injEq] at update
    obtain ⟨moved, same⟩ := update
    have found : sm.members.lookup info.nodeId = some info := by
      rw [← same]
      exact Finmap.lookup_insert _
    simp [found] at moved
  | nodeLeave nodeId | nodeDead nodeId =>
    simp only [StateMachine.changed, Option.ite_none_right_eq_some, Option.some.injEq] at update
    obtain ⟨present, same⟩ := update
    rw [← same] at present
    exact Finmap.notMem_erase_self present
  | _ => cases update

theorem StateMachine.applyCommand_cases (sm : StateMachine) (cmd : ClusterCommand) :
    sm.applyCommand cmd = sm ∨
    (sm.applyCommand cmd).members ≠ sm.members ∧ (sm.applyCommand cmd).epoch = sm.epoch + 1 := by
  unfold StateMachine.applyCommand
  cases update : sm.changed cmd with
  | none => exact Or.inl rfl
  | some members => exact Or.inr ⟨sm.changed_ne cmd members update, rfl⟩

theorem StateMachine.apply_cases (pb : Protobuf) (raw : Bytes) (sm : StateMachine) :
    sm.apply pb raw = sm ∨
    (sm.apply pb raw).members ≠ sm.members ∧ (sm.apply pb raw).epoch = sm.epoch + 1 := by
  unfold StateMachine.apply
  cases pb.unmarshal raw with
  | none => exact Or.inl rfl
  | some cmd => exact sm.applyCommand_cases cmd

def StateMachine.Keyed (sm : StateMachine) : Prop :=
  ∀ nodeId info, sm.members.lookup nodeId = some info → info.nodeId = nodeId

theorem StateMachine.Keyed.applyCommand {sm : StateMachine} (keyed : sm.Keyed) (cmd : ClusterCommand) :
    (sm.applyCommand cmd).Keyed := by
  unfold StateMachine.applyCommand
  cases update : sm.changed cmd with
  | none => exact keyed
  | some members =>
    intro nodeId info found
    change members.lookup nodeId = some info at found
    have erased : ∀ gone, (sm.members.erase gone).lookup nodeId = some info → info.nodeId = nodeId := by
      intro gone kept
      by_cases same : nodeId = gone
      · rw [same, Finmap.lookup_erase] at kept
        cases kept
      · rw [Finmap.lookup_erase_ne same] at kept
        exact keyed nodeId info kept
    cases cmd with
    | nodeJoin joined =>
      simp only [StateMachine.changed, Option.ite_none_right_eq_some, Option.some.injEq] at update
      rw [← update.2] at found
      by_cases same : nodeId = joined.nodeId
      · rw [same, Finmap.lookup_insert] at found
        rw [same, Option.some.inj found]
      · rw [Finmap.lookup_insert_of_ne _ same] at found
        exact keyed nodeId info found
    | nodeLeave gone | nodeDead gone =>
      simp only [StateMachine.changed, Option.ite_none_right_eq_some, Option.some.injEq] at update
      rw [← update.2] at found
      exact erased gone found
    | _ => cases update

theorem StateMachine.Keyed.apply {sm : StateMachine} (keyed : sm.Keyed) (pb : Protobuf) (raw : Bytes) :
    (sm.apply pb raw).Keyed := by
  unfold StateMachine.apply
  cases pb.unmarshal raw with
  | none => exact keyed
  | some cmd => exact keyed.applyCommand cmd

theorem StateMachine.IsRing.distinct {sm : StateMachine} {ring : Ring} (keyed : sm.Keyed)
    (shown : sm.IsRing ring) : (ring.nodes.map (fun info => info.nodeId)).Nodup := by
  have own : sm.members.entries.map (fun entry => entry.2.nodeId) = sm.members.entries.map Sigma.fst := by
    refine Multiset.map_congr rfl ?_
    intro entry present
    exact keyed entry.1 entry.2 (Finmap.lookup_eq_some_iff.mpr present)
  have listed : ((ring.nodes.map (fun info => info.nodeId) : List String) : Multiset String) =
      sm.members.entries.map Sigma.fst := by
    rw [← Multiset.map_coe, shown.nodes, Multiset.map_map]
    exact own
  rw [← Multiset.coe_nodup, listed]
  exact sm.members.nodupKeys.nodup_keys

/-- `node_join { node_id: "a" addr: "x" }`. -/
def joinRaw : Bytes := [0x0a, 0x06, 0x0a, 0x01, 0x61, 0x12, 0x01, 0x78]

/-- The same with its two fields in the other order. -/
def joinSwapped : Bytes := [0x0a, 0x06, 0x12, 0x01, 0x78, 0x0a, 0x01, 0x61]

/-- `node_join { node_id: "b" addr: "y" }`. -/
def joinOther : Bytes := [0x0a, 0x06, 0x0a, 0x01, 0x62, 0x12, 0x01, 0x79]

/-- `node_leave: "a"`. -/
def leaveRaw : Bytes := [0x12, 0x01, 0x61]

/-- `node_dead: "a"`. -/
def deadRaw : Bytes := [0x1a, 0x01, 0x61]

/-- `noop: true`. -/
def noopRaw : Bytes := [0x30, 0x01]

def wireSamples : List (Bytes × ClusterCommand) :=
  [(joinRaw, .nodeJoin ⟨"a", "x", 0⟩), (joinSwapped, .nodeJoin ⟨"a", "x", 0⟩), (joinOther, .nodeJoin ⟨"b", "y", 0⟩),
   (leaveRaw, .nodeLeave "a"), (deadRaw, .nodeDead "a"), (noopRaw, .noop true)]

def samplePb : Protobuf where
  unmarshal raw := wireSamples.lookup raw
  encodes cmd raw := decide (wireSamples.lookup raw = some cmd)
  decodes := fun _ _ found => of_decide_eq_true found

end PrefixMesh.Directory
