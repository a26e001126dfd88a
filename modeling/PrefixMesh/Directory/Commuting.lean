import PrefixMesh.Directory.Watch
import PrefixMesh.Lib.Commuting

/-! Commands about different nodes. A membership command reads and writes the entry of
its own node only, and adds one to the epoch if it writes; so the epoch counts the
changes of every node by itself, and it does not matter how the commands about different
nodes are interleaved. -/

namespace PrefixMesh.Directory

open Lib

def ClusterCommand.node : ClusterCommand → Option String
  | .nodeJoin info => some info.nodeId
  | .nodeLeave nodeId | .nodeDead nodeId => some nodeId
  | .leaseGrant _ | .leaseRelease _ | .noop _ | .unset => none

/-- What a command does to the entry of its node: the new entry, or `none` if the entry stays. -/
def ClusterCommand.write (entry : Option NodeInfo) : ClusterCommand → Option (Option NodeInfo)
  | .nodeJoin info => if entry.all (fun prev => prev.addr != info.addr) then some (some info) else none
  | .nodeLeave _ | .nodeDead _ => if entry.isSome then some none else none
  | .leaseGrant _ | .leaseRelease _ | .noop _ | .unset => none

def Members.put (members : Members) (nodeId : String) : Option NodeInfo → Members
  | some info => members.insert nodeId info
  | none => members.erase nodeId

theorem Members.lookup_put (members : Members) (nodeId other : String) (entry : Option NodeInfo) :
    (members.put nodeId entry).lookup other = if other = nodeId then entry else members.lookup other := by
  cases entry with
  | none =>
    by_cases same : other = nodeId
    · rw [if_pos same, same]
      exact Finmap.lookup_erase nodeId members
    · rw [if_neg same]
      exact Finmap.lookup_erase_ne same
  | some info =>
    by_cases same : other = nodeId
    · rw [if_pos same, same]
      exact Finmap.lookup_insert members
    · rw [if_neg same]
      exact Finmap.lookup_insert_of_ne members same

theorem Members.put_comm (members : Members) {nodeId other : String} (apart : nodeId ≠ other)
    (entry entry' : Option NodeInfo) :
    (members.put nodeId entry).put other entry' = (members.put other entry').put nodeId entry := by
  apply Finmap.ext_lookup
  intro id
  simp only [Members.lookup_put]
  by_cases here : id = other
  · rw [if_pos here, if_pos here, if_neg (fun eq => apart (eq.symm.trans here))]
  · rw [if_neg here, if_neg here]

namespace StateMachine

theorem changed_eq_write (sm : StateMachine) {cmd : ClusterCommand} {nodeId : String}
    (own : cmd.node = some nodeId) :
    sm.changed cmd = (cmd.write (sm.members.lookup nodeId)).map (sm.members.put nodeId) := by
  cases cmd with
  | nodeJoin info =>
    cases own
    simp only [changed, ClusterCommand.write]
    split
    · rfl
    · rfl
  | nodeLeave id | nodeDead id =>
    cases own
    simp only [changed, ClusterCommand.write, Finmap.lookup_isSome]
    split
    · rfl
    · rfl
  | _ => cases own

theorem applyCommand_written {sm : StateMachine} {cmd : ClusterCommand} {nodeId : String}
    {entry : Option NodeInfo} (own : cmd.node = some nodeId)
    (written : cmd.write (sm.members.lookup nodeId) = some entry) :
    sm.applyCommand cmd = ⟨sm.epoch + 1, sm.members.put nodeId entry⟩ := by
  rw [applyCommand, sm.changed_eq_write own, written]
  rfl

theorem applyCommand_kept {sm : StateMachine} {cmd : ClusterCommand} {nodeId : String}
    (own : cmd.node = some nodeId) (kept : cmd.write (sm.members.lookup nodeId) = none) :
    sm.applyCommand cmd = sm := by
  rw [applyCommand, sm.changed_eq_write own, kept]
  rfl

theorem applyCommand_neutral (sm : StateMachine) {cmd : ClusterCommand} (none : cmd.node = none) :
    sm.applyCommand cmd = sm := by
  cases cmd with
  | nodeJoin | nodeLeave | nodeDead => cases none
  | _ => rfl

theorem lookup_applyCommand_ne (sm : StateMachine) {cmd : ClusterCommand} {nodeId other : String}
    (own : cmd.node = some nodeId) (apart : nodeId ≠ other) :
    (sm.applyCommand cmd).members.lookup other = sm.members.lookup other := by
  cases written : cmd.write (sm.members.lookup nodeId) with
  | none => rw [applyCommand_kept own written]
  | some entry =>
    rw [applyCommand_written own written]
    exact (Members.lookup_put sm.members nodeId other entry).trans (if_neg (Ne.symm apart))

theorem applyCommand_comm (sm : StateMachine) {first second : ClusterCommand} {nodeId other : String}
    (own : first.node = some nodeId) (own' : second.node = some other) (apart : nodeId ≠ other) :
    (sm.applyCommand first).applyCommand second = (sm.applyCommand second).applyCommand first := by
  have found : first.write ((sm.applyCommand second).members.lookup nodeId) =
      first.write (sm.members.lookup nodeId) := by rw [sm.lookup_applyCommand_ne own' (Ne.symm apart)]
  have found' : second.write ((sm.applyCommand first).members.lookup other) =
      second.write (sm.members.lookup other) := by rw [sm.lookup_applyCommand_ne own apart]
  cases written : first.write (sm.members.lookup nodeId) with
  | none => rw [applyCommand_kept own written, applyCommand_kept own (found.trans written)]
  | some entry =>
    cases written' : second.write (sm.members.lookup other) with
    | none => rw [applyCommand_kept own' written', applyCommand_kept own' (found'.trans written')]
    | some entry' =>
      rw [applyCommand_written own' (found'.trans written'), applyCommand_written own (found.trans written),
        applyCommand_written own written, applyCommand_written own' written']
      simp only [Members.put_comm sm.members apart]

end StateMachine

theorem ClusterCommand.write_settled {cmd : ClusterCommand} {entry entry' : Option NodeInfo}
    (written : cmd.write entry = some entry') : cmd.write entry' = none := by
  cases cmd with
  | nodeJoin info =>
    simp only [ClusterCommand.write, Option.ite_none_right_eq_some, Option.some.injEq] at written
    rw [← written.2]
    simp [ClusterCommand.write]
  | nodeLeave id | nodeDead id =>
    simp only [ClusterCommand.write, Option.ite_none_right_eq_some, Option.some.injEq] at written
    rw [← written.2]
    rfl
  | _ => cases written

namespace StateMachine

theorem applyCommand_settled (sm : StateMachine) (cmd : ClusterCommand) :
    (sm.applyCommand cmd).applyCommand cmd = sm.applyCommand cmd := by
  cases own : cmd.node with
  | none => exact applyCommand_neutral _ own
  | some nodeId =>
    cases written : cmd.write (sm.members.lookup nodeId) with
    | none => rw [applyCommand_kept own written, applyCommand_kept own written]
    | some entry =>
      apply applyCommand_kept own
      rw [applyCommand_written own written, Members.lookup_put, if_pos rfl]
      exact ClusterCommand.write_settled written

theorem keyedOps : KeyedOps applyCommand ClusterCommand.node where
  neutral := fun sm _ none => sm.applyCommand_neutral none
  commute := fun sm _ _ _ _ own own' apart => sm.applyCommand_comm own own' apart

def applyLog (pb : Protobuf) (sm : StateMachine) (log : List Bytes) : StateMachine :=
  log.foldl (fun sm raw => sm.apply pb raw) sm

theorem applyLog_eq (pb : Protobuf) (sm : StateMachine) (log : List Bytes) :
    sm.applyLog pb log = (log.filterMap pb.unmarshal).foldl applyCommand sm := by
  induction log generalizing sm with
  | nil => rfl
  | cons raw rest ih =>
    rw [applyLog, List.foldl_cons]
    refine (ih (sm.apply pb raw)).trans ?_
    cases decoded : pb.unmarshal raw with
    | none => rw [List.filterMap_cons_none decoded, apply, decoded]
    | some cmd => rw [List.filterMap_cons_some decoded, apply, decoded, List.foldl_cons]

theorem applyLog_append (pb : Protobuf) (sm : StateMachine) (log later : List Bytes) :
    sm.applyLog pb (log ++ later) = (sm.applyLog pb log).applyLog pb later := List.foldl_append

def about (pb : Protobuf) (nodeId : String) (log : List Bytes) : List ClusterCommand :=
  withKey ClusterCommand.node nodeId (log.filterMap pb.unmarshal)

theorem apply_copy (pb : Protobuf) (sm : StateMachine) {raw copy : Bytes} {between : List Bytes}
    (same : pb.unmarshal copy = pb.unmarshal raw)
    (apart : ∀ nodeId, about pb nodeId [raw] ≠ [] → about pb nodeId between = []) :
    (sm.applyLog pb (raw :: between)).apply pb copy = sm.applyLog pb (raw :: between) := by
  rw [apply, same]
  cases decoded : pb.unmarshal raw with
  | none => rfl
  | some cmd =>
    rw [applyLog_eq, List.filterMap_cons_some decoded, List.foldl_cons]
    refine keyedOps.absorb sm (sm.applyCommand_settled cmd) ?_
    intro nodeId own
    apply withKey_eq_nil.mp
    apply apart
    rw [about, List.filterMap_cons_some decoded, withKey_cons_eq own]
    exact List.cons_ne_nil _ _

theorem changes_eq_false {pb : Protobuf} {sm : StateMachine} {raw : Bytes} (kept : sm.apply pb raw = sm) :
    sm.changes pb raw = false := by
  unfold changes
  cases decoded : pb.unmarshal raw with
  | none => rfl
  | some cmd =>
    rw [Option.bind_some]
    cases update : sm.changed cmd with
    | none => rfl
    | some members =>
      rw [apply, decoded] at kept
      simp only [applyCommand, update] at kept
      exact absurd (congrArg StateMachine.epoch kept) (Nat.succ_ne_self _)

end StateMachine

variable {C : Type} [DecidableEq C]

theorem Watch.step_kept {pb : Protobuf} {w w' : Watch C} {raw : Bytes} {watchers : List C}
    (kept : w.sm.apply pb raw = w.sm) (next : w.step pb (.apply raw watchers) = some w') : w' = w := by
  simp only [Watch.step, StateMachine.changes_eq_false kept, kept] at next
  split at next
  · exact (Option.some.inj next).symm
  · cases next

/-- The interleaving of the commands about different nodes does not matter, nor do the commands about no node; and a
repeated command neither changes the state nor signals a watcher. -/
theorem membership_interleaves (pb : Protobuf) :
    (∀ log log', (∀ nodeId, StateMachine.about pb nodeId log = StateMachine.about pb nodeId log') →
      newStateMachine.applyLog pb log = newStateMachine.applyLog pb log') ∧
    ∀ before raw between copy later, pb.unmarshal copy = pb.unmarshal raw →
      (∀ nodeId, StateMachine.about pb nodeId [raw] ≠ [] → StateMachine.about pb nodeId between = []) →
      newStateMachine.applyLog pb (before ++ raw :: between ++ copy :: later) =
        newStateMachine.applyLog pb (before ++ raw :: between ++ later) ∧
      ∀ (w w' : Watch C) watchers, w.sm = newStateMachine.applyLog pb (before ++ raw :: between) →
        w.step pb (.apply copy watchers) = some w' → w' = w := by
  refine ⟨?_, ?_⟩
  · intro log log' same
    rw [StateMachine.applyLog_eq, StateMachine.applyLog_eq]
    exact StateMachine.keyedOps.foldl_eq _ same
  · intro before raw between copy later same apart
    have absorbed := (newStateMachine.applyLog pb before).apply_copy pb same apart
    rw [← StateMachine.applyLog_append] at absorbed
    refine ⟨?_, ?_⟩
    · rw [StateMachine.applyLog_append, StateMachine.applyLog_append _ _ _ later]
      exact congrArg (fun sm => sm.applyLog pb later) absorbed
    · intro w w' watchers here next
      rw [← here] at absorbed
      exact Watch.step_kept absorbed next

/-- `a` joins and leaves and `b` joins in between, or `b` joins first; and a join of `a` is repeated. -/
theorem membership_interleaves_churn :
    newStateMachine.applyLog samplePb [joinRaw, joinOther, leaveRaw] =
      newStateMachine.applyLog samplePb [joinOther, noopRaw, joinRaw, leaveRaw] ∧
    newStateMachine.applyLog samplePb [joinRaw, noopRaw, joinRaw, leaveRaw] =
      newStateMachine.applyLog samplePb [joinRaw, noopRaw, leaveRaw] := by
  refine ⟨(membership_interleaves (C := Bool) samplePb).1 _ _ ?_,
    ((membership_interleaves (C := Bool) samplePb).2 [] joinRaw [noopRaw] joinRaw [leaveRaw] rfl ?_).1⟩
  · intro nodeId
    change withKey ClusterCommand.node nodeId [.nodeJoin ⟨"a", "x", 0⟩, .nodeJoin ⟨"b", "y", 0⟩, .nodeLeave "a"] =
      withKey ClusterCommand.node nodeId
        [.nodeJoin ⟨"b", "y", 0⟩, .noop true, .nodeJoin ⟨"a", "x", 0⟩, .nodeLeave "a"]
    by_cases first : nodeId = "a"
    · rw [first]
      decide
    · by_cases second : nodeId = "b"
      · rw [second]
        decide
      · simp [withKey, ClusterCommand.node, Ne.symm first, Ne.symm second]
  · intro nodeId _
    rfl

end PrefixMesh.Directory
