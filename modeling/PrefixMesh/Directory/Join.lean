import PrefixMesh.Block
import PrefixMesh.Directory.Replicas
import PrefixMesh.Paxos.Applied

/-! `Join`. After its `Submit` has returned nil the node is a member on this replica,
until a command that removes it is applied. -/

namespace PrefixMesh.Directory
open Paxos

/-- `Join`, with what `Submit` returns, the state machine when `HasMember` takes its lock, and the ring that is read
at the end. -/
def join (node : Option NodeInfo) (submitted : Except String Unit) (sm : StateMachine) (ring : Ring) :
    Except Status Ring :=
  match node with
  | none => .error ⟨.invalidArgument, "node_id and addr are required"⟩
  | some node =>
      if node.nodeId = "" ∨ node.addr = "" then .error ⟨.invalidArgument, "node_id and addr are required"⟩
      else
        match submitted with
        | .error e => .error ⟨.unavailable, "consensus: " ++ e⟩
        | .ok () =>
            if sm.hasMember node.nodeId then .ok ring
            else .error ⟨.internal, "join committed but not applied"⟩

theorem join_internal {node : Option NodeInfo} {submitted : Except String Unit} {sm : StateMachine} {ring : Ring}
    {message : String} (failed : join node submitted sm ring = .error ⟨.internal, message⟩) :
    ∃ info, node = some info ∧ submitted = .ok () ∧ sm.hasMember info.nodeId = false := by
  unfold join at failed
  split at failed
  · cases failed
  next info =>
    split at failed
    · cases failed
    · split at failed
      · cases failed
      · split at failed
        · cases failed
        next absent => exact ⟨info, rfl, rfl, Bool.eq_false_of_not_eq_true absent⟩

def ClusterCommand.removes (nodeId : String) : ClusterCommand → Prop
  | .nodeLeave id => id = nodeId
  | .nodeDead id => id = nodeId
  | _ => False

theorem StateMachine.hasMember_applyCommand (sm : StateMachine) (cmd : ClusterCommand) (nodeId : String) :
    (sm.applyCommand cmd).hasMember nodeId = true ↔ nodeId ∈ (sm.changed cmd).getD sm.members := by
  rw [StateMachine.hasMember, decide_eq_true_eq, StateMachine.applyCommand]
  cases sm.changed cmd with
  | none => rfl
  | some members => rfl

theorem StateMachine.hasMember_nodeJoin (sm : StateMachine) (info : NodeInfo) :
    (sm.applyCommand (.nodeJoin info)).hasMember info.nodeId = true := by
  rw [StateMachine.hasMember_applyCommand, StateMachine.changed]
  split
  · exact Finmap.mem_insert.mpr (Or.inl rfl)
  next known =>
    -- a member with the same address
    refine Finmap.lookup_isSome.mp ?_
    by_contra missing
    rw [Option.not_isSome_iff_eq_none, Option.getD_none] at missing
    rw [missing] at known
    exact known rfl

theorem StateMachine.hasMember_kept {sm : StateMachine} {nodeId : String} (member : sm.hasMember nodeId = true)
    (cmd : ClusterCommand) : (sm.applyCommand cmd).hasMember nodeId = true ∨ cmd.removes nodeId := by
  rw [StateMachine.hasMember, decide_eq_true_eq] at member
  rw [StateMachine.hasMember_applyCommand]
  cases cmd with
  | nodeJoin info =>
    rw [StateMachine.changed]
    split
    · exact Or.inl (Finmap.mem_insert.mpr (Or.inr member))
    · exact Or.inl member
  | nodeLeave id | nodeDead id =>
    by_cases same : id = nodeId
    · exact Or.inr same
    · rw [StateMachine.changed]
      split
      · exact Or.inl (Finmap.mem_erase.mpr ⟨Ne.symm same, member⟩)
      · exact Or.inl member
  | _ => exact Or.inl member

variable {pb : Protobuf} (d : Deployment pb)

theorem Deployment.respects (w w' v : Bytes) (same : pb.unmarshal w = pb.unmarshal w') :
    d.cluster.equal w v = d.cluster.equal w' v := by
  simp only [Deployment.cluster, commandsEqual, same]

theorem Deployment.stateAfter_found {s : State String Bytes StateMachine} {n : String} {k : Nat} {raw : Bytes}
    {cmd : ClusterCommand} (found : (s.log n).chosen.lookup k = some raw) (decoded : pb.unmarshal raw = some cmd) :
    d.stateAfter s n (k + 1) = (d.stateAfter s n k).applyCommand cmd := by
  simp only [Deployment.stateAfter, applyBelow, found, Deployment.cluster, StateMachine.apply, decoded]

theorem Deployment.member_since {s : State String Bytes StateMachine} {n : String} {slot : Nat} {raw : Bytes}
    {info : NodeInfo} (found : (s.log n).chosen.lookup slot = some raw)
    (decoded : pb.unmarshal raw = some (.nodeJoin info)) (more : Nat) :
    (d.stateAfter s n (slot + 1 + more)).hasMember info.nodeId = true ∨
    ∃ k raw' cmd, slot < k ∧ k < slot + 1 + more ∧ (s.log n).chosen.lookup k = some raw' ∧
      pb.unmarshal raw' = some cmd ∧ cmd.removes info.nodeId := by
  induction more with
  | zero =>
    refine Or.inl ?_
    rw [Nat.add_zero, d.stateAfter_found found decoded]
    exact StateMachine.hasMember_nodeJoin _ info
  | succ more ih =>
    rcases ih with member | ⟨k, raw', cmd, above, below, facts⟩
    · rw [← Nat.add_assoc]
      cases lookup : (s.log n).chosen.lookup (slot + 1 + more) with
      | none =>
        refine Or.inl ?_
        simpa only [Deployment.stateAfter, applyBelow, lookup] using member
      | some raw' =>
        cases decoded' : pb.unmarshal raw' with
        | none =>
          refine Or.inl ?_
          simpa only [Deployment.stateAfter, applyBelow, lookup, Deployment.cluster, StateMachine.apply, decoded']
            using member
        | some cmd =>
          rw [d.stateAfter_found lookup decoded']
          refine (StateMachine.hasMember_kept member cmd).imp_right fun removes => ?_
          exact ⟨_, raw', cmd, by omega, by omega, lookup, decoded', removes⟩
    · exact Or.inr ⟨k, raw', cmd, above, by omega, facts⟩

theorem Deployment.joined_recorded {s : State String Bytes StateMachine} (run : Reachable d.cluster s)
    {r : Returned Bytes} (back : r ∈ s.returned) {n : String} {raw : Bytes} (made : s.calls[r.call]? = some (n, raw))
    {cmd : ClusterCommand} (decoded : pb.unmarshal raw = some cmd) :
    ∃ raw', (s.log n).chosen.lookup r.slot = some raw' ∧ pb.unmarshal raw' = some cmd := by
  obtain ⟨n', v, w, made', equal, _, found, same⟩ := returned_recorded (hop_faithful d) run back
  rw [made] at made'
  cases made'
  refine ⟨w, found, same.trans ?_⟩
  simp only [Deployment.cluster, commandsEqual, decoded] at equal
  split at equal
  next ca cb left right =>
    rw [left, of_decide_eq_true equal, ← right]
  · cases equal

/-- A `Join` that fails behind its `Submit` has met a removal in a slot behind its own. -/
theorem Deployment.join_removed {before after : State String Bytes StateMachine} {q : Returned Bytes} {n : String}
    {raw : Bytes} {info : NodeInfo} {count : Nat} {ring : Ring} (start : Reachable d.cluster before)
    (later : Leads d.cluster before after) (back : q ∈ after.returned) (fresh : before.calls.length ≤ q.call)
    (made : after.calls[q.call]? = some (n, raw)) (decoded : pb.unmarshal raw = some (.nodeJoin info))
    (above : q.slot < count)
    (failed : join (some info) (.ok ()) (d.stateAfter after n count) ring =
      .error ⟨.internal, "join committed but not applied"⟩) :
    ∃ k raw' cmd, (before.log n).applied ≤ q.slot ∧ q.slot < k ∧ k < count ∧
      (after.log n).chosen.lookup k = some raw' ∧ pb.unmarshal raw' = some cmd ∧ cmd.removes info.nodeId := by
  obtain ⟨raw', found, decoded'⟩ := d.joined_recorded (start.trans later) back made decoded
  obtain ⟨more, rfl⟩ := Nat.exists_eq_add_of_le (Nat.succ_le_of_lt above)
  obtain ⟨_, same, _, absent⟩ := join_internal failed
  cases same
  rcases d.member_since found decoded' more with member | ⟨k, raw'', cmd, facts⟩
  · rw [absent] at member
    cases member
  · exact ⟨k, raw'', cmd, applied_le_returned (hop_faithful d) start later back fresh made, facts⟩

theorem returned_applied {R V σ ρ C : Type} [LinearOrder R] [DecidableEq V] {c : Cluster R V σ ρ} {meaning : V → C}
    (faithful : Faithful c meaning) (respects : ∀ w w' v, meaning w = meaning w' → c.equal w v = c.equal w' v)
    {s : State R V σ} (run : Reachable c s) {r : Returned V} (back : r ∈ s.returned) :
    ∃ n v w, s.calls[r.call]? = some (n, v) ∧ r.slot < (s.log n).applied ∧
      (s.log n).chosen.lookup r.slot = some w ∧ c.equal w v = true ∧
      (∀ k, k < (s.log n).applied → (s.log n).chosen.lookup k ≠ none) ∧
      (s.log n).state = applyBelow c.apply (s.log n).chosen c.start (s.log n).applied := by
  obtain ⟨n, v, w, made, equal, below, found, same⟩ := returned_recorded faithful run back
  have log := logInv_reachable run n
  exact ⟨n, v, w, made, below, found, (respects w r.value v same).trans equal, log.recorded, log.folded⟩

/-- When `Submit` of a value has returned nil, its replica has applied a slot that holds an equal value, and all slots
below it, in order. `Join` then finds its node to be a member, unless a slot behind the one of the join, applied since
the call began, has removed it. -/
theorem submit_applied_locally {R V σ ρ C : Type} [LinearOrder R] [DecidableEq V] (c : Cluster R V σ ρ)
    (meaning : V → C) (faithful : Faithful c meaning)
    (respects : ∀ w w' v, meaning w = meaning w' → c.equal w v = c.equal w' v)
    (s : State R V σ) (run : Reachable c s) (r : Returned V) (back : r ∈ s.returned) :
    (∃ n v w, s.calls[r.call]? = some (n, v) ∧ r.slot < (s.log n).applied ∧
      (s.log n).chosen.lookup r.slot = some w ∧ c.equal w v = true ∧
      (∀ k, k < (s.log n).applied → (s.log n).chosen.lookup k ≠ none) ∧
      (s.log n).state = applyBelow c.apply (s.log n).chosen c.start (s.log n).applied) ∧
    ∀ (pb : Protobuf) (d : Deployment pb) (before after : State String Bytes StateMachine) (q : Returned Bytes)
      (n : String) (raw : Bytes) (info : NodeInfo) (count : Nat) (ring : Ring),
      Reachable d.cluster before → Leads d.cluster before after → q ∈ after.returned →
      before.calls.length ≤ q.call → after.calls[q.call]? = some (n, raw) →
      pb.unmarshal raw = some (.nodeJoin info) → q.slot < count → count ≤ (after.log n).applied →
      join (some info) (.ok ()) (d.stateAfter after n count) ring =
        .error ⟨.internal, "join committed but not applied"⟩ →
      ∃ k raw' cmd, (before.log n).applied ≤ q.slot ∧ q.slot < k ∧ k < count ∧
        (after.log n).chosen.lookup k = some raw' ∧ pb.unmarshal raw' = some cmd ∧ cmd.removes info.nodeId := by
  refine ⟨returned_applied faithful respects run back, ?_⟩
  intro pb d before after q n raw info count ring start later back fresh made decoded above _ failed
  exact d.join_removed start later back fresh made decoded above failed

/-- `p` gets a join chosen, and `Join` does not fail. -/
theorem joinRaw_applied : ∃ s, Reachable sampleDeployment.cluster s ∧ (⟨0, 0, joinRaw⟩ : Returned Bytes) ∈ s.returned ∧
    0 < (s.log "p").applied ∧
    ∀ ring, join (some ⟨"a", "x", 0⟩) (.ok ()) (sampleDeployment.stateAfter s "p" 1) ring ≠
      .error ⟨.internal, "join committed but not applied"⟩ := by
  obtain ⟨s, run, back, made, applied⟩ := Lib.reaches_of_check (step sampleDeployment.cluster)
    (fun _ _ u => RoundsBelow sampleDeployment.cluster u)
    ([.submit "p" joinRaw, .acquire "p" 0 joinRaw] ++
      roundActions "p" 0 256 joinRaw [("p", ⟨true, 0, none, 256⟩), ("q", ⟨true, 0, none, 256⟩)] [] joinRaw)
    sampleDeployment.cluster.init
    (fun s => (⟨0, 0, joinRaw⟩ : Returned Bytes) ∈ s.returned ∧ s.calls[0]? = some ("p", joinRaw) ∧
      (s.log "p").applied = 1) (by decide)
  obtain ⟨⟨n, v, w, made', below, _⟩, joined⟩ := submit_applied_locally sampleDeployment.cluster samplePb.unmarshal
    (hop_faithful _) sampleDeployment.respects s run _ back
  rw [made] at made'
  cases made'
  refine ⟨s, run, back, below, fun ring failed => ?_⟩
  obtain ⟨k, _, _, _, above, low, _⟩ := joined samplePb sampleDeployment sampleDeployment.cluster.init s _ "p" joinRaw
    ⟨"a", "x", 0⟩ 1 ring .refl run back (Nat.zero_le _) made (by decide) Nat.zero_lt_one applied.ge failed
  exact absurd above (Nat.not_lt.mpr (Nat.le_of_lt_succ low))

end PrefixMesh.Directory
