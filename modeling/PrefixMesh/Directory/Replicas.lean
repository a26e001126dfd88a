import Mathlib.Data.String.Basic
import PrefixMesh.Directory.StateMachine
import PrefixMesh.Paxos.Recorded

/-! The directory as an instance of the log. Values are encoded commands. A remote
hop decodes the command and encodes it again, in whatever way the encoder picks, so
the logs agree on the decoded commands and not on the bytes; that is enough for the
state machines, which look at nothing else. -/

namespace PrefixMesh.Directory
open Paxos

def commandsEqual (pb : Protobuf) (a b : Bytes) : Bool :=
  match pb.unmarshal a, pb.unmarshal b with
  | some ca, some cb => decide (ca = cb)
  | _, _ => false

/-- The self path hands the bytes over; elsewhere `sent` are the bytes the encoder produced. -/
def hop (pb : Protobuf) (sender target : String) (sent raw : Bytes) : Option Bytes :=
  if sender = target then some raw
  else
    match pb.unmarshal raw with
    | none => none
    | some cmd => if pb.encodes cmd sent then some sent else none

/-- The replicas of one deployment; `replicas n` is the list that `New` builds on replica `n`. -/
structure Deployment (pb : Protobuf) where
  ids : List String
  replicas : String → List String
  noop : String → Bytes
  distinct : ids.Nodup
  nonempty : 0 < ids.length
  atMost : ids.length ≤ 256
  listed : ∀ n, (replicas n).Perm ids
  encoded : ∀ n, pb.encodes (.noop true) (noop n) = true

def Deployment.cluster {pb : Protobuf} (d : Deployment pb) : Cluster String Bytes StateMachine Bytes where
  replicas := d.ids
  lists := d.replicas
  equal := commandsEqual pb
  noop := d.noop
  apply := fun _ raw sm => sm.apply pb raw
  start := newStateMachine
  carry := hop pb
  distinct := d.distinct
  nonempty := d.nonempty
  atMost := d.atMost
  listed := d.listed

variable {pb : Protobuf}

theorem hop_faithful (d : Deployment pb) : Faithful d.cluster pb.unmarshal := by
  intro sender target sent raw value carried
  simp only [Deployment.cluster, hop] at carried
  by_cases self : sender = target
  · rw [if_pos self] at carried
    rw [Option.some.inj carried]
  · rw [if_neg self] at carried
    cases decoded : pb.unmarshal raw with
    | none => simp [decoded] at carried
    | some cmd =>
      by_cases encoded : pb.encodes cmd sent = true
      · simp only [decoded, if_pos encoded, Option.some.injEq] at carried
        rw [← carried]
        exact pb.decodes cmd sent encoded
      · simp [decoded, encoded] at carried

/-- The state machine of replica `n` once `count` slots are applied. `Ring` takes only the lock of
the state machine, so it can be read between two commands of one `Commit`. -/
def Deployment.stateAfter (d : Deployment pb) (s : State String Bytes StateMachine) (n : String)
    (count : Nat) : StateMachine :=
  applyBelow d.cluster.apply (s.log n).chosen newStateMachine count

theorem Deployment.state_eq (d : Deployment pb) {s : State String Bytes StateMachine}
    (run : Reachable d.cluster s) (n : String) :
    (s.log n).state = d.stateAfter s n (s.log n).applied :=
  (logInv_reachable run n).folded

/-- Applying a slot leaves the state machine alone, or changes the members and adds one to the epoch. -/
theorem Deployment.stateAfter_succ (d : Deployment pb) (s : State String Bytes StateMachine) (n : String)
    (count : Nat) : d.stateAfter s n (count + 1) = d.stateAfter s n count ∨
      (d.stateAfter s n (count + 1)).members ≠ (d.stateAfter s n count).members ∧
      (d.stateAfter s n (count + 1)).epoch = (d.stateAfter s n count).epoch + 1 := by
  unfold Deployment.stateAfter
  cases found : (s.log n).chosen.lookup count with
  | none => simp only [applyBelow, found, true_or]
  | some raw =>
    simp only [applyBelow, found]
    exact StateMachine.apply_cases pb raw _

theorem Deployment.stateAfter_mono (d : Deployment pb) (s : State String Bytes StateMachine) (n : String)
    (first more : Nat) :
    (d.stateAfter s n first).epoch ≤ (d.stateAfter s n (first + more)).epoch ∧
    ((d.stateAfter s n first).epoch = (d.stateAfter s n (first + more)).epoch →
      d.stateAfter s n first = d.stateAfter s n (first + more)) := by
  induction more with
  | zero => exact ⟨le_rfl, fun _ => rfl⟩
  | succ more ih =>
    obtain ⟨below, still⟩ := ih
    rw [← Nat.add_assoc]
    rcases d.stateAfter_succ s n (first + more) with same | ⟨_, raised⟩
    · rw [same]
      exact ⟨below, still⟩
    · exact ⟨by omega, fun equal => by omega⟩

/-- The epoch, a `uint64` like the slots, does not wrap before they do. -/
theorem Deployment.epoch_le_applied (d : Deployment pb) (s : State String Bytes StateMachine) (n : String)
    (count : Nat) : (d.stateAfter s n count).epoch ≤ count := by
  induction count with
  | zero => exact le_rfl
  | succ count ih =>
    rcases d.stateAfter_succ s n count with same | ⟨_, raised⟩
    · rw [same]
      omega
    · omega

theorem Deployment.stateAfter_agree (d : Deployment pb) {s t : State String Bytes StateMachine}
    (run : Reachable d.cluster s) (later : Leads d.cluster s t) (n k : String) (count : Nat)
    (first : count ≤ (s.log n).applied) (second : count ≤ (t.log k).applied) :
    d.stateAfter s n count = d.stateAfter t k count := by
  induction count with
  | zero => rfl
  | succ count ih =>
    have below := ih (by omega) (by omega)
    obtain ⟨v, foundS⟩ := Option.ne_none_iff_exists'.mp ((logInv_reachable run n).recorded count (by omega))
    obtain ⟨w, foundT⟩ :=
      Option.ne_none_iff_exists'.mp ((logInv_reachable (run.trans later) k).recorded count (by omega))
    have same := recorded_meaning (hop_faithful d) run later foundS foundT
    unfold Deployment.stateAfter at below ⊢
    simp only [applyBelow, foundS, foundT, below]
    simp only [Deployment.cluster, StateMachine.apply, same]

theorem StateMachine.IsRing.same_nodes {sm : StateMachine} {first second : Ring} (left : sm.IsRing first)
    (right : sm.IsRing second) (info : NodeInfo) : info ∈ first.nodes ↔ info ∈ second.nodes := by
  have same : (first.nodes : Multiset NodeInfo) = second.nodes := left.nodes.trans right.nodes.symm
  exact (Multiset.coe_eq_coe.mp same).mem_iff

theorem Deployment.eq_of_epoch_eq (d : Deployment pb) {s t : State String Bytes StateMachine}
    (run : Reachable d.cluster s) (later : Leads d.cluster s t) (n k : String) (i j : Nat)
    (lowS : i ≤ (s.log n).applied) (lowT : j ≤ (t.log k).applied)
    (epochs : (d.stateAfter s n i).epoch = (d.stateAfter t k j).epoch) :
    d.stateAfter s n i = d.stateAfter t k j := by
  -- compare both states with the shorter log, which the longer one extends
  rcases Nat.le_total i j with order | order
  · obtain ⟨more, rfl⟩ := Nat.exists_eq_add_of_le order
    have agree := d.stateAfter_agree run later n k i lowS (by omega)
    rw [agree] at epochs ⊢
    exact (d.stateAfter_mono t k i more).2 epochs
  · obtain ⟨more, rfl⟩ := Nat.exists_eq_add_of_le order
    have agree := d.stateAfter_agree run later n k j (by omega) lowT
    rw [← agree] at epochs ⊢
    exact ((d.stateAfter_mono s n j more).2 epochs.symm).symm

theorem Deployment.stateAfter_keyed (d : Deployment pb) (s : State String Bytes StateMachine) (n : String)
    (count : Nat) : (d.stateAfter s n count).Keyed := by
  induction count with
  | zero =>
    intro nodeId info found
    cases found
  | succ count ih =>
    unfold Deployment.stateAfter at ih ⊢
    cases found : (s.log n).chosen.lookup count with
    | none => simpa only [applyBelow, found] using ih
    | some raw =>
      simp only [applyBelow, found]
      exact ih.apply pb raw

/-- A ring that some replica may have shown by the time the run is in `s`. -/
def Deployment.Published (d : Deployment pb) (s : State String Bytes StateMachine) (ring : Ring) : Prop :=
  ∃ n i, i ≤ (s.log n).applied ∧ (d.stateAfter s n i).IsRing ring

/-- What was shown earlier in the run still counts as shown, so that one state bounds all that a watcher
has received. -/
theorem Deployment.Published.mono {d : Deployment pb} {s t : State String Bytes StateMachine} {ring : Ring}
    (run : Reachable d.cluster s) (later : Leads d.cluster s t) (shown : d.Published s ring) :
    d.Published t ring := by
  obtain ⟨n, i, low, is⟩ := shown
  have still : i ≤ (t.log n).applied := by
    by_contra short
    have known := (logInv_reachable run n).recorded (t.log n).applied (by omega)
    obtain ⟨v, found⟩ := Option.ne_none_iff_exists'.mp known
    have stalled := (logInv_reachable (run.trans later) n).stalled
    rw [lookup_leads later n _ v found] at stalled
    cases stalled
  exact ⟨n, i, still, d.stateAfter_agree run later n n i low still ▸ is⟩

/-- The epoch determines the ring, on all replicas and at all moments of a run; it never falls, and the
members change at exactly the commands that raise it, by one each. -/
theorem epoch_determines_ring (d : Deployment pb) (s t : State String Bytes StateMachine)
    (run : Reachable d.cluster s) (later : Leads d.cluster s t) :
    (∀ n k i j first second, i ≤ (s.log n).applied → j ≤ (t.log k).applied →
      (d.stateAfter s n i).IsRing first → (d.stateAfter t k j).IsRing second → first.epoch = second.epoch →
      ∀ info, info ∈ first.nodes ↔ info ∈ second.nodes) ∧
    (∀ n i j, i ≤ j → i ≤ (s.log n).applied → j ≤ (t.log n).applied →
      (d.stateAfter s n i).epoch ≤ (d.stateAfter t n j).epoch) ∧
    (∀ n i, i < (s.log n).applied →
      d.stateAfter s n (i + 1) = d.stateAfter s n i ∨
      (d.stateAfter s n (i + 1)).members ≠ (d.stateAfter s n i).members ∧
      (d.stateAfter s n (i + 1)).epoch = (d.stateAfter s n i).epoch + 1) ∧
    ∀ n, (s.log n).state = d.stateAfter s n (s.log n).applied := by
  have reached := run.trans later
  refine ⟨?_, ?_, fun n i _ => d.stateAfter_succ s n i, fun n => d.state_eq run n⟩
  · intro n k i j first second lowS lowT left right equal
    have epochs : (d.stateAfter s n i).epoch = (d.stateAfter t k j).epoch := by
      rw [← left.epoch, ← right.epoch, equal]
    rw [d.eq_of_epoch_eq run later n k i j lowS lowT epochs] at left
    exact left.same_nodes right
  · intro n i j order lowS lowT
    obtain ⟨more, rfl⟩ := Nat.exists_eq_add_of_le order
    rw [d.stateAfter_agree run later n n i lowS (by omega)]
    exact (d.stateAfter_mono t n i more).1

def sampleDeployment : Deployment samplePb where
  ids := ["p", "q"]
  replicas := fun _ => ["p", "q"]
  noop := fun _ => noopRaw
  distinct := by decide
  nonempty := by decide
  atMost := by decide
  listed := fun _ => .refl _
  encoded := fun _ => by decide

/-- `p` gets a join chosen and `q` learns it in other bytes; both show the node at epoch 1. -/
theorem sampleDeployment_ring : ∃ s, Reachable sampleDeployment.cluster s ∧
    (s.log "p").chosen.lookup 0 ≠ (s.log "q").chosen.lookup 0 ∧
    ∀ first second, (s.log "p").state.IsRing first → (s.log "q").state.IsRing second →
      first.epoch = 1 ∧ second.epoch = 1 ∧ ∀ info, info ∈ first.nodes ↔ info ∈ second.nodes := by
  obtain ⟨s, run, differ, one, one'⟩ := Lib.reaches_of_check (step sampleDeployment.cluster)
    (fun _ _ u => RoundsBelow sampleDeployment.cluster u)
    ([.submit "p" joinRaw, .acquire "p" 0 joinRaw] ++
      roundActions "p" 0 256 joinRaw [("p", ⟨true, 0, none, 256⟩), ("q", ⟨true, 0, none, 256⟩)] [] joinSwapped ++
      [.deliverLearn ⟨"p", "q", 0, joinRaw⟩ joinSwapped])
    sampleDeployment.cluster.init
    (fun s => (s.log "p").chosen.lookup 0 ≠ (s.log "q").chosen.lookup 0 ∧
      (s.log "p").state.epoch = 1 ∧ (s.log "q").state.epoch = 1) (by decide)
  refine ⟨s, run, differ, ?_⟩
  intro first second left right
  obtain ⟨rings, _, _, states⟩ := epoch_determines_ring sampleDeployment s s run .refl
  have epochs : first.epoch = 1 ∧ second.epoch = 1 := ⟨left.epoch.trans one, right.epoch.trans one'⟩
  rw [states] at left right
  exact ⟨epochs.1, epochs.2, rings "p" "q" _ _ first second le_rfl le_rfl left right
    (epochs.1.trans epochs.2.symm)⟩

end PrefixMesh.Directory
