import PrefixMesh.Directory.Join

/-! The control-plane side of a cache node. `Run` joins, and joins again whenever a ring without
the node has raised the `rejoin` signal, which holds at most one. The replicas are asked in turn,
in the order of the list of clients; a request that a replica has taken up is known by the number
of the `Submit` call that it led to. Heartbeats change nothing on this side. -/

namespace PrefixMesh.Cachenode
open Directory (NodeInfo)

/-- Where `Run` is. `asking k` is the round of `join` that calls the client with number `k`. -/
inductive Errand where
  | starting
  | asking (k : Nat) (call : Option Nat)
  | pausing
  | idle
  | ended
  deriving DecidableEq

structure Agent where
  errand : Errand
  rejoin : Bool
  deriving DecidableEq

def newAgent : Agent := ⟨.starting, false⟩

def lists (ring : Directory.Ring) (nodeId : String) : Bool := ring.nodes.any fun n => n.nodeId == nodeId

/-- The callback of the watcher. -/
def Agent.onRing (a : Agent) (self : NodeInfo) (ring : Directory.Ring) : Agent :=
  if lists ring self.nodeId then a else { a with rejoin := true }

/-- The head of `Run`: without a client it returns, otherwise the watcher runs from here on. -/
def Agent.run (a : Agent) (clients : List String) : Option Agent :=
  match a.errand with
  | .starting => some { a with errand := if clients = [] then .ended else .asking 0 none }
  | _ => none

def Agent.replica (a : Agent) (clients : List String) : Option String :=
  match a.errand with
  | .asking k _ => clients[k]?
  | _ => none

def Agent.taken (a : Agent) (call : Nat) : Option Agent :=
  match a.errand with
  | .asking k none => some { a with errand := .asking k (some call) }
  | _ => none

/-- The call fails, on whichever side; behind the last client `join` pauses. -/
def Agent.refused (a : Agent) (clients : List String) : Option Agent :=
  match a.errand with
  | .asking k _ => some { a with errand := if k + 1 < clients.length then .asking (k + 1) none else .pausing }
  | _ => none

def Agent.resume (a : Agent) : Option Agent :=
  match a.errand with
  | .pausing => some { a with errand := .asking 0 none }
  | _ => none

def Agent.joined (a : Agent) : Agent := { a with errand := .idle }

def Agent.received (a : Agent) : Option Agent :=
  if a.errand = .idle ∧ a.rejoin = true then some ⟨.asking 0 none, false⟩ else none

def Agent.Busy (a : Agent) : Prop := a.rejoin = true ∨ a.errand ≠ .idle

theorem Agent.onRing_busy {a : Agent} {self : NodeInfo} {ring : Directory.Ring}
    (absent : lists ring self.nodeId = false) : (a.onRing self ring).Busy := by
  rw [Agent.onRing, if_neg (by simp [absent])]
  exact Or.inl rfl

theorem Agent.run_busy {a b : Agent} {clients : List String} (moved : a.run clients = some b) : b.Busy := by
  unfold Agent.run at moved
  split at moved
  · cases moved
    refine Or.inr ?_
    show (if clients = [] then Errand.ended else .asking 0 none) ≠ .idle
    split_ifs <;> simp
  · cases moved

theorem Agent.taken_busy {a b : Agent} {call : Nat} (moved : a.taken call = some b) : b.Busy := by
  unfold Agent.taken at moved
  split at moved
  · cases moved
    exact Or.inr (by simp)
  · cases moved

theorem Agent.refused_busy {a b : Agent} {clients : List String} (moved : a.refused clients = some b) : b.Busy := by
  unfold Agent.refused at moved
  split at moved
  next k _ _ =>
    cases moved
    refine Or.inr ?_
    show (if k + 1 < clients.length then Errand.asking (k + 1) none else .pausing) ≠ .idle
    split_ifs <;> simp
  · cases moved

theorem Agent.resume_busy {a b : Agent} (moved : a.resume = some b) : b.Busy := by
  unfold Agent.resume at moved
  split at moved
  · cases moved
    exact Or.inr (by simp)
  · cases moved

theorem Agent.received_busy {a b : Agent} (moved : a.received = some b) : b.Busy := by
  unfold Agent.received at moved
  split at moved
  · cases moved
    exact Or.inr (by simp)
  · cases moved

end PrefixMesh.Cachenode
