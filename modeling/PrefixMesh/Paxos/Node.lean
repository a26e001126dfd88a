import PrefixMesh.Paxos.Acceptor
import PrefixMesh.Paxos.Log

/-! The replicas as one transition system. Every replica is acceptor, learner and
proposer at once; the state lists the nodes field by field, so `round n` is the
round counter of node `n`. The lists of messages only grow: a message may be
delivered late, out of order, more than once or never, also after the proposer
that sent it has given its round up. `votes`, `calls` and `returned` are history
that no transition reads. -/

namespace PrefixMesh.Paxos

/-- `Config` of all nodes of one cluster, with the transport they share. Each node lists the
replicas in an order of its own. `carry p q r v` is what a value `v` becomes on its way from
`p` to `q`; `r` resolves the freedom of the encoder, and `none` is a failed call. -/
structure Cluster (R V σ ρ : Type) [LinearOrder R] where
  replicas : List R
  lists : R → List R
  equal : V → V → Bool
  noop : R → V
  apply : Nat → V → σ → σ
  start : σ
  carry : R → R → ρ → V → Option V
  distinct : replicas.Nodup
  nonempty : 0 < replicas.length
  atMost : replicas.length ≤ 256
  listed : ∀ n, (lists n).Perm replicas

structure PrepareMsg (R : Type) where
  sender : R
  target : R
  slot : Nat
  ballot : Nat
  deriving DecidableEq

structure PromiseMsg (R V : Type) where
  sender : R
  target : R
  slot : Nat
  ballot : Nat
  reply : PrepareReply V
  deriving DecidableEq

structure AcceptMsg (R V : Type) where
  sender : R
  target : R
  slot : Nat
  ballot : Nat
  value : V
  deriving DecidableEq

structure AckMsg (R : Type) where
  sender : R
  target : R
  slot : Nat
  ballot : Nat
  reply : AcceptReply
  deriving DecidableEq

structure LearnMsg (R V : Type) where
  sender : R
  target : R
  slot : Nat
  value : V
  deriving DecidableEq

structure Vote (R V : Type) where
  acceptor : R
  slot : Nat
  ballot : Nat
  value : V
  deriving DecidableEq

/-- Phase 1 of `runSlot` while it waits: `pending` are the peers whose result has not come. -/
structure Preparing (R V : Type) where
  slot : Nat
  ballot : Nat
  pending : List R
  promises : Nat
  adopted : Option V
  adoptedBallot : Nat
  maxPromised : Nat
  deriving DecidableEq

structure Accepting (R V : Type) where
  slot : Nat
  ballot : Nat
  proposal : V
  pending : List R
  accepts : Nat
  maxPromised : Nat
  deriving DecidableEq

/-- Where the `Submit` call that holds `submitMu` stands. -/
inductive Phase (R V : Type) where
  | ready
  | preparing (p : Preparing R V)
  | accepting (a : Accepting R V)
  | committing (slot : Nat) (proposal : V)
  deriving DecidableEq

structure Call (R V : Type) where
  id : Nat
  value : V
  attempt : Nat
  phase : Phase R V
  deriving DecidableEq

/-- A `Submit` call that returned nil, with the slot it ended in and the value chosen there. -/
structure Returned (V : Type) where
  call : Nat
  slot : Nat
  value : V
  deriving DecidableEq

structure State (R V σ : Type) where
  round : R → Nat
  acceptor : R → Acceptor V
  log : R → Log V σ
  waiting : R → List (Nat × V)
  active : R → Option (Call R V)
  prepares : List (PrepareMsg R)
  promises : List (PromiseMsg R V)
  accepts : List (AcceptMsg R V)
  acks : List (AckMsg R)
  learns : List (LearnMsg R V)
  votes : List (Vote R V)
  calls : List (R × V)
  returned : List (Returned V)

inductive Action (R V ρ : Type) where
  | submit (n : R) (v : V)
  | gapFill (n : R)
  | acquire (n : R) (id : Nat) (v : V)
  | giveUp (n : R)
  | attempt (n : R)
  | deliverPrepare (m : PrepareMsg R) (r : ρ)
  | recvPromise (n peer : R) (reply : PrepareReply V)
  | failPrepare (n peer : R)
  | finishPrepare (n : R)
  | deliverAccept (m : AcceptMsg R V) (r : ρ)
  | recvAck (n peer : R) (reply : AcceptReply)
  | failAccept (n peer : R)
  | finishAccept (n : R)
  | commit (n : R)
  | deliverLearn (m : LearnMsg R V) (r : ρ)

section

variable {R V σ ρ : Type} [LinearOrder R] [DecidableEq V]

def Cluster.majority (c : Cluster R V σ ρ) (n : R) : Nat := (c.lists n).length / 2 + 1

def Cluster.idx (c : Cluster R V σ ρ) (n : R) : Nat := nodeIdx n (c.lists n)

def Cluster.init (c : Cluster R V σ ρ) : State R V σ where
  round := fun _ => 0
  acceptor := fun _ => newAcceptor
  log := fun _ => newLog c.start
  waiting := fun _ => []
  active := fun _ => none
  prepares := []
  promises := []
  accepts := []
  acks := []
  learns := []
  votes := []
  calls := []
  returned := []

def catchUpRound (round promised : Nat) : Nat :=
  if round ≥ Ballot.round promised then round else Ballot.round promised

def Preparing.collect (p : Preparing R V) (peer : R) (reply : PrepareReply V) : Preparing R V :=
  let p := { p with pending := p.pending.erase peer }
  if reply.promised then
    let p := { p with promises := p.promises + 1 }
    match reply.acceptedValue with
    | some v =>
        if reply.acceptedBallot ≥ p.adoptedBallot then
          { p with adopted := some v, adoptedBallot := reply.acceptedBallot }
        else p
    | none => p
  else if reply.promisedBallot > p.maxPromised then
    { p with maxPromised := reply.promisedBallot }
  else p

def Accepting.collect (a : Accepting R V) (peer : R) (reply : AcceptReply) : Accepting R V :=
  let a := { a with pending := a.pending.erase peer }
  if reply.accepted then { a with accepts := a.accepts + 1 }
  else if reply.promisedBallot > a.maxPromised then { a with maxPromised := reply.promisedBallot }
  else a

def State.setActive (s : State R V σ) (n : R) (call : Option (Call R V)) : State R V σ :=
  { s with active := Function.update s.active n call }

def State.enter (s : State R V σ) (n : R) (v : V) : State R V σ :=
  { s with
    waiting := Function.update s.waiting n (s.waiting n ++ [(s.calls.length, v)])
    calls := s.calls ++ [(n, v)] }

def State.acquire (s : State R V σ) (n : R) (id : Nat) (v : V) : State R V σ :=
  { s with
    waiting := Function.update s.waiting n ((s.waiting n).erase (id, v))
    active := Function.update s.active n (some ⟨id, v, 0, .ready⟩) }

/-- The round counter moves, and every peer is sent a `Prepare` for the first unchosen slot. -/
def State.attempt (c : Cluster R V σ ρ) (s : State R V σ) (n : R) (call : Call R V) : State R V σ :=
  let round := (s.round n + 1) % 2 ^ 64
  let ballot := makeBallot round (c.idx n)
  let slot := (s.log n).firstUnchosen
  { s with
    round := Function.update s.round n round
    active := Function.update s.active n
      (some { call with phase := .preparing ⟨slot, ballot, c.lists n, 0, none, 0, 0⟩ })
    prepares := (c.lists n).map (fun peer => ⟨n, peer, slot, ballot⟩) ++ s.prepares }

/-- A value that cannot be carried back turns the answer into an error, after the promise. -/
def carryReply (c : Cluster R V σ ρ) (m : PrepareMsg R) (r : ρ) (reply : PrepareReply V) :
    List (PromiseMsg R V) :=
  match reply.acceptedValue with
  | none => [⟨m.target, m.sender, m.slot, m.ballot, reply⟩]
  | some v =>
      match c.carry m.target m.sender r v with
      | none => []
      | some w => [⟨m.target, m.sender, m.slot, m.ballot, { reply with acceptedValue := some w }⟩]

def State.answerPrepare (c : Cluster R V σ ρ) (s : State R V σ) (m : PrepareMsg R) (r : ρ) :
    State R V σ :=
  let out := (s.acceptor m.target).prepare m.slot m.ballot
  { s with
    acceptor := Function.update s.acceptor m.target out.2
    promises := carryReply c m r out.1 ++ s.promises }

/-- A failed phase: catch up with the highest promise seen and go round the loop again. -/
def State.lose (s : State R V σ) (n : R) (call : Call R V) (promised : Nat) : State R V σ :=
  { s with
    round := Function.update s.round n (catchUpRound (s.round n) promised)
    active := Function.update s.active n (some { call with attempt := call.attempt + 1, phase := .ready }) }

def State.propose (c : Cluster R V σ ρ) (s : State R V σ) (n : R) (call : Call R V)
    (p : Preparing R V) : State R V σ :=
  let proposal := p.adopted.getD call.value
  { s with
    active := Function.update s.active n
      (some { call with phase := .accepting ⟨p.slot, p.ballot, proposal, c.lists n, 0, 0⟩ })
    accepts := (c.lists n).map (fun peer => ⟨n, peer, p.slot, p.ballot, proposal⟩) ++ s.accepts }

def State.answerAccept (s : State R V σ) (m : AcceptMsg R V) (v : V) : State R V σ :=
  let out := (s.acceptor m.target).accept m.slot m.ballot v
  { s with
    acceptor := Function.update s.acceptor m.target out.2
    acks := ⟨m.target, m.sender, m.slot, m.ballot, out.1⟩ :: s.acks
    votes := if out.1.accepted then ⟨m.target, m.slot, m.ballot, v⟩ :: s.votes else s.votes }

def State.announce (c : Cluster R V σ ρ) (s : State R V σ) (n : R) (call : Call R V)
    (a : Accepting R V) : State R V σ :=
  { s with
    active := Function.update s.active n (some { call with phase := .committing a.slot a.proposal })
    learns := (c.lists n).map (fun peer => ⟨n, peer, a.slot, a.proposal⟩) ++ s.learns }

/-- `Commit` on the local log, and `Submit`'s comparison of the chosen value with its own. -/
def State.commitLocal (c : Cluster R V σ ρ) (s : State R V σ) (n : R) (call : Call R V)
    (slot : Nat) (proposal : V) : State R V σ :=
  { s with
    log := Function.update s.log n ((s.log n).commit c.apply slot proposal)
    active := Function.update s.active n
      (if c.equal proposal call.value then none
       else some { call with attempt := call.attempt + 1, phase := .ready })
    returned := if c.equal proposal call.value then ⟨call.id, slot, proposal⟩ :: s.returned
      else s.returned }

def State.answerLearn (c : Cluster R V σ ρ) (s : State R V σ) (m : LearnMsg R V) (v : V) :
    State R V σ :=
  { s with log := Function.update s.log m.target ((s.log m.target).commit c.apply m.slot v) }

/-- `giveUp` is either return of an error at the head of the loop: an expired context, or the
budget of twenty attempts used up. -/
def step (c : Cluster R V σ ρ) (s : State R V σ) : Action R V ρ → Option (State R V σ)
  | .submit n v => if n ∈ c.replicas then some (s.enter n v) else none
  | .gapFill n =>
      if n ∈ c.replicas ∧ (s.log n).gap.2 = true then some (s.enter n (c.noop n)) else none
  | .acquire n id v =>
      match s.active n with
      | none => if (id, v) ∈ s.waiting n then some (s.acquire n id v) else none
      | some _ => none
  | .giveUp n =>
      match s.active n with
      | some ⟨_, _, _, .ready⟩ => some (s.setActive n none)
      | _ => none
  | .attempt n =>
      match s.active n with
      | some ⟨id, v, k, .ready⟩ => if k < 20 then some (s.attempt c n ⟨id, v, k, .ready⟩) else none
      | _ => none
  | .deliverPrepare m r => if m ∈ s.prepares then some (s.answerPrepare c m r) else none
  | .recvPromise n peer reply =>
      match s.active n with
      | some ⟨id, v, k, .preparing p⟩ =>
          if peer ∈ p.pending ∧ (⟨peer, n, p.slot, p.ballot, reply⟩ : PromiseMsg R V) ∈ s.promises then
            some (s.setActive n (some ⟨id, v, k, .preparing (p.collect peer reply)⟩))
          else none
      | _ => none
  | .failPrepare n peer =>
      match s.active n with
      | some ⟨id, v, k, .preparing p⟩ =>
          if peer ∈ p.pending then
            some (s.setActive n
              (some ⟨id, v, k, .preparing { p with pending := p.pending.erase peer }⟩))
          else none
      | _ => none
  | .finishPrepare n =>
      match s.active n with
      | some ⟨id, v, k, .preparing p⟩ =>
          if p.pending = [] then
            if p.promises < c.majority n then some (s.lose n ⟨id, v, k, .preparing p⟩ p.maxPromised)
            else some (s.propose c n ⟨id, v, k, .preparing p⟩ p)
          else none
      | _ => none
  | .deliverAccept m r =>
      if m ∈ s.accepts then (c.carry m.sender m.target r m.value).map (s.answerAccept m) else none
  | .recvAck n peer reply =>
      match s.active n with
      | some ⟨id, v, k, .accepting a⟩ =>
          if peer ∈ a.pending ∧ (⟨peer, n, a.slot, a.ballot, reply⟩ : AckMsg R) ∈ s.acks then
            some (s.setActive n (some ⟨id, v, k, .accepting (a.collect peer reply)⟩))
          else none
      | _ => none
  | .failAccept n peer =>
      match s.active n with
      | some ⟨id, v, k, .accepting a⟩ =>
          if peer ∈ a.pending then
            some (s.setActive n
              (some ⟨id, v, k, .accepting { a with pending := a.pending.erase peer }⟩))
          else none
      | _ => none
  | .finishAccept n =>
      match s.active n with
      | some ⟨id, v, k, .accepting a⟩ =>
          if a.pending = [] then
            if a.accepts < c.majority n then some (s.lose n ⟨id, v, k, .accepting a⟩ a.maxPromised)
            else some (s.announce c n ⟨id, v, k, .accepting a⟩ a)
          else none
      | _ => none
  | .commit n =>
      match s.active n with
      | some ⟨id, v, k, .committing slot proposal⟩ =>
          some (s.commitLocal c n ⟨id, v, k, .committing slot proposal⟩ slot proposal)
      | _ => none
  | .deliverLearn m r =>
      if m ∈ s.learns then (c.carry m.sender m.target r m.value).map (s.answerLearn c m) else none

end

end PrefixMesh.Paxos
