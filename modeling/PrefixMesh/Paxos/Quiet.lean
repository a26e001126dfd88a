import Mathlib.Order.Lattice.Nat
import PrefixMesh.Paxos.Sent

/-! One call of `Submit` on a quiet network: it is the only one that runs, each of its
requests is delivered and answered once, in any order, and it has all the time it needs.
An attempt then has an outcome that the state it starts in determines. -/

namespace PrefixMesh.Paxos

variable {R V σ ρ C : Type}

theorem other_phase {s : State R V σ} {n : R} {call call' : Call R V} {phase : Phase R V} {P : Prop}
    (held : s.active n = some call) (held' : s.active n = some call') (here : call'.phase = phase)
    (apart : call.phase ≠ phase) : P := by
  rw [held] at held'
  cases held'
  exact absurd here apart

variable [LinearOrder R]

def Phase.asks : Phase R V → Option (Nat × Nat)
  | .preparing p => some (p.slot, p.ballot)
  | _ => none

def Phase.offers : Phase R V → Option (Nat × Nat)
  | .accepting a => some (a.slot, a.ballot)
  | _ => none

/-- What may happen while only the call of `n` runs. A `Learn` may arrive or not; one that says nothing new is no
event. -/
def Quiet (c : Cluster R V σ ρ) (n : R) (s : State R V σ) : Action R V ρ → Prop
  | .attempt k => k = n
  | .giveUp k => k = n ∧ ∀ call ∈ s.active n, 20 ≤ call.attempt
  | .deliverPrepare m r => m.sender = n ∧ (∃ call ∈ s.active n, call.phase.asks = some (m.slot, m.ballot)) ∧
      (∀ q ∈ s.promises, q.sender = m.target → q.target = n → q.slot = m.slot → q.ballot ≠ m.ballot) ∧
      carryReply c m r ((s.acceptor m.target).prepare m.slot m.ballot).1 ≠ []
  | .recvPromise k _ _ => k = n
  | .finishPrepare k => k = n
  | .deliverAccept m _ => m.sender = n ∧ (∃ call ∈ s.active n, call.phase.offers = some (m.slot, m.ballot)) ∧
      ∀ q ∈ s.acks, q.sender = m.target → q.target = n → q.slot = m.slot → q.ballot ≠ m.ballot
  | .recvAck k _ _ => k = n
  | .finishAccept k => k = n
  | .commit k => k = n
  | .deliverLearn m _ => (s.log m.target).chosen.lookup m.slot = none
  | _ => False

instance (c : Cluster R V σ ρ) (n : R) (s : State R V σ) (a : Action R V ρ) : Decidable (Quiet c n s a) :=
  match a with
  | .attempt k | .recvPromise k _ _ | .finishPrepare k | .recvAck k _ _ | .finishAccept k | .commit k =>
      inferInstanceAs (Decidable (k = n))
  | .giveUp k => inferInstanceAs (Decidable (k = n ∧ ∀ call ∈ s.active n, 20 ≤ call.attempt))
  | .deliverPrepare m r => inferInstanceAs (Decidable (m.sender = n ∧
      (∃ call ∈ s.active n, call.phase.asks = some (m.slot, m.ballot)) ∧
      (∀ q ∈ s.promises, q.sender = m.target → q.target = n → q.slot = m.slot → q.ballot ≠ m.ballot) ∧
      carryReply c m r ((s.acceptor m.target).prepare m.slot m.ballot).1 ≠ []))
  | .deliverAccept m _ => inferInstanceAs (Decidable (m.sender = n ∧
      (∃ call ∈ s.active n, call.phase.offers = some (m.slot, m.ballot)) ∧
      ∀ q ∈ s.acks, q.sender = m.target → q.target = n → q.slot = m.slot → q.ballot ≠ m.ballot))
  | .deliverLearn m _ => inferInstanceAs (Decidable ((s.log m.target).chosen.lookup m.slot = none))
  | .submit .. | .gapFill _ | .acquire .. | .failPrepare .. | .failAccept .. => inferInstanceAs (Decidable False)

/-- A transition on the quiet network, guards included. -/
inductive Move (c : Cluster R V σ ρ) (n : R) (s : State R V σ) : State R V σ → Prop where
  | attempt (call : Call R V) (held : s.active n = some call) (phase : call.phase = .ready)
      (budget : call.attempt < 20) : Move c n s (s.attempt c n call)
  | giveUp (call : Call R V) (held : s.active n = some call) (phase : call.phase = .ready)
      (spent : 20 ≤ call.attempt) : Move c n s (s.setActive n none)
  | ask (m : PrepareMsg R) (r : ρ) (call : Call R V) (p : Preparing R V) (held : s.active n = some call)
      (phase : call.phase = .preparing p) (sent : m ∈ s.prepares) (sender : m.sender = n) (slot : m.slot = p.slot)
      (ballot : m.ballot = p.ballot)
      (silent : ∀ reply, (⟨m.target, n, m.slot, m.ballot, reply⟩ : PromiseMsg R V) ∉ s.promises)
      (answered : carryReply c m r ((s.acceptor m.target).prepare m.slot m.ballot).1 ≠ []) :
      Move c n s (s.answerPrepare c m r)
  | recvPromise (peer : R) (reply : PrepareReply V) (call : Call R V) (p : Preparing R V)
      (held : s.active n = some call) (phase : call.phase = .preparing p) (waited : peer ∈ p.pending)
      (sent : (⟨peer, n, p.slot, p.ballot, reply⟩ : PromiseMsg R V) ∈ s.promises) :
      Move c n s (s.setActive n (some { call with phase := .preparing (p.collect peer reply) }))
  | losePrepare (call : Call R V) (p : Preparing R V) (held : s.active n = some call)
      (phase : call.phase = .preparing p) (done : p.pending = []) (few : p.promises < c.majority n) :
      Move c n s (s.lose n call p.maxPromised)
  | propose (call : Call R V) (p : Preparing R V) (held : s.active n = some call) (phase : call.phase = .preparing p)
      (done : p.pending = []) (enough : c.majority n ≤ p.promises) : Move c n s (s.propose c n call p)
  | offer (m : AcceptMsg R V) (v : V) (call : Call R V) (a : Accepting R V) (held : s.active n = some call)
      (phase : call.phase = .accepting a) (sent : m ∈ s.accepts) (sender : m.sender = n) (slot : m.slot = a.slot)
      (ballot : m.ballot = a.ballot)
      (silent : ∀ reply, (⟨m.target, n, m.slot, m.ballot, reply⟩ : AckMsg R) ∉ s.acks) :
      Move c n s (s.answerAccept m v)
  | recvAck (peer : R) (reply : AcceptReply) (call : Call R V) (a : Accepting R V) (held : s.active n = some call)
      (phase : call.phase = .accepting a) (waited : peer ∈ a.pending)
      (sent : (⟨peer, n, a.slot, a.ballot, reply⟩ : AckMsg R) ∈ s.acks) :
      Move c n s (s.setActive n (some { call with phase := .accepting (a.collect peer reply) }))
  | loseAccept (call : Call R V) (a : Accepting R V) (held : s.active n = some call) (phase : call.phase = .accepting a)
      (done : a.pending = []) (few : a.accepts < c.majority n) : Move c n s (s.lose n call a.maxPromised)
  | announce (call : Call R V) (a : Accepting R V) (held : s.active n = some call) (phase : call.phase = .accepting a)
      (done : a.pending = []) (enough : c.majority n ≤ a.accepts) : Move c n s (s.announce c n call a)
  | commit (call : Call R V) (slot : Nat) (proposal : V) (held : s.active n = some call)
      (phase : call.phase = .committing slot proposal) : Move c n s (s.commitLocal c n call slot proposal)
  | learn (m : LearnMsg R V) (v : V) (sent : m ∈ s.learns)
      (missing : (s.log m.target).chosen.lookup m.slot = none) : Move c n s (s.answerLearn c m v)

theorem move_of_step [DecidableEq V] {c : Cluster R V σ ρ} {n : R} {s t : State R V σ} {a : Action R V ρ}
    (taken : step c s a = some t) (quiet : Quiet c n s a) : Move c n s t := by
  cases effect_of_step c s t a taken with
  | attempt k call held phase budget =>
    cases quiet
    exact .attempt call held phase budget
  | giveUp k call held phase =>
    obtain ⟨rfl, spent⟩ := quiet
    exact .giveUp call held phase (spent call held)
  | deliverPrepare m r sent =>
    obtain ⟨sender, ⟨call, held, asks⟩, silent, answered⟩ := quiet
    cases phase : call.phase with
    | preparing p =>
      rw [phase, Phase.asks, Option.some.injEq, Prod.mk.injEq] at asks
      exact .ask m r call p held phase sent sender asks.1.symm asks.2.symm
        (fun reply inside => silent _ inside rfl rfl rfl rfl) answered
    | _ =>
      rw [phase] at asks
      cases asks
  | recvPromise k peer reply call p held phase waited sent =>
    cases quiet
    exact .recvPromise peer reply call p held phase waited sent
  | losePrepare k call p held phase done few =>
    cases quiet
    exact .losePrepare call p held phase done few
  | propose k call p held phase done enough =>
    cases quiet
    exact .propose call p held phase done enough
  | deliverAccept m r v sent carried =>
    obtain ⟨sender, ⟨call, held, offers⟩, silent⟩ := quiet
    cases phase : call.phase with
    | accepting a =>
      rw [phase, Phase.offers, Option.some.injEq, Prod.mk.injEq] at offers
      exact .offer m v call a held phase sent sender offers.1.symm offers.2.symm
        (fun reply inside => silent _ inside rfl rfl rfl rfl)
    | _ =>
      rw [phase] at offers
      cases offers
  | recvAck k peer reply call a held phase waited sent =>
    cases quiet
    exact .recvAck peer reply call a held phase waited sent
  | loseAccept k call a held phase done few =>
    cases quiet
    exact .loseAccept call a held phase done few
  | announce k call a held phase done enough =>
    cases quiet
    exact .announce call a held phase done enough
  | commit k call slot proposal held phase =>
    cases quiet
    exact .commit call slot proposal held phase
  | deliverLearn m r v sent carried => exact .learn m v sent quiet
  | submit | gapFill | acquire | failPrepare | failAccept => exact quiet.elim

section Acceptors

/-! What an attempt finds at the acceptors. -/

variable (c : Cluster R V σ ρ) (acc : R → Acceptor V) (slot b : Nat)

def Grants (a : R) : Prop := (acc a slot).promised < b

instance : DecidablePred (Grants acc slot b) := fun a => inferInstanceAs (Decidable ((acc a slot).promised < b))

def refusal (a : R) : Nat := if Grants acc slot b a then 0 else (acc a slot).promised

def Wins : Prop := c.replicas.length / 2 + 1 ≤ (c.replicas.toFinset.filter (Grants acc slot b)).card

instance : Decidable (Wins c acc slot b) :=
  inferInstanceAs (Decidable (c.replicas.length / 2 + 1 ≤ (c.replicas.toFinset.filter (Grants acc slot b)).card))

def refused : Nat := c.replicas.toFinset.sup (refusal acc slot b)

def Unvoted : Prop := ∀ a ∈ c.replicas, (acc a slot).acceptedValue = none

instance : Decidable (Unvoted c acc slot) :=
  inferInstanceAs (Decidable (∀ a ∈ c.replicas, (acc a slot).acceptedValue = none))

structure Answers (sl : AcceptorSlot V) (b : Nat) (reply : PrepareReply V) : Prop where
  promised : reply.promised = decide (sl.promised < b)
  highest : reply.promisedBallot = max sl.promised b
  unvoted : sl.acceptedValue = none → reply.acceptedValue = none

def heard (pending : List R) : Finset R := c.replicas.toFinset \ pending.toFinset

theorem heard_erase {pending : List R} (distinct : pending.Nodup) {peer : R} (member : peer ∈ c.replicas)
    (waited : peer ∈ pending) :
    heard c (pending.erase peer) = insert peer (heard c pending) ∧ peer ∉ heard c pending := by
  refine ⟨?_, by simp [heard, waited]⟩
  ext a
  simp only [heard, Finset.mem_sdiff, List.mem_toFinset, Finset.mem_insert, distinct.mem_erase_iff]
  by_cases same : a = peer
  · subst same
    simp [member]
  · simp [same]

theorem heard_nil : heard c ([] : List R) = c.replicas.toFinset := by simp [heard]

theorem heard_all {pending : List R} (all : ∀ a ∈ c.replicas, a ∈ pending) : heard c pending = ∅ := by
  ext a
  simp only [heard, Finset.mem_sdiff, List.mem_toFinset, Finset.notMem_empty, iff_false, not_and, not_not]
  exact all a

theorem Preparing.collect_adopted (p : Preparing R V) (peer : R) {reply : PrepareReply V}
    (nothing : reply.acceptedValue = none) : (p.collect peer reply).adopted = p.adopted := by
  unfold Preparing.collect
  simp only [nothing]
  split
  · rfl
  · split
    · rfl
    · rfl

end Acceptors

def State.unlearnt (s : State R V σ) : Nat :=
  s.learns.countP fun m => decide ((s.log m.target).chosen.lookup m.slot = none)

theorem unlearnt_learn {c : Cluster R V σ ρ} {s : State R V σ} {m : LearnMsg R V} (v : V) (sent : m ∈ s.learns)
    (missing : (s.log m.target).chosen.lookup m.slot = none) : (s.answerLearn c m v).unlearnt < s.unlearnt := by
  have recorded : ((s.answerLearn c m v).log m.target).chosen.lookup m.slot ≠ none := by
    simp only [State.answerLearn, Function.update_self]
    exact Log.commit_recorded c.apply _ _ v
  have fewer : ∀ q : LearnMsg R V, ((s.answerLearn c m v).log q.target).chosen.lookup q.slot = none →
      (s.log q.target).chosen.lookup q.slot = none := by
    intro q still
    by_contra known
    obtain ⟨w, found⟩ := Option.ne_none_iff_exists'.mp known
    by_cases same : q.target = m.target
    · simp only [State.answerLearn, same, Function.update_self] at still found
      rw [Log.commit_known c.apply _ m.slot v q.slot w found] at still
      cases still
    · simp only [State.answerLearn, Function.update_of_ne same] at still
      exact known still
  exact Lib.countP_lt (fun q still => decide_eq_true (fewer q (of_decide_eq_true still))) sent (decide_eq_true missing)
    (decide_eq_false recorded)

section Attempt

/-! An attempt that begins in `u`, in terms of what `u` says about the acceptors. -/

variable [DecidableEq V] (c : Cluster R V σ ρ) (n : R) (u : State R V σ) (call : Call R V) (slot b : Nat)

structure Frame (s : State R V σ) : Prop where
  reachable : Reachable c s
  calls : s.calls = u.calls
  elsewhere : ∀ a i, i ≠ slot → s.acceptor a i = u.acceptor a i
  recorded : ∀ i, (u.log n).chosen.lookup i ≠ none → (s.log n).chosen.lookup i ≠ none

/-- In phase 1. The `Prepare`s to the peers in `waiting` have not been delivered. -/
structure Asking (p : Preparing R V) (waiting : Finset R) (s : State R V σ) : Prop extends Frame c n u slot s where
  returned : s.returned = u.returned
  held : s.active n = some { call with phase := .preparing p }
  rounds : s.round = Function.update u.round n (u.round n + 1)
  work : p.slot = slot ∧ p.ballot = b
  distinct : p.pending.Nodup
  peers : ∀ a ∈ p.pending, a ∈ c.replicas
  undelivered : ∀ a ∈ waiting, a ∈ p.pending
  sent : ∀ a ∈ c.replicas, (⟨n, a, slot, b⟩ : PrepareMsg R) ∈ s.prepares
  silent : ∀ a ∈ waiting, s.acceptor a slot = u.acceptor a slot ∧
    ∀ reply, (⟨a, n, slot, b, reply⟩ : PromiseMsg R V) ∉ s.promises
  answered : ∀ a ∈ c.replicas, a ∉ waiting →
    s.acceptor a slot = { u.acceptor a slot with promised := max (u.acceptor a slot).promised b } ∧
    (∃ reply, (⟨a, n, slot, b, reply⟩ : PromiseMsg R V) ∈ s.promises) ∧
    ∀ reply, (⟨a, n, slot, b, reply⟩ : PromiseMsg R V) ∈ s.promises → Answers (u.acceptor a slot) b reply
  promises : p.promises = ((heard c p.pending).filter (Grants u.acceptor slot b)).card
  maxPromised : p.maxPromised = (heard c p.pending).sup (refusal u.acceptor slot b)
  adopted : Unvoted c u.acceptor slot → p.adopted = none

/-- In phase 2. Whoever has promised the ballot has not promised another one since. -/
structure Offering (a : Accepting R V) (waiting : Finset R) (s : State R V σ) : Prop extends Frame c n u slot s where
  returned : s.returned = u.returned
  held : s.active n = some { call with phase := .accepting a }
  rounds : s.round = Function.update u.round n (u.round n + 1)
  work : a.slot = slot ∧ a.ballot = b
  proposes : Unvoted c u.acceptor slot → a.proposal = call.value
  distinct : a.pending.Nodup
  peers : ∀ q ∈ a.pending, q ∈ c.replicas
  undelivered : ∀ q ∈ waiting, q ∈ a.pending
  sent : ∀ q ∈ c.replicas, (⟨n, q, slot, b, a.proposal⟩ : AcceptMsg R V) ∈ s.accepts
  promised : ∀ q ∈ c.replicas, Grants u.acceptor slot b q → (s.acceptor q slot).promised = b
  silent : ∀ q ∈ waiting, ∀ reply, (⟨q, n, slot, b, reply⟩ : AckMsg R) ∉ s.acks
  answered : ∀ q ∈ c.replicas, q ∉ waiting → (∃ reply, (⟨q, n, slot, b, reply⟩ : AckMsg R) ∈ s.acks) ∧
    ∀ reply, (⟨q, n, slot, b, reply⟩ : AckMsg R) ∈ s.acks → Grants u.acceptor slot b q → reply.accepted = true
  accepts : ((heard c a.pending).filter (Grants u.acceptor slot b)).card ≤ a.accepts

structure Choosing (proposal : V) (s : State R V σ) : Prop extends Frame c n u slot s where
  returned : s.returned = u.returned
  held : s.active n = some { call with phase := .committing slot proposal }
  rounds : s.round = Function.update u.round n (u.round n + 1)
  proposes : Unvoted c u.acceptor slot → proposal = call.value

structure Lost (s : State R V σ) : Prop extends Frame c n u slot s where
  returned : s.returned = u.returned
  held : s.active n = some { call with attempt := call.attempt + 1, phase := .ready }
  rounds : s.round = Function.update u.round n (catchUpRound (u.round n + 1) (refused c u.acceptor slot b))
  acceptors : ∀ a ∈ c.replicas,
    s.acceptor a slot = { u.acceptor a slot with promised := max (u.acceptor a slot).promised b }

structure Won (proposal : V) (s : State R V σ) : Prop extends Frame c n u slot s where
  proposes : Unvoted c u.acceptor slot → proposal = call.value
  rounds : s.round = Function.update u.round n (u.round n + 1)
  slotRecorded : (s.log n).chosen.lookup slot ≠ none
  ended : if c.equal proposal call.value then
      s.active n = none ∧ s.returned = ⟨call.id, slot, proposal⟩ :: u.returned
    else s.active n = some { call with attempt := call.attempt + 1, phase := .ready } ∧ s.returned = u.returned

end Attempt

end PrefixMesh.Paxos
