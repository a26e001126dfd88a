import PrefixMesh.Lib.Runs
import PrefixMesh.Paxos.Node

/-! What one transition can do, guards included. Every invariant below is proved
by cases on `Effect`, so the transition function is taken apart only here. -/

namespace PrefixMesh.Paxos

variable {R V σ ρ : Type} [LinearOrder R] [DecidableEq V]

inductive Effect (c : Cluster R V σ ρ) (s : State R V σ) : Action R V ρ → State R V σ → Prop where
  | submit (n : R) (v : V) (member : n ∈ c.replicas) : Effect c s (.submit n v) (s.enter n v)
  | gapFill (n : R) (member : n ∈ c.replicas) (stalled : (s.log n).gap.2 = true) :
      Effect c s (.gapFill n) (s.enter n (c.noop n))
  | acquire (n : R) (id : Nat) (v : V) (free : s.active n = none) (queued : (id, v) ∈ s.waiting n) :
      Effect c s (.acquire n id v) (s.acquire n id v)
  | giveUp (n : R) (call : Call R V) (held : s.active n = some call) (phase : call.phase = .ready) :
      Effect c s (.giveUp n) (s.setActive n none)
  | attempt (n : R) (call : Call R V) (held : s.active n = some call) (phase : call.phase = .ready)
      (budget : call.attempt < 20) : Effect c s (.attempt n) (s.attempt c n call)
  | deliverPrepare (m : PrepareMsg R) (r : ρ) (sent : m ∈ s.prepares) :
      Effect c s (.deliverPrepare m r) (s.answerPrepare c m r)
  | recvPromise (n peer : R) (reply : PrepareReply V) (call : Call R V) (p : Preparing R V)
      (held : s.active n = some call) (phase : call.phase = .preparing p) (waited : peer ∈ p.pending)
      (sent : (⟨peer, n, p.slot, p.ballot, reply⟩ : PromiseMsg R V) ∈ s.promises) :
      Effect c s (.recvPromise n peer reply)
        (s.setActive n (some { call with phase := .preparing (p.collect peer reply) }))
  | failPrepare (n peer : R) (call : Call R V) (p : Preparing R V) (held : s.active n = some call)
      (phase : call.phase = .preparing p) (waited : peer ∈ p.pending) :
      Effect c s (.failPrepare n peer) (s.setActive n
        (some { call with phase := .preparing { p with pending := p.pending.erase peer } }))
  | losePrepare (n : R) (call : Call R V) (p : Preparing R V) (held : s.active n = some call)
      (phase : call.phase = .preparing p) (done : p.pending = []) (few : p.promises < c.majority n) :
      Effect c s (.finishPrepare n) (s.lose n call p.maxPromised)
  | propose (n : R) (call : Call R V) (p : Preparing R V) (held : s.active n = some call)
      (phase : call.phase = .preparing p) (done : p.pending = []) (enough : c.majority n ≤ p.promises) :
      Effect c s (.finishPrepare n) (s.propose c n call p)
  | deliverAccept (m : AcceptMsg R V) (r : ρ) (v : V) (sent : m ∈ s.accepts)
      (carried : c.carry m.sender m.target r m.value = some v) :
      Effect c s (.deliverAccept m r) (s.answerAccept m v)
  | recvAck (n peer : R) (reply : AcceptReply) (call : Call R V) (a : Accepting R V)
      (held : s.active n = some call) (phase : call.phase = .accepting a) (waited : peer ∈ a.pending)
      (sent : (⟨peer, n, a.slot, a.ballot, reply⟩ : AckMsg R) ∈ s.acks) :
      Effect c s (.recvAck n peer reply)
        (s.setActive n (some { call with phase := .accepting (a.collect peer reply) }))
  | failAccept (n peer : R) (call : Call R V) (a : Accepting R V) (held : s.active n = some call)
      (phase : call.phase = .accepting a) (waited : peer ∈ a.pending) :
      Effect c s (.failAccept n peer) (s.setActive n
        (some { call with phase := .accepting { a with pending := a.pending.erase peer } }))
  | loseAccept (n : R) (call : Call R V) (a : Accepting R V) (held : s.active n = some call)
      (phase : call.phase = .accepting a) (done : a.pending = []) (few : a.accepts < c.majority n) :
      Effect c s (.finishAccept n) (s.lose n call a.maxPromised)
  | announce (n : R) (call : Call R V) (a : Accepting R V) (held : s.active n = some call)
      (phase : call.phase = .accepting a) (done : a.pending = []) (enough : c.majority n ≤ a.accepts) :
      Effect c s (.finishAccept n) (s.announce c n call a)
  | commit (n : R) (call : Call R V) (slot : Nat) (proposal : V) (held : s.active n = some call)
      (phase : call.phase = .committing slot proposal) :
      Effect c s (.commit n) (s.commitLocal c n call slot proposal)
  | deliverLearn (m : LearnMsg R V) (r : ρ) (v : V) (sent : m ∈ s.learns)
      (carried : c.carry m.sender m.target r m.value = some v) :
      Effect c s (.deliverLearn m r) (s.answerLearn c m v)

theorem effect_of_step (c : Cluster R V σ ρ) (s t : State R V σ) (a : Action R V ρ)
    (taken : step c s a = some t) : Effect c s a t := by
  cases a with
  | submit n v =>
    simp only [step, Option.ite_none_right_eq_some, Option.some.injEq] at taken
    obtain ⟨member, rfl⟩ := taken
    exact .submit n v member
  | gapFill n =>
    simp only [step, Option.ite_none_right_eq_some, Option.some.injEq] at taken
    obtain ⟨⟨member, stalled⟩, rfl⟩ := taken
    exact .gapFill n member stalled
  | acquire n id v =>
    simp only [step] at taken
    split at taken
    next free =>
      simp only [Option.ite_none_right_eq_some, Option.some.injEq] at taken
      obtain ⟨queued, rfl⟩ := taken
      exact .acquire n id v free queued
    next => cases taken
  | giveUp n =>
    simp only [step] at taken
    split at taken
    next held =>
      cases taken
      exact .giveUp n _ held rfl
    next => cases taken
  | attempt n =>
    simp only [step] at taken
    split at taken
    next held =>
      simp only [Option.ite_none_right_eq_some, Option.some.injEq] at taken
      obtain ⟨budget, rfl⟩ := taken
      exact .attempt n _ held rfl budget
    next => cases taken
  | deliverPrepare m r =>
    simp only [step, Option.ite_none_right_eq_some, Option.some.injEq] at taken
    obtain ⟨sent, rfl⟩ := taken
    exact .deliverPrepare m r sent
  | recvPromise n peer reply =>
    simp only [step] at taken
    split at taken
    next held =>
      simp only [Option.ite_none_right_eq_some, Option.some.injEq] at taken
      obtain ⟨⟨waited, sent⟩, rfl⟩ := taken
      exact .recvPromise n peer reply _ _ held rfl waited sent
    next => cases taken
  | failPrepare n peer =>
    simp only [step] at taken
    split at taken
    next held =>
      simp only [Option.ite_none_right_eq_some, Option.some.injEq] at taken
      obtain ⟨waited, rfl⟩ := taken
      exact .failPrepare n peer _ _ held rfl waited
    next => cases taken
  | finishPrepare n =>
    simp only [step] at taken
    split at taken
    next id v k p held =>
      by_cases done : p.pending = []
      · by_cases few : p.promises < c.majority n
        · simp only [if_pos done, if_pos few, Option.some.injEq] at taken
          exact taken ▸ .losePrepare n _ p held rfl done few
        · simp only [if_pos done, if_neg few, Option.some.injEq] at taken
          exact taken ▸ .propose n _ p held rfl done (not_lt.mp few)
      · simp [done] at taken
    next => cases taken
  | deliverAccept m r =>
    simp only [step, Option.ite_none_right_eq_some, Option.map_eq_some_iff] at taken
    obtain ⟨sent, v, carried, rfl⟩ := taken
    exact .deliverAccept m r v sent carried
  | recvAck n peer reply =>
    simp only [step] at taken
    split at taken
    next held =>
      simp only [Option.ite_none_right_eq_some, Option.some.injEq] at taken
      obtain ⟨⟨waited, sent⟩, rfl⟩ := taken
      exact .recvAck n peer reply _ _ held rfl waited sent
    next => cases taken
  | failAccept n peer =>
    simp only [step] at taken
    split at taken
    next held =>
      simp only [Option.ite_none_right_eq_some, Option.some.injEq] at taken
      obtain ⟨waited, rfl⟩ := taken
      exact .failAccept n peer _ _ held rfl waited
    next => cases taken
  | finishAccept n =>
    simp only [step] at taken
    split at taken
    next id v k a held =>
      by_cases done : a.pending = []
      · by_cases few : a.accepts < c.majority n
        · simp only [if_pos done, if_pos few, Option.some.injEq] at taken
          exact taken ▸ .loseAccept n _ a held rfl done few
        · simp only [if_pos done, if_neg few, Option.some.injEq] at taken
          exact taken ▸ .announce n _ a held rfl done (not_lt.mp few)
      · simp [done] at taken
    next => cases taken
  | commit n =>
    simp only [step] at taken
    split at taken
    next held =>
      cases taken
      exact .commit n _ _ _ held rfl
    next => cases taken
  | deliverLearn m r =>
    simp only [step, Option.ite_none_right_eq_some, Option.map_eq_some_iff] at taken
    obtain ⟨sent, v, carried, rfl⟩ := taken
    exact .deliverLearn m r v sent carried

/-- No replica's round counter reaches `2 ^ 56`, so that ballots do not overflow. -/
def RoundsBelow (c : Cluster R V σ ρ) (s : State R V σ) : Prop :=
  ∀ n ∈ c.replicas, s.round n < 2 ^ 56

instance (c : Cluster R V σ ρ) (s : State R V σ) : Decidable (RoundsBelow c s) :=
  inferInstanceAs (Decidable (∀ n ∈ c.replicas, s.round n < 2 ^ 56))

abbrev Leads (c : Cluster R V σ ρ) (s t : State R V σ) : Prop :=
  Lib.Reaches (step c) (fun _ _ u => RoundsBelow c u) s t

abbrev Reachable (c : Cluster R V σ ρ) (s : State R V σ) : Prop := Leads c c.init s

end PrefixMesh.Paxos
