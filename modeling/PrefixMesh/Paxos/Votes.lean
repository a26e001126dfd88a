import PrefixMesh.Lib.Synod
import PrefixMesh.Paxos.Ballots

/-! What the acceptors have promised and voted for. Values are compared through
`meaning`, because a remote hop may hand on other bytes for the same command. -/

namespace PrefixMesh.Paxos

variable {R V σ ρ C : Type}

/-- The acceptor `a` had `accepted` as its latest vote in `slot` when it promised `ballot`, and
has cast no other vote below `ballot` since. -/
def Snapshot (meaning : V → C) (votes : List (Vote R V)) (a : R) (slot ballot acceptedBallot : Nat) :
    Option V → Prop
  | none => ∀ v ∈ votes, v.acceptor = a → v.slot = slot → ballot ≤ v.ballot
  | some w => acceptedBallot < ballot ∧
      (∃ v ∈ votes, v.acceptor = a ∧ v.slot = slot ∧ v.ballot = acceptedBallot ∧
        meaning v.value = meaning w) ∧
      ∀ v ∈ votes, v.acceptor = a → v.slot = slot → v.ballot < ballot → v.ballot ≤ acceptedBallot

theorem Snapshot.vote {meaning : V → C} {votes : List (Vote R V)} {a : R} {slot ballot accepted : Nat}
    {value : Option V} (snapshot : Snapshot meaning votes a slot ballot accepted value)
    (vote : Vote R V) (above : vote.acceptor = a → vote.slot = slot → ballot ≤ vote.ballot) :
    Snapshot meaning (vote :: votes) a slot ballot accepted value := by
  cases value with
  | none =>
    intro v present voter at_
    rcases List.mem_cons.mp present with same | earlier
    · subst same
      exact above voter at_
    · exact snapshot v earlier voter at_
  | some w =>
    obtain ⟨below, ⟨v, cast, facts⟩, rest⟩ := snapshot
    refine ⟨below, ⟨v, List.mem_cons_of_mem _ cast, facts⟩, ?_⟩
    intro v' present voter at_ low
    rcases List.mem_cons.mp present with same | earlier
    · subst same
      have := above voter at_
      omega
    · exact rest v' earlier voter at_ low

theorem Snapshot.congr {meaning : V → C} {votes : List (Vote R V)} {a : R} {slot ballot accepted : Nat}
    {value value' : Option V} (snapshot : Snapshot meaning votes a slot ballot accepted value)
    (same : value'.map meaning = value.map meaning) :
    Snapshot meaning votes a slot ballot accepted value' := by
  cases value with
  | none =>
    cases value' with
    | none => exact snapshot
    | some w' => cases same
  | some w =>
    cases value' with
    | none => cases same
    | some w' =>
      obtain ⟨below, ⟨v, cast, voter, at_, ballot_, equal⟩, rest⟩ := snapshot
      have meanings : meaning w' = meaning w := by simpa using same
      exact ⟨below, ⟨v, cast, voter, at_, ballot_, equal.trans meanings.symm⟩, rest⟩

variable [LinearOrder R]

def Faithful (c : Cluster R V σ ρ) (meaning : V → C) : Prop :=
  ∀ p q r v w, c.carry p q r v = some w → meaning w = meaning v

structure VoteInv (c : Cluster R V σ ρ) (meaning : V → C) (s : State R V σ) : Prop where
  asked : ∀ m ∈ s.prepares, m.target ∈ c.replicas
  offered : ∀ m ∈ s.accepts, m.target ∈ c.replicas
  ordered : ∀ a slot, (s.acceptor a slot).acceptedBallot ≤ (s.acceptor a slot).promised
  unvoted : ∀ a slot, (s.acceptor a slot).acceptedValue = none →
    ∀ v ∈ s.votes, v.acceptor = a → v.slot ≠ slot
  latest : ∀ a slot w, (s.acceptor a slot).acceptedValue = some w →
    (⟨a, slot, (s.acceptor a slot).acceptedBallot, w⟩ : Vote R V) ∈ s.votes
  highest : ∀ v ∈ s.votes, v.ballot ≤ (s.acceptor v.acceptor v.slot).acceptedBallot
  voters : ∀ v ∈ s.votes, v.acceptor ∈ c.replicas
  proposed : ∀ v ∈ s.votes, ∃ m ∈ s.accepts, m.slot = v.slot ∧ m.ballot = v.ballot ∧
    meaning m.value = meaning v.value
  promised : ∀ m ∈ s.promises, m.reply.promised = true →
    m.sender ∈ c.replicas ∧ m.ballot ≤ (s.acceptor m.sender m.slot).promised ∧
    Snapshot meaning s.votes m.sender m.slot m.ballot m.reply.acceptedBallot m.reply.acceptedValue
  acked : ∀ m ∈ s.acks, m.reply.accepted = true →
    ∃ v ∈ s.votes, v.acceptor = m.sender ∧ v.slot = m.slot ∧ v.ballot = m.ballot

theorem voteInv_init (c : Cluster R V σ ρ) (meaning : V → C) : VoteInv c meaning c.init where
  asked := by simp [Cluster.init]
  offered := by simp [Cluster.init]
  ordered := fun _ _ => le_rfl
  unvoted := by simp [Cluster.init]
  latest := by simp [Cluster.init, newAcceptor]
  highest := by simp [Cluster.init]
  voters := by simp [Cluster.init]
  proposed := by simp [Cluster.init]
  promised := by simp [Cluster.init]
  acked := by simp [Cluster.init]

theorem carryReply_cases (c : Cluster R V σ ρ) (meaning : V → C) (faithful : Faithful c meaning)
    (m : PrepareMsg R) (r : ρ) (reply : PrepareReply V) (out : PromiseMsg R V)
    (carried : out ∈ carryReply c m r reply) :
    out.sender = m.target ∧ out.target = m.sender ∧ out.slot = m.slot ∧ out.ballot = m.ballot ∧
    out.reply.promised = reply.promised ∧ out.reply.acceptedBallot = reply.acceptedBallot ∧
    out.reply.acceptedValue.map meaning = reply.acceptedValue.map meaning ∧
    out.reply.promisedBallot = reply.promisedBallot := by
  unfold carryReply at carried
  split at carried
  next absent =>
    obtain rfl := List.mem_singleton.mp carried
    simp
  next v found =>
    split at carried
    next => cases carried
    next w hop =>
      obtain rfl := List.mem_singleton.mp carried
      simp [found, faithful _ _ _ _ _ hop]

private theorem voteInv_answerPrepare {c : Cluster R V σ ρ} {meaning : V → C} {s : State R V σ}
    (faithful : Faithful c meaning) (inv : VoteInv c meaning s) (m : PrepareMsg R) (r : ρ)
    (sent : m ∈ s.prepares) : VoteInv c meaning (s.answerPrepare c m r) := by
  have spec := fun slot => (s.acceptor m.target).prepare_spec m.slot m.ballot slot
  -- only the promised ballot of one slot of the target moves, and it moves up
  have kept : ∀ a slot,
      ((s.answerPrepare c m r).acceptor a slot).acceptedBallot = (s.acceptor a slot).acceptedBallot ∧
      ((s.answerPrepare c m r).acceptor a slot).acceptedValue = (s.acceptor a slot).acceptedValue ∧
      (s.acceptor a slot).promised ≤ ((s.answerPrepare c m r).acceptor a slot).promised := by
    intro a slot
    by_cases same : a = m.target
    · subst same
      simp only [State.answerPrepare, Function.update_self]
      obtain ⟨up, ballot, value, other⟩ := spec slot
      refine ⟨ballot, value, ?_⟩
      by_cases here : slot = m.slot
      · exact here ▸ up
      · rw [other here]
    · simp [State.answerPrepare, Function.update_of_ne same]
  refine ⟨inv.asked, inv.offered, ?_, ?_, ?_, ?_, inv.voters, inv.proposed, ?_, inv.acked⟩
  · intro a slot
    obtain ⟨ballot, _, up⟩ := kept a slot
    rw [ballot]
    exact (inv.ordered a slot).trans up
  · intro a slot empty
    exact inv.unvoted a slot ((kept a slot).2.1 ▸ empty)
  · intro a slot w accepted
    rw [(kept a slot).1]
    exact inv.latest a slot w ((kept a slot).2.1 ▸ accepted)
  · intro v cast
    rw [(kept v.acceptor v.slot).1]
    exact inv.highest v cast
  · intro out present granted
    rcases List.mem_append.mp present with new | old
    · obtain ⟨sender, _, slot, ballot, flag, accepted, value, _⟩ :=
        carryReply_cases c meaning faithful m r _ out new
      rw [flag] at granted
      obtain ⟨above, now, ballotNow, valueNow⟩ := Acceptor.prepare_promised _ _ _ granted
      rw [sender, slot, ballot, accepted, ballotNow]
      refine ⟨inv.asked m sent, ?_, ?_⟩
      · simp only [State.answerPrepare, Function.update_self]
        exact now.ge
      · rw [valueNow] at value
        refine Snapshot.congr ?_ value
        cases found : (s.acceptor m.target m.slot).acceptedValue with
        | none =>
          intro v cast voter at_
          exact absurd at_ (inv.unvoted m.target m.slot found v cast voter)
        | some w =>
          have order := inv.ordered m.target m.slot
          refine ⟨by omega, ⟨_, inv.latest m.target m.slot w found, rfl, rfl, rfl, rfl⟩, ?_⟩
          intro v cast voter at_ _
          have top := inv.highest v cast
          rwa [voter, at_] at top
    · obtain ⟨member, low, snapshot⟩ := inv.promised out old granted
      exact ⟨member, low.trans (kept out.sender out.slot).2.2, snapshot⟩

private theorem answerAccept_granted {s : State R V σ} {m : AcceptMsg R V} {w : V}
    (granted : ((s.acceptor m.target).accept m.slot m.ballot w).1.accepted = true) :
    (s.answerAccept m w).votes = ⟨m.target, m.slot, m.ballot, w⟩ :: s.votes ∧
    (s.answerAccept m w).acceptor m.target m.slot = ⟨m.ballot, m.ballot, some w⟩ ∧
    ∀ a slot, ¬(a = m.target ∧ slot = m.slot) →
      (s.answerAccept m w).acceptor a slot = s.acceptor a slot := by
  obtain ⟨_, result⟩ := Acceptor.accept_accepted _ _ _ _ granted
  refine ⟨by simp [State.answerAccept, granted], by simp [State.answerAccept, result], ?_⟩
  intro a slot different
  by_cases sameA : a = m.target
  · subst sameA
    have otherSlot : slot ≠ m.slot := fun equal => different ⟨rfl, equal⟩
    simp [State.answerAccept, result, Function.update_of_ne otherSlot]
  · simp [State.answerAccept, Function.update_of_ne sameA]

private theorem voteInv_granted {c : Cluster R V σ ρ} {meaning : V → C} {s : State R V σ}
    (inv : VoteInv c meaning s) (m : AcceptMsg R V) (w : V) (sent : m ∈ s.accepts)
    (same : meaning w = meaning m.value)
    (granted : ((s.acceptor m.target).accept m.slot m.ballot w).1.accepted = true) :
    VoteInv c meaning (s.answerAccept m w) := by
  obtain ⟨up, _⟩ := Acceptor.accept_accepted _ _ _ _ granted
  obtain ⟨votes, here, elsewhere⟩ := answerAccept_granted granted
  have order := inv.ordered m.target m.slot
  refine ⟨inv.asked, inv.offered, ?_, ?_, ?_, ?_, ?_, ?_, ?_, ?_⟩
  · intro a slot
    by_cases at_ : a = m.target ∧ slot = m.slot
    · rw [at_.1, at_.2, here]
    · rw [elsewhere a slot at_]
      exact inv.ordered a slot
  · intro a slot empty v present voter
    by_cases at_ : a = m.target ∧ slot = m.slot
    · rw [at_.1, at_.2, here] at empty
      cases empty
    · rw [elsewhere a slot at_] at empty
      rw [votes] at present
      rcases List.mem_cons.mp present with new | old
      · subst new
        exact fun equal => at_ ⟨voter.symm, equal.symm⟩
      · exact inv.unvoted a slot empty v old voter
  · intro a slot w' accepted
    rw [votes]
    by_cases at_ : a = m.target ∧ slot = m.slot
    · rw [at_.1, at_.2, here] at accepted
      cases accepted
      rw [at_.1, at_.2, here]
      exact List.mem_cons_self ..
    · rw [elsewhere a slot at_] at accepted ⊢
      exact List.mem_cons_of_mem _ (inv.latest a slot w' accepted)
  · intro v present
    rw [votes] at present
    rcases List.mem_cons.mp present with new | old
    · subst new
      rw [here]
    · by_cases at_ : v.acceptor = m.target ∧ v.slot = m.slot
      · have top := inv.highest v old
        rw [at_.1, at_.2] at top ⊢
        rw [here]
        calc v.ballot
            ≤ (s.acceptor m.target m.slot).acceptedBallot := top
          _ ≤ (s.acceptor m.target m.slot).promised := order
          _ ≤ m.ballot := up
      · rw [elsewhere _ _ at_]
        exact inv.highest v old
  · intro v present
    rw [votes] at present
    rcases List.mem_cons.mp present with new | old
    · subst new
      exact inv.offered m sent
    · exact inv.voters v old
  · intro v present
    rw [votes] at present
    rcases List.mem_cons.mp present with new | old
    · subst new
      exact ⟨m, sent, rfl, rfl, same.symm⟩
    · exact inv.proposed v old
  · intro out present promised
    obtain ⟨member, low, snapshot⟩ := inv.promised out present promised
    rw [votes]
    by_cases at_ : out.sender = m.target ∧ out.slot = m.slot
    · rw [at_.1, at_.2] at low
      refine ⟨member, ?_, snapshot.vote _ (fun _ _ => low.trans up)⟩
      rw [at_.1, at_.2, here]
      exact low.trans up
    · refine ⟨member, ?_, snapshot.vote _ (fun voter slot => absurd ⟨voter.symm, slot.symm⟩ at_)⟩
      rw [elsewhere _ _ at_]
      exact low
  · intro ack present accepted
    rw [votes]
    rcases List.mem_cons.mp present with new | old
    · subst new
      exact ⟨_, List.mem_cons_self .., rfl, rfl, rfl⟩
    · obtain ⟨v, cast, facts⟩ := inv.acked ack old accepted
      exact ⟨v, List.mem_cons_of_mem _ cast, facts⟩

private theorem voteInv_refused {c : Cluster R V σ ρ} {meaning : V → C} {s : State R V σ}
    (inv : VoteInv c meaning s) (m : AcceptMsg R V) (w : V)
    (refused : ¬((s.acceptor m.target).accept m.slot m.ballot w).1.accepted = true) :
    VoteInv c meaning (s.answerAccept m w) := by
  have unchanged : (s.answerAccept m w).acceptor = s.acceptor := by
    simp only [State.answerAccept, Acceptor.accept_rejected _ _ _ _ refused, Function.update_eq_self]
  have votes : (s.answerAccept m w).votes = s.votes := by simp [State.answerAccept, refused]
  refine ⟨inv.asked, inv.offered, ?_, ?_, ?_, ?_, ?_, ?_, ?_, ?_⟩
  · rw [unchanged]; exact inv.ordered
  · rw [unchanged, votes]; exact inv.unvoted
  · rw [unchanged, votes]; exact inv.latest
  · rw [unchanged, votes]; exact inv.highest
  · rw [votes]; exact inv.voters
  · rw [votes]; exact inv.proposed
  · rw [unchanged, votes]; exact inv.promised
  · intro ack present accepted
    rw [votes]
    rcases List.mem_cons.mp present with new | old
    · subst new
      exact absurd accepted refused
    · exact inv.acked ack old accepted

theorem voteInv_step [DecidableEq V] (c : Cluster R V σ ρ) (meaning : V → C) (faithful : Faithful c meaning)
    (s t : State R V σ) (a : Action R V ρ) (inv : VoteInv c meaning s) (effect : Effect c s a t) :
    VoteInv c meaning t := by
  cases effect with
  | attempt n call _ _ _ =>
    refine { inv with asked := ?_ }
    intro m sent
    rcases List.mem_append.mp sent with new | old
    · obtain ⟨peer, listed, rfl⟩ := List.mem_map.mp new
      exact (c.mem_lists n peer).mp listed
    · exact inv.asked m old
  | deliverPrepare m r sent => exact voteInv_answerPrepare faithful inv m r sent
  | propose n call p _ _ _ _ =>
    refine { inv with offered := ?_, proposed := ?_ }
    · intro m sent
      rcases List.mem_append.mp sent with new | old
      · obtain ⟨peer, listed, rfl⟩ := List.mem_map.mp new
        exact (c.mem_lists n peer).mp listed
      · exact inv.offered m old
    · intro v cast
      obtain ⟨m, sent, facts⟩ := inv.proposed v cast
      exact ⟨m, List.mem_append_right _ sent, facts⟩
  | deliverAccept m r v sent carried =>
    by_cases granted : ((s.acceptor m.target).accept m.slot m.ballot v).1.accepted = true
    · exact voteInv_granted inv m v sent (faithful _ _ _ _ _ carried) granted
    · exact voteInv_refused inv m v granted
  | submit | gapFill | acquire | giveUp | recvPromise | failPrepare | losePrepare | recvAck | failAccept
  | loseAccept | announce | commit | deliverLearn => exact { inv with }

end PrefixMesh.Paxos
