import PrefixMesh.Paxos.Votes

/-! Agreement. Every `Accept` sent is safe at its ballot, every recorded value is
chosen, and the abstract instance of each slot is sound; the rest is the general
argument on quorums. -/

namespace PrefixMesh.Paxos

variable {R V σ ρ C : Type} [LinearOrder R]

/-- The consensus instance that a run has played in one slot so far. -/
def history (meaning : V → C) (s : State R V σ) (slot : Nat) : Lib.Synod R C where
  voted a b w := ∃ v ∈ s.votes, v.acceptor = a ∧ v.slot = slot ∧ v.ballot = b ∧ meaning v.value = w
  proposed b w := ∃ m ∈ s.accepts, m.slot = slot ∧ m.ballot = b ∧ meaning m.value = w

/-- A majority of the acceptors voted for values of meaning `w` at one ballot. -/
def Chosen (c : Cluster R V σ ρ) (meaning : V → C) (s : State R V σ) (slot : Nat) (w : C) : Prop :=
  ∃ b, (history meaning s slot).ChosenAt (Lib.Majority c.replicas) b w

theorem Chosen.mono {c : Cluster R V σ ρ} {meaning : V → C} {s t : State R V σ} {slot : Nat} {w : C}
    (chosen : Chosen c meaning s slot w) (grows : ∀ v ∈ s.votes, v ∈ t.votes) :
    Chosen c meaning t slot w := by
  obtain ⟨b, quorum, majority, votes⟩ := chosen
  refine ⟨b, quorum, majority, ?_⟩
  intro a inside
  obtain ⟨v, cast, facts⟩ := votes a inside
  exact ⟨v, grows v cast, facts⟩

def Promised (replies : List (PromiseMsg R V)) (n : R) (p : Preparing R V) (q : R)
    (reply : PrepareReply V) : Prop :=
  (⟨q, n, p.slot, p.ballot, reply⟩ : PromiseMsg R V) ∈ replies ∧ reply.promised = true

/-- The counters of a proposer stand for sets of peers: those that promised, with the highest
vote among them adopted, and those that voted for the proposal. -/
def PhaseQuorum (c : Cluster R V σ ρ) (meaning : V → C) (s : State R V σ) (n : R) :
    Phase R V → Prop
  | .ready => True
  | .preparing p => p.pending.Nodup ∧ (p.adopted = none → p.adoptedBallot = 0) ∧
      ∃ quorum : Finset R,
      (∀ q ∈ quorum, q ∈ c.replicas ∧ q ∉ p.pending) ∧ quorum.card = p.promises ∧
      (∀ q ∈ quorum, ∃ reply, Promised s.promises n p q reply ∧
        ∀ w, reply.acceptedValue = some w → p.adopted ≠ none ∧ reply.acceptedBallot ≤ p.adoptedBallot) ∧
      ∀ w, p.adopted = some w → ∃ q ∈ quorum, ∃ reply, Promised s.promises n p q reply ∧
        reply.acceptedValue = some w ∧ reply.acceptedBallot = p.adoptedBallot
  | .accepting a => a.pending.Nodup ∧ ∃ quorum : Finset R,
      (∀ q ∈ quorum, q ∈ c.replicas ∧ q ∉ a.pending) ∧ quorum.card = a.accepts ∧
      ∀ q ∈ quorum, ∃ v ∈ s.votes, v.acceptor = q ∧ v.slot = a.slot ∧ v.ballot = a.ballot
  | .committing slot proposal => Chosen c meaning s slot (meaning proposal)

theorem PhaseQuorum.mono {c : Cluster R V σ ρ} {meaning : V → C} {s t : State R V σ} {n : R}
    {phase : Phase R V} (holds : PhaseQuorum c meaning s n phase)
    (replies : ∀ m ∈ s.promises, m ∈ t.promises) (grows : ∀ v ∈ s.votes, v ∈ t.votes) :
    PhaseQuorum c meaning t n phase := by
  cases phase with
  | ready => trivial
  | preparing p =>
    obtain ⟨distinct, unset, quorum, inside, size, promised, adopted⟩ := holds
    refine ⟨distinct, unset, quorum, inside, size, ?_, ?_⟩
    · intro q present
      obtain ⟨reply, ⟨sent, granted⟩, bound⟩ := promised q present
      exact ⟨reply, ⟨replies _ sent, granted⟩, bound⟩
    · intro w found
      obtain ⟨q, present, reply, ⟨sent, granted⟩, facts⟩ := adopted w found
      exact ⟨q, present, reply, ⟨replies _ sent, granted⟩, facts⟩
  | accepting a =>
    obtain ⟨distinct, quorum, inside, size, voted⟩ := holds
    refine ⟨distinct, quorum, inside, size, ?_⟩
    intro q present
    obtain ⟨v, cast, facts⟩ := voted q present
    exact ⟨v, grows v cast, facts⟩
  | committing slot proposal => exact Chosen.mono holds grows

/-- The quorum behind an `Accept` has promised its ballot, so its safety is stable. -/
def Safe (c : Cluster R V σ ρ) (meaning : V → C) (s : State R V σ) (slot ballot : Nat) (w : C) : Prop :=
  ∃ quorum, Lib.Majority c.replicas quorum ∧
    (∀ q ∈ quorum, ballot ≤ (s.acceptor q slot).promised) ∧
    (history meaning s slot).ShowsSafe quorum ballot w

structure ChoiceInv (c : Cluster R V σ ρ) (meaning : V → C) (s : State R V σ) : Prop where
  safe : ∀ m ∈ s.accepts, Safe c meaning s m.slot m.ballot (meaning m.value)
  phases : ∀ n call, s.active n = some call → PhaseQuorum c meaning s n call.phase
  learnt : ∀ m ∈ s.learns, Chosen c meaning s m.slot (meaning m.value)
  logged : ∀ n slot v, (s.log n).chosen.lookup slot = some v → Chosen c meaning s slot (meaning v)
  queued : ∀ n entry, entry ∈ s.waiting n → ∃ x ∈ s.calls, x.2 = entry.2
  active : ∀ n call, s.active n = some call → ∃ x ∈ s.calls, x.2 = call.value
  called : ∀ m ∈ s.accepts, ∃ x ∈ s.calls, meaning x.2 = meaning m.value

theorem choiceInv_init (c : Cluster R V σ ρ) (meaning : V → C) : ChoiceInv c meaning c.init where
  safe := by simp [Cluster.init]
  phases := by simp [Cluster.init]
  learnt := by simp [Cluster.init]
  logged := by
    intro n slot v found
    simp [Cluster.init, newLog] at found
  queued := by simp [Cluster.init]
  active := by simp [Cluster.init]
  called := by simp [Cluster.init]

theorem ChoiceInv.setActive {c : Cluster R V σ ρ} {meaning : V → C} {s : State R V σ}
    (inv : ChoiceInv c meaning s) (n : R) (next : Option (Call R V))
    (phase : ∀ call, next = some call → PhaseQuorum c meaning s n call.phase)
    (value : ∀ call, next = some call → ∃ x ∈ s.calls, x.2 = call.value) :
    ChoiceInv c meaning (s.setActive n next) where
  safe := inv.safe
  phases := by
    intro k call held
    rcases Lib.update_cases held with ⟨rfl, given⟩ | ⟨_, earlier⟩
    · exact (phase call given).mono (fun _ => id) (fun _ => id)
    · exact (inv.phases k call earlier).mono (fun _ => id) (fun _ => id)
  learnt := inv.learnt
  logged := inv.logged
  queued := inv.queued
  active := by
    intro k call held
    rcases Lib.update_cases held with ⟨rfl, given⟩ | ⟨_, earlier⟩
    · exact value call given
    · exact inv.active k call earlier
  called := inv.called

theorem Safe.mono {c : Cluster R V σ ρ} {meaning : V → C} {s t : State R V σ} {slot ballot : Nat} {w : C}
    (safe : Safe c meaning s slot ballot w)
    (up : ∀ a, (s.acceptor a slot).promised ≤ (t.acceptor a slot).promised)
    (grows : ∀ v ∈ s.votes, v ∈ t.votes)
    (respects : ∀ v ∈ t.votes, v ∈ s.votes ∨ v.slot ≠ slot ∨ (s.acceptor v.acceptor slot).promised ≤ v.ballot) :
    Safe c meaning t slot ballot w := by
  obtain ⟨quorum, majority, promised, shows_⟩ := safe
  have old : ∀ a ∈ quorum, ∀ b, b < ballot → ∀ u, (history meaning t slot).voted a b u →
      (history meaning s slot).voted a b u := by
    rintro a inside b low u ⟨v, cast, rfl, at_, rfl, rfl⟩
    rcases respects v cast with before | elsewhere | above
    · exact ⟨v, before, rfl, at_, rfl, rfl⟩
    · exact absurd at_ elsewhere
    · have := promised _ inside
      omega
  refine ⟨quorum, majority, fun q inside => (promised q inside).trans (up q), ?_⟩
  rcases shows_ with none | ⟨top, low, ⟨a, inside, v, cast, facts⟩, gap⟩
  · exact Or.inl (fun a inside b low u voted => none a inside b low u (old a inside b low u voted))
  · refine Or.inr ⟨top, low, ⟨a, inside, v, grows v cast, facts⟩, ?_⟩
    intro a' inside' b above below u voted
    exact gap a' inside' b above below u (old a' inside' b below u voted)

private theorem safe_of_promises [DecidableEq V] {c : Cluster R V σ ρ} {meaning : V → C} {s : State R V σ}
    (votes : VoteInv c meaning s) (n : R) (own : V) (p : Preparing R V)
    (phase : PhaseQuorum c meaning s n (.preparing p)) (enough : c.majority n ≤ p.promises) :
    Safe c meaning s p.slot p.ballot (meaning (p.adopted.getD own)) := by
  obtain ⟨_, _, quorum, inside, size, promised, adopted⟩ := phase
  have majority : Lib.Majority c.replicas quorum :=
    ⟨fun q present => (inside q present).1, by rw [size, ← c.majority_eq n]; exact enough⟩
  refine ⟨quorum, majority, ?_, ?_⟩
  · intro q present
    obtain ⟨reply, ⟨sent, granted⟩, _⟩ := promised q present
    exact (votes.promised _ sent granted).2.1
  -- below the ballot, no member of the quorum voted above the adopted ballot
  have bounded : ∀ q ∈ quorum, ∀ v ∈ s.votes, v.acceptor = q → v.slot = p.slot → v.ballot < p.ballot →
      p.adopted ≠ none ∧ v.ballot ≤ p.adoptedBallot := by
    intro q present v cast voter at_ low
    obtain ⟨reply, ⟨sent, granted⟩, bound⟩ := promised q present
    have snapshot := (votes.promised _ sent granted).2.2
    cases found : reply.acceptedValue with
    | none =>
      simp only [found, Snapshot] at snapshot
      have := snapshot v cast voter at_
      omega
    | some w =>
      simp only [found, Snapshot] at snapshot
      obtain ⟨some_, le⟩ := bound w found
      exact ⟨some_, (snapshot.2.2 v cast voter at_ low).trans le⟩
  cases found : p.adopted with
  | none =>
    left
    rintro q present b low u ⟨v, cast, voter, at_, rfl, _⟩
    exact (bounded q present v cast voter at_ low).1 found
  | some w =>
    right
    obtain ⟨q, present, reply, ⟨sent, granted⟩, value, ballot⟩ := adopted w found
    have snapshot := (votes.promised _ sent granted).2.2
    simp only [value, Snapshot, ballot] at snapshot
    obtain ⟨low, ⟨v, cast, voter, at_, ballotV, same⟩, _⟩ := snapshot
    refine ⟨p.adoptedBallot, low, ⟨q, present, v, cast, voter, at_, ballotV, ?_⟩, ?_⟩
    · simpa using same
    · rintro q' present' b above below u ⟨v', cast', voter', at_', rfl, _⟩
      have := (bounded q' present' v' cast' voter' at_' below).2
      omega

private theorem collect_adopted (p : Preparing R V) (peer : R) (reply : PrepareReply V)
    (granted : reply.promised = true) (unset : p.adopted = none → p.adoptedBallot = 0) :
    (p.collect peer reply).promises = p.promises + 1 ∧
    ((p.collect peer reply).adopted = p.adopted ∧
      (p.collect peer reply).adoptedBallot = p.adoptedBallot ∧
      (∀ w, reply.acceptedValue = some w → p.adopted ≠ none ∧ reply.acceptedBallot ≤ p.adoptedBallot) ∨
    ∃ w, reply.acceptedValue = some w ∧ (p.collect peer reply).adopted = some w ∧
      (p.collect peer reply).adoptedBallot = reply.acceptedBallot ∧
      p.adoptedBallot ≤ reply.acceptedBallot) := by
  cases found : reply.acceptedValue with
  | none => simp [Preparing.collect, granted, found]
  | some w =>
    by_cases higher : reply.acceptedBallot ≥ p.adoptedBallot
    · simp only [Preparing.collect, granted, found, if_true, if_pos higher]
      exact ⟨trivial, Or.inr ⟨w, rfl, rfl, trivial, higher⟩⟩
    · simp only [Preparing.collect, granted, found, if_true, if_neg higher]
      refine ⟨trivial, Or.inl ⟨trivial, trivial, fun _ _ => ⟨?_, by omega⟩⟩⟩
      intro absent
      have := unset absent
      omega

private theorem collect_refused (p : Preparing R V) (peer : R) (reply : PrepareReply V)
    (refused : ¬reply.promised = true) :
    (p.collect peer reply).adopted = p.adopted ∧
    (p.collect peer reply).adoptedBallot = p.adoptedBallot ∧
    (p.collect peer reply).promises = p.promises := by
  simp only [Preparing.collect, refused]
  split_ifs <;> simp_all

private theorem collect_quorum [DecidableEq V] {c : Cluster R V σ ρ} {meaning : V → C} {s : State R V σ} (n peer : R)
    (reply : PrepareReply V) (p : Preparing R V) (member : reply.promised = true → peer ∈ c.replicas)
    (phase : PhaseQuorum c meaning s n (.preparing p)) (waited : peer ∈ p.pending)
    (sent : (⟨peer, n, p.slot, p.ballot, reply⟩ : PromiseMsg R V) ∈ s.promises) :
    PhaseQuorum c meaning s n (.preparing (p.collect peer reply)) := by
  obtain ⟨distinct, unset, quorum, inside, size, promised, adopted⟩ := phase
  obtain ⟨slot, ballot, pending⟩ := p.collect_eq peer reply
  have erased : (p.collect peer reply).pending.Nodup := pending ▸ distinct.erase peer
  have apart : ∀ q ∈ quorum, q ∈ c.replicas ∧ q ∉ (p.collect peer reply).pending := by
    intro q present
    refine ⟨(inside q present).1, ?_⟩
    rw [pending]
    exact fun still => (inside q present).2 (List.mem_of_mem_erase still)
  have same : ∀ q r, Promised s.promises n p q r → Promised s.promises n (p.collect peer reply) q r := by
    intro q r earlier
    simpa only [Promised, slot, ballot] using earlier
  by_cases granted : reply.promised = true
  · have fresh : peer ∉ quorum := fun present => (inside peer present).2 waited
    have gone : peer ∉ (p.collect peer reply).pending := by
      rw [pending]
      exact fun still => ((distinct.mem_erase_iff).mp still).1 rfl
    have insiders : ∀ q ∈ insert peer quorum, q ∈ c.replicas ∧ q ∉ (p.collect peer reply).pending := by
      intro q present
      rcases Finset.mem_insert.mp present with rfl | old
      · exact ⟨member granted, gone⟩
      · exact apart q old
    have here : Promised s.promises n (p.collect peer reply) peer reply := same _ _ ⟨sent, granted⟩
    obtain ⟨counted, keeps | moves⟩ := collect_adopted p peer reply granted unset
    · obtain ⟨value, top, bounded⟩ := keeps
      refine ⟨erased, by rw [value, top]; exact unset, insert peer quorum, insiders, ?_, ?_, ?_⟩
      · rw [Finset.card_insert_of_notMem fresh, size, counted]
      · rw [value, top]
        intro q present
        rcases Finset.mem_insert.mp present with rfl | old
        · exact ⟨reply, here, bounded⟩
        · obtain ⟨r, earlier, bound⟩ := promised q old
          exact ⟨r, same q r earlier, bound⟩
      · rw [value, top]
        intro w found
        obtain ⟨q, old, r, earlier, facts⟩ := adopted w found
        exact ⟨q, Finset.mem_insert_of_mem old, r, same q r earlier, facts⟩
    · obtain ⟨w, found, value, top, higher⟩ := moves
      refine ⟨erased, by simp [value], insert peer quorum, insiders, ?_, ?_, ?_⟩
      · rw [Finset.card_insert_of_notMem fresh, size, counted]
      · rw [value, top]
        intro q present
        rcases Finset.mem_insert.mp present with rfl | old
        · exact ⟨reply, here, fun _ _ => ⟨by simp, le_rfl⟩⟩
        · obtain ⟨r, earlier, bound⟩ := promised q old
          exact ⟨r, same q r earlier, fun u given => ⟨by simp, (bound u given).2.trans higher⟩⟩
      · rw [value, top]
        intro u given
        cases given
        exact ⟨peer, Finset.mem_insert_self .., reply, here, found, rfl⟩
  · obtain ⟨value, top, counted⟩ := collect_refused p peer reply granted
    refine ⟨erased, by rw [value, top]; exact unset, quorum, apart, by rw [size, counted], ?_, ?_⟩
    · rw [value, top]
      intro q present
      obtain ⟨r, earlier, bound⟩ := promised q present
      exact ⟨r, same q r earlier, bound⟩
    · rw [value, top]
      intro w found
      obtain ⟨q, present, r, earlier, facts⟩ := adopted w found
      exact ⟨q, present, r, same q r earlier, facts⟩

private theorem ack_quorum [DecidableEq V] {c : Cluster R V σ ρ} {meaning : V → C} {s : State R V σ}
    (votes : VoteInv c meaning s) (n peer : R) (reply : AcceptReply) (a : Accepting R V)
    (phase : PhaseQuorum c meaning s n (.accepting a)) (waited : peer ∈ a.pending)
    (sent : (⟨peer, n, a.slot, a.ballot, reply⟩ : AckMsg R) ∈ s.acks) :
    PhaseQuorum c meaning s n (.accepting (a.collect peer reply)) := by
  obtain ⟨distinct, quorum, inside, size, voted⟩ := phase
  obtain ⟨slot, ballot, _, pending, counted⟩ := a.collect_eq peer reply
  have apart : ∀ q ∈ quorum, q ∈ c.replicas ∧ q ∉ (a.collect peer reply).pending := by
    intro q present
    refine ⟨(inside q present).1, ?_⟩
    rw [pending]
    exact fun still => (inside q present).2 (List.mem_of_mem_erase still)
  refine ⟨pending ▸ distinct.erase peer, ?_⟩
  rw [slot, ballot]
  by_cases granted : reply.accepted = true
  · obtain ⟨v, cast, voter, facts⟩ := votes.acked _ sent granted
    have member : peer ∈ c.replicas := by
      have known := votes.voters v cast
      rwa [voter] at known
    refine ⟨insert peer quorum, ?_, ?_, ?_⟩
    · intro q present
      rcases Finset.mem_insert.mp present with rfl | old
      · refine ⟨member, ?_⟩
        rw [pending]
        exact fun still => ((distinct.mem_erase_iff).mp still).1 rfl
      · exact apart q old
    · rw [Finset.card_insert_of_notMem (fun present => (inside peer present).2 waited), size, counted,
        if_pos granted]
    · intro q present
      rcases Finset.mem_insert.mp present with rfl | old
      · exact ⟨v, cast, voter, facts⟩
      · exact voted q old
  · exact ⟨quorum, apart, by rw [size, counted, if_neg granted, Nat.add_zero], voted⟩

private theorem chosen_of_acks [DecidableEq V] {c : Cluster R V σ ρ} {meaning : V → C} {s : State R V σ}
    (ballots : BallotInv c s) (votes : VoteInv c meaning s) (n : R) (call : Call R V) (a : Accepting R V)
    (held : s.active n = some call) (at_ : call.phase = .accepting a)
    (phase : PhaseQuorum c meaning s n (.accepting a)) (enough : c.majority n ≤ a.accepts) :
    Chosen c meaning s a.slot (meaning a.proposal) := by
  obtain ⟨_, quorum, inside, size, voted⟩ := phase
  have own := ballots.phases n call held
  rw [at_] at own
  refine ⟨a.ballot, quorum, ⟨fun q present => (inside q present).1, ?_⟩, ?_⟩
  · rw [size, ← c.majority_eq n]
    exact enough
  · intro q present
    obtain ⟨v, cast, voter, slot, ballot⟩ := voted q present
    obtain ⟨m, sent, _, sameBallot, same⟩ := votes.proposed v cast
    have value := (own.2 m sent (sameBallot.trans ballot)).2
    exact ⟨v, cast, voter, slot, ballot, by rw [← same, value]⟩

private theorem choiceInv_grow {c : Cluster R V σ ρ} {meaning : V → C} {s t : State R V σ}
    (inv : ChoiceInv c meaning s) (accepts : t.accepts = s.accepts) (active : t.active = s.active)
    (learns : t.learns = s.learns) (log : t.log = s.log) (waiting : t.waiting = s.waiting)
    (calls : t.calls = s.calls) (replies : ∀ m ∈ s.promises, m ∈ t.promises)
    (grows : ∀ v ∈ s.votes, v ∈ t.votes)
    (up : ∀ a slot, (s.acceptor a slot).promised ≤ (t.acceptor a slot).promised)
    (respects : ∀ v ∈ t.votes, v ∈ s.votes ∨ (s.acceptor v.acceptor v.slot).promised ≤ v.ballot) :
    ChoiceInv c meaning t where
  safe := by
    intro m sent
    rw [accepts] at sent
    refine (inv.safe m sent).mono (fun a => up a m.slot) grows ?_
    intro v cast
    rcases respects v cast with before | above
    · exact Or.inl before
    · by_cases at_ : v.slot = m.slot
      · exact Or.inr (Or.inr (at_ ▸ above))
      · exact Or.inr (Or.inl at_)
  phases := by
    intro n call held
    rw [active] at held
    exact (inv.phases n call held).mono replies grows
  learnt := by
    intro m sent
    rw [learns] at sent
    exact (inv.learnt m sent).mono grows
  logged := by
    intro n slot v found
    rw [log] at found
    exact (inv.logged n slot v found).mono grows
  queued := by
    rw [waiting, calls]
    exact inv.queued
  active := by
    rw [active, calls]
    exact inv.active
  called := by
    rw [accepts, calls]
    exact inv.called

private theorem choiceInv_answerAccept {c : Cluster R V σ ρ} {meaning : V → C} {s : State R V σ}
    (inv : ChoiceInv c meaning s) (m : AcceptMsg R V) (w : V) :
    ChoiceInv c meaning (s.answerAccept m w) := by
  by_cases granted : ((s.acceptor m.target).accept m.slot m.ballot w).1.accepted = true
  · obtain ⟨up, result⟩ := Acceptor.accept_accepted _ _ _ _ granted
    refine choiceInv_grow inv rfl rfl rfl rfl rfl rfl (fun _ => id) ?_ ?_ ?_
    · intro v cast
      simpa [State.answerAccept, granted] using Or.inr cast
    · intro a slot
      by_cases sameA : a = m.target
      · subst sameA
        by_cases sameSlot : slot = m.slot
        · subst sameSlot
          simpa [State.answerAccept, result] using up
        · simp [State.answerAccept, result, Function.update_of_ne sameSlot]
      · simp [State.answerAccept, Function.update_of_ne sameA]
    · intro v cast
      simp only [State.answerAccept, if_pos granted] at cast
      rcases List.mem_cons.mp cast with new | old
      · subst new
        exact Or.inr up
      · exact Or.inl old
  · refine choiceInv_grow inv rfl rfl rfl rfl rfl rfl (fun _ => id) ?_ ?_ ?_
    · intro v cast
      simpa [State.answerAccept, granted] using cast
    · intro a slot
      simp only [State.answerAccept, Acceptor.accept_rejected _ _ _ _ granted, Function.update_eq_self]
      exact le_rfl
    · intro v cast
      simp only [State.answerAccept, if_neg granted] at cast
      exact Or.inl cast

private theorem choiceInv_answerPrepare {c : Cluster R V σ ρ} {meaning : V → C} {s : State R V σ}
    (inv : ChoiceInv c meaning s) (m : PrepareMsg R) (r : ρ) :
    ChoiceInv c meaning (s.answerPrepare c m r) := by
  refine choiceInv_grow inv rfl rfl rfl rfl rfl rfl (fun _ => List.mem_append_right _) (fun _ => id) ?_
    (fun _ => Or.inl)
  intro a slot
  by_cases same : a = m.target
  · subst same
    simp only [State.answerPrepare, Function.update_self]
    obtain ⟨up, _, _, other⟩ := (s.acceptor m.target).prepare_spec m.slot m.ballot slot
    by_cases here : slot = m.slot
    · exact here ▸ up
    · rw [other here]
  · simp [State.answerPrepare, Function.update_of_ne same]

private theorem logged_commit {c : Cluster R V σ ρ} {meaning : V → C} {s : State R V σ}
    (inv : ChoiceInv c meaning s) (n : R) (slot : Nat) (value : V)
    (chosen : Chosen c meaning s slot (meaning value)) (k : R) (at_ : Nat) (v : V)
    (found : (Function.update s.log n ((s.log n).commit c.apply slot value) k).chosen.lookup at_ = some v) :
    Chosen c meaning s at_ (meaning v) := by
  by_cases same : k = n
  · subst same
    rw [Function.update_self, Log.commit_lookup] at found
    split_ifs at found with fresh
    · cases found
      exact fresh.1 ▸ chosen
    · exact inv.logged k at_ v found
  · rw [Function.update_of_ne same] at found
    exact inv.logged k at_ v found

theorem adopted_proposed {c : Cluster R V σ ρ} {meaning : V → C} {s : State R V σ}
    (votes : VoteInv c meaning s) (n : R) (p : Preparing R V)
    (phase : PhaseQuorum c meaning s n (.preparing p)) (w : V) (found : p.adopted = some w) :
    ∃ m ∈ s.accepts, m.slot = p.slot ∧ meaning m.value = meaning w := by
  obtain ⟨_, _, quorum, _, _, _, adopted⟩ := phase
  obtain ⟨q, _, reply, ⟨sent, granted⟩, value, _⟩ := adopted w found
  have snapshot := (votes.promised _ sent granted).2.2
  simp only [value, Snapshot] at snapshot
  obtain ⟨_, ⟨v, cast, _, at_, _, same⟩, _⟩ := snapshot
  obtain ⟨m, offered, slot, _, proposed⟩ := votes.proposed v cast
  exact ⟨m, offered, slot.trans at_, proposed.trans same⟩

private theorem called_of_adopted {c : Cluster R V σ ρ} {meaning : V → C} {s : State R V σ}
    (votes : VoteInv c meaning s) (inv : ChoiceInv c meaning s) (n : R) (call : Call R V)
    (p : Preparing R V) (held : s.active n = some call) (phase : PhaseQuorum c meaning s n (.preparing p)) :
    ∃ x ∈ s.calls, meaning x.2 = meaning (p.adopted.getD call.value) := by
  cases found : p.adopted with
  | none =>
    obtain ⟨x, made, same⟩ := inv.active n call held
    exact ⟨x, made, by simp [same]⟩
  | some w =>
    obtain ⟨m, offered, _, same⟩ := adopted_proposed votes n p phase w found
    obtain ⟨x, made, called⟩ := inv.called m offered
    exact ⟨x, made, by simp [called, same]⟩

private theorem choiceInv_enter {c : Cluster R V σ ρ} {meaning : V → C} {s : State R V σ}
    (inv : ChoiceInv c meaning s) (n : R) (v : V) : ChoiceInv c meaning (s.enter n v) := by
  have known : ∀ {P : R × V → Prop}, (∃ x ∈ s.calls, P x) → ∃ x ∈ (s.enter n v).calls, P x :=
    fun ⟨x, made, holds⟩ => ⟨x, List.mem_append_left _ made, holds⟩
  refine { inv with queued := ?_, active := ?_, called := ?_ }
  · intro k entry present
    by_cases same : k = n
    · subst same
      simp only [State.enter, Function.update_self] at present
      rcases List.mem_append.mp present with old | new
      · exact known (inv.queued k entry old)
      · obtain rfl := List.mem_singleton.mp new
        exact ⟨_, List.mem_append_right _ (List.mem_singleton.mpr rfl), rfl⟩
    · simp only [State.enter, Function.update_of_ne same] at present
      exact known (inv.queued k entry present)
  · intro k call held
    exact known (inv.active k call held)
  · intro m sent
    exact known (inv.called m sent)

theorem choiceInv_step [DecidableEq V] (c : Cluster R V σ ρ) (meaning : V → C) (faithful : Faithful c meaning)
    (s t : State R V σ) (a : Action R V ρ) (ballots : BallotInv c s) (votes : VoteInv c meaning s)
    (inv : ChoiceInv c meaning s) (effect : Effect c s a t) : ChoiceInv c meaning t := by
  cases effect with
  | submit n v _ => exact choiceInv_enter inv n v
  | gapFill n _ _ => exact choiceInv_enter inv n (c.noop n)
  | acquire n id v free queued =>
    have moved := inv.setActive n (some ⟨id, v, 0, .ready⟩) (fun call given => by cases given; trivial)
      (fun call given => by cases given; exact inv.queued n _ queued)
    refine { moved with queued := ?_ }
    intro k entry present
    by_cases same : k = n
    · subst same
      simp only [State.acquire, Function.update_self] at present
      exact inv.queued k entry (List.mem_of_mem_erase present)
    · simp only [State.acquire, Function.update_of_ne same] at present
      exact inv.queued k entry present
  | giveUp n call held _ =>
    exact inv.setActive n none (fun _ given => by cases given) (fun _ given => by cases given)
  | attempt n call held _ _ =>
    refine { inv.setActive n _ (fun next given => ?_) (fun next given => ?_) with }
    · cases given
      refine ⟨(c.listed n).nodup_iff.mpr c.distinct, fun _ => rfl, ∅, ?_⟩
      simp
    · cases given
      exact inv.active n call held
  | deliverPrepare m r sent => exact choiceInv_answerPrepare inv m r
  | recvPromise n peer reply call p held phase waited sent =>
    have before := inv.phases n call held
    rw [phase] at before
    refine inv.setActive n _ (fun next given => ?_) (fun next given => ?_)
    · cases given
      exact collect_quorum n peer reply p (fun granted => (votes.promised _ sent granted).1) before waited sent
    · cases given
      exact inv.active n call held
  | failPrepare n peer call p held phase waited =>
    have before := inv.phases n call held
    rw [phase] at before
    obtain ⟨distinct, unset, quorum, inside, rest⟩ := before
    refine inv.setActive n _ (fun next given => ?_) (fun next given => ?_)
    · cases given
      refine ⟨distinct.erase peer, unset, quorum, fun q present => ⟨(inside q present).1, ?_⟩, rest⟩
      exact fun still => (inside q present).2 (List.mem_of_mem_erase still)
    · cases given
      exact inv.active n call held
  | losePrepare n call _ held _ _ _ | loseAccept n call _ held _ _ _ =>
    refine { inv.setActive n _ (fun next given => ?_) (fun next given => ?_) with }
    · cases given
      trivial
    · cases given
      exact inv.active n call held
  | propose n call p held phase done enough =>
    have before := inv.phases n call held
    rw [phase] at before
    have safe := safe_of_promises votes n call.value p before enough
    have moved := inv.setActive n
      (some { call with phase := .accepting ⟨p.slot, p.ballot, p.adopted.getD call.value, c.lists n, 0, 0⟩ })
      (fun next given => by
        cases given
        refine ⟨(c.listed n).nodup_iff.mpr c.distinct, ∅, ?_⟩
        simp)
      (fun next given => by
        cases given
        exact inv.active n call held)
    refine { moved with safe := ?_, called := ?_ }
    · intro m sent
      rcases List.mem_append.mp sent with new | old
      · obtain ⟨peer, _, rfl⟩ := List.mem_map.mp new
        exact safe.mono (fun _ => le_rfl) (fun _ => id) (fun _ => Or.inl)
      · exact (inv.safe m old).mono (fun _ => le_rfl) (fun _ => id) (fun _ => Or.inl)
    · intro m sent
      rcases List.mem_append.mp sent with new | old
      · obtain ⟨peer, _, rfl⟩ := List.mem_map.mp new
        exact called_of_adopted votes inv n call p held before
      · exact inv.called m old
  | deliverAccept m r v sent _ => exact choiceInv_answerAccept inv m v
  | recvAck n peer reply call a held phase waited sent =>
    have before := inv.phases n call held
    rw [phase] at before
    refine inv.setActive n _ (fun next given => ?_) (fun next given => ?_)
    · cases given
      exact ack_quorum votes n peer reply a before waited sent
    · cases given
      exact inv.active n call held
  | failAccept n peer call a held phase waited =>
    have before := inv.phases n call held
    rw [phase] at before
    obtain ⟨distinct, quorum, inside, rest⟩ := before
    refine inv.setActive n _ (fun next given => ?_) (fun next given => ?_)
    · cases given
      refine ⟨distinct.erase peer, quorum, fun q present => ⟨(inside q present).1, ?_⟩, rest⟩
      exact fun still => (inside q present).2 (List.mem_of_mem_erase still)
    · cases given
      exact inv.active n call held
  | announce n call a held phase done enough =>
    have before := inv.phases n call held
    rw [phase] at before
    have chosen := chosen_of_acks ballots votes n call a held phase before enough
    refine { inv.setActive n (some { call with phase := .committing a.slot a.proposal })
      (fun next given => ?_) (fun next given => ?_) with learnt := ?_ }
    · cases given
      exact chosen
    · cases given
      exact inv.active n call held
    · intro m sent
      rcases List.mem_append.mp sent with new | old
      · obtain ⟨peer, _, rfl⟩ := List.mem_map.mp new
        exact chosen.mono (fun _ => id)
      · exact (inv.learnt m old).mono (fun _ => id)
  | commit n call slot proposal held phase =>
    have before := inv.phases n call held
    rw [phase] at before
    refine { inv.setActive n _ (fun next given => ?_) (fun next given => ?_) with logged := ?_ }
    · split_ifs at given
      cases given
      trivial
    · split_ifs at given
      cases given
      exact inv.active n call held
    · intro k at_ v found
      exact (logged_commit inv n slot proposal before k at_ v found).mono (fun _ => id)
  | deliverLearn m r v sent carried =>
    have chosen : Chosen c meaning s m.slot (meaning v) := by
      rw [faithful _ _ _ _ _ carried]
      exact inv.learnt m sent
    refine { inv with logged := ?_ }
    intro k at_ w found
    exact (logged_commit inv m.target m.slot v chosen k at_ w found).mono (fun _ => id)

structure Inv (c : Cluster R V σ ρ) (meaning : V → C) (s : State R V σ) : Prop where
  ballots : BallotInv c s
  votes : VoteInv c meaning s
  choice : ChoiceInv c meaning s

theorem inv_reachable [DecidableEq V] (c : Cluster R V σ ρ) (meaning : V → C) (faithful : Faithful c meaning)
    (s : State R V σ) (run : Reachable c s) : Inv c meaning s := by
  refine run.invariant (Inv c meaning)
    ⟨ballotInv_init c, voteInv_init c meaning, choiceInv_init c meaning⟩ ?_
  intro u a v inv taken small
  have effect := effect_of_step c u v a taken
  exact ⟨ballotInv_step c u v a inv.ballots effect small,
    voteInv_step c meaning faithful u v a inv.votes effect,
    choiceInv_step c meaning faithful u v a inv.ballots inv.votes inv.choice effect⟩

theorem history_sound {c : Cluster R V σ ρ} {meaning : V → C} {s : State R V σ} (inv : Inv c meaning s)
    (slot : Nat) : (history meaning s slot).Sound (Lib.Majority c.replicas) where
  votedProposed := by
    rintro a b w ⟨v, cast, _, at_, rfl, rfl⟩
    obtain ⟨m, sent, slotM, ballot, same⟩ := inv.votes.proposed v cast
    exact ⟨m, sent, slotM.trans at_, ballot, same⟩
  proposedOnce := by
    rintro b v w ⟨m, sent, _, ballot, rfl⟩ ⟨m', sent', _, ballot', rfl⟩
    rw [(inv.ballots.unique m sent m' sent' (ballot.trans ballot'.symm)).2]
  proposedSafe := by
    rintro b w ⟨m, sent, rfl, rfl, rfl⟩
    obtain ⟨quorum, majority, _, safe⟩ := inv.choice.safe m sent
    exact ⟨quorum, majority, safe⟩

theorem chosen_agree {c : Cluster R V σ ρ} {meaning : V → C} {s : State R V σ} (inv : Inv c meaning s)
    {slot : Nat} {v w : C} (first : Chosen c meaning s slot v) (second : Chosen c meaning s slot w) :
    v = w := by
  obtain ⟨_, first⟩ := first
  obtain ⟨_, second⟩ := second
  exact (history_sound inv slot).chosen_unique (fun _ _ => Lib.Majority.meet) first second

theorem chosen_called {c : Cluster R V σ ρ} {meaning : V → C} {s : State R V σ} (inv : Inv c meaning s)
    {slot : Nat} {w : C} (chosen : Chosen c meaning s slot w) : ∃ x ∈ s.calls, meaning x.2 = w := by
  obtain ⟨b, quorum, majority, voted⟩ := chosen
  obtain ⟨q, present⟩ := majority.nonempty
  obtain ⟨v, cast, _, _, _, rfl⟩ := voted q present
  obtain ⟨m, sent, _, _, same⟩ := inv.votes.proposed v cast
  obtain ⟨x, made, called⟩ := inv.choice.called m sent
  exact ⟨x, made, called.trans same⟩

end PrefixMesh.Paxos
