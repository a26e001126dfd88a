import PrefixMesh.Paxos.Recorded

/-! Whose messages are under way. Every ballot that a `Prepare` or its answer names belongs to
the proposer of the request, every ballot that an acceptor has promised belongs to some
proposer, and an `Accept` is answered only after it has been sent. -/

namespace PrefixMesh.Paxos

variable {R V σ ρ C : Type} [LinearOrder R]

structure SentInv (c : Cluster R V σ ρ) (s : State R V σ) : Prop where
  prepares : ∀ m ∈ s.prepares, Owned c m.sender (s.round m.sender) m.ballot
  promises : ∀ m ∈ s.promises, Owned c m.target (s.round m.target) m.ballot
  acks : ∀ m ∈ s.acks, ∃ q ∈ s.accepts, q.ballot = m.ballot
  promised : ∀ a slot, (s.acceptor a slot).promised = 0 ∨
    ∃ k, Owned c k (s.round k) (s.acceptor a slot).promised

theorem sentInv_init (c : Cluster R V σ ρ) : SentInv c c.init where
  prepares := by simp [Cluster.init]
  promises := by simp [Cluster.init]
  acks := by simp [Cluster.init]
  promised := fun _ _ => Or.inl rfl

variable [DecidableEq V]

theorem round_mono {c : Cluster R V σ ρ} {s t : State R V σ} {a : Action R V ρ} (ballots : BallotInv c s)
    (effect : Effect c s a t) (k : R) : s.round k ≤ t.round k := by
  cases effect with
  | attempt n call held _ _ =>
    exact round_le_attempt c s n call (ballots.rounds n (ballots.members n call held)) k
  | losePrepare n call p _ _ _ _ | loseAccept n call p _ _ _ _ => exact round_le_lose s n call _ k
  | _ => exact le_rfl

theorem prepares_effect {c : Cluster R V σ ρ} {s t : State R V σ} {a : Action R V ρ} (ballots : BallotInv c s)
    (inv : SentInv c s) (effect : Effect c s a t) (m : PrepareMsg R) (sent : m ∈ t.prepares) :
    Owned c m.sender (t.round m.sender) m.ballot := by
  have grows := round_mono ballots effect
  cases effect with
  | attempt n call held _ _ =>
    rcases List.mem_append.mp sent with new | old
    · obtain ⟨peer, _, rfl⟩ := List.mem_map.mp new
      refine ⟨ballots.members n call held, _, le_rfl, ?_⟩
      simp only [State.attempt, Function.update_self]
    · exact (inv.prepares m old).mono (grows _)
  | losePrepare n call p _ _ _ _ | loseAccept n call p _ _ _ _ => exact (inv.prepares m sent).mono (grows _)
  | _ => exact inv.prepares m sent

theorem promises_effect {c : Cluster R V σ ρ} {meaning : V → C} (faithful : Faithful c meaning) {s t : State R V σ}
    {a : Action R V ρ} (effect : Effect c s a t) (m : PromiseMsg R V) (sent : m ∈ t.promises) :
    m ∈ s.promises ∨ ∃ q ∈ s.prepares, m.target = q.sender ∧ m.ballot = q.ballot := by
  cases effect with
  | deliverPrepare q r asked =>
    rcases List.mem_append.mp sent with new | old
    · obtain ⟨_, target, _, ballot, _⟩ := carryReply_cases c meaning faithful q r _ m new
      exact Or.inr ⟨q, asked, target, ballot⟩
    · exact Or.inl old
  | _ => exact Or.inl sent

theorem acks_effect {c : Cluster R V σ ρ} {s t : State R V σ} {a : Action R V ρ} (inv : SentInv c s)
    (effect : Effect c s a t) (m : AckMsg R) (sent : m ∈ t.acks) : ∃ q ∈ t.accepts, q.ballot = m.ballot := by
  cases effect with
  | deliverAccept q r v offered _ =>
    rcases List.mem_cons.mp sent with rfl | old
    · exact ⟨q, offered, rfl⟩
    · exact inv.acks m old
  | propose n call p _ _ _ _ =>
    obtain ⟨q, offered, same⟩ := inv.acks m sent
    exact ⟨q, List.mem_append_right _ offered, same⟩
  | _ => exact inv.acks m sent

theorem promised_effect {c : Cluster R V σ ρ} {s t : State R V σ} {a : Action R V ρ} (effect : Effect c s a t)
    (k : R) (slot : Nat) : (t.acceptor k slot).promised = (s.acceptor k slot).promised ∨
      (∃ q ∈ s.prepares, (t.acceptor k slot).promised = q.ballot) ∨
      ∃ q ∈ s.accepts, (t.acceptor k slot).promised = q.ballot := by
  cases effect with
  | deliverPrepare q r asked =>
    simp only [State.answerPrepare, Acceptor.prepare_eq]
    by_cases here : k = q.target
    · subst here
      by_cases same : slot = q.slot
      · subst same
        simp only [Function.update_self]
        rcases max_choice (s.acceptor q.target q.slot).promised q.ballot with stays | moves
        · exact Or.inl stays
        · exact Or.inr (Or.inl ⟨q, asked, moves⟩)
      · simp [Function.update_of_ne same]
    · simp [Function.update_of_ne here]
  | deliverAccept q r v offered _ =>
    simp only [State.answerAccept, Acceptor.accept]
    by_cases here : k = q.target
    · subst here
      split
      · by_cases same : slot = q.slot
        · subst same
          simp only [Function.update_self]
          exact Or.inr (Or.inr ⟨q, offered, rfl⟩)
        · simp [Function.update_of_ne same]
      · simp
    · simp [Function.update_of_ne here]
  | _ => exact Or.inl rfl

theorem sentInv_step {c : Cluster R V σ ρ} {meaning : V → C} (faithful : Faithful c meaning) {s t : State R V σ}
    {a : Action R V ρ} (ballots : BallotInv c s) (inv : SentInv c s) (effect : Effect c s a t) : SentInv c t where
  prepares := prepares_effect ballots inv effect
  promises := by
    intro m sent
    rcases promises_effect faithful effect m sent with old | ⟨q, asked, target, ballot⟩
    · exact (inv.promises m old).mono (round_mono ballots effect _)
    · rw [target, ballot]
      exact (inv.prepares q asked).mono (round_mono ballots effect _)
  acks := acks_effect inv effect
  promised := by
    intro k slot
    rcases promised_effect effect k slot with same | ⟨q, asked, same⟩ | ⟨q, offered, same⟩
    · rw [same]
      exact (inv.promised k slot).imp_right fun ⟨j, owned⟩ => ⟨j, owned.mono (round_mono ballots effect _)⟩
    · rw [same]
      exact Or.inr ⟨q.sender, (inv.prepares q asked).mono (round_mono ballots effect _)⟩
    · rw [same]
      exact Or.inr ⟨q.sender, (ballots.owned q offered).mono (round_mono ballots effect _)⟩

theorem sentInv_reachable {c : Cluster R V σ ρ} {meaning : V → C} (faithful : Faithful c meaning) {s : State R V σ}
    (run : Reachable c s) : SentInv c s := by
  have both : Reachable c s ∧ SentInv c s := by
    refine run.invariant (fun u => Reachable c u ∧ SentInv c u) ⟨.refl, sentInv_init c⟩ ?_
    rintro u a w ⟨reached, inv⟩ taken small
    exact ⟨reached.tail taken small, sentInv_step faithful (inv_reachable c meaning faithful u reached).ballots inv
      (effect_of_step c u w a taken)⟩
  exact both.2

end PrefixMesh.Paxos
