import PrefixMesh.Paxos.Quiet

/-! The course of an attempt on the quiet network: each of its phases ends, whatever the
order of the deliveries, and either its ballot is lost or a value is chosen and recorded. -/

namespace PrefixMesh.Paxos

variable {R V σ ρ C : Type} [LinearOrder R]

def Carries (c : Cluster R V σ ρ) (meaning : V → C) (s : State R V σ) : Prop :=
  ∀ p q w, (∃ x ∈ s.calls, meaning x.2 = meaning w) → ∃ r, (c.carry p q r w).isSome = true

variable {c : Cluster R V σ ρ} {meaning : V → C} {n : R} {u s t : State R V σ} {a : Action R V ρ} {call : Call R V}
  {slot b : Nat}

theorem answerPrepare_acceptor (s : State R V σ) (m : PrepareMsg R) (r : ρ) (k : R) (i : Nat) :
    (s.answerPrepare c m r).acceptor k i = if k = m.target ∧ i = m.slot then
      { s.acceptor k i with promised := max (s.acceptor k i).promised m.ballot } else s.acceptor k i := by
  simp only [State.answerPrepare, Acceptor.prepare_eq]
  by_cases here : k = m.target
  · subst here
    by_cases same : i = m.slot
    · subst same
      simp
    · simp [same]
  · simp [here]

theorem answerAccept_acceptor (s : State R V σ) (m : AcceptMsg R V) (v : V) (k : R) (i : Nat) :
    (s.answerAccept m v).acceptor k i =
      if k = m.target ∧ i = m.slot ∧ (s.acceptor k i).promised ≤ m.ballot then ⟨m.ballot, m.ballot, some v⟩
      else s.acceptor k i := by
  simp only [State.answerAccept, Acceptor.accept]
  by_cases here : k = m.target
  · subst here
    by_cases same : i = m.slot
    · subst same
      by_cases newer : (s.acceptor m.target m.slot).promised ≤ m.ballot
      · simp [newer]
      · simp [newer]
    · by_cases newer : (s.acceptor m.target m.slot).promised ≤ m.ballot
      · simp [same, newer]
      · simp [same, newer]
  · simp [here]

variable [DecidableEq V]

theorem reachable_tail (faithful : Faithful c meaning) (run : Reachable c s) (taken : step c s a = some t)
    (same : t.round = s.round) : Reachable c t := by
  refine run.tail taken fun k member => ?_
  rw [same]
  exact (inv_reachable c meaning faithful s run).ballots.rounds k member

theorem Frame.keep (faithful : Faithful c meaning) (frame : Frame c n u slot s) (taken : step c s a = some t)
    (rounds : t.round = s.round) (calls : t.calls = s.calls)
    (elsewhere : ∀ k i, i ≠ slot → t.acceptor k i = s.acceptor k i) : Frame c n u slot t where
  reachable := reachable_tail faithful frame.reachable taken rounds
  calls := calls.trans frame.calls
  elsewhere := fun k i apart => (elsewhere k i apart).trans (frame.elsewhere k i apart)
  recorded := fun i known => recorded_step (effect_of_step c s t a taken) n i (frame.recorded i known)

theorem fresh_ballot (faithful : Faithful c meaning) (run : Reachable c u) (held : u.active n = some call)
    (small : u.round n + 1 < 2 ^ 56) {ballot : Nat} (owned : Owned c n (u.round n) ballot) :
    ballot ≠ makeBallot (u.round n + 1) (c.idx n) := by
  have ballots := (inv_reachable c meaning faithful u run).ballots
  exact owned.fresh (ballots.members n call held) (ballots.rounds n owned.1) small fun _ => Nat.lt_succ_self _

theorem asking_attempt (faithful : Faithful c meaning) (run : Reachable c u) (held : u.active n = some call)
    (small : u.round n + 1 < 2 ^ 56) (work : (u.log n).firstUnchosen = slot)
    (ballot : makeBallot (u.round n + 1) (c.idx n) = b) (taken : step c u a = some (u.attempt c n call)) :
    Asking c n u call slot b ⟨slot, b, c.lists n, 0, none, 0, 0⟩ c.replicas.toFinset (u.attempt c n call) := by
  have ballots := (inv_reachable c meaning faithful u run).ballots
  have counted : (u.round n + 1) % 2 ^ 64 = u.round n + 1 := Nat.mod_eq_of_lt (by omega)
  have rounds := attempt_rounds c u n call (Nat.lt_of_succ_lt small)
  have below : RoundsBelow c (u.attempt c n call) := by
    intro k member
    rw [rounds]
    by_cases same : k = n
    · subst same
      rw [Function.update_self]
      exact small
    · rw [Function.update_of_ne same]
      exact ballots.rounds k member
  have nobody : heard c (c.lists n) = ∅ := heard_all c fun k member => (c.mem_lists n k).mpr member
  refine {
    reachable := run.tail taken below
    calls := rfl
    elsewhere := fun _ _ _ => rfl
    recorded := fun _ known => known
    returned := rfl
    held := ?_
    rounds := rounds
    work := ⟨rfl, rfl⟩
    distinct := (c.listed n).nodup_iff.mpr c.distinct
    peers := fun k inside => (c.mem_lists n k).mp inside
    undelivered := fun k inside => (c.mem_lists n k).mpr (List.mem_toFinset.mp inside)
    sent := ?_
    silent := ?_
    answered := fun k member outside => absurd (List.mem_toFinset.mpr member) outside
    promises := by rw [nobody]; rfl
    maxPromised := by rw [nobody]; rfl
    adopted := fun _ => rfl }
  · simp only [State.attempt, Function.update_self, work, counted, ballot]
  · intro k member
    simp only [State.attempt, work, counted, ballot]
    exact List.mem_append_left _ (List.mem_map.mpr ⟨k, (c.mem_lists n k).mpr member, rfl⟩)
  · -- a reply to this ballot would be one to an earlier round
    intro k _
    refine ⟨rfl, fun reply inside => ?_⟩
    exact fresh_ballot faithful run held small ((sentInv_reachable faithful run).promises _ inside) ballot.symm

theorem answerable (faithful : Faithful c meaning) (run : Reachable c s) (held : s.active n = some call)
    (carries : Carries c meaning s) (m : PrepareMsg R) :
    ∃ r, carryReply c m r ((s.acceptor m.target).prepare m.slot m.ballot).1 ≠ [] := by
  have inv := inv_reachable c meaning faithful s run
  rw [Acceptor.prepare_eq]
  simp only [carryReply]
  cases voted : (s.acceptor m.target m.slot).acceptedValue with
  | none =>
    obtain ⟨x, made, same⟩ := inv.choice.active n call held
    obtain ⟨r, _⟩ := carries n n x.2 ⟨x, made, rfl⟩
    exact ⟨r, List.cons_ne_nil _ _⟩
  | some w =>
    have cast := inv.votes.latest _ _ _ voted
    obtain ⟨offer, sent, _, _, same⟩ := inv.votes.proposed _ cast
    obtain ⟨x, made, same'⟩ := inv.choice.called offer sent
    obtain ⟨r, carried⟩ := carries m.target m.sender w ⟨x, made, same'.trans same⟩
    refine ⟨r, ?_⟩
    obtain ⟨w', arrives⟩ := Option.isSome_iff_exists.mp carried
    simp only [arrives]
    exact List.cons_ne_nil _ _

/-- The call acts itself; what it is told is not its doing. -/
def Action.own : Action R V ρ → Bool
  | .deliverLearn _ _ => false
  | _ => true

section Phase1

variable {p : Preparing R V} {peers : Finset R}

theorem Asking.enabled (faithful : Faithful c meaning) (carries : Carries c meaning u)
    (asking : Asking c n u call slot b p peers s) :
    ∃ a t, step c s a = some t ∧ Quiet c n s a ∧ a.own = true := by
  have held := asking.held
  obtain ⟨rfl, rfl⟩ := asking.work
  cases pending : p.pending with
  | nil =>
    by_cases few : p.promises < c.majority n
    · exact ⟨.finishPrepare n, _, by simp only [step, held, if_pos pending, if_pos few]; rfl, rfl, rfl⟩
    · exact ⟨.finishPrepare n, _, by simp only [step, held, if_pos pending, if_neg few]; rfl, rfl, rfl⟩
  | cons q rest =>
    have inside : q ∈ p.pending := pending ▸ List.mem_cons_self
    have member := asking.peers q inside
    by_cases undelivered : q ∈ peers
    · obtain ⟨r, carried⟩ := answerable faithful asking.reachable held (by rw [Carries, asking.calls]; exact carries)
        ⟨n, q, p.slot, p.ballot⟩
      refine ⟨.deliverPrepare ⟨n, q, p.slot, p.ballot⟩ r, _, by simp only [step]; exact if_pos (asking.sent q member),
        ⟨rfl, ⟨_, held, rfl⟩, ?_, carried⟩, rfl⟩
      rintro ⟨sender, target, slot, ballot, reply⟩ known from_ to_ at_ same
      cases from_
      cases to_
      cases at_
      cases same
      exact (asking.silent q undelivered).2 reply known
    · obtain ⟨reply, known⟩ := (asking.answered q member undelivered).2.1
      exact ⟨.recvPromise n q reply, _, by simp only [step, held]; exact if_pos ⟨inside, known⟩, rfl, rfl⟩

theorem Asking.ask (faithful : Faithful c meaning) (asking : Asking c n u call slot b p peers s) {q : R} {r : ρ}
    (taken : step c s a = some (s.answerPrepare c ⟨n, q, slot, b⟩ r)) (inside : q ∈ peers)
    (answered : carryReply c ⟨n, q, slot, b⟩ r ((s.acceptor q).prepare slot b).1 ≠ []) :
    Asking c n u call slot b p (peers.erase q) (s.answerPrepare c ⟨n, q, slot, b⟩ r) := by
  have reply_of : ∀ reply, (⟨q, n, slot, b, reply⟩ : PromiseMsg R V) ∈
      carryReply c ⟨n, q, slot, b⟩ r ((s.acceptor q).prepare slot b).1 → Answers (u.acceptor q slot) b reply := by
    intro reply new
    obtain ⟨_, _, _, _, promised, _, value, highest⟩ := carryReply_cases c meaning faithful _ r _ _ new
    rw [Acceptor.prepare_eq, (asking.silent q inside).1] at promised value highest
    refine ⟨promised, highest, fun nothing => ?_⟩
    rw [nothing, Option.map_none, Option.map_eq_none_iff] at value
    exact value
  refine { asking with
    toFrame := asking.toFrame.keep faithful taken rfl rfl ?_
    undelivered := fun k still => asking.undelivered k (Finset.mem_of_mem_erase still)
    silent := ?_
    answered := ?_ }
  · intro k i apart
    rw [answerPrepare_acceptor, if_neg fun at_ => apart at_.2]
  · intro k still
    obtain ⟨other, earlier⟩ := Finset.mem_erase.mp still
    rw [answerPrepare_acceptor, if_neg fun at_ => other at_.1]
    refine ⟨(asking.silent k earlier).1, fun reply known => ?_⟩
    rcases List.mem_append.mp known with new | old
    · exact other (carryReply_cases c meaning faithful _ r _ _ new).1
    · exact (asking.silent k earlier).2 reply old
  · intro k member outside
    by_cases same : k = q
    · subst same
      rw [answerPrepare_acceptor, if_pos ⟨rfl, rfl⟩, (asking.silent k inside).1]
      refine ⟨rfl, ?_, fun reply known => ?_⟩
      · obtain ⟨out, new⟩ := List.exists_mem_of_ne_nil _ answered
        obtain ⟨from_, to_, at_, ballot, _⟩ := carryReply_cases c meaning faithful _ r _ _ new
        obtain ⟨sender, target, slot', ballot', reply⟩ := out
        cases from_
        cases to_
        cases at_
        cases ballot
        exact ⟨reply, List.mem_append_left _ new⟩
      · rcases List.mem_append.mp known with new | old
        · exact reply_of reply new
        · exact absurd old ((asking.silent k inside).2 reply)
    · have earlier : k ∉ peers := fun still => outside (Finset.mem_erase.mpr ⟨same, still⟩)
      obtain ⟨raised, ⟨reply, known⟩, all⟩ := asking.answered k member earlier
      rw [answerPrepare_acceptor, if_neg fun at_ => same at_.1]
      refine ⟨raised, ⟨reply, List.mem_append_right _ known⟩, fun reply known => ?_⟩
      rcases List.mem_append.mp known with new | old
      · exact absurd (carryReply_cases c meaning faithful _ r _ _ new).1 same
      · exact all reply old

theorem Asking.recvPromise (faithful : Faithful c meaning) (asking : Asking c n u call slot b p peers s) {q : R}
    {reply : PrepareReply V} (taken : step c s a = some
      (s.setActive n (some { call with phase := .preparing (p.collect q reply) })))
    (waited : q ∈ p.pending) (known : (⟨q, n, slot, b, reply⟩ : PromiseMsg R V) ∈ s.promises) :
    Asking c n u call slot b (p.collect q reply) peers
      (s.setActive n (some { call with phase := .preparing (p.collect q reply) })) := by
  obtain ⟨sameSlot, sameBallot, pending⟩ := p.collect_eq q reply
  obtain ⟨promises, maxPromised⟩ := p.collect_counts q reply
  have member := asking.peers q waited
  have delivered : q ∉ peers := fun still => (asking.silent q still).2 reply known
  have answers := (asking.answered q member delivered).2.2 reply known
  obtain ⟨grown, fresh⟩ := heard_erase c asking.distinct member waited
  refine { asking with
    toFrame := asking.toFrame.keep faithful taken rfl rfl fun _ _ _ => rfl
    held := Function.update_self ..
    work := ⟨sameSlot.trans asking.work.1, sameBallot.trans asking.work.2⟩
    distinct := pending ▸ asking.distinct.erase q
    peers := fun k inside => asking.peers k (List.mem_of_mem_erase (pending ▸ inside))
    undelivered := ?_
    promises := ?_
    maxPromised := ?_
    adopted := ?_ }
  · intro k still
    have apart : k ≠ q := fun same => delivered (same ▸ still)
    rw [pending]
    exact (List.mem_erase_of_ne apart).mpr (asking.undelivered k still)
  · rw [promises, pending, grown, Finset.filter_insert, asking.promises]
    by_cases grants : Grants u.acceptor slot b q
    · rw [if_pos grants, Finset.card_insert_of_notMem fun inside => fresh (Finset.mem_filter.mp inside).1,
        answers.promised.trans (decide_eq_true grants), if_pos rfl]
    · rw [if_neg grants, answers.promised.trans (decide_eq_false grants), if_neg Bool.false_ne_true]
      rfl
  · rw [maxPromised, pending, grown, Finset.sup_insert, asking.maxPromised, answers.highest, refusal, sup_comm]
    by_cases grants : Grants u.acceptor slot b q
    · rw [if_pos grants, answers.promised.trans (decide_eq_true grants), if_pos rfl]
    · rw [if_neg grants, answers.promised.trans (decide_eq_false grants), if_neg Bool.false_ne_true,
        max_eq_left (not_lt.mp grants)]
  · intro unvoted
    rw [p.collect_adopted q (answers.unvoted (unvoted q member))]
    exact asking.adopted unvoted

theorem refused_round (faithful : Faithful c meaning) (run : Reachable c u) (slot b : Nat) {top : Nat}
    (bound : ∀ k ∈ c.replicas, u.round k ≤ top) : Ballot.round (refused c u.acceptor slot b) ≤ top := by
  have zero : Ballot.round 0 ≤ top := Nat.zero_le top
  refine Finset.sup_induction (p := fun x => Ballot.round x ≤ top) zero ?_ ?_
  · intro x below y below'
    rcases le_total x y with right | left
    · rwa [sup_eq_right.mpr right]
    · rwa [sup_eq_left.mpr left]
  · intro k _
    unfold refusal
    split
    · exact zero
    · rcases (sentInv_reachable faithful run).promised k slot with nothing | ⟨owner, member, round, reached, same⟩
      · rw [nothing]
        exact zero
      · have small := (inv_reachable c meaning faithful u run).ballots.rounds owner member
        have byte := c.idx_lt owner
        have within := bound owner member
        rw [same, makeBallot_eq round (c.idx owner) (by omega) byte, Ballot.round, Nat.shiftRight_eq_div_pow]
        omega

theorem Asking.all_heard (asking : Asking c n u call slot b p peers s) (done : p.pending = []) :
    heard c p.pending = c.replicas.toFinset ∧ ∀ k, k ∉ peers := by
  refine ⟨by rw [done, heard_nil], fun k inside => ?_⟩
  have waited := asking.undelivered k inside
  rw [done] at waited
  cases waited

theorem Asking.lose (faithful : Faithful c meaning) (asking : Asking c n u call slot b p peers s)
    (start : Reachable c u) (room : ∀ k ∈ c.replicas, u.round k + 1 < 2 ^ 56)
    (taken : step c s a = some (s.lose n { call with phase := .preparing p } p.maxPromised)) (done : p.pending = [])
    (few : p.promises < c.majority n) : ¬Wins c u.acceptor slot b ∧
      Lost c n u call slot b (s.lose n { call with phase := .preparing p } p.maxPromised) := by
  obtain ⟨all, nobody⟩ := asking.all_heard done
  have highest : p.maxPromised = refused c u.acceptor slot b := by rw [asking.maxPromised, all, refused]
  have rounds : (s.lose n { call with phase := .preparing p } p.maxPromised).round =
      Function.update u.round n (catchUpRound (u.round n + 1) (refused c u.acceptor slot b)) := by
    simp only [State.lose, asking.rounds, Function.update_self, Function.update_idem, highest]
  refine ⟨?_, ?_⟩
  · rw [asking.promises, all, c.majority_eq] at few
    exact not_le.mpr few
  · refine { asking with
      reachable := ?_
      held := Function.update_self ..
      rounds := rounds
      acceptors := fun k member => (asking.answered k member (nobody k)).1 }
    refine asking.reachable.tail taken fun k member => ?_
    have reached : Ballot.round (refused c u.acceptor slot b) ≤ 2 ^ 56 - 2 :=
      refused_round faithful start slot b fun k member => Nat.le_sub_of_add_le (room k member)
    rw [rounds]
    by_cases same : k = n
    · subst same
      have caught := room k member
      rw [Function.update_self]
      exact lt_of_le_of_lt (catchUpRound_le (Nat.le_sub_one_of_lt caught) (reached.trans (by omega))) (by omega)
    · rw [Function.update_of_ne same]
      have := room k member
      omega

theorem Asking.propose (faithful : Faithful c meaning) (asking : Asking c n u call slot b p peers s)
    (taken : step c s a = some (s.propose c n { call with phase := .preparing p } p)) (done : p.pending = [])
    (enough : c.majority n ≤ p.promises) : Wins c u.acceptor slot b ∧
      ∃ a, Offering c n u call slot b a c.replicas.toFinset (s.propose c n { call with phase := .preparing p } p) := by
  obtain ⟨all, nobody⟩ := asking.all_heard done
  have ballots := (inv_reachable c meaning faithful s asking.reachable).ballots
  obtain ⟨rfl, rfl⟩ := asking.work
  refine ⟨?_, ⟨p.slot, p.ballot, p.adopted.getD call.value, c.lists n, 0, 0⟩, { asking with
    toFrame := asking.toFrame.keep faithful taken rfl rfl fun _ _ _ => rfl
    held := Function.update_self ..
    work := ⟨rfl, rfl⟩
    proposes := fun unvoted => by rw [asking.adopted unvoted, Option.getD_none]
    distinct := (c.listed n).nodup_iff.mpr c.distinct
    peers := fun k inside => (c.mem_lists n k).mp inside
    undelivered := fun k inside => (c.mem_lists n k).mpr (List.mem_toFinset.mp inside)
    sent := fun k member => List.mem_append_left _ (List.mem_map.mpr ⟨k, (c.mem_lists n k).mpr member, rfl⟩)
    promised := ?_
    silent := ?_
    answered := fun k member outside => absurd (List.mem_toFinset.mpr member) outside
    accepts := ?_ }⟩
  · rw [asking.promises, all, c.majority_eq] at enough
    exact enough
  · intro k member grants
    have raised := (asking.answered k member (nobody k)).1
    change (s.acceptor k p.slot).promised = p.ballot
    rw [raised]
    exact max_eq_right (le_of_lt grants)
  · -- an answer would mean that this ballot has been proposed with before
    intro k _ reply known
    obtain ⟨q, offered, same⟩ := (sentInv_reachable faithful asking.reachable).acks _ known
    exact (ballots.phases n _ asking.held).2 q offered same
  · rw [heard_all c fun k member => (c.mem_lists n k).mpr member]
    exact Nat.zero_le _

theorem Asking.move (faithful : Faithful c meaning) (asking : Asking c n u call slot b p peers s)
    (start : Reachable c u) (room : ∀ k ∈ c.replicas, u.round k + 1 < 2 ^ 56) (taken : step c s a = some t)
    (quiet : Quiet c n s a) :
    (Wins c u.acceptor slot b ∧ (∃ a, Offering c n u call slot b a c.replicas.toFinset t) ∨
      ¬Wins c u.acceptor slot b ∧ Lost c n u call slot b t) ∨
    ∃ p' peers', Asking c n u call slot b p' peers' t ∧
      (p'.pending.length + peers'.card < p.pending.length + peers.card ∨
        p'.pending.length + peers'.card = p.pending.length + peers.card ∧ t.unlearnt < s.unlearnt) := by
  have held := asking.held
  cases move_of_step taken quiet with
  | ask m r call' p' held' phase sent sender at_ ballot silent answered =>
    rw [held] at held'
    cases held'
    cases phase
    obtain ⟨m_sender, q, m_slot, m_ballot⟩ := m
    obtain ⟨rfl, rfl⟩ := asking.work
    cases sender
    cases at_
    cases ballot
    have member := (inv_reachable c meaning faithful s asking.reachable).votes.asked _ sent
    have inside : q ∈ peers := by
      by_contra outside
      obtain ⟨reply, known⟩ := (asking.answered q member outside).2.1
      exact silent reply known
    refine Or.inr ⟨p, peers.erase q, asking.ask faithful taken inside answered, Or.inl ?_⟩
    have fewer := Finset.card_erase_lt_of_mem inside
    omega
  | recvPromise q reply call' p' held' phase waited known =>
    rw [held] at held'
    cases held'
    cases phase
    obtain ⟨rfl, rfl⟩ := asking.work
    refine Or.inr ⟨_, peers, asking.recvPromise faithful taken waited known, Or.inl ?_⟩
    have fewer := List.length_pos_of_mem waited
    rw [(p.collect_eq q reply).2.2, List.length_erase_of_mem waited]
    omega
  | losePrepare call' p' held' phase done few =>
    rw [held] at held'
    cases held'
    cases phase
    exact Or.inl (Or.inr (asking.lose faithful start room taken done few))
  | propose call' p' held' phase done enough =>
    rw [held] at held'
    cases held'
    cases phase
    exact Or.inl (Or.inl (asking.propose faithful taken done enough))
  | learn m v sent missing =>
    refine Or.inr ⟨p, peers, { asking with
      toFrame := asking.toFrame.keep faithful taken rfl rfl fun _ _ _ => rfl }, Or.inr ⟨rfl, ?_⟩⟩
    exact unlearnt_learn v sent missing
  | attempt _ held' phase' | giveUp _ held' phase' | offer _ _ _ _ held' phase' | recvAck _ _ _ _ held' phase'
  | loseAccept _ _ held' phase' | announce _ _ held' phase' | commit _ _ _ held' phase' =>
    exact other_phase held held' phase' nofun

end Phase1

section Phase2

variable {a' : Accepting R V} {peers : Finset R}

theorem Offering.enabled (faithful : Faithful c meaning) (carries : Carries c meaning u)
    (offering : Offering c n u call slot b a' peers s) :
    ∃ a t, step c s a = some t ∧ Quiet c n s a ∧ a.own = true := by
  have held := offering.held
  obtain ⟨rfl, rfl⟩ := offering.work
  cases pending : a'.pending with
  | nil =>
    by_cases few : a'.accepts < c.majority n
    · exact ⟨.finishAccept n, _, by simp only [step, held, if_pos pending, if_pos few]; rfl, rfl, rfl⟩
    · exact ⟨.finishAccept n, _, by simp only [step, held, if_pos pending, if_neg few]; rfl, rfl, rfl⟩
  | cons q rest =>
    have inside : q ∈ a'.pending := pending ▸ List.mem_cons_self
    have member := offering.peers q inside
    have sent := offering.sent q member
    by_cases undelivered : q ∈ peers
    · have called := (inv_reachable c meaning faithful s offering.reachable).choice.called _ sent
      rw [offering.calls] at called
      obtain ⟨r, carried⟩ := carries n q a'.proposal called
      obtain ⟨w, arrives⟩ := Option.isSome_iff_exists.mp carried
      refine ⟨.deliverAccept ⟨n, q, a'.slot, a'.ballot, a'.proposal⟩ r,
        s.answerAccept ⟨n, q, a'.slot, a'.ballot, a'.proposal⟩ w, ?_, ⟨rfl, ⟨_, held, rfl⟩, ?_⟩, rfl⟩
      · simp only [step, if_pos sent, arrives, Option.map_some]
      · rintro ⟨sender, target, slot, ballot, reply⟩ known from_ to_ at_ same
        cases from_
        cases to_
        cases at_
        cases same
        exact offering.silent q undelivered reply known
    · obtain ⟨reply, known⟩ := (offering.answered q member undelivered).1
      exact ⟨.recvAck n q reply, _, by simp only [step, held]; exact if_pos ⟨inside, known⟩, rfl, rfl⟩

theorem Offering.offer (faithful : Faithful c meaning) (offering : Offering c n u call slot b a' peers s) {q : R}
    {w v : V} (taken : step c s a = some (s.answerAccept ⟨n, q, slot, b, w⟩ v)) (inside : q ∈ peers) :
    Offering c n u call slot b a' (peers.erase q) (s.answerAccept ⟨n, q, slot, b, w⟩ v) := by
  have member := offering.peers q (offering.undelivered q inside)
  refine { offering with
    toFrame := offering.toFrame.keep faithful taken rfl rfl ?_
    undelivered := fun k still => offering.undelivered k (Finset.mem_of_mem_erase still)
    promised := ?_
    silent := ?_
    answered := ?_ }
  · intro k i apart
    rw [answerAccept_acceptor, if_neg fun at_ => apart at_.2.1]
  · intro k member grants
    rw [answerAccept_acceptor]
    split
    · rfl
    · exact offering.promised k member grants
  · intro k still reply known
    obtain ⟨other, earlier⟩ := Finset.mem_erase.mp still
    rcases List.mem_cons.mp known with new | old
    · cases new
      exact other rfl
    · exact offering.silent k earlier reply old
  · intro k member outside
    by_cases same : k = q
    · subst same
      refine ⟨⟨_, List.mem_cons_self⟩, fun reply known grants => ?_⟩
      rcases List.mem_cons.mp known with new | old
      · cases new
        simp only [Acceptor.accept]
        rw [if_pos (offering.promised k member grants).le]
      · exact absurd old (offering.silent k inside reply)
    · have earlier : k ∉ peers := fun still => outside (Finset.mem_erase.mpr ⟨same, still⟩)
      obtain ⟨⟨reply, known⟩, all⟩ := offering.answered k member earlier
      refine ⟨⟨reply, List.mem_cons_of_mem _ known⟩, fun reply known grants => ?_⟩
      rcases List.mem_cons.mp known with new | old
      · cases new
        exact absurd rfl same
      · exact all reply old grants

theorem Offering.recvAck (faithful : Faithful c meaning) (offering : Offering c n u call slot b a' peers s) {q : R}
    {reply : AcceptReply} (taken : step c s a = some
      (s.setActive n (some { call with phase := .accepting (a'.collect q reply) })))
    (waited : q ∈ a'.pending) (known : (⟨q, n, slot, b, reply⟩ : AckMsg R) ∈ s.acks) :
    Offering c n u call slot b (a'.collect q reply) peers
      (s.setActive n (some { call with phase := .accepting (a'.collect q reply) })) := by
  obtain ⟨sameSlot, sameBallot, sameProposal, pending, accepts⟩ := a'.collect_eq q reply
  have member := offering.peers q waited
  have delivered : q ∉ peers := fun still => offering.silent q still reply known
  have accepted := (offering.answered q member delivered).2 reply known
  obtain ⟨grown, fresh⟩ := heard_erase c offering.distinct member waited
  refine { offering with
    toFrame := offering.toFrame.keep faithful taken rfl rfl fun _ _ _ => rfl
    held := Function.update_self ..
    work := ⟨sameSlot.trans offering.work.1, sameBallot.trans offering.work.2⟩
    proposes := fun unvoted => sameProposal.trans (offering.proposes unvoted)
    distinct := pending ▸ offering.distinct.erase q
    peers := fun k inside => offering.peers k (List.mem_of_mem_erase (pending ▸ inside))
    undelivered := ?_
    sent := sameProposal ▸ offering.sent
    accepts := ?_ }
  · intro k still
    have apart : k ≠ q := fun same => delivered (same ▸ still)
    rw [pending]
    exact (List.mem_erase_of_ne apart).mpr (offering.undelivered k still)
  · have counted := offering.accepts
    rw [accepts, pending, grown, Finset.filter_insert]
    by_cases grants : Grants u.acceptor slot b q
    · rw [if_pos grants, Finset.card_insert_of_notMem fun inside => fresh (Finset.mem_filter.mp inside).1,
        accepted grants, if_pos rfl]
      omega
    · rw [if_neg grants]
      omega

theorem Offering.announce (faithful : Faithful c meaning) (offering : Offering c n u call slot b a' peers s)
    (taken : step c s a = some (s.announce c n { call with phase := .accepting a' } a')) :
    Choosing c n u call slot a'.proposal (s.announce c n { call with phase := .accepting a' } a') := by
  obtain ⟨rfl, rfl⟩ := offering.work
  exact { offering with
    toFrame := offering.toFrame.keep faithful taken rfl rfl fun _ _ _ => rfl
    held := Function.update_self .. }

theorem Offering.move (faithful : Faithful c meaning) (offering : Offering c n u call slot b a' peers s)
    (wins : Wins c u.acceptor slot b) (taken : step c s a = some t) (quiet : Quiet c n s a) :
    (∃ proposal, Choosing c n u call slot proposal t) ∨
    ∃ next peers', Offering c n u call slot b next peers' t ∧
      (next.pending.length + peers'.card < a'.pending.length + peers.card ∨
        next.pending.length + peers'.card = a'.pending.length + peers.card ∧ t.unlearnt < s.unlearnt) := by
  have held := offering.held
  cases move_of_step taken quiet with
  | offer m v call' next held' phase sent sender at_ ballot silent =>
    rw [held] at held'
    cases held'
    cases phase
    obtain ⟨m_sender, q, m_slot, m_ballot, w⟩ := m
    obtain ⟨rfl, rfl⟩ := offering.work
    cases sender
    cases at_
    cases ballot
    have member := (inv_reachable c meaning faithful s offering.reachable).votes.offered _ sent
    have inside : q ∈ peers := by
      by_contra outside
      obtain ⟨reply, known⟩ := (offering.answered q member outside).1
      exact silent reply known
    refine Or.inr ⟨a', peers.erase q, offering.offer faithful taken inside, Or.inl ?_⟩
    have fewer := Finset.card_erase_lt_of_mem inside
    omega
  | recvAck q reply call' next held' phase waited known =>
    rw [held] at held'
    cases held'
    cases phase
    obtain ⟨rfl, rfl⟩ := offering.work
    refine Or.inr ⟨_, peers, offering.recvAck faithful taken waited known, Or.inl ?_⟩
    have fewer := List.length_pos_of_mem waited
    rw [(a'.collect_eq q reply).2.2.2.1, List.length_erase_of_mem waited]
    omega
  | loseAccept call' next held' phase done few =>
    -- whoever has promised the ballot has accepted the value
    rw [held] at held'
    cases held'
    cases phase
    have counted := offering.accepts
    rw [done, heard_nil] at counted
    rw [c.majority_eq] at few
    exact absurd (wins.trans counted) (not_le.mpr few)
  | announce call' next held' phase done enough =>
    rw [held] at held'
    cases held'
    cases phase
    exact Or.inl ⟨_, offering.announce faithful taken⟩
  | learn m v sent missing =>
    refine Or.inr ⟨a', peers, { offering with
      toFrame := offering.toFrame.keep faithful taken rfl rfl fun _ _ _ => rfl }, Or.inr ⟨rfl, ?_⟩⟩
    exact unlearnt_learn v sent missing
  | attempt _ held' phase' | giveUp _ held' phase' | ask _ _ _ _ held' phase' | recvPromise _ _ _ _ held' phase'
  | losePrepare _ _ held' phase' | propose _ _ held' phase' | commit _ _ _ held' phase' =>
    exact other_phase held held' phase' nofun

theorem Choosing.enabled {proposal : V} (choosing : Choosing c n u call slot proposal s) :
    ∃ a t, step c s a = some t ∧ Quiet c n s a ∧ a.own = true :=
  ⟨.commit n, _, by simp only [step, choosing.held]; rfl, rfl, rfl⟩

theorem Choosing.move (faithful : Faithful c meaning) {proposal : V}
    (choosing : Choosing c n u call slot proposal s) (taken : step c s a = some t) (quiet : Quiet c n s a) :
    Won c n u call slot proposal t ∨ Choosing c n u call slot proposal t ∧ t.unlearnt < s.unlearnt := by
  have held := choosing.held
  cases move_of_step taken quiet with
  | commit call' at_ value held' phase =>
    rw [held] at held'
    cases held'
    cases phase
    refine Or.inl { choosing with
      toFrame := choosing.toFrame.keep faithful taken rfl rfl fun _ _ _ => rfl
      slotRecorded := ?_
      ended := ?_ }
    · simp only [State.commitLocal, Function.update_self]
      exact Log.commit_recorded c.apply _ _ _
    · simp only [State.commitLocal, Function.update_self]
      split
      · exact ⟨rfl, by rw [choosing.returned]⟩
      · exact ⟨rfl, choosing.returned⟩
  | learn m v sent missing =>
    exact Or.inr ⟨{ choosing with
      toFrame := choosing.toFrame.keep faithful taken rfl rfl fun _ _ _ => rfl }, unlearnt_learn v sent missing⟩
  | attempt _ held' phase' | giveUp _ held' phase' | ask _ _ _ _ held' phase' | recvPromise _ _ _ _ held' phase'
  | losePrepare _ _ held' phase' | propose _ _ held' phase' | offer _ _ _ _ held' phase'
  | recvAck _ _ _ _ held' phase' | loseAccept _ _ held' phase' | announce _ _ held' phase' =>
    exact other_phase held held' phase' nofun

end Phase2

section Ends

/-- Whatever the transitions are, while `n` has a call they are those of the quiet network. -/
structure Alone (c : Cluster R V σ ρ) (n : R) (ok : State R V σ → Action R V ρ → State R V σ → Prop) : Prop where
  busy : ∀ s a t, step c s a = some t → ok s a t → s.active n ≠ none → Quiet c n s a
  own : ∀ s a t, step c s a = some t → Quiet c n s a → a.own = true → ok s a t

variable {ok : State R V σ → Action R V ρ → State R V σ → Prop} (alone : Alone c n ok)

include alone

private theorem Alone.enabled (enabled : ∃ a t, step c s a = some t ∧ Quiet c n s a ∧ a.own = true) :
    ∃ a t, step c s a = some t ∧ ok s a t := by
  obtain ⟨a, t, taken, quiet, own⟩ := enabled
  exact ⟨a, t, taken, alone.own s a t taken quiet own⟩

private theorem Alone.of_held (held : s.active n = some call) (taken : step c s a = some t) (allowed : ok s a t) :
    Quiet c n s a :=
  alone.busy s a t taken allowed (by rw [held]; exact Option.some_ne_none call)

-- what is kept along an attempt on `slot`, whose call commits only there and only after winning
variable {keeps : State R V σ → Prop} (kept : ∀ s a t call, keeps s → s.active n = some call →
  (∀ i w, call.phase = .committing i w → i = slot ∧ Wins c u.acceptor slot b) → step c s a = some t → ok s a t →
  keeps t)

include kept

theorem Asking.ends (faithful : Faithful c meaning) (carries : Carries c meaning u) (start : Reachable c u)
    (room : ∀ k ∈ c.replicas, u.round k + 1 < 2 ^ 56) {p : Preparing R V} {peers : Finset R}
    (asking : Asking c n u call slot b p peers s) (first : keeps s) :
    Lib.Inevitable (step c) ok (fun t => keeps t ∧
      (Wins c u.acceptor slot b ∧ (∃ a, Offering c n u call slot b a c.replicas.toFinset t) ∨
      ¬Wins c u.acceptor slot b ∧ Lost c n u call slot b t)) s := by
  refine Lib.Inevitable.of_rank (fun k l t => keeps t ∧
    ∃ p peers, Asking c n u call slot b p peers t ∧ k = p.pending.length + peers.card ∧ l = t.unlearnt)
    (fun _ _ _ ⟨_, _, _, asking, _⟩ => alone.enabled (asking.enabled faithful carries)) ?_ _ _ s
    ⟨first, p, peers, asking, rfl, rfl⟩
  rintro _ _ t a t' ⟨still, p, peers, asking, rfl, rfl⟩ taken allowed
  have quiet := alone.of_held asking.held taken allowed
  have next := kept t a t' _ still asking.held (by intro i w at_; cases at_) taken allowed
  refine (asking.move faithful start room taken quiet).imp (⟨next, ·⟩) ?_
  rintro ⟨p', peers', asking', less⟩
  exact ⟨_, _, ⟨next, p', peers', asking', rfl, rfl⟩, less⟩

theorem Offering.ends (faithful : Faithful c meaning) (carries : Carries c meaning u)
    (wins : Wins c u.acceptor slot b) {a' : Accepting R V} {peers : Finset R}
    (offering : Offering c n u call slot b a' peers s) (first : keeps s) :
    Lib.Inevitable (step c) ok (fun t => keeps t ∧ ∃ proposal, Choosing c n u call slot proposal t) s := by
  refine Lib.Inevitable.of_rank (fun k l t => keeps t ∧
    ∃ a peers, Offering c n u call slot b a peers t ∧ k = a.pending.length + peers.card ∧ l = t.unlearnt)
    (fun _ _ _ ⟨_, _, _, offering, _⟩ => alone.enabled (offering.enabled faithful carries)) ?_ _ _ s
    ⟨first, a', peers, offering, rfl, rfl⟩
  rintro _ _ t a t' ⟨still, a', peers, offering, rfl, rfl⟩ taken allowed
  have quiet := alone.of_held offering.held taken allowed
  have next := kept t a t' _ still offering.held (by intro i w at_; cases at_) taken allowed
  refine (offering.move faithful wins taken quiet).imp (⟨next, ·⟩) ?_
  rintro ⟨a'', peers', offering', less⟩
  exact ⟨_, _, ⟨next, a'', peers', offering', rfl, rfl⟩, less⟩

theorem Choosing.ends (faithful : Faithful c meaning) (wins : Wins c u.acceptor slot b) {proposal : V}
    (choosing : Choosing c n u call slot proposal s) (first : keeps s) :
    Lib.Inevitable (step c) ok (fun t => keeps t ∧ Won c n u call slot proposal t) s := by
  refine Lib.Inevitable.of_rank
    (fun k l t => keeps t ∧ Choosing c n u call slot proposal t ∧ k = 0 ∧ l = t.unlearnt)
    (fun _ _ _ holds => alone.enabled holds.2.1.enabled) ?_ 0 _ s ⟨first, choosing, rfl, rfl⟩
  rintro _ _ t a t' ⟨still, choosing, rfl, rfl⟩ taken allowed
  have quiet := alone.of_held choosing.held taken allowed
  have next : keeps t' := by
    refine kept t a t' _ still choosing.held ?_ taken allowed
    intro i w at_
    cases at_
    exact ⟨rfl, wins⟩
  rcases choosing.move faithful taken quiet with won | ⟨waits, less⟩
  · exact Or.inl ⟨next, won⟩
  · exact Or.inr ⟨0, _, ⟨next, waits, rfl, rfl⟩, Or.inr ⟨rfl, less⟩⟩

/-- An attempt gets a value chosen if a majority promises its ballot, and else has its round caught up. -/
theorem attempt_ends (faithful : Faithful c meaning) (carries : Carries c meaning u) (run : Reachable c u)
    (held : u.active n = some call) (room : ∀ k ∈ c.replicas, u.round k + 1 < 2 ^ 56)
    (work : (u.log n).firstUnchosen = slot) (ballot : makeBallot (u.round n + 1) (c.idx n) = b)
    (taken : step c u a = some (u.attempt c n call)) (first : keeps (u.attempt c n call)) :
    Lib.Inevitable (step c) ok (fun t => keeps t ∧
      (Wins c u.acceptor slot b ∧ (∃ proposal, Won c n u call slot proposal t) ∨
      ¬Wins c u.acceptor slot b ∧ Lost c n u call slot b t)) (u.attempt c n call) := by
  have member := (inv_reachable c meaning faithful u run).ballots.members n call held
  have asking := asking_attempt faithful run held (room n member) work ballot taken
  refine (asking.ends alone kept faithful carries run room first).bind ?_
  rintro t ⟨still, ⟨wins, a', offering⟩ | lost⟩
  · refine (offering.ends alone kept faithful carries wins still).bind ?_
    rintro t' ⟨still, proposal, choosing⟩
    refine (choosing.ends alone kept faithful wins still).bind ?_
    rintro _ ⟨still, won⟩
    exact .now ⟨still, Or.inl ⟨wins, proposal, won⟩⟩
  · exact .now ⟨still, Or.inr lost⟩

end Ends

end PrefixMesh.Paxos
