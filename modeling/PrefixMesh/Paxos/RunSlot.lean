import PrefixMesh.Paxos.Recorded

/-! `runSlot` as one call, over whatever comes back from the peers. The calls of a node
follow each other under `submitMu`, and they are the only ones to move its round counter.
The transition system interleaves the calls of all nodes, and restricts the results to
what acceptors answer; what a node does in it is a sequence of these calls. -/

namespace PrefixMesh.Paxos

variable {R V σ ρ : Type} [LinearOrder R]

/-- A call with the results that come out of its two channels, in that order; `none` is an error. -/
structure SlotCall (R V : Type) where
  slot : Nat
  value : V
  prepares : List (R × Option (PrepareReply V))
  accepts : List (R × Option AcceptReply)

/-- `ErrSubmitFailed` after either phase, or the chosen value. -/
inductive SlotEnd (V : Type) where
  | unpromised
  | unaccepted
  | chosen (proposal : V)
  deriving DecidableEq

/-- The ballot of a call, the round counter after it and what it returns. -/
structure SlotRun (V : Type) where
  ballot : Nat
  round : Nat
  result : SlotEnd V
  deriving DecidableEq

def Preparing.read (p : Preparing R V) : R × Option (PrepareReply V) → Preparing R V
  | (peer, some reply) => p.collect peer reply
  | (peer, none) => { p with pending := p.pending.erase peer }

def Accepting.read (a : Accepting R V) : R × Option AcceptReply → Accepting R V
  | (peer, some reply) => a.collect peer reply
  | (peer, none) => { a with pending := a.pending.erase peer }

def SlotCall.prepared (call : SlotCall R V) (ballot : Nat) (peers : List R) : Preparing R V :=
  call.prepares.foldl Preparing.read ⟨call.slot, ballot, peers, 0, none, 0, 0⟩

def SlotCall.accepted (call : SlotCall R V) (ballot : Nat) (peers : List R) : Accepting R V :=
  call.accepts.foldl Accepting.read
    ⟨call.slot, ballot, (call.prepared ballot peers).adopted.getD call.value, peers, 0, 0⟩

def Cluster.runSlot (c : Cluster R V σ ρ) (n : R) (counter : Nat) (call : SlotCall R V) : SlotRun V :=
  let round := (counter + 1) % 2 ^ 64
  let ballot := makeBallot round (c.idx n)
  let p := call.prepared ballot (c.lists n)
  if p.promises < c.majority n then ⟨ballot, catchUpRound round p.maxPromised, .unpromised⟩
  else
    let a := call.accepted ballot (c.lists n)
    if a.accepts < c.majority n then ⟨ballot, catchUpRound round a.maxPromised, .unaccepted⟩
    else ⟨ballot, round, .chosen a.proposal⟩

def Cluster.slotRuns (c : Cluster R V σ ρ) (n : R) : Nat → List (SlotCall R V) → List (SlotCall R V × SlotRun V)
  | _, [] => []
  | counter, call :: later =>
      (call, c.runSlot n counter call) :: c.slotRuns n (c.runSlot n counter call).round later

def PrepareReply.rejection (reply : PrepareReply V) : Option Nat :=
  if reply.promised then none else some reply.promisedBallot

def AcceptReply.rejection (reply : AcceptReply) : Option Nat :=
  if reply.accepted then none else some reply.promisedBallot

/-- The ballots that peers reported when they rejected the phase that failed. -/
def SlotCall.rejections (call : SlotCall R V) : SlotEnd V → List Nat
  | .unpromised => call.prepares.filterMap fun result => result.2.bind PrepareReply.rejection
  | .unaccepted => call.accepts.filterMap fun result => result.2.bind AcceptReply.rejection
  | .chosen _ => []

theorem Preparing.read_rejection [DecidableEq V] (p : Preparing R V) (result : R × Option (PrepareReply V)) :
    p.maxPromised ≤ (p.read result).maxPromised ∧
    ∀ b, result.2.bind PrepareReply.rejection = some b → b ≤ (p.read result).maxPromised := by
  obtain ⟨peer, reply⟩ := result
  cases reply with
  | none =>
    refine ⟨le_rfl, ?_⟩
    intro b reported
    cases reported
  | some reply =>
    rw [Preparing.read, (p.collect_counts peer reply).2]
    refine ⟨le_max_left _ _, ?_⟩
    intro b reported
    obtain ⟨rejected, same⟩ := Option.ite_none_left_eq_some.mp reported
    cases same
    rw [if_neg rejected]
    exact le_max_right _ _

theorem Accepting.read_rejection [DecidableEq V] (a : Accepting R V) (result : R × Option AcceptReply) :
    a.maxPromised ≤ (a.read result).maxPromised ∧
    ∀ b, result.2.bind AcceptReply.rejection = some b → b ≤ (a.read result).maxPromised := by
  obtain ⟨peer, reply⟩ := result
  cases reply with
  | none =>
    refine ⟨le_rfl, ?_⟩
    intro b reported
    cases reported
  | some reply =>
    rw [Accepting.read, a.collect_maxPromised peer reply]
    refine ⟨le_max_left _ _, ?_⟩
    intro b reported
    obtain ⟨rejected, same⟩ := Option.ite_none_left_eq_some.mp reported
    cases same
    rw [if_neg rejected]
    exact le_max_right _ _

private theorem foldl_highest {S X : Type} (read : S → X → S) (highest : S → Nat) (report : X → Option Nat)
    (kept : ∀ s x, highest s ≤ highest (read s x) ∧ ∀ b, report x = some b → b ≤ highest (read s x))
    (s : S) (results : List X) :
    highest s ≤ highest (results.foldl read s) ∧
    ∀ b ∈ results.filterMap report, b ≤ highest (results.foldl read s) := by
  induction results generalizing s with
  | nil =>
    refine ⟨le_rfl, ?_⟩
    intro b member
    cases member
  | cons x rest ih =>
    obtain ⟨grows, reported⟩ := kept s x
    obtain ⟨later, others⟩ := ih (read s x)
    refine ⟨grows.trans later, ?_⟩
    intro b member
    obtain ⟨y, listed, given⟩ := List.mem_filterMap.mp member
    rcases List.mem_cons.mp listed with rfl | listed
    · exact (reported b given).trans later
    · exact others b (List.mem_filterMap.mpr ⟨y, listed, given⟩)

theorem SlotCall.prepared_rejection [DecidableEq V] (call : SlotCall R V) (ballot : Nat) (peers : List R) :
    ∀ b ∈ call.rejections .unpromised, b ≤ (call.prepared ballot peers).maxPromised :=
  (foldl_highest Preparing.read Preparing.maxPromised _ Preparing.read_rejection _ _).2

theorem SlotCall.accepted_rejection [DecidableEq V] (call : SlotCall R V) (ballot : Nat) (peers : List R) :
    ∀ b ∈ call.rejections .unaccepted, b ≤ (call.accepted ballot peers).maxPromised :=
  (foldl_highest Accepting.read Accepting.maxPromised _ Accepting.read_rejection _ _).2

theorem Cluster.runSlot_ballot (c : Cluster R V σ ρ) (n : R) (counter : Nat) (call : SlotCall R V) :
    (c.runSlot n counter call).ballot = makeBallot ((counter + 1) % 2 ^ 64) (c.idx n) := by
  unfold Cluster.runSlot
  dsimp only
  split
  · rfl
  · split
    · rfl
    · rfl

/-- After a call the counter has passed its round and the round of every ballot that beat it. -/
theorem Cluster.runSlot_round [DecidableEq V] (c : Cluster R V σ ρ) (n : R) (counter : Nat) (call : SlotCall R V) :
    (counter + 1) % 2 ^ 64 ≤ (c.runSlot n counter call).round ∧
    ∀ b ∈ call.rejections (c.runSlot n counter call).result,
      Ballot.round b ≤ (c.runSlot n counter call).round := by
  unfold Cluster.runSlot
  dsimp only
  split
  · refine ⟨catchUpRound_ge _ _, ?_⟩
    intro b reported
    exact (Ballot.round_le (call.prepared_rejection _ _ b reported)).trans (catchUpRound_target _ _)
  · split
    · refine ⟨catchUpRound_ge _ _, ?_⟩
      intro b reported
      exact (Ballot.round_le (call.accepted_rejection _ _ b reported)).trans (catchUpRound_target _ _)
    · refine ⟨le_rfl, ?_⟩
      intro b reported
      cases reported

def Cluster.RunsBelow (c : Cluster R V σ ρ) (n : R) (counter : Nat) (calls : List (SlotCall R V)) : Prop :=
  ∀ run ∈ c.slotRuns n counter calls, run.2.round < 2 ^ 56

theorem Cluster.RunsBelow.cons {c : Cluster R V σ ρ} {n : R} {counter : Nat} {call : SlotCall R V}
    {later : List (SlotCall R V)} (below : c.RunsBelow n counter (call :: later)) :
    (c.runSlot n counter call).round < 2 ^ 56 ∧ c.RunsBelow n (c.runSlot n counter call).round later :=
  ⟨below _ List.mem_cons_self, fun run member => below run (List.mem_cons_of_mem _ member)⟩

theorem Cluster.slotRuns_ballot [DecidableEq V] {c : Cluster R V σ ρ} {n : R} {counter : Nat}
    {calls : List (SlotCall R V)} (start : counter < 2 ^ 56) (below : c.RunsBelow n counter calls) :
    ∀ run ∈ c.slotRuns n counter calls,
      ∃ round, counter < round ∧ round ≤ run.2.round ∧ run.2.ballot = makeBallot round (c.idx n) := by
  induction calls generalizing counter with
  | nil =>
    intro run member
    cases member
  | cons call later ih =>
    obtain ⟨small, rest⟩ := below.cons
    have next : (counter + 1) % 2 ^ 64 = counter + 1 := Nat.mod_eq_of_lt (by omega)
    have passed := (c.runSlot_round n counter call).1
    rw [next] at passed
    intro run member
    rcases List.mem_cons.mp member with rfl | member
    · exact ⟨counter + 1, Nat.lt_succ_self counter, passed, next ▸ c.runSlot_ballot n counter call⟩
    · obtain ⟨round, ahead, reached, ballot⟩ := ih small rest run member
      exact ⟨round, by omega, reached, ballot⟩

theorem Cluster.slotRuns_pairwise [DecidableEq V] {c : Cluster R V σ ρ} {n : R} {counter : Nat}
    {calls : List (SlotCall R V)} (start : counter < 2 ^ 56) (below : c.RunsBelow n counter calls) :
    (c.slotRuns n counter calls).Pairwise fun earlier later =>
      earlier.2.ballot < later.2.ballot ∧ ∀ b ∈ earlier.1.rejections earlier.2.result, b < later.2.ballot := by
  induction calls generalizing counter with
  | nil => exact .nil
  | cons call later ih =>
    obtain ⟨small, rest⟩ := below.cons
    refine List.Pairwise.cons ?_ (ih small rest)
    intro run member
    obtain ⟨round, ahead, reached, ballot⟩ := Cluster.slotRuns_ballot small rest run member
    have bound : run.2.round < 2 ^ 56 := rest run member
    have byte := c.idx_lt n
    obtain ⟨own, passed⟩ := c.runSlot_round n counter call
    rw [ballot, makeBallot_eq round _ (by omega) byte]
    refine ⟨?_, ?_⟩
    · rw [c.runSlot_ballot, makeBallot_eq _ _ (by omega) byte]
      omega
    · intro b reported
      have beaten := passed b reported
      have near := Ballot.lt_round_succ b
      omega

/-- For every cluster of at most 256 replicas, and whatever the peers report. -/
theorem slot_ballots [DecidableEq V] (c : Cluster R V σ ρ) :
    (∀ n calls, c.RunsBelow n 0 calls → (c.slotRuns n 0 calls).Pairwise fun earlier later =>
      earlier.2.ballot < later.2.ballot ∧ ∀ b ∈ earlier.1.rejections earlier.2.result, b < later.2.ballot) ∧
    ∀ n ∈ c.replicas, ∀ m ∈ c.replicas, n ≠ m → ∀ calls calls', c.RunsBelow n 0 calls → c.RunsBelow m 0 calls' →
      ∀ run ∈ c.slotRuns n 0 calls, ∀ run' ∈ c.slotRuns m 0 calls', run.2.ballot ≠ run'.2.ballot := by
  have start : 0 < 2 ^ 56 := Nat.two_pow_pos 56
  refine ⟨fun n calls below => Cluster.slotRuns_pairwise start below, ?_⟩
  intro n member m member' different calls calls' below below' run listed run' listed' same
  obtain ⟨round, _, reached, ballot⟩ := Cluster.slotRuns_ballot start below run listed
  obtain ⟨round', _, reached', ballot'⟩ := Cluster.slotRuns_ballot start below' run' listed'
  have small : run.2.round < 2 ^ 56 := below run listed
  have small' : run'.2.round < 2 ^ 56 := below' run' listed'
  rw [ballot, ballot'] at same
  have indices := (makeBallot_injective (by omega) (by omega) (c.idx_lt n) (c.idx_lt m) same).2
  exact different (c.idx_injective member member' indices)

/-- Two of three peers have promised round 5 to the second replica, so the next call goes to round 6. -/
theorem slot_ballots_rejected :
    let calls : List (SlotCall (Fin 3) Nat) :=
      [⟨0, 7, [(0, some ⟨true, 0, none, 256⟩), (1, some ⟨false, 0, none, 1281⟩), (2, some ⟨false, 0, none, 1281⟩)],
        []⟩, ⟨0, 7, [], []⟩]
    ((threeReplicas.slotRuns 0 0 calls).map fun run => (run.2.ballot, run.1.rejections run.2.result)) =
      [(256, [1281, 1281]), (1536, [])] ∧
    (threeReplicas.slotRuns 0 0 calls).Pairwise fun earlier later =>
      earlier.2.ballot < later.2.ballot ∧ ∀ b ∈ earlier.1.rejections earlier.2.result, b < later.2.ballot := by
  refine ⟨by decide +kernel, (slot_ballots threeReplicas).1 0 _ ?_⟩
  unfold Cluster.RunsBelow
  decide +kernel

def Cluster.counterAfter (c : Cluster R V σ ρ) (n : R) (calls : List (SlotCall R V)) : Nat :=
  calls.foldl (fun counter call => (c.runSlot n counter call).round) 0

def Cluster.ballots (c : Cluster R V σ ρ) (n : R) (calls : List (SlotCall R V)) : List Nat :=
  (c.slotRuns n 0 calls).map fun run => run.2.ballot

theorem Cluster.counterAfter_concat (c : Cluster R V σ ρ) (n : R) (calls : List (SlotCall R V))
    (call : SlotCall R V) :
    c.counterAfter n (calls ++ [call]) = (c.runSlot n (c.counterAfter n calls) call).round := by
  rw [Cluster.counterAfter, List.foldl_append]
  rfl

private theorem slotRuns_concat (c : Cluster R V σ ρ) (n : R) (counter : Nat) (calls : List (SlotCall R V))
    (call : SlotCall R V) :
    c.slotRuns n counter (calls ++ [call]) = c.slotRuns n counter calls ++
      [(call, c.runSlot n (calls.foldl (fun counter call => (c.runSlot n counter call).round) counter) call)] := by
  induction calls generalizing counter with
  | nil => rfl
  | cons first rest ih => simp only [List.cons_append, Cluster.slotRuns, ih, List.foldl_cons]

theorem Cluster.ballots_concat (c : Cluster R V σ ρ) (n : R) (calls : List (SlotCall R V)) (call : SlotCall R V) :
    c.ballots n (calls ++ [call]) =
      c.ballots n calls ++ [makeBallot ((c.counterAfter n calls + 1) % 2 ^ 64) (c.idx n)] := by
  rw [Cluster.ballots, slotRuns_concat, List.map_append, List.map_singleton, c.runSlot_ballot]
  rfl

def Phase.resting : Phase R V → Prop
  | .ready | .committing _ _ => True
  | .preparing _ | .accepting _ => False

/-- Where a node stands in a sequence of calls; the last one may be waiting for results. -/
inductive Cluster.Follows (c : Cluster R V σ ρ) (n : R) (calls : List (SlotCall R V)) (round : Nat)
    (active : Option (Call R V)) : Prop where
  | resting (counter : round = c.counterAfter n calls) (rest : ∀ running, active = some running →
      running.phase.resting)
  | preparing (earlier : List (SlotCall R V)) (call : SlotCall R V) (running : Call R V)
      (split : calls = earlier ++ [call]) (counter : round = (c.counterAfter n earlier + 1) % 2 ^ 64)
      (held : active = some running) (own : call.value = running.value) (fresh : call.accepts = [])
      (phase : running.phase = .preparing (call.prepared (makeBallot round (c.idx n)) (c.lists n)))
  | accepting (earlier : List (SlotCall R V)) (call : SlotCall R V) (running : Call R V)
      (split : calls = earlier ++ [call]) (counter : round = (c.counterAfter n earlier + 1) % 2 ^ 64)
      (held : active = some running)
      (enough : c.majority n ≤ (call.prepared (makeBallot round (c.idx n)) (c.lists n)).promises)
      (phase : running.phase = .accepting (call.accepted (makeBallot round (c.idx n)) (c.lists n)))

section Follows

variable {c : Cluster R V σ ρ} {n : R} {calls : List (SlotCall R V)} {round : Nat} {active : Option (Call R V)}
  {running : Call R V}

theorem Cluster.Follows.of_resting (follows : c.Follows n calls round active)
    (rest : ∀ running, active = some running → running.phase.resting) : round = c.counterAfter n calls := by
  cases follows with
  | resting counter => exact counter
  | preparing earlier call running split counter held own fresh phase =>
    have waits := rest running held
    rw [phase] at waits
    exact waits.elim
  | accepting earlier call running split counter held enough phase =>
    have waits := rest running held
    rw [phase] at waits
    exact waits.elim

theorem Cluster.Follows.of_preparing (follows : c.Follows n calls round (some running)) {p : Preparing R V}
    (here : running.phase = .preparing p) :
    ∃ earlier call, calls = earlier ++ [call] ∧ round = (c.counterAfter n earlier + 1) % 2 ^ 64 ∧
      call.value = running.value ∧ call.accepts = [] ∧
      p = call.prepared (makeBallot round (c.idx n)) (c.lists n) := by
  cases follows with
  | resting counter rest =>
    have waits := rest running rfl
    rw [here] at waits
    exact waits.elim
  | preparing earlier call other split counter held own fresh phase =>
    cases held
    rw [here] at phase
    cases phase
    exact ⟨earlier, call, split, counter, own, fresh, rfl⟩
  | accepting earlier call other split counter held enough phase =>
    cases held
    rw [here] at phase
    cases phase

theorem Cluster.Follows.of_accepting (follows : c.Follows n calls round (some running)) {a : Accepting R V}
    (here : running.phase = .accepting a) :
    ∃ earlier call, calls = earlier ++ [call] ∧ round = (c.counterAfter n earlier + 1) % 2 ^ 64 ∧
      c.majority n ≤ (call.prepared (makeBallot round (c.idx n)) (c.lists n)).promises ∧
      a = call.accepted (makeBallot round (c.idx n)) (c.lists n) := by
  cases follows with
  | resting counter rest =>
    have waits := rest running rfl
    rw [here] at waits
    exact waits.elim
  | preparing earlier call other split counter held own fresh phase =>
    cases held
    rw [here] at phase
    cases phase
  | accepting earlier call other split counter held enough phase =>
    cases held
    rw [here] at phase
    cases phase
    exact ⟨earlier, call, split, counter, enough, rfl⟩

theorem Cluster.Follows.readPrepare (follows : c.Follows n calls round (some running)) {p : Preparing R V}
    (here : running.phase = .preparing p) (result : R × Option (PrepareReply V)) :
    ∃ calls', c.Follows n calls' round (some { running with phase := .preparing (p.read result) }) ∧
      c.ballots n calls' = c.ballots n calls := by
  obtain ⟨earlier, call, rfl, counter, own, fresh, rfl⟩ := follows.of_preparing here
  refine ⟨earlier ++ [{ call with prepares := call.prepares ++ [result] }],
    .preparing earlier _ _ rfl counter rfl own fresh ?_, ?_⟩
  · simp only [SlotCall.prepared, List.foldl_append, List.foldl_cons, List.foldl_nil]
  · rw [c.ballots_concat, c.ballots_concat]

theorem Cluster.Follows.readAccept (follows : c.Follows n calls round (some running)) {a : Accepting R V}
    (here : running.phase = .accepting a) (result : R × Option AcceptReply) :
    ∃ calls', c.Follows n calls' round (some { running with phase := .accepting (a.read result) }) ∧
      c.ballots n calls' = c.ballots n calls := by
  obtain ⟨earlier, call, rfl, counter, enough, rfl⟩ := follows.of_accepting here
  refine ⟨earlier ++ [{ call with accepts := call.accepts ++ [result] }],
    .accepting earlier _ _ rfl counter rfl enough ?_, ?_⟩
  · simp only [SlotCall.accepted, SlotCall.prepared, List.foldl_append, List.foldl_cons, List.foldl_nil]
  · rw [c.ballots_concat, c.ballots_concat]

theorem Cluster.Follows.unpromised (follows : c.Follows n calls round (some running)) {p : Preparing R V}
    (here : running.phase = .preparing p) (few : p.promises < c.majority n) :
    catchUpRound round p.maxPromised = c.counterAfter n calls := by
  obtain ⟨earlier, call, rfl, rfl, own, fresh, rfl⟩ := follows.of_preparing here
  rw [c.counterAfter_concat, Cluster.runSlot, if_pos few]

theorem Cluster.Follows.unaccepted (follows : c.Follows n calls round (some running)) {a : Accepting R V}
    (here : running.phase = .accepting a) (few : a.accepts < c.majority n) :
    catchUpRound round a.maxPromised = c.counterAfter n calls := by
  obtain ⟨earlier, call, rfl, rfl, enough, rfl⟩ := follows.of_accepting here
  rw [c.counterAfter_concat, Cluster.runSlot, if_neg (not_lt.mpr enough), if_pos few]

theorem Cluster.Follows.chosen (follows : c.Follows n calls round (some running)) {a : Accepting R V}
    (here : running.phase = .accepting a) (many : c.majority n ≤ a.accepts) : round = c.counterAfter n calls := by
  obtain ⟨earlier, call, rfl, rfl, enough, rfl⟩ := follows.of_accepting here
  rw [c.counterAfter_concat, Cluster.runSlot, if_neg (not_lt.mpr enough), if_neg (not_lt.mpr many)]

theorem SlotCall.prepared_eq [DecidableEq V] (call : SlotCall R V) (ballot : Nat) (peers : List R) :
    (call.prepared ballot peers).slot = call.slot ∧ (call.prepared ballot peers).ballot = ballot := by
  have kept : ∀ (results : List (R × Option (PrepareReply V))) (p : Preparing R V),
      (results.foldl Preparing.read p).slot = p.slot ∧ (results.foldl Preparing.read p).ballot = p.ballot := by
    intro results
    induction results with
    | nil => exact fun p => ⟨rfl, rfl⟩
    | cons result rest ih =>
      intro p
      obtain ⟨slot, ballot⟩ := ih (p.read result)
      obtain ⟨peer, reply⟩ := result
      cases reply with
      | none => exact ⟨slot, ballot⟩
      | some reply =>
        obtain ⟨same, same', _⟩ := p.collect_eq peer reply
        exact ⟨slot.trans same, ballot.trans same'⟩
  exact kept call.prepares _

theorem Cluster.Follows.propose [DecidableEq V] (follows : c.Follows n calls round (some running)) {p : Preparing R V}
    (here : running.phase = .preparing p) (enough : c.majority n ≤ p.promises) :
    c.Follows n calls round (some { running with
      phase := .accepting ⟨p.slot, p.ballot, p.adopted.getD running.value, c.lists n, 0, 0⟩ }) := by
  obtain ⟨earlier, call, rfl, counter, own, fresh, rfl⟩ := follows.of_preparing here
  refine .accepting earlier call _ rfl counter rfl enough ?_
  obtain ⟨slot, ballot⟩ := call.prepared_eq (makeBallot round (c.idx n)) (c.lists n)
  rw [SlotCall.accepted, fresh, slot, ballot, own]
  rfl

end Follows

/-- Node `n` has made a sequence of calls, and sent its `Prepare`s at their ballots. -/
def Traced (c : Cluster R V σ ρ) (n : R) (s : State R V σ) : Prop :=
  ∃ calls, c.Follows n calls (s.round n) (s.active n) ∧
    ∀ m ∈ s.prepares, m.sender = n → m.ballot ∈ c.ballots n calls

theorem Traced.setActive {c : Cluster R V σ ρ} {n : R} {s : State R V σ} {calls : List (SlotCall R V)}
    {next : Option (Call R V)} (follows : c.Follows n calls (s.round n) next)
    (sent : ∀ m ∈ s.prepares, m.sender = n → m.ballot ∈ c.ballots n calls) : Traced c n (s.setActive n next) := by
  refine ⟨calls, ?_, sent⟩
  simp only [State.setActive, Function.update_self]
  exact follows

theorem traced_step [DecidableEq V] {c : Cluster R V σ ρ} {n : R} {s t : State R V σ} {a : Action R V ρ}
    (traced : Traced c n s) (effect : Effect c s a t) : Traced c n t := by
  obtain ⟨calls, follows, sent⟩ := traced
  -- a node that only finds messages added by others is where it was
  have untouched : t.round n = s.round n → t.active n = s.active n →
      (∀ m ∈ t.prepares, m.sender = n → m ∈ s.prepares) → Traced c n t := by
    intro round active prepares
    refine ⟨calls, ?_, fun m member own => sent m (prepares m member own) own⟩
    rw [round, active]
    exact follows
  cases effect with
  | acquire k id v free _ =>
    by_cases same : n = k
    · subst same
      refine ⟨calls, .resting (follows.of_resting ?_) ?_, sent⟩
      · intro running held
        rw [free] at held
        cases held
      · intro running held
        simp only [State.acquire, Function.update_self, Option.some.injEq] at held
        cases held
        trivial
    · exact untouched rfl (Function.update_of_ne same _ _) (fun _ member _ => member)
  | giveUp k call held phase =>
    by_cases same : n = k
    · subst same
      refine .setActive (.resting (follows.of_resting ?_) ?_) sent
      · intro running held'
        cases held.symm.trans held'
        rw [phase]
        trivial
      · intro running held'
        cases held'
    · exact untouched rfl (Function.update_of_ne same _ _) (fun _ member _ => member)
  | attempt k call held phase _ =>
    by_cases same : n = k
    · subst same
      have counter : s.round n = c.counterAfter n calls := by
        refine follows.of_resting ?_
        intro running held'
        cases held.symm.trans held'
        rw [phase]
        trivial
      refine ⟨calls ++ [⟨(s.log n).firstUnchosen, call.value, [], []⟩],
        .preparing calls _ { call with phase := .preparing ⟨(s.log n).firstUnchosen,
          makeBallot ((s.round n + 1) % 2 ^ 64) (c.idx n), c.lists n, 0, none, 0, 0⟩ } rfl ?_ ?_ rfl rfl ?_, ?_⟩
      · simp only [State.attempt, Function.update_self, counter]
      · simp only [State.attempt, Function.update_self]
      · simp only [State.attempt, Function.update_self]
        rfl
      · intro m member own
        rw [c.ballots_concat, List.mem_append]
        rcases List.mem_append.mp member with new | old
        · obtain ⟨peer, _, rfl⟩ := List.mem_map.mp new
          rw [← counter]
          exact Or.inr (List.mem_singleton.mpr rfl)
        · exact Or.inl (sent m old own)
    · refine untouched (Function.update_of_ne same _ _) (Function.update_of_ne same _ _) ?_
      intro m member own
      rcases List.mem_append.mp member with new | old
      · obtain ⟨peer, _, rfl⟩ := List.mem_map.mp new
        exact absurd own.symm same
      · exact old
  | recvPromise k peer reply call p held phase _ _ =>
    by_cases same : n = k
    · subst same
      rw [held] at follows
      obtain ⟨calls', next, ballots⟩ := follows.readPrepare phase (peer, some reply)
      exact .setActive next (ballots ▸ sent)
    · exact untouched rfl (Function.update_of_ne same _ _) (fun _ member _ => member)
  | failPrepare k peer call p held phase _ =>
    by_cases same : n = k
    · subst same
      rw [held] at follows
      obtain ⟨calls', next, ballots⟩ := follows.readPrepare phase (peer, none)
      exact .setActive next (ballots ▸ sent)
    · exact untouched rfl (Function.update_of_ne same _ _) (fun _ member _ => member)
  | recvAck k peer reply call a held phase _ _ =>
    by_cases same : n = k
    · subst same
      rw [held] at follows
      obtain ⟨calls', next, ballots⟩ := follows.readAccept phase (peer, some reply)
      exact .setActive next (ballots ▸ sent)
    · exact untouched rfl (Function.update_of_ne same _ _) (fun _ member _ => member)
  | failAccept k peer call a held phase _ =>
    by_cases same : n = k
    · subst same
      rw [held] at follows
      obtain ⟨calls', next, ballots⟩ := follows.readAccept phase (peer, none)
      exact .setActive next (ballots ▸ sent)
    · exact untouched rfl (Function.update_of_ne same _ _) (fun _ member _ => member)
  | losePrepare k call p held phase _ few =>
    by_cases same : n = k
    · subst same
      rw [held] at follows
      refine ⟨calls, .resting ?_ ?_, sent⟩
      · simp only [State.lose, Function.update_self]
        exact follows.unpromised phase few
      · intro running held'
        simp only [State.lose, Function.update_self, Option.some.injEq] at held'
        cases held'
        trivial
    · exact untouched (Function.update_of_ne same _ _) (Function.update_of_ne same _ _) (fun _ member _ => member)
  | loseAccept k call a held phase _ few =>
    by_cases same : n = k
    · subst same
      rw [held] at follows
      refine ⟨calls, .resting ?_ ?_, sent⟩
      · simp only [State.lose, Function.update_self]
        exact follows.unaccepted phase few
      · intro running held'
        simp only [State.lose, Function.update_self, Option.some.injEq] at held'
        cases held'
        trivial
    · exact untouched (Function.update_of_ne same _ _) (Function.update_of_ne same _ _) (fun _ member _ => member)
  | propose k call p held phase _ enough =>
    by_cases same : n = k
    · subst same
      rw [held] at follows
      refine ⟨calls, ?_, sent⟩
      simp only [State.propose, Function.update_self]
      exact follows.propose phase enough
    · exact untouched rfl (Function.update_of_ne same _ _) (fun _ member _ => member)
  | announce k call a held phase _ many =>
    by_cases same : n = k
    · subst same
      rw [held] at follows
      refine ⟨calls, .resting (follows.chosen phase many) ?_, sent⟩
      intro running held'
      simp only [State.announce, Function.update_self, Option.some.injEq] at held'
      cases held'
      trivial
    · exact untouched rfl (Function.update_of_ne same _ _) (fun _ member _ => member)
  | commit k call slot proposal held phase =>
    by_cases same : n = k
    · subst same
      refine ⟨calls, .resting (follows.of_resting ?_) ?_, sent⟩
      · intro running held'
        cases held.symm.trans held'
        rw [phase]
        trivial
      · intro running held'
        simp only [State.commitLocal, Function.update_self] at held'
        split at held'
        · cases held'
        · cases held'
          trivial
    · exact untouched rfl (Function.update_of_ne same _ _) (fun _ member _ => member)
  | _ => exact untouched rfl rfl (fun _ member _ => member)

/-- What a node does in a run of the cluster is a sequence of `runSlot` calls. -/
theorem traced_reachable [DecidableEq V] {c : Cluster R V σ ρ} {s : State R V σ} (reachable : Reachable c s) (n : R) :
    Traced c n s := by
  refine Lib.Reaches.invariant (Traced c n) reachable ?_ ?_
  · refine ⟨[], .resting rfl ?_, ?_⟩
    · intro running held
      cases held
    · intro m member
      cases member
  · intro u a v traced taken _
    exact traced_step traced (effect_of_step c u v a taken)

end PrefixMesh.Paxos
