import PrefixMesh.Paxos.Effect

/-! Every ballot is used by one `runSlot` call of one node. The index of a node is
its position in the sorted replica list, on which all nodes agree although each
lists the replicas in another order. -/

namespace PrefixMesh.Paxos

variable {R V σ ρ : Type} [LinearOrder R]

private theorem foldl_lastIdx (self : R) (ids : List R) (distinct : ids.Nodup) (base acc : Nat) :
    (ids.zipIdx base).foldl (fun idx entry => if entry.1 = self then entry.2 else idx) acc =
      if self ∈ ids then base + ids.idxOf self else acc := by
  induction ids generalizing base acc with
  | nil => simp
  | cons id rest ih =>
    obtain ⟨absent, distinctRest⟩ := List.nodup_cons.mp distinct
    simp only [List.zipIdx_cons, List.foldl_cons, ih distinctRest]
    by_cases same : id = self
    · subst same
      simp [absent]
    · have other : self ≠ id := fun equal => same equal.symm
      by_cases present : self ∈ rest
      · simp only [if_pos present, List.mem_cons, other, false_or,
          List.idxOf_cons_ne _ same]
        omega
      · simp [present, other, same]

def Cluster.sorted (c : Cluster R V σ ρ) : List R := c.replicas.insertionSort (· ≤ ·)

theorem Cluster.sorted_lists (c : Cluster R V σ ρ) (n : R) :
    (c.lists n).insertionSort (· ≤ ·) = c.sorted := by
  apply List.Perm.eq_of_pairwise (fun a b _ _ => le_antisymm)
    (List.pairwise_insertionSort _ _) (List.pairwise_insertionSort _ _)
  calc ((c.lists n).insertionSort (· ≤ ·)).Perm (c.lists n) := List.perm_insertionSort _ _
    List.Perm _ c.replicas := c.listed n
    List.Perm _ c.sorted := (List.perm_insertionSort _ _).symm

theorem Cluster.mem_lists (c : Cluster R V σ ρ) (n peer : R) :
    peer ∈ c.lists n ↔ peer ∈ c.replicas := (c.listed n).mem_iff

theorem Cluster.majority_eq (c : Cluster R V σ ρ) (n : R) :
    c.majority n = c.replicas.length / 2 + 1 := by
  unfold Cluster.majority
  rw [(c.listed n).length_eq]

theorem Cluster.idx_eq (c : Cluster R V σ ρ) (n : R) (member : n ∈ c.replicas) :
    c.idx n = c.sorted.idxOf n := by
  have distinct : c.sorted.Nodup := (List.perm_insertionSort _ _).nodup_iff.mpr c.distinct
  have present : n ∈ c.sorted := (List.perm_insertionSort _ _).mem_iff.mpr member
  have small : c.sorted.idxOf n < 256 := by
    have below := List.idxOf_lt_length_of_mem present
    have length : c.sorted.length = c.replicas.length := (List.perm_insertionSort _ _).length_eq
    have := c.atMost
    omega
  unfold Cluster.idx nodeIdx
  rw [c.sorted_lists n, foldl_lastIdx n c.sorted distinct, if_pos present, Nat.zero_add,
    Nat.mod_eq_of_lt small]

theorem Cluster.idx_lt (c : Cluster R V σ ρ) (n : R) : c.idx n < 256 :=
  Nat.mod_lt _ (by decide)

theorem Cluster.idx_injective (c : Cluster R V σ ρ) {n m : R} (left : n ∈ c.replicas)
    (right : m ∈ c.replicas) (same : c.idx n = c.idx m) : n = m := by
  rw [c.idx_eq n left, c.idx_eq m right] at same
  have present : n ∈ c.sorted := (List.perm_insertionSort _ _).mem_iff.mpr left
  exact (List.idxOf_inj present).mp same

def Owned (c : Cluster R V σ ρ) (n : R) (round b : Nat) : Prop :=
  n ∈ c.replicas ∧ ∃ r, r ≤ round ∧ b = makeBallot r (c.idx n)

def PhaseBallot (c : Cluster R V σ ρ) (accepts : List (AcceptMsg R V)) (n : R) (round : Nat) :
    Phase R V → Prop
  | .preparing p => p.ballot = makeBallot round (c.idx n) ∧ ∀ m ∈ accepts, m.ballot ≠ p.ballot
  | .accepting a => a.ballot = makeBallot round (c.idx n) ∧
      ∀ m ∈ accepts, m.ballot = a.ballot → m.slot = a.slot ∧ m.value = a.proposal
  | _ => True

structure BallotInv (c : Cluster R V σ ρ) (s : State R V σ) : Prop where
  rounds : RoundsBelow c s
  waiting : ∀ n entry, entry ∈ s.waiting n → n ∈ c.replicas
  members : ∀ n call, s.active n = some call → n ∈ c.replicas
  owned : ∀ m ∈ s.accepts, Owned c m.sender (s.round m.sender) m.ballot
  phases : ∀ n call, s.active n = some call → PhaseBallot c s.accepts n (s.round n) call.phase
  unique : ∀ m ∈ s.accepts, ∀ m' ∈ s.accepts, m.ballot = m'.ballot →
    m.slot = m'.slot ∧ m.value = m'.value

theorem Owned.mono {c : Cluster R V σ ρ} {n : R} {r r' b : Nat} (owned : Owned c n r b)
    (later : r ≤ r') : Owned c n r' b := by
  obtain ⟨member, k, bound, value⟩ := owned
  exact ⟨member, k, bound.trans later, value⟩

theorem Owned.fresh {c : Cluster R V σ ρ} {n m : R} {r round b : Nat} (owned : Owned c m r b)
    (member : n ∈ c.replicas) (small : r < 2 ^ 56) (bound : round < 2 ^ 56)
    (ahead : m = n → r < round) : b ≠ makeBallot round (c.idx n) := by
  obtain ⟨owner, k, below, rfl⟩ := owned
  intro same
  obtain ⟨rounds, indices⟩ := makeBallot_injective (by omega) bound (c.idx_lt m) (c.idx_lt n) same
  have := ahead (c.idx_injective owner member indices)
  omega

theorem Owned.other {c : Cluster R V σ ρ} {n m : R} {r round b : Nat} (owned : Owned c m r b)
    (member : n ∈ c.replicas) (small : r < 2 ^ 56) (bound : round < 2 ^ 56)
    (different : m ≠ n) : b ≠ makeBallot round (c.idx n) :=
  owned.fresh member small bound (fun same => absurd same different)

theorem ballotInv_init (c : Cluster R V σ ρ) : BallotInv c c.init where
  rounds := fun _ _ => Nat.two_pow_pos 56
  waiting := by simp [Cluster.init]
  members := by simp [Cluster.init]
  owned := by simp [Cluster.init]
  phases := by simp [Cluster.init]
  unique := by simp [Cluster.init]

theorem BallotInv.setActive {c : Cluster R V σ ρ} {s : State R V σ} (inv : BallotInv c s) (n : R)
    (next : Option (Call R V)) (member : n ∈ c.replicas)
    (phase : ∀ call, next = some call → PhaseBallot c s.accepts n (s.round n) call.phase) :
    BallotInv c (s.setActive n next) where
  rounds := inv.rounds
  waiting := inv.waiting
  members := by
    intro k call held
    rcases Lib.update_cases held with ⟨rfl, _⟩ | ⟨_, earlier⟩
    · exact member
    · exact inv.members k call earlier
  owned := inv.owned
  phases := by
    intro k call held
    rcases Lib.update_cases held with ⟨rfl, given⟩ | ⟨_, earlier⟩
    · exact phase call given
    · exact inv.phases k call earlier
  unique := inv.unique

theorem Preparing.collect_eq (p : Preparing R V) (peer : R) (reply : PrepareReply V) :
    (p.collect peer reply).slot = p.slot ∧ (p.collect peer reply).ballot = p.ballot ∧
    (p.collect peer reply).pending = p.pending.erase peer := by
  unfold Preparing.collect
  by_cases granted : reply.promised = true
  · cases reply.acceptedValue with
    | none => simp [granted]
    | some v =>
      simp only [granted, if_true]
      split_ifs <;> simp
  · simp only [granted]
    split_ifs <;> simp_all

theorem Preparing.collect_counts (p : Preparing R V) (peer : R) (reply : PrepareReply V) :
    (p.collect peer reply).promises = p.promises + (if reply.promised then 1 else 0) ∧
    (p.collect peer reply).maxPromised = max p.maxPromised (if reply.promised then 0 else reply.promisedBallot) := by
  unfold Preparing.collect
  by_cases granted : reply.promised = true
  · cases reply.acceptedValue with
    | none => simp [granted]
    | some v =>
      simp only [granted, if_true]
      split
      · simp
      · simp
  · simp only [granted, if_false, Bool.false_eq_true]
    split
    · simp
      omega
    · simp
      omega

theorem Accepting.collect_eq (a : Accepting R V) (peer : R) (reply : AcceptReply) :
    (a.collect peer reply).slot = a.slot ∧ (a.collect peer reply).ballot = a.ballot ∧
    (a.collect peer reply).proposal = a.proposal ∧
    (a.collect peer reply).pending = a.pending.erase peer ∧
    (a.collect peer reply).accepts = a.accepts + (if reply.accepted then 1 else 0) := by
  unfold Accepting.collect
  by_cases granted : reply.accepted = true
  · simp [granted]
  · simp only [granted]
    split_ifs <;> simp_all

theorem Accepting.collect_maxPromised (a : Accepting R V) (peer : R) (reply : AcceptReply) :
    (a.collect peer reply).maxPromised = max a.maxPromised (if reply.accepted then 0 else reply.promisedBallot) := by
  unfold Accepting.collect
  by_cases granted : reply.accepted = true
  · simp [granted]
  · simp only [granted, if_false, Bool.false_eq_true]
    split
    · simp
      omega
    · simp
      omega

theorem catchUpRound_eq (round promised : Nat) : catchUpRound round promised = max round (Ballot.round promised) := by
  unfold catchUpRound
  split
  next ahead => exact (max_eq_left ahead).symm
  next behind => exact (max_eq_right (not_le.mp behind).le).symm

theorem catchUpRound_ge (round promised : Nat) : round ≤ catchUpRound round promised := by
  rw [catchUpRound_eq]
  exact le_max_left _ _

theorem catchUpRound_target (round promised : Nat) : Ballot.round promised ≤ catchUpRound round promised := by
  rw [catchUpRound_eq]
  exact le_max_right _ _

theorem catchUpRound_le {round promised top : Nat} (below : round ≤ top) (below' : Ballot.round promised ≤ top) :
    catchUpRound round promised ≤ top := by
  rw [catchUpRound_eq]
  exact max_le below below'

theorem attempt_rounds (c : Cluster R V σ ρ) (s : State R V σ) (n : R) (call : Call R V)
    (bound : s.round n < 2 ^ 56) :
    (s.attempt c n call).round = Function.update s.round n (s.round n + 1) := by
  have counted : (s.round n + 1) % 2 ^ 64 = s.round n + 1 := Nat.mod_eq_of_lt (by omega)
  simp only [State.attempt, counted]

theorem round_le_attempt (c : Cluster R V σ ρ) (s : State R V σ) (n : R) (call : Call R V)
    (bound : s.round n < 2 ^ 56) (k : R) : s.round k ≤ (s.attempt c n call).round k := by
  rw [attempt_rounds c s n call bound]
  by_cases same : k = n
  · subst same
    rw [Function.update_self]
    exact Nat.le_succ _
  · rw [Function.update_of_ne same]

theorem round_le_lose (s : State R V σ) (n : R) (call : Call R V) (promised : Nat) (k : R) :
    s.round k ≤ (s.lose n call promised).round k := by
  by_cases same : k = n
  · subst same
    simpa [State.lose] using catchUpRound_ge (s.round k) promised
  · simp [State.lose, Function.update_of_ne same]

private theorem ballotInv_attempt {c : Cluster R V σ ρ} {s : State R V σ} (inv : BallotInv c s) (n : R)
    (call : Call R V) (held : s.active n = some call) (small : RoundsBelow c (s.attempt c n call)) :
    BallotInv c (s.attempt c n call) := by
  have member := inv.members n call held
  have bound := inv.rounds n member
  have counted : (s.round n + 1) % 2 ^ 64 = s.round n + 1 := Nat.mod_eq_of_lt (by omega)
  have moved : (s.attempt c n call).round n = s.round n + 1 := by
    rw [attempt_rounds c s n call bound, Function.update_self]
  have others : ∀ k, k ≠ n → (s.attempt c n call).round k = s.round k := by
    intro k other
    rw [attempt_rounds c s n call bound, Function.update_of_ne other]
  have next : s.round n + 1 < 2 ^ 56 := moved ▸ small n member
  refine ⟨small, inv.waiting, ?_, ?_, ?_, inv.unique⟩
  · intro k held' active
    rcases Lib.update_cases active with ⟨rfl, _⟩ | ⟨_, earlier⟩
    · exact member
    · exact inv.members k held' earlier
  · intro m sent
    exact (inv.owned m sent).mono (round_le_attempt c s n call bound m.sender)
  · intro k held' active
    rcases Lib.update_cases active with ⟨rfl, given⟩ | ⟨other, earlier⟩
    · cases given
      simp only [PhaseBallot, moved, counted]
      refine ⟨trivial, ?_⟩
      intro m sent
      have owned := inv.owned m sent
      refine owned.fresh member (inv.rounds _ owned.1) next ?_
      intro same
      rw [same]
      omega
    · rw [others k other]
      exact inv.phases k held' earlier

private theorem ballotInv_lose {c : Cluster R V σ ρ} {s : State R V σ} (inv : BallotInv c s) (n : R)
    (call : Call R V) (promised : Nat) (held : s.active n = some call)
    (small : RoundsBelow c (s.lose n call promised)) : BallotInv c (s.lose n call promised) := by
  refine ⟨small, inv.waiting, ?_, ?_, ?_, inv.unique⟩
  · intro k held' active
    rcases Lib.update_cases active with ⟨rfl, _⟩ | ⟨_, earlier⟩
    · exact inv.members k call held
    · exact inv.members k held' earlier
  · intro m sent
    exact (inv.owned m sent).mono (round_le_lose s n call promised m.sender)
  · intro k held' active
    rcases Lib.update_cases active with ⟨rfl, given⟩ | ⟨other, earlier⟩
    · cases given
      trivial
    · have same : (s.lose n call promised).round k = s.round k := by
        simp [State.lose, Function.update_of_ne other]
      rw [same]
      exact inv.phases k held' earlier

private theorem ballotInv_propose {c : Cluster R V σ ρ} {s : State R V σ} (inv : BallotInv c s) (n : R)
    (call : Call R V) (p : Preparing R V) (held : s.active n = some call)
    (phase : call.phase = .preparing p) : BallotInv c (s.propose c n call p) := by
  have member := inv.members n call held
  have preparing := inv.phases n call held
  rw [phase] at preparing
  obtain ⟨ballot, unused⟩ := preparing
  have bound := inv.rounds n member
  have sentNow : ∀ m ∈ (s.propose c n call p).accepts, m ∈ s.accepts ∨
      m.sender = n ∧ m.slot = p.slot ∧ m.ballot = p.ballot ∧ m.value = p.adopted.getD call.value := by
    intro m sent
    rcases List.mem_append.mp sent with new | old
    · obtain ⟨peer, _, rfl⟩ := List.mem_map.mp new
      exact Or.inr ⟨rfl, rfl, rfl, rfl⟩
    · exact Or.inl old
  have owned : Owned c n (s.round n) p.ballot := ⟨member, s.round n, le_rfl, ballot⟩
  refine ⟨inv.rounds, inv.waiting, ?_, ?_, ?_, ?_⟩
  · intro k held' active
    rcases Lib.update_cases active with ⟨rfl, _⟩ | ⟨_, earlier⟩
    · exact member
    · exact inv.members k held' earlier
  · intro m sent
    rcases sentNow m sent with old | ⟨sender, _, same, _⟩
    · exact inv.owned m old
    · rw [sender, same]
      exact owned
  · intro k held' active
    rcases Lib.update_cases active with ⟨rfl, given⟩ | ⟨other, earlier⟩
    · cases given
      refine ⟨ballot, ?_⟩
      intro m sent same
      rcases sentNow m sent with old | ⟨_, slot, _, value⟩
      · exact absurd same (unused m old)
      · exact ⟨slot, value⟩
    · have before := inv.phases k held' earlier
      have memberK := inv.members k held' earlier
      have apart : p.ballot ≠ makeBallot (s.round k) (c.idx k) :=
        owned.other memberK bound (inv.rounds k memberK) (fun same => other same.symm)
      change PhaseBallot c (s.propose c n call p).accepts k (s.round k) held'.phase
      cases at_ : held'.phase with
      | ready => trivial
      | committing slot proposal => trivial
      | preparing q =>
        rw [at_] at before
        refine ⟨before.1, ?_⟩
        intro m sent
        rcases sentNow m sent with old | ⟨_, _, same, _⟩
        · exact before.2 m old
        · rw [same, before.1]
          exact apart
      | accepting a =>
        rw [at_] at before
        refine ⟨before.1, ?_⟩
        intro m sent equal
        rcases sentNow m sent with old | ⟨_, _, same, _⟩
        · exact before.2 m old equal
        · rw [same, before.1] at equal
          exact absurd equal apart
  · intro m sent m' sent' same
    rcases sentNow m sent with old | ⟨_, slot, new, value⟩
    · rcases sentNow m' sent' with old' | ⟨_, _, new', _⟩
      · exact inv.unique m old m' old' same
      · exact absurd (same.trans new') (unused m old)
    · rcases sentNow m' sent' with old' | ⟨_, slot', _, value'⟩
      · exact absurd (same.symm.trans new) (unused m' old')
      · exact ⟨slot.trans slot'.symm, value.trans value'.symm⟩

theorem ballotInv_step [DecidableEq V] (c : Cluster R V σ ρ) (s t : State R V σ) (a : Action R V ρ)
    (inv : BallotInv c s) (effect : Effect c s a t) (small : RoundsBelow c t) : BallotInv c t := by
  cases effect with
  | submit n v member | gapFill n member _ =>
    refine { inv with waiting := ?_ }
    intro k entry queued
    by_cases same : k = n
    · exact same ▸ member
    · simp only [State.enter, Function.update_of_ne same] at queued
      exact inv.waiting k entry queued
  | acquire n id v free queued =>
    refine { inv with waiting := ?_, members := ?_, phases := ?_ }
    · intro k entry present
      by_cases same : k = n
      · exact same ▸ inv.waiting n _ queued
      · simp only [State.acquire, Function.update_of_ne same] at present
        exact inv.waiting k entry present
    · exact (inv.setActive n (some ⟨id, v, 0, .ready⟩) (inv.waiting n _ queued)
        (fun call given => by cases given; trivial)).members
    · exact (inv.setActive n (some ⟨id, v, 0, .ready⟩) (inv.waiting n _ queued)
        (fun call given => by cases given; trivial)).phases
  | giveUp n call held _ =>
    exact inv.setActive n none (inv.members n call held) (fun _ given => by cases given)
  | attempt n call held _ _ => exact ballotInv_attempt inv n call held small
  | deliverPrepare m r sent => exact { inv with }
  | recvPromise n peer reply call p held phase _ _ =>
    have before := inv.phases n call held
    rw [phase] at before
    obtain ⟨_, ballot, _⟩ := p.collect_eq peer reply
    refine inv.setActive n _ (inv.members n call held) (fun next given => ?_)
    cases given
    simpa only [PhaseBallot, ballot] using before
  | failPrepare n peer call p held phase _ =>
    have before := inv.phases n call held
    rw [phase] at before
    refine inv.setActive n _ (inv.members n call held) (fun next given => ?_)
    cases given
    exact before
  | losePrepare n call p held _ _ _ => exact ballotInv_lose inv n call _ held small
  | propose n call p held phase _ _ => exact ballotInv_propose inv n call p held phase
  | deliverAccept m r v sent _ => exact { inv with }
  | recvAck n peer reply call a held phase _ _ =>
    have before := inv.phases n call held
    rw [phase] at before
    obtain ⟨slot, ballot, proposal, _⟩ := a.collect_eq peer reply
    refine inv.setActive n _ (inv.members n call held) (fun next given => ?_)
    cases given
    simpa only [PhaseBallot, slot, ballot, proposal] using before
  | failAccept n peer call a held phase _ =>
    have before := inv.phases n call held
    rw [phase] at before
    refine inv.setActive n _ (inv.members n call held) (fun next given => ?_)
    cases given
    exact before
  | loseAccept n call a held _ _ _ => exact ballotInv_lose inv n call _ held small
  | announce n call a held _ _ _ =>
    exact { inv.setActive n _ (inv.members n call held) (fun _ given => by cases given; trivial) with }
  | commit n call slot proposal held _ =>
    refine { inv.setActive n _ (inv.members n call held) (fun next given => ?_) with }
    split_ifs at given
    cases given
    trivial
  | deliverLearn m r v sent _ => exact { inv with }

end PrefixMesh.Paxos
