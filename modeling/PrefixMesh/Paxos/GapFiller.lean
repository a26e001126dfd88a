import PrefixMesh.Paxos.Budget
import PrefixMesh.Paxos.Learner

/-! `RunGapFiller` on a quiet network. A tick finds the log stalled and submits a no-op; the
attempts of that call work on the slot where the log is stalled, and each of them records the
slot or catches up with whoever holds it. The slots that are missing below what the replica
knows of and those among them that are held bound the attempts, over any number of ticks. -/

namespace PrefixMesh.Paxos

variable {R V σ ρ C : Type}

/-- What the log has recorded it has seen, as far as `maxSeen` can count. -/
def Log.Seen (l : Log V σ) : Prop := ∀ slot, slot + 1 < 2 ^ 64 → l.chosen.lookup slot ≠ none → slot < l.maxSeen

theorem Log.commit_maxSeen (apply : Nat → V → σ → σ) (l : Log V σ) (slot : Nat) (value : V) :
    l.maxSeen ≤ (l.commit apply slot value).maxSeen ∧
    (l.commit apply slot value).maxSeen ≤ max l.maxSeen (slot + 1) ∧
    (l.chosen.lookup slot = none → slot + 1 < 2 ^ 64 → slot < (l.commit apply slot value).maxSeen) := by
  have wraps := Nat.mod_le (slot + 1) (2 ^ 64)
  cases known : l.chosen.lookup slot with
  | some v =>
    simp only [Log.commit, known]
    exact ⟨le_rfl, le_max_left _ _, fun missing => by cases missing⟩
  | none =>
    simp only [Log.commit, known, applyLoop_maxSeen]
    split
    next higher =>
      refine ⟨higher.le, wraps.trans (le_max_right _ _), fun _ small => ?_⟩
      rw [Nat.mod_eq_of_lt small]
      exact Nat.lt_succ_self slot
    next lower =>
      refine ⟨le_rfl, le_max_left _ _, fun _ small => ?_⟩
      rw [Nat.mod_eq_of_lt small] at lower
      omega

theorem Log.Seen.commit {l : Log V σ} (seen : l.Seen) (apply : Nat → V → σ → σ) (at_ : Nat) (value : V) :
    (l.commit apply at_ value).Seen := by
  intro slot small recorded
  obtain ⟨grows, _, fresh⟩ := l.commit_maxSeen apply at_ value
  rw [Log.commit_lookup] at recorded
  split at recorded
  next new => exact new.1 ▸ fresh new.2 (new.1 ▸ small)
  · exact lt_of_lt_of_le (seen slot small recorded) grows

theorem Log.Seen.applied {apply : Nat → V → σ → σ} {start : σ} {l : Log V σ} (seen : l.Seen) (inv : l.Inv apply start)
    (whole : l.gap.2 = false) (slot : Nat) (small : slot + 1 < 2 ^ 64) (recorded : l.chosen.lookup slot ≠ none) :
    slot < l.applied := by
  rw [l.gap_eq inv.stalled] at whole
  split at whole
  · cases whole
  next reached => exact lt_of_lt_of_le (seen slot small recorded) (not_lt.mp reached)

theorem Log.gap_lt {apply : Nat → V → σ → σ} {start : σ} {l : Log V σ} (inv : l.Inv apply start)
    (stalled : l.gap.2 ≠ false) : l.firstUnchosen < l.maxSeen := by
  rw [l.gap_eq inv.stalled] at stalled
  split at stalled
  next ahead =>
    refine lt_of_le_of_lt ?_ ahead
    by_contra above
    exact Log.firstUnchosen_recorded inv _ (not_le.mp above) inv.stalled
  · exact absurd rfl stalled

variable [LinearOrder R]

/-- What may happen while the gap filler of `n` is all that runs. It starts a call when the last one is over. -/
def Filling (c : Cluster R V σ ρ) (n : R) (s : State R V σ) : Action R V ρ → Prop
  | .gapFill k => k = n ∧ s.active n = none ∧ s.waiting n = []
  | .acquire k _ _ => k = n
  | a => Quiet c n s a

variable {c : Cluster R V σ ρ} {meaning : V → C} {n : R} {u s t : State R V σ} {a : Action R V ρ} {call : Call R V}
  {top left : Nat}

theorem Carries.enter (carries : Carries c meaning (s.enter n (c.noop n))) : Carries c meaning s :=
  fun p q w ⟨x, called, same⟩ => carries p q w ⟨x, List.mem_append_left _ called, same⟩

/-- Nothing that `n` can hear of or work on goes beyond `top`. -/
structure Bounded (c : Cluster R V σ ρ) (n : R) (top : Nat) (t : State R V σ) : Prop where
  inv : (t.log n).Inv c.apply c.start
  seen : (t.log n).Seen
  log : (t.log n).maxSeen ≤ top + 1
  learns : ∀ m ∈ t.learns, m.target = n → m.slot ≤ top
  work : ∀ call i, t.active n = some call → call.phase.slot = some i → i ≤ top

theorem Bounded.target (bounded : Bounded c n top u) (stalled : (u.log n).gap.2 ≠ false) :
    (u.log n).firstUnchosen ≤ top := by
  have ahead := Log.gap_lt bounded.inv stalled
  have := bounded.log
  omega

theorem Bounded.commit (bounded : Bounded c n top u) {slot : Nat} (below : slot ≤ top) (v : V)
    (log : t.log n = (u.log n).commit c.apply slot v) (learns : ∀ m ∈ t.learns, m.target = n → m.slot ≤ top)
    (work : ∀ call i, t.active n = some call → call.phase.slot = some i → i ≤ top) : Bounded c n top t where
  inv := by
    rw [log]
    exact Log.commit_inv c.apply c.start _ bounded.inv slot v
  seen := by
    rw [log]
    exact bounded.seen.commit c.apply slot v
  log := by
    rw [log]
    refine ((u.log n).commit_maxSeen c.apply slot v).2.1.trans (max_le bounded.log ?_)
    omega
  learns := learns
  work := work

theorem bounded_move (bounded : Bounded c n top u) (stalled : (u.log n).gap.2 ≠ false) (move : Move c n u t) :
    Bounded c n top t := by
  have work : ∀ call i, t.active n = some call → call.phase.slot = some i → i ≤ top := by
    intro next i running here
    obtain ⟨call, held, _, same | ⟨_, _, _, first⟩ | ⟨_, finished⟩⟩ := move.running running
    · exact bounded.work call i held (same.2.trans here)
    · rw [first, Option.some.injEq] at here
      exact here ▸ bounded.target stalled
    · rw [finished] at here
      cases here
  cases move with
  | announce call a held phase _ _ =>
    refine { bounded with work := work, learns := fun m member target => ?_ }
    rcases List.mem_append.mp member with fresh | old
    · obtain ⟨peer, _, rfl⟩ := List.mem_map.mp fresh
      exact bounded.work call a.slot held (by rw [phase]; rfl)
    · exact bounded.learns m old target
  | commit call slot proposal held phase =>
    refine bounded.commit (bounded.work call slot held (by rw [phase]; rfl)) proposal ?_ bounded.learns work
    simp only [State.commitLocal, Function.update_self]
  | learn m v sent missing =>
    by_cases here : m.target = n
    · refine bounded.commit (bounded.learns m sent here) v ?_ bounded.learns work
      simp only [State.answerLearn, here, Function.update_self]
    · have same : (u.answerLearn c m v).log n = u.log n := Function.update_of_ne (Ne.symm here) _ _
      exact ⟨same ▸ bounded.inv, same ▸ bounded.seen, same ▸ bounded.log, bounded.learns, work⟩
  | _ => exact { bounded with work := work }

variable [DecidableEq V]

theorem seen_reachable (run : Reachable c s) (n : R) : (s.log n).Seen :=
  log_invariant Log.Seen (fun _ _ recorded => absurd rfl recorded) (fun _ at_ v seen => seen.commit c.apply at_ v) run n

theorem alone_filling : Alone c n (fun s a _ => Filling c n s a) where
  busy := by
    intro s a t taken filling held
    cases a with
    | gapFill k => exact absurd filling.2.1 held
    | acquire k id v =>
      cases effect_of_step c s t _ taken with
      | acquire _ _ _ free _ =>
        cases filling
        exact absurd free held
    | _ => exact filling
  own := by
    intro s a t _ quiet _
    cases a with
    | gapFill k => exact quiet.elim
    | acquire k id v => exact quiet.elim
    | _ => exact quiet

theorem bounded_step (bounded : Bounded c n top u) (stalled : (u.log n).gap.2 ≠ false) (taken : step c u a = some t)
    (filling : Filling c n u a) : Bounded c n top t := by
  cases a with
  | gapFill k =>
    cases effect_of_step c u t _ taken
    exact { bounded with }
  | acquire k id v =>
    cases filling
    cases effect_of_step c u t _ taken with
    | acquire _ _ _ _ _ =>
      refine { bounded with work := fun call i running here => ?_ }
      simp only [State.acquire, Function.update_self, Option.some.injEq] at running
      rw [← running] at here
      cases here
  | _ => exact bounded_move bounded stalled (move_of_step taken filling)

/-- Replica `n` between two attempts, with all it may have to do paid for. -/
structure Fills (c : Cluster R V σ ρ) (meaning : V → C) (n : R) (top left : Nat) (t : State R V σ) : Prop where
  reachable : Reachable c t
  member : n ∈ c.replicas
  carries : Carries c meaning (t.enter n (c.noop n))
  ready : ∀ call, t.active n = some call → call.phase = .ready
  room : ∀ k ∈ c.replicas, t.round k + (left + 1) < 2 ^ 56
  cost : (t.behind n top).card + (t.contested c n top).card ≤ left
  bounded : Bounded c n top t

def State.stage (t : State R V σ) (n : R) : Nat :=
  match t.active n with
  | some call => if call.attempt < 20 then 0 else 3
  | none => if t.waiting n = [] then 2 else 1

theorem Fills.next (fills : Fills c meaning n top left u) (stalled : (u.log n).gap.2 ≠ false) :
    (u.log n).firstUnchosen ∈ u.behind n top :=
  mem_behind.mpr ⟨fills.bounded.target stalled, Log.firstUnchosen_free _⟩

theorem Fills.positive (fills : Fills c meaning n top left u) (stalled : (u.log n).gap.2 ≠ false) : 0 < left := by
  have missing := Finset.card_pos.mpr ⟨_, fills.next stalled⟩
  have := fills.cost
  omega

theorem Fills.keep (faithful : Faithful c meaning) (fills : Fills c meaning n top left u) (taken : step c u a = some t)
    (rounds : t.round = u.round) (acceptors : t.acceptor = u.acceptor) (bounded : Bounded c n top t)
    (calls : ∀ x ∈ t.calls, x ∈ u.calls ∨ x.2 = c.noop n)
    (ready : ∀ call, t.active n = some call → call.phase = .ready) : Fills c meaning n top left t where
  reachable := reachable_tail faithful fills.reachable taken rounds
  member := fills.member
  carries := by
    rintro p q w ⟨x, called, same⟩
    refine fills.carries p q w ?_
    rcases List.mem_append.mp called with old | new
    · rcases calls x old with old | noop
      · exact ⟨x, List.mem_append_left _ old, same⟩
      · exact ⟨(n, c.noop n), List.mem_append_right _ (List.mem_singleton_self _), noop ▸ same⟩
    · exact ⟨x, List.mem_append_right _ new, same⟩
  ready := ready
  room := rounds ▸ fills.room
  cost := by
    have grows := recorded_step (effect_of_step c u t a taken) n
    have small : t.round n + 1 < 2 ^ 56 := by
      have := fills.room n fills.member
      rw [rounds]
      omega
    have fewer : t.behind n top ⊆ u.behind n top := behind_subset grows
    have easier : t.contested c n top ⊆ u.contested c n top :=
      contested_subset grows (by rw [rounds]) small fun _ _ _ _ => by rw [acceptors]
    exact (Nat.add_le_add (Finset.card_le_card fewer) (Finset.card_le_card easier)).trans fills.cost
  bounded := bounded

theorem Fills.enabled (fills : Fills c meaning n top left u) (stalled : (u.log n).gap.2 ≠ false) :
    ∃ a t, step c u a = some t ∧ Filling c n u a := by
  cases active : u.active n with
  | none =>
    cases waiting : u.waiting n with
    | nil => exact ⟨.gapFill n, _, if_pos ⟨fills.member, by simpa using stalled⟩, rfl, active, waiting⟩
    | cons first rest =>
      refine ⟨.acquire n first.1 first.2, u.acquire n first.1 first.2, ?_, rfl⟩
      simp only [step, active, waiting]
      exact if_pos List.mem_cons_self
  | some call =>
    obtain ⟨id, v, attempt, phase⟩ := call
    obtain rfl : phase = .ready := fills.ready _ active
    by_cases budget : attempt < 20
    · refine ⟨.attempt n, u.attempt c n ⟨id, v, attempt, .ready⟩, ?_, rfl⟩
      simp only [step, active]
      exact if_pos budget
    · refine ⟨.giveUp n, u.setActive n none, by simp only [step, active], rfl, fun call held => ?_⟩
      rw [active] at held
      cases held
      exact not_lt.mp budget

theorem Fills.move (faithful : Faithful c meaning) (fills : Fills c meaning n top left u)
    (stalled : (u.log n).gap.2 ≠ false) (taken : step c u a = some t) (filling : Filling c n u a) :
    (∃ call, u.active n = some call ∧ t = u.attempt c n call) ∨ Fills c meaning n top left t ∧
      (t.stage n < u.stage n ∨ t.stage n = u.stage n ∧ t.unlearnt < u.unlearnt) := by
  have bounded := bounded_step fills.bounded stalled taken filling
  cases a with
  | gapFill k =>
    obtain ⟨rfl, free, empty⟩ := filling
    cases effect_of_step c u t _ taken with
    | gapFill _ _ _ =>
      refine Or.inr ⟨fills.keep faithful taken rfl rfl bounded (fun x called => ?_) fills.ready, Or.inl ?_⟩
      · rcases List.mem_append.mp called with old | new
        · exact Or.inl old
        · rw [List.mem_singleton.mp new]
          exact Or.inr rfl
      · simp [State.stage, State.enter, free, empty]
  | acquire k id v =>
    cases filling
    cases effect_of_step c u t _ taken with
    | acquire _ _ _ free queued =>
      refine Or.inr ⟨fills.keep faithful taken rfl rfl bounded (fun _ => Or.inl) (fun call running => ?_), Or.inl ?_⟩
      · simp only [State.acquire, Function.update_self, Option.some.injEq] at running
        rw [← running]
      · have several := List.ne_nil_of_mem queued
        simp [State.stage, State.acquire, free, several]
  | _ =>
    have move : Move c n u t := move_of_step taken filling
    cases move with
    | attempt call held _ _ => exact Or.inl ⟨call, held, rfl⟩
    | giveUp call held _ spent =>
      refine Or.inr ⟨fills.keep faithful taken rfl rfl bounded (fun _ => Or.inl) (fun call running => ?_), Or.inl ?_⟩
      · simp only [State.setActive, Function.update_self] at running
        cases running
      · have exhausted : ¬call.attempt < 20 := not_lt.mpr spent
        by_cases empty : u.waiting n = [] <;> simp [State.stage, State.setActive, held, exhausted, empty]
    | learn m w sent missing =>
      exact Or.inr ⟨fills.keep faithful taken rfl rfl bounded (fun _ => Or.inl) fills.ready,
        Or.inr ⟨rfl, unlearnt_learn w sent missing⟩⟩
    | ask _ _ _ _ held phase | recvPromise _ _ _ _ held phase | losePrepare _ _ held phase
    | propose _ _ held phase | offer _ _ _ _ held phase | recvAck _ _ _ _ held phase
    | loseAccept _ _ held phase | announce _ _ held phase | commit _ _ _ held phase =>
      rw [fills.ready _ held] at phase
      cases phase

def Whole (c : Cluster R V σ ρ) (n : R) (top : Nat) (t : State R V σ) : Prop :=
  Bounded c n top t ∧ (t.log n).gap.2 = false

theorem Fills.starts (faithful : Faithful c meaning) (fills : Fills c meaning n top left t)
    (stalled : (t.log n).gap.2 ≠ false) :
    Lib.Inevitable (step c) (fun s a _ => Filling c n s a) (fun t => Whole c n top t ∨ ∃ u a call,
      Fills c meaning n top left u ∧ (u.log n).gap.2 ≠ false ∧ u.active n = some call ∧ Bounded c n top t ∧
      step c u a = some t ∧ t = u.attempt c n call) t := by
  refine Lib.Inevitable.of_rank (fun k l t => Fills c meaning n top left t ∧ (t.log n).gap.2 ≠ false ∧ k = t.stage n ∧
    l = t.unlearnt) ?_ ?_ _ _ t ⟨fills, stalled, rfl, rfl⟩
  · rintro _ _ u ⟨fills, stalled, _⟩
    exact fills.enabled stalled
  · rintro _ _ u a t ⟨fills, stalled, rfl, rfl⟩ taken filling
    have bounded := bounded_step fills.bounded stalled taken filling
    rcases fills.move faithful stalled taken filling with ⟨call, held, rfl⟩ | ⟨fills', less⟩
    · exact Or.inl (Or.inr ⟨u, a, call, fills, stalled, held, bounded, taken, rfl⟩)
    · by_cases whole : (t.log n).gap.2 = false
      · exact Or.inl (Or.inl ⟨bounded, whole⟩)
      · exact Or.inr ⟨_, _, ⟨fills', whole, rfl, rfl⟩, less⟩

theorem Fills.attempt (faithful : Faithful c meaning) (fills : Fills c meaning n top (left + 1) u)
    (stalled : (u.log n).gap.2 ≠ false) (bounded : Bounded c n top t)
    (ended : Wins c u.acceptor (u.log n).firstUnchosen (makeBallot (u.round n + 1) (c.idx n)) ∧
        (∃ proposal, Won c n u call (u.log n).firstUnchosen proposal t) ∨
      ¬Wins c u.acceptor (u.log n).firstUnchosen (makeBallot (u.round n + 1) (c.idx n)) ∧
        Lost c n u call (u.log n).firstUnchosen (makeBallot (u.round n + 1) (c.idx n)) t) :
    Fills c meaning n top left t := by
  have here := fills.next stalled
  have cost := fills.cost
  have carries : t.calls = u.calls → Carries c meaning (t.enter n (c.noop n)) := by
    intro same
    rw [Carries, State.enter, same]
    exact fills.carries
  rcases ended with ⟨_, proposal, won⟩ | ⟨loses, lost⟩
  · have room := won.room fills.room
    have less := won.cost here (by have := room n fills.member; omega)
    refine ⟨won.reachable, fills.member, carries won.calls, fun call running => ?_, room, by omega, bounded⟩
    have ended := won.ended
    split at ended
    · rw [ended.1] at running
      cases running
    · rw [ended.1] at running
      cases running
      rfl
  · have room := lost.room faithful fills.reachable fills.room (by have := fills.room n fills.member; omega)
    have less := lost.cost here rfl loses (by have := room n fills.member; omega)
    refine ⟨lost.reachable, fills.member, carries lost.calls, fun call running => ?_, room, by omega, bounded⟩
    rw [lost.held] at running
    cases running
    rfl

theorem Fills.ends (faithful : Faithful c meaning) (fills : Fills c meaning n top left t) :
    Lib.Inevitable (step c) (fun s a _ => Filling c n s a) (Whole c n top) t := by
  induction left generalizing t with
  | zero =>
    refine .now ⟨fills.bounded, ?_⟩
    by_contra stalled
    exact absurd (fills.positive stalled) (Nat.lt_irrefl 0)
  | succ left ih =>
    by_cases stalled : (t.log n).gap.2 = false
    · exact .now ⟨fills.bounded, stalled⟩
    refine (fills.starts faithful stalled).bind ?_
    rintro t (done | ⟨u, a, call, fills, stalled, held, bounded, taken, rfl⟩)
    · exact .now done
    have room : ∀ k ∈ c.replicas, u.round k + 1 < 2 ^ 56 := fun k member => by
      have := fills.room k member
      omega
    -- an attempt may find the log whole before it ends, when the last missing values are learnt
    have course := attempt_ends alone_filling (fun _ _ _ _ _ _ _ _ _ => trivial) faithful fills.carries.enter
      fills.reachable held room rfl rfl taken trivial
    refine (course.unless (Bounded c n top) (fun t => (t.log n).gap.2 = false) bounded
      fun v a w bounded stalled taken filling => bounded_step bounded stalled taken filling).bind ?_
    rintro t ⟨bounded, whole | ⟨_, ended⟩⟩
    · exact .now ⟨bounded, whole⟩
    · exact ih (fills.attempt faithful stalled bounded ended)

/-- The gap filler of a replica on the quiet network, while no other call is made. Whatever the order in which messages
and `Learn`s arrive and however often its calls give up, the replica comes to apply all that it has recorded but for the
last slot, which `maxSeen` cannot count, and what it had recorded at the start is included. Room for one round per
missing slot, and per slot that is held, is enough. -/
theorem gap_filler_applies (faithful : Faithful c meaning) (run : Reachable c s) (member : n ∈ c.replicas)
    (idle : s.active n = none) (carries : Carries c meaning (s.enter n (c.noop n)))
    (told : ∀ m ∈ s.learns, m.target = n → m.slot ≤ top) (known : (s.log n).maxSeen ≤ top + 1)
    (room : ∀ k ∈ c.replicas, s.round k + ((s.behind n top).card + (s.contested c n top).card + 1) < 2 ^ 56) :
    Lib.Inevitable (step c) (fun u a _ => Filling c n u a) (fun t =>
      (∀ slot, (s.log n).chosen.lookup slot ≠ none → (t.log n).chosen.lookup slot ≠ none) ∧
      ∀ slot, slot + 1 < 2 ^ 64 → (t.log n).chosen.lookup slot ≠ none → slot < (t.log n).applied) s := by
  have bounded : Bounded c n top s := by
    refine ⟨logInv_reachable run n, seen_reachable run n, known, told, fun call i held => ?_⟩
    rw [idle] at held
    cases held
  have ready : ∀ call, s.active n = some call → call.phase = .ready := by
    intro call held
    rw [idle] at held
    cases held
  have fills : Fills c meaning n top _ s := ⟨run, member, carries, ready, room, le_rfl, bounded⟩
  refine ((fills.ends faithful).unless
    (fun t => ∀ slot, (s.log n).chosen.lookup slot ≠ none → (t.log n).chosen.lookup slot ≠ none) (fun _ => False)
    (fun _ known => known) ?_).bind ?_
  · intro u a w recorded _ taken _ slot known
    exact recorded_step (effect_of_step c u w a taken) n slot (recorded slot known)
  · rintro t ⟨recorded, none | ⟨bounded, whole⟩⟩
    · exact none.elim
    · exact .now ⟨recorded, bounded.seen.applied bounded.inv whole⟩

/-- Replica 1 has heard of slot 1 and not of slot 0, and replica 2 has a call that stands still. -/
theorem gap_filler_applies_sample : ∃ s, Reachable threeReplicas s ∧ (s.log 1).chosen.lookup 1 = some 7 ∧
    (s.log 1).applied = 0 ∧ Lib.Inevitable (step threeReplicas) (fun u a _ => Filling threeReplicas 1 u a) (fun t =>
      (∀ slot, (s.log 1).chosen.lookup slot ≠ none → (t.log 1).chosen.lookup slot ≠ none) ∧
      ∀ slot, slot + 1 < 2 ^ 64 → (t.log 1).chosen.lookup slot ≠ none → slot < (t.log 1).applied) s := by
  obtain ⟨s, run, heard, stuck, idle, told, known, room⟩ := Lib.reaches_of_check (step threeReplicas)
    (fun _ _ u => RoundsBelow threeReplicas u) (lagBehind 0 2 1 2 ++ [.deliverLearn ⟨0, 1, 1, 7⟩ ()])
    threeReplicas.init
    (fun s => (s.log 1).chosen.lookup 1 = some 7 ∧ (s.log 1).applied = 0 ∧ s.active 1 = none ∧
      (∀ m ∈ s.learns, m.target = 1 → m.slot ≤ 1) ∧ (s.log 1).maxSeen ≤ 2 ∧ ∀ k ∈ threeReplicas.replicas,
        s.round k + ((s.behind 1 1).card + (s.contested threeReplicas 1 1).card + 1) < 2 ^ 56) (by decide +kernel)
  have faithful : Faithful threeReplicas (id : Nat → Nat) := fun _ _ _ _ _ same => (Option.some.inj same).symm
  exact ⟨s, run, heard, stuck, gap_filler_applies faithful run (by decide) idle (fun _ _ _ _ => ⟨(), rfl⟩) told known
    room⟩

end PrefixMesh.Paxos
