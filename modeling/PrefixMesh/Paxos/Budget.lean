import PrefixMesh.Paxos.Attempt
import PrefixMesh.Paxos.RealTime

/-! How far the twenty attempts of `Submit` go. Every slot that a replica has not recorded
costs its call an attempt, and a second one where a majority has promised a higher ballot
than it has by then. A call that can afford that returns on the quiet network; one that is
further behind does not, unless it is told of some of the slots. -/

namespace PrefixMesh.Paxos

variable {R V σ ρ C : Type} {n : R} {u s t : State R V σ} {call : Call R V} {slot b top : Nat}

def State.behind (s : State R V σ) (n : R) (top : Nat) : Finset Nat :=
  (Finset.range (top + 1)).filter fun slot => (s.log n).chosen.lookup slot = none

/-- The slots up to `top` that replica `n` has not recorded, in the order in which its calls meet them. -/
def State.missing (s : State R V σ) (n : R) (top : Nat) : List Nat :=
  (List.range (top + 1)).filter fun slot => decide ((s.log n).chosen.lookup slot = none)

theorem mem_behind : slot ∈ s.behind n top ↔ slot ≤ top ∧ (s.log n).chosen.lookup slot = none := by
  rw [State.behind, Finset.mem_filter, Finset.mem_range, Nat.lt_succ_iff]

theorem behind_subset (recorded : ∀ i, (u.log n).chosen.lookup i ≠ none → (t.log n).chosen.lookup i ≠ none) :
    t.behind n top ⊆ u.behind n top := by
  intro i inside
  obtain ⟨below, missing⟩ := mem_behind.mp inside
  exact mem_behind.mpr ⟨below, not_imp_not.mp (recorded i) missing⟩

theorem mem_missing : slot ∈ s.missing n top ↔ slot ≤ top ∧ (s.log n).chosen.lookup slot = none := by
  rw [State.missing, List.mem_filter, List.mem_range, Nat.lt_succ_iff, decide_eq_true_eq]

theorem missing_filter (recorded : ∀ i, (u.log n).chosen.lookup i ≠ none → (t.log n).chosen.lookup i ≠ none) :
    t.missing n top = (u.missing n top).filter fun slot => decide ((t.log n).chosen.lookup slot = none) := by
  rw [State.missing, State.missing, List.filter_filter]
  refine List.filter_congr fun i _ => ?_
  have still := recorded i
  by_cases now : (t.log n).chosen.lookup i = none
  · simp [now, not_imp_not.mp still now]
  · simp [now]

variable [LinearOrder R]

/-- The slots that `n` has not recorded and in which its next ballot does not get a majority. -/
def State.contested (c : Cluster R V σ ρ) (s : State R V σ) (n : R) (top : Nat) : Finset Nat :=
  (s.behind n top).filter fun slot => ¬Wins c s.acceptor slot (makeBallot (s.round n + 1) (c.idx n))

variable {c : Cluster R V σ ρ} {meaning : V → C} {a : Action R V ρ}

theorem Wins.mono {acc acc' : R → Acceptor V} {b' : Nat} (wins : Wins c acc slot b)
    (more : ∀ k ∈ c.replicas, Grants acc slot b k → Grants acc' slot b' k) : Wins c acc' slot b' := by
  refine wins.trans (Finset.card_le_card fun k inside => ?_)
  obtain ⟨member, grants⟩ := Finset.mem_filter.mp inside
  exact Finset.mem_filter.mpr ⟨member, more k (List.mem_toFinset.mp member) grants⟩

theorem makeBallot_mono {round round' : Nat} (later : round ≤ round') (small : round' < 2 ^ 56) :
    makeBallot round (c.idx n) ≤ makeBallot round' (c.idx n) := by
  have byte := c.idx_lt n
  rw [makeBallot_eq round _ (by omega) byte, makeBallot_eq round' _ small byte]
  omega

theorem contested_subset (recorded : ∀ i, (u.log n).chosen.lookup i ≠ none → (t.log n).chosen.lookup i ≠ none)
    (later : u.round n ≤ t.round n) (small : t.round n + 1 < 2 ^ 56)
    (same : ∀ i ∈ t.contested c n top, ∀ k ∈ c.replicas, t.acceptor k i = u.acceptor k i) :
    t.contested c n top ⊆ u.contested c n top := by
  intro i inside
  obtain ⟨behind, loses⟩ := Finset.mem_filter.mp inside
  refine Finset.mem_filter.mpr ⟨behind_subset recorded behind, fun wins => loses (wins.mono fun k member grants => ?_)⟩
  rw [Grants, same i inside k member]
  exact lt_of_lt_of_le grants (makeBallot_mono (Nat.succ_le_succ later) small)

theorem wins_caught_up (ballot : makeBallot (u.round n + 1) (c.idx n) = b)
    {round : Nat} (caught : round = catchUpRound (u.round n + 1) (refused c u.acceptor slot b))
    (small : round + 1 < 2 ^ 56) (acceptors : ∀ k ∈ c.replicas,
      t.acceptor k slot = { u.acceptor k slot with promised := max (u.acceptor k slot).promised b }) :
    Wins c t.acceptor slot (makeBallot (round + 1) (c.idx n)) := by
  have byte := c.idx_lt n
  have reached : u.round n + 1 ≤ round := caught ▸ catchUpRound_ge _ _
  have passed : Ballot.round (refused c u.acceptor slot b) ≤ round := caught ▸ catchUpRound_target _ _
  have everyone : c.replicas.toFinset.filter (Grants t.acceptor slot (makeBallot (round + 1) (c.idx n))) =
      c.replicas.toFinset := by
    refine Finset.filter_true_of_mem fun k inside => ?_
    have member := List.mem_toFinset.mp inside
    have own : b < makeBallot (round + 1) (c.idx n) := by
      rw [← ballot, makeBallot_eq _ _ (by omega) byte, makeBallot_eq _ _ small byte]
      omega
    rw [Grants, acceptors k member]
    refine max_lt ?_ own
    by_cases grants : Grants u.acceptor slot b k
    · exact lt_trans grants own
    · have named : refusal u.acceptor slot b k ≤ refused c u.acceptor slot b := Finset.le_sup inside
      rw [refusal, if_neg grants] at named
      have near := Ballot.lt_round_succ (refused c u.acceptor slot b)
      rw [makeBallot_eq _ _ small byte]
      omega
  rw [Wins, everyone, List.toFinset_card_of_nodup c.distinct]
  have := c.nonempty
  omega

theorem unvoted_missing [DecidableEq V] (faithful : Faithful c meaning) (run : Reachable c s)
    (unvoted : Unvoted c s.acceptor slot) : (s.log n).chosen.lookup slot = none := by
  have inv := inv_reachable c meaning faithful s run
  by_contra recorded
  obtain ⟨w, found⟩ := Option.ne_none_iff_exists'.mp recorded
  obtain ⟨_, quorum, majority, voted⟩ := inv.choice.logged n slot w found
  obtain ⟨q, present⟩ := majority.nonempty
  obtain ⟨vote, cast, voter, at_, _⟩ := voted q present
  have member := voter ▸ inv.votes.voters vote cast
  exact inv.votes.unvoted q slot (unvoted q member) vote cast voter at_

section Cost

/-! What an attempt on a slot that is missing leaves to be done. -/

variable [DecidableEq V]

theorem Won.room {proposal : V} (won : Won c n u call slot proposal t) {left : Nat}
    (room : ∀ k ∈ c.replicas, u.round k + (left + 1) < 2 ^ 56) : ∀ k ∈ c.replicas, t.round k + left < 2 ^ 56 := by
  intro k inside
  have := room k inside
  rw [won.rounds]
  by_cases same : k = n
  · subst same
    rw [Function.update_self]
    omega
  · rw [Function.update_of_ne same]
    omega

theorem Lost.room (faithful : Faithful c meaning) (start : Reachable c u) (lost : Lost c n u call slot b t) {left : Nat}
    (room : ∀ k ∈ c.replicas, u.round k + (left + 1) < 2 ^ 56) (enough : left + 1 < 2 ^ 56) :
    ∀ k ∈ c.replicas, t.round k + left < 2 ^ 56 := by
  have passed : Ballot.round (refused c u.acceptor slot b) ≤ 2 ^ 56 - (left + 1) - 1 := by
    refine refused_round faithful start _ b fun k inside => ?_
    have := room k inside
    omega
  intro k inside
  have := room k inside
  by_cases same : k = n
  · subst same
    have caught : t.round k ≤ 2 ^ 56 - (left + 1) := by
      rw [lost.rounds, Function.update_self]
      exact catchUpRound_le (by omega) (by omega)
    omega
  · rw [lost.rounds, Function.update_of_ne same]
    omega

theorem Won.cost {proposal : V} (won : Won c n u call slot proposal t) (here : slot ∈ u.behind n top)
    (small : t.round n + 1 < 2 ^ 56) :
    (t.behind n top).card + (t.contested c n top).card < (u.behind n top).card + (u.contested c n top).card := by
  have round : t.round n = u.round n + 1 := by rw [won.rounds, Function.update_self]
  have fewer : t.behind n top ⊆ (u.behind n top).erase slot := by
    intro i inside
    refine Finset.mem_erase.mpr ⟨?_, behind_subset won.recorded inside⟩
    rintro rfl
    exact won.slotRecorded (mem_behind.mp inside).2
  have easier : t.contested c n top ⊆ u.contested c n top := by
    refine contested_subset won.recorded (by omega) small fun i inside k _ => ?_
    exact won.elsewhere k i (Finset.ne_of_mem_erase (fewer (Finset.mem_filter.mp inside).1))
  have fewer' := Finset.card_le_card fewer
  have easier' := Finset.card_le_card easier
  have nonempty := Finset.card_pos.mpr ⟨_, here⟩
  rw [Finset.card_erase_of_mem here] at fewer'
  omega

theorem Lost.cost (lost : Lost c n u call slot b t) (here : slot ∈ u.behind n top)
    (ballot : makeBallot (u.round n + 1) (c.idx n) = b) (loses : ¬Wins c u.acceptor slot b)
    (small : t.round n + 1 < 2 ^ 56) :
    (t.behind n top).card + (t.contested c n top).card < (u.behind n top).card + (u.contested c n top).card := by
  have round : t.round n = catchUpRound (u.round n + 1) (refused c u.acceptor slot b) := by
    rw [lost.rounds, Function.update_self]
  have contested : slot ∈ u.contested c n top := Finset.mem_filter.mpr ⟨here, ballot ▸ loses⟩
  have settled : slot ∉ t.contested c n top := fun inside =>
    (Finset.mem_filter.mp inside).2 (wins_caught_up ballot round small lost.acceptors)
  have easier : t.contested c n top ⊆ (u.contested c n top).erase slot := by
    intro i inside
    refine Finset.mem_erase.mpr ⟨fun same => settled (same ▸ inside), ?_⟩
    have grown : u.round n + 1 ≤ t.round n := round ▸ catchUpRound_ge _ _
    refine contested_subset lost.recorded (by omega) small (fun j inside' k _ => ?_) inside
    exact lost.elsewhere k j fun same => settled (same ▸ inside')
  have fewer' := Finset.card_le_card (behind_subset lost.recorded : t.behind n top ⊆ u.behind n top)
  have easier' := Finset.card_le_card easier
  have nonempty := Finset.card_pos.mpr ⟨_, contested⟩
  rw [Finset.card_erase_of_mem contested] at easier'
  omega

end Cost

section Attempts

/-- The most attempts that a call of `n` needs to pass the slots, from a round on. A slot takes one attempt, and two if
no majority promises the ballot of the first. A slot in `told` may also be learnt before it is reached or between the
two. -/
def attempts (c : Cluster R V σ ρ) (acc : R → Acceptor V) (n : R) (told : Nat → Bool) : List Nat → Nat → Nat
  | [], _ => 0
  | slot :: rest, round =>
      let b := makeBallot (round + 1) (c.idx n)
      let caught := catchUpRound (round + 1) (refused c acc slot b)
      let skipped := if told slot then attempts c acc n told rest round else 0
      if Wins c acc slot b then max skipped (1 + attempts c acc n told rest (round + 1))
      else
        let learnt := if told slot then 1 + attempts c acc n told rest caught else 0
        max skipped (max learnt (2 + attempts c acc n told rest (caught + 1)))

variable {acc acc' : R → Acceptor V} {told : Nat → Bool} {slots rest : List Nat} {round : Nat}

theorem attempts_pos : 0 < attempts c acc n told (slot :: rest) round := by
  simp only [attempts]
  split
  · omega
  · omega

theorem attempts_congr (same : ∀ i ∈ slots, ∀ k ∈ c.replicas, acc k i = acc' k i) :
    attempts c acc n told slots round = attempts c acc' n told slots round := by
  induction slots generalizing round with
  | nil => rfl
  | cons slot rest ih =>
    obtain ⟨here, others⟩ := List.forall_mem_cons.mp same
    have grants : ∀ b, ∀ k ∈ c.replicas.toFinset, (Grants acc slot b k ↔ Grants acc' slot b k) := by
      intro b k inside
      rw [Grants, Grants, here k (List.mem_toFinset.mp inside)]
    have wins : ∀ b, Wins c acc slot b = Wins c acc' slot b := by
      intro b
      rw [Wins, Wins, Finset.filter_congr (grants b)]
    have refused : ∀ b, refused c acc slot b = refused c acc' slot b := by
      intro b
      refine Finset.sup_congr rfl fun k inside => ?_
      simp only [refusal, grants b k inside, here k (List.mem_toFinset.mp inside)]
    simp only [attempts, wins, refused, ih others]

/-- Learning of slots in `told` takes no more attempts. -/
theorem attempts_filter (p : Nat → Bool) (dropped : ∀ i ∈ slots, p i = false → told i = true) (round : Nat) :
    attempts c acc n told (slots.filter p) round ≤ attempts c acc n told slots round := by
  induction slots generalizing round with
  | nil => exact le_rfl
  | cons slot rest ih =>
    obtain ⟨here, others⟩ := List.forall_mem_cons.mp dropped
    cases kept : p slot with
    | false =>
      have skipped := ih others round
      rw [List.filter_cons_of_neg (by simp [kept])]
      simp only [attempts, here kept, if_true]
      split
      · omega
      · omega
    | true =>
      rw [List.filter_cons_of_pos kept]
      simp only [attempts]
      have skipped := ih others round
      split
      · have reached := ih others (round + 1)
        split
        · omega
        · omega
      · have caught := ih others (catchUpRound (round + 1) (refused c acc slot (makeBallot (round + 1) (c.idx n))))
        have reached :=
          ih others (catchUpRound (round + 1) (refused c acc slot (makeBallot (round + 1) (c.idx n))) + 1)
        split
        · omega
        · omega

theorem missing_eq_cons (inv : (s.log n).Inv c.apply c.start) (below : (s.log n).firstUnchosen ≤ top) :
    ∃ rest, s.missing n top = (s.log n).firstUnchosen :: rest ∧ (s.log n).firstUnchosen ∉ rest := by
  obtain ⟨more, rfl⟩ := Nat.exists_eq_add_of_le below
  have before : (List.range (s.log n).firstUnchosen).filter
      (fun slot => decide ((s.log n).chosen.lookup slot = none)) = [] := by
    refine List.filter_eq_nil_iff.mpr fun i inside => ?_
    rw [decide_eq_true_eq]
    exact Log.firstUnchosen_recorded inv i (List.mem_range.mp inside)
  have split : s.missing n ((s.log n).firstUnchosen + more) = (s.log n).firstUnchosen ::
      (((List.range more).map Nat.succ).map ((s.log n).firstUnchosen + ·)).filter
        fun slot => decide ((s.log n).chosen.lookup slot = none) := by
    rw [State.missing, Nat.add_assoc, List.range_add, List.filter_append, before, List.nil_append,
      List.range_succ_eq_map, List.map_cons, Nat.add_zero, List.filter_cons_of_pos]
    exact decide_eq_true (Log.firstUnchosen_free _)
  refine ⟨_, split, fun again => ?_⟩
  obtain ⟨_, listed, same⟩ := List.mem_map.mp (List.mem_filter.mp again).1
  obtain ⟨_, _, rfl⟩ := List.mem_map.mp listed
  omega

end Attempts

section Hearing

/-- Of the slots that its call has not got chosen, the log of `n` hears only of those in `told`. -/
def Told (told : Nat → Bool) (n : R) (s t : State R V σ) : Prop :=
  ∀ i, (t.log n).chosen.lookup i ≠ none → (s.log n).chosen.lookup i ≠ none ∨ told i = true ∨
    ∃ call ∈ s.active n, ∃ w, call.phase = .committing i w

variable {told : Nat → Bool} {rest : List Nat}

theorem told_of_own [DecidableEq V] (taken : step c s a = some t) (quiet : Quiet c n s a) (own : a.own = true) :
    Told told n s t := by
  intro i recorded
  cases effect_of_step c s t a taken with
  | commit k call slot proposal held phase =>
    cases quiet
    simp only [State.commitLocal, Function.update_self, Log.commit_lookup] at recorded
    split at recorded
    next new => exact Or.inr (Or.inr ⟨call, held, proposal, new.1 ▸ phase⟩)
    next => exact Or.inl recorded
  | deliverLearn => cases own
  | _ => exact Or.inl recorded

theorem alone_told [DecidableEq V] (told : Nat → Bool) : Alone c n (fun s a t => Quiet c n s a ∧ Told told n s t) :=
  ⟨fun _ _ _ _ both _ => both.1, fun _ _ _ taken quiet own => ⟨quiet, told_of_own taken quiet own⟩⟩

/-- All that has been recorded since `u` is in `told`, or was won by the attempt on `slot` that began in `u`. -/
def Heard (c : Cluster R V σ ρ) (n : R) (told : Nat → Bool) (u : State R V σ) (slot b : Nat) (t : State R V σ) : Prop :=
  ∀ i, (t.log n).chosen.lookup i ≠ none → (u.log n).chosen.lookup i ≠ none ∨ told i = true ∨
    i = slot ∧ Wins c u.acceptor slot b

theorem Heard.step (heard : Heard c n told u slot b s) (held : s.active n = some call)
    (wins : ∀ i w, call.phase = .committing i w → i = slot ∧ Wins c u.acceptor slot b) (hears : Told told n s t) :
    Heard c n told u slot b t := by
  intro i recorded
  rcases hears i recorded with before | told | ⟨call', held', w, phase⟩
  · exact heard i before
  · exact Or.inr (Or.inl told)
  · rw [held] at held'
    cases held'
    exact Or.inr (Or.inr (wins i w phase))

theorem Heard.attempts_le (heard : Heard c n told u slot b t) (first : u.missing n top = slot :: rest)
    (once : slot ∉ rest) (elsewhere : ∀ k i, i ≠ slot → t.acceptor k i = u.acceptor k i) (round : Nat) :
    attempts c t.acceptor n told (rest.filter fun i => decide ((t.log n).chosen.lookup i = none)) round ≤
      attempts c u.acceptor n told rest round := by
  have same : attempts c t.acceptor n told (rest.filter fun i => decide ((t.log n).chosen.lookup i = none)) round =
      attempts c u.acceptor n told (rest.filter fun i => decide ((t.log n).chosen.lookup i = none)) round := by
    refine attempts_congr fun i inside k _ => elsewhere k i ?_
    rintro rfl
    exact once (List.mem_of_mem_filter inside)
  rw [same]
  refine attempts_filter _ (fun i inside gone => ?_) _
  have open_ : (u.log n).chosen.lookup i = none :=
    (mem_missing.mp (first ▸ List.mem_cons_of_mem _ inside : i ∈ u.missing n top)).2
  rcases heard i (of_decide_eq_false gone) with before | told | ⟨rfl, _⟩
  · exact absurd open_ before
  · exact told
  · exact absurd inside once

theorem Won.attempts_lt [DecidableEq V] {proposal : V} (won : Won c n u call slot proposal t)
    (heard : Heard c n told u slot b t) (ballot : makeBallot (u.round n + 1) (c.idx n) = b)
    (wins : Wins c u.acceptor slot b) (first : u.missing n top = slot :: rest) (once : slot ∉ rest) :
    attempts c t.acceptor n told (t.missing n top) (t.round n) <
      attempts c u.acceptor n told (u.missing n top) (u.round n) := by
  have fewer := heard.attempts_le first once won.elsewhere (u.round n + 1)
  rw [missing_filter won.recorded, first, List.filter_cons_of_neg (by simpa using won.slotRecorded), won.rounds,
    Function.update_self]
  simp only [attempts, ballot, if_pos wins]
  omega

theorem Lost.attempts_lt [DecidableEq V] (lost : Lost c n u call slot b t) (heard : Heard c n told u slot b t)
    (ballot : makeBallot (u.round n + 1) (c.idx n) = b) (loses : ¬Wins c u.acceptor slot b)
    (small : t.round n + 1 < 2 ^ 56) (first : u.missing n top = slot :: rest) (once : slot ∉ rest) :
    attempts c t.acceptor n told (t.missing n top) (t.round n) <
      attempts c u.acceptor n told (u.missing n top) (u.round n) := by
  have round : t.round n = catchUpRound (u.round n + 1) (refused c u.acceptor slot b) := by
    rw [lost.rounds, Function.update_self]
  have now := heard.attempts_le first once lost.elsewhere (t.round n)
  have next := heard.attempts_le first once lost.elsewhere (t.round n + 1)
  rw [missing_filter lost.recorded, first]
  by_cases open_ : (t.log n).chosen.lookup slot = none
  · -- the second attempt wins
    have wins := wins_caught_up ballot round small lost.acceptors
    rw [List.filter_cons_of_pos (by simpa using open_)]
    simp only [attempts, ballot, if_neg loses, if_pos wins, ← round]
    split
    · omega
    · omega
  · have learnt : told slot = true := by
      rcases heard slot open_ with before | told | ⟨_, wins⟩
      · exact absurd (mem_missing.mp (first ▸ List.mem_cons_self : slot ∈ u.missing n top)).2 before
      · exact told
      · exact absurd wins loses
    rw [List.filter_cons_of_neg (by simpa using open_)]
    simp only [attempts, ballot, if_neg loses, ← round, learnt, if_true]
    omega

end Hearing

section Returns

variable [DecidableEq V]

/-- A call between two attempts that can afford to go on up to `top`, with `left` attempts to go. -/
structure Affords (c : Cluster R V σ ρ) (n : R) (told : Nat → Bool) (id : Nat) (v : V) (s : State R V σ)
    (top left : Nat) (t : State R V σ) : Prop where
  reachable : Reachable c t
  calls : t.calls = s.calls
  returned : t.returned = s.returned
  held : t.active n = some ⟨id, v, 20 - left, .ready⟩
  within : left ≤ 20
  room : ∀ k ∈ c.replicas, t.round k + left < 2 ^ 56
  unvoted : Unvoted c t.acceptor top
  enough : attempts c t.acceptor n told (t.missing n top) (t.round n) ≤ left

variable {told : Nat → Bool} {id left : Nat} {v : V}

theorem Affords.next (faithful : Faithful c meaning) (affords : Affords c n told id v s top left u) :
    ∃ rest, u.missing n top = (u.log n).firstUnchosen :: rest ∧ (u.log n).firstUnchosen ∉ rest := by
  have logInv := logInv_reachable affords.reachable n
  refine missing_eq_cons logInv ?_
  by_contra above
  exact Log.firstUnchosen_recorded logInv top (not_le.mp above)
    (unvoted_missing faithful affords.reachable affords.unvoted)

theorem Affords.positive (faithful : Faithful c meaning) (affords : Affords c n told id v s top left u) : 0 < left := by
  obtain ⟨rest, first, _⟩ := affords.next faithful
  have enough := affords.enough
  rw [first] at enough
  exact lt_of_lt_of_le attempts_pos enough

theorem Affords.learn (faithful : Faithful c meaning) (affords : Affords c n told id v s top left u) {m : LearnMsg R V}
    {w : V} (taken : step c u a = some (u.answerLearn c m w)) (hears : Told told n u (u.answerLearn c m w)) :
    Affords c n told id v s top left (u.answerLearn c m w) := by
  have grows := recorded_step (effect_of_step c u _ a taken) n
  refine { affords with
    reachable := reachable_tail faithful affords.reachable taken rfl
    enough := ?_ }
  refine le_trans ?_ affords.enough
  rw [missing_filter grows]
  refine attempts_filter _ (fun i inside gone => ?_) _
  rcases hears i (of_decide_eq_false gone) with before | told | ⟨call, held, w, phase⟩
  · exact absurd (mem_missing.mp inside).2 before
  · exact told
  · rw [affords.held] at held
    cases held
    cases phase

theorem Affords.pass (faithful : Faithful c meaning) (affords : Affords c n told id v s top (left + 1) u)
    (equal : c.equal v v = true) {proposal : V} (ballot : makeBallot (u.round n + 1) (c.idx n) = b)
    (heard : Heard c n told u (u.log n).firstUnchosen b t) (wins : Wins c u.acceptor (u.log n).firstUnchosen b)
    (won : Won c n u ⟨id, v, 20 - (left + 1), .ready⟩ (u.log n).firstUnchosen proposal t)
    (other : c.equal proposal v = false) : Affords c n told id v s top left t := by
  have within := affords.within
  have apart : top ≠ (u.log n).firstUnchosen := by
    intro same
    rw [won.proposes (same ▸ affords.unvoted), equal] at other
    cases other
  obtain ⟨held, returned⟩ : t.active n = some ⟨id, v, 20 - (left + 1) + 1, .ready⟩ ∧ t.returned = u.returned := by
    have ended := won.ended
    rwa [if_neg (by rw [other]; exact Bool.false_ne_true)] at ended
  obtain ⟨rest, first, once⟩ := affords.next faithful
  refine {
    reachable := won.reachable
    calls := won.calls.trans affords.calls
    returned := returned.trans affords.returned
    held := ?_
    within := by omega
    room := won.room affords.room
    unvoted := fun k inside => by rw [won.elsewhere k top apart]; exact affords.unvoted k inside
    enough := ?_ }
  · rw [held, show 20 - (left + 1) + 1 = 20 - left by omega]
  · exact Nat.le_of_lt_succ (lt_of_lt_of_le (won.attempts_lt heard ballot wins first once) affords.enough)

theorem Affords.lost (faithful : Faithful c meaning) (affords : Affords c n told id v s top (left + 1) u)
    (ballot : makeBallot (u.round n + 1) (c.idx n) = b) (heard : Heard c n told u (u.log n).firstUnchosen b t)
    (loses : ¬Wins c u.acceptor (u.log n).firstUnchosen b)
    (lost : Lost c n u ⟨id, v, 20 - (left + 1), .ready⟩ (u.log n).firstUnchosen b t) :
    Affords c n told id v s top left t := by
  have member := (inv_reachable c meaning faithful u affords.reachable).ballots.members n _ affords.held
  have within := affords.within
  obtain ⟨rest, first, once⟩ := affords.next faithful
  have room := lost.room faithful affords.reachable affords.room (by omega)
  refine {
    reachable := lost.reachable
    calls := lost.calls.trans affords.calls
    returned := lost.returned.trans affords.returned
    held := ?_
    within := by omega
    room := room
    unvoted := ?_
    enough := ?_ }
  · rw [lost.held, show 20 - (left + 1) + 1 = 20 - left by omega]
  · intro k inside
    by_cases same : top = (u.log n).firstUnchosen
    · rw [same, lost.acceptors k inside, ← same]
      exact affords.unvoted k inside
    · rw [lost.elsewhere k top same]
      exact affords.unvoted k inside
  · -- the slot takes a second attempt, so one is left
    have two := affords.enough
    simp only [first, attempts, ballot, if_neg loses] at two
    have small : t.round n + 1 < 2 ^ 56 := by
      have := room n member
      omega
    exact Nat.le_of_lt_succ (lt_of_lt_of_le (lost.attempts_lt heard ballot loses small first once) affords.enough)

theorem Affords.starts (faithful : Faithful c meaning) (affords : Affords c n told id v s top left t) :
    Lib.Inevitable (step c) (fun s a t => Quiet c n s a ∧ Told told n s t)
      (fun t => ∃ u a, Affords c n told id v s top left u ∧ step c u a = some t ∧
        t = u.attempt c n ⟨id, v, 20 - left, .ready⟩) t := by
  refine Lib.Inevitable.of_rank (fun k l t => Affords c n told id v s top left t ∧ k = 0 ∧ l = t.unlearnt) ?_ ?_ 0 _ t
    ⟨affords, rfl, rfl⟩
  · rintro _ _ u ⟨affords, _⟩
    have positive := affords.positive faithful
    have budget : 20 - left < 20 := by have := affords.within; omega
    have taken : step c u (.attempt n) = some (u.attempt c n ⟨id, v, 20 - left, .ready⟩) := by
      simp only [step, affords.held]
      exact if_pos budget
    exact ⟨.attempt n, _, taken, rfl, told_of_own taken rfl rfl⟩
  · rintro _ _ u a t ⟨affords, rfl, rfl⟩ taken ⟨quiet, hears⟩
    have held := affords.held
    cases move_of_step taken quiet with
    | attempt call' held' _ _ =>
      rw [held] at held'
      cases held'
      exact Or.inl ⟨u, a, affords, taken, rfl⟩
    | giveUp call' held' _ spent =>
      rw [held] at held'
      cases held'
      have positive := affords.positive faithful
      have within := affords.within
      change 20 ≤ 20 - left at spent
      omega
    | learn m w sent missing =>
      exact Or.inr ⟨0, _, ⟨affords.learn faithful taken hears, rfl, rfl⟩, Or.inr ⟨rfl, unlearnt_learn w sent missing⟩⟩
    | ask _ _ _ _ held' phase' | recvPromise _ _ _ _ held' phase' | losePrepare _ _ held' phase'
    | propose _ _ held' phase' | offer _ _ _ _ held' phase' | recvAck _ _ _ _ held' phase'
    | loseAccept _ _ held' phase' | announce _ _ held' phase' | commit _ _ _ held' phase' =>
      exact other_phase held held' phase' (by intro here; cases here)

theorem Affords.returns (faithful : Faithful c meaning) (equal : c.equal v v = true) (carries : Carries c meaning s)
    (affords : Affords c n told id v s top left t) :
    Lib.Inevitable (step c) (fun s a t => Quiet c n s a ∧ Told told n s t)
      (fun t => ∃ slot w, t.returned = ⟨id, slot, w⟩ :: s.returned) t := by
  induction left generalizing t with
  | zero => exact absurd (affords.positive faithful) (Nat.lt_irrefl 0)
  | succ left ih =>
    refine (affords.starts faithful).bind ?_
    rintro _ ⟨u, a, affords, taken, rfl⟩
    have carries' : Carries c meaning u := by rw [Carries, affords.calls]; exact carries
    have room : ∀ k ∈ c.replicas, u.round k + 1 < 2 ^ 56 := fun k member => by
      have := affords.room k member
      omega
    have course := attempt_ends (alone_told told)
      (fun s a t call heard held wins _ allowed => Heard.step heard held wins allowed.2) faithful carries'
      affords.reachable affords.held room rfl rfl taken (fun i recorded => Or.inl recorded)
    refine course.bind ?_
    rintro t ⟨heard, ⟨wins, proposal, won⟩ | ⟨loses, lost⟩⟩
    · cases same : c.equal proposal v with
      | true =>
        have ended := won.ended
        rw [if_pos same] at ended
        exact .now ⟨_, proposal, by rw [ended.2, affords.returned]⟩
      | false => exact ih (affords.pass faithful equal rfl heard wins won same)
    · exact ih (affords.lost faithful rfl heard loses lost)

end Returns

section Fails

def Untold (n : R) (s t : State R V σ) : Prop :=
  ∀ i, (t.log n).chosen.lookup i ≠ none →
    (s.log n).chosen.lookup i ≠ none ∨ ∃ call ∈ s.active n, call.phase.slot = some i

theorem Move.running (move : Move c n s t) {next : Call R V} (running : t.active n = some next) :
    ∃ call, s.active n = some call ∧ call.value = next.value ∧
      (call.attempt = next.attempt ∧ call.phase.slot = next.phase.slot ∨
        call.attempt = next.attempt ∧ call.attempt < 20 ∧ call.phase.slot = none ∧
          next.phase.slot = some (s.log n).firstUnchosen ∨
        call.attempt + 1 = next.attempt ∧ next.phase.slot = none) := by
  cases move with
  | attempt call held phase budget =>
    simp only [State.attempt, Function.update_self, Option.some.injEq] at running
    subst running
    exact ⟨call, held, rfl, Or.inr (Or.inl ⟨rfl, budget, by rw [phase]; rfl, rfl⟩)⟩
  | giveUp call held phase spent =>
    simp only [State.setActive, Function.update_self] at running
    cases running
  | recvPromise peer reply call p held phase _ _ =>
    simp only [State.setActive, Function.update_self, Option.some.injEq] at running
    subst running
    exact ⟨call, held, rfl, Or.inl ⟨rfl, by simp only [phase, Phase.slot, (p.collect_eq peer reply).1]⟩⟩
  | recvAck peer reply call a held phase _ _ =>
    simp only [State.setActive, Function.update_self, Option.some.injEq] at running
    subst running
    exact ⟨call, held, rfl, Or.inl ⟨rfl, by simp only [phase, Phase.slot, (a.collect_eq peer reply).1]⟩⟩
  | losePrepare call p held _ _ _ | loseAccept call p held _ _ _ =>
    simp only [State.lose, Function.update_self, Option.some.injEq] at running
    subst running
    exact ⟨call, held, rfl, Or.inr (Or.inr ⟨rfl, rfl⟩)⟩
  | propose call p held phase _ _ =>
    simp only [State.propose, Function.update_self, Option.some.injEq] at running
    subst running
    exact ⟨call, held, rfl, Or.inl ⟨rfl, by rw [phase]; rfl⟩⟩
  | announce call p held phase _ _ =>
    simp only [State.announce, Function.update_self, Option.some.injEq] at running
    subst running
    exact ⟨call, held, rfl, Or.inl ⟨rfl, by rw [phase]; rfl⟩⟩
  | commit call slot proposal held _ =>
    simp only [State.commitLocal, Function.update_self] at running
    split at running
    · cases running
    · cases running
      exact ⟨call, held, rfl, Or.inr (Or.inr ⟨rfl, rfl⟩)⟩
  | ask | offer | learn => exact ⟨next, running, rfl, Or.inl ⟨rfl, rfl⟩⟩

def State.unpassed (t : State R V σ) (n : R) (slots : Finset Nat) (call : Call R V) : Finset Nat :=
  slots.filter fun i => (t.log n).chosen.lookup i = none ∨ call.phase.slot = some i

structure Trails [DecidableEq V] (c : Cluster R V σ ρ) (n : R) (v : V) (s : State R V σ) (top : Nat)
    (t : State R V σ) : Prop where
  later : Leads c s t
  returned : t.returned = s.returned
  running : ∀ call, t.active n = some call → call.value = v ∧
    (∀ i, call.phase.slot = some i → i ∈ s.behind n top) ∧
    20 ≤ call.attempt + (t.unpassed n (s.behind n top) call).card

variable {v : V} {next : Call R V} {slots : Finset Nat}

omit [LinearOrder R] in
theorem unpassed_still (untold : Untold n u t) (held : u.active n = some call) {i : Nat}
    (inside : i ∈ u.unpassed n slots call) :
    i ∈ slots ∧ ((t.log n).chosen.lookup i = none ∨ call.phase.slot = some i) := by
  obtain ⟨member, open_⟩ := Finset.mem_filter.mp inside
  refine ⟨member, or_iff_not_imp_left.mpr fun recorded => ?_⟩
  rcases untold i recorded with known | ⟨call', held', at_⟩
  · exact open_.resolve_left known
  · rw [held] at held'
    cases held'
    exact at_

omit [LinearOrder R] in
theorem unpassed_running (untold : Untold n u t) (held : u.active n = some call)
    (course : call.attempt = next.attempt ∧ call.phase.slot = next.phase.slot ∨
      call.attempt = next.attempt ∧ call.attempt < 20 ∧ call.phase.slot = none ∧
        next.phase.slot = some (u.log n).firstUnchosen ∨
      call.attempt + 1 = next.attempt ∧ next.phase.slot = none) :
    call.attempt + (u.unpassed n slots call).card ≤ next.attempt + (t.unpassed n slots next).card := by
  rcases course with ⟨same, at_⟩ | ⟨same, _, nowhere, _⟩ | ⟨spent, nowhere⟩
  · rw [same]
    refine Nat.add_le_add_left (Finset.card_le_card fun i inside => ?_) _
    obtain ⟨member, open_⟩ := unpassed_still untold held inside
    exact Finset.mem_filter.mpr ⟨member, at_ ▸ open_⟩
  · rw [same]
    refine Nat.add_le_add_left (Finset.card_le_card fun i inside => ?_) _
    obtain ⟨member, open_⟩ := unpassed_still untold held inside
    rw [nowhere, or_iff_left (by intro here; cases here)] at open_
    exact Finset.mem_filter.mpr ⟨member, Or.inl open_⟩
  · -- the only slot that may be passed is the one the call was at
    have passes : u.unpassed n slots call ⊆ t.unpassed n slots next ∪ call.phase.slot.toFinset := by
      intro i inside
      obtain ⟨member, missing | here⟩ := unpassed_still untold held inside
      · exact Finset.mem_union_left _ (Finset.mem_filter.mpr ⟨member, Or.inl missing⟩)
      · exact Finset.mem_union_right _ (Option.mem_toFinset.mpr here)
    have one : call.phase.slot.toFinset.card ≤ 1 := by
      cases call.phase.slot with
      | none => exact Nat.zero_le 1
      | some i => exact le_rfl
    have counted := (Finset.card_le_card passes).trans (Finset.card_union_le _ _)
    omega

theorem Trails.keep [DecidableEq V] (trails : Trails c n v s top u) (faithful : Faithful c meaning)
    (run : Reachable c s) (respects : ∀ w w' x, meaning w = meaning w' → c.equal w x = c.equal w' x)
    (others : ∀ i ∈ s.behind n top, ∃ w, Chosen c meaning s i (meaning w) ∧ c.equal w v = false)
    (taken : step c u a = some t) (quiet : Quiet c n u a) (untold : Untold n u t) (small : RoundsBelow c t) :
    Trails c n v s top t := by
  have reached : Reachable c u := run.trans trails.later
  have inv := inv_reachable c meaning faithful u reached
  have move := move_of_step taken quiet
  refine ⟨trails.later.tail taken small, ?_, ?_⟩
  · -- the value chosen in a slot of the lag is not that of the call
    refine trails.returned ▸ ?_
    cases move with
    | commit call slot proposal held phase =>
      obtain ⟨value, inside, _⟩ := trails.running call held
      obtain ⟨w, chosen, other⟩ := others slot (inside slot (by rw [phase]; rfl))
      have decided : Chosen c meaning u slot (meaning proposal) := by
        have quorum := inv.choice.phases n call held
        rwa [phase] at quorum
      have same := chosen_agree inv decided (chosen.mono (votes_leads trails.later))
      simp only [State.commitLocal]
      rw [if_neg]
      rw [value, respects _ _ _ same, other]
      exact Bool.false_ne_true
    | _ => rfl
  · intro next running
    obtain ⟨call, held, value, course⟩ := move.running running
    obtain ⟨value', inside, enough⟩ := trails.running call held
    refine ⟨value.symm.trans value', ?_, ?_⟩
    · intro i at_
      rcases course with ⟨_, same⟩ | ⟨_, budget, nowhere, first⟩ | ⟨_, nowhere⟩
      · exact inside i (same.trans at_)
      · -- some slot of the lag is still missing, and the call goes to the first such slot
        cases first.symm.trans at_
        obtain ⟨j, ahead⟩ := Finset.card_pos.mp (show 0 < (u.unpassed n (s.behind n top) call).card by omega)
        obtain ⟨lagging, missing⟩ := Finset.mem_filter.mp ahead
        rw [nowhere, or_iff_left (by intro here; cases here)] at missing
        refine mem_behind.mpr ⟨le_trans ?_ (mem_behind.mp lagging).1, ?_⟩
        · by_contra above
          exact Log.firstUnchosen_recorded (logInv_reachable reached n) j (not_le.mp above) missing
        · by_contra known
          obtain ⟨w, found⟩ := Option.ne_none_iff_exists'.mp known
          have kept := lookup_leads trails.later n _ w found
          rw [Log.firstUnchosen_free] at kept
          cases kept
      · rw [nowhere] at at_
        cases at_
    · exact enough.trans (unpassed_running untold held course)

/-- A call that is twenty slots behind the chosen log, with the values of other calls in them, does not return nil. -/
theorem trails_of_behind [DecidableEq V] {id : Nat} (faithful : Faithful c meaning)
    (respects : ∀ w w' x, meaning w = meaning w' → c.equal w x = c.equal w' x) (run : Reachable c s)
    (held : s.active n = some ⟨id, v, 0, .ready⟩)
    (others : ∀ i ∈ s.behind n top, ∃ w, Chosen c meaning s i (meaning w) ∧ c.equal w v = false)
    (lag : 20 ≤ (s.behind n top).card)
    (later : Lib.Reaches (step c) (fun u a t => Quiet c n u a ∧ Untold n u t ∧ RoundsBelow c t) s t) :
    Trails c n v s top t := by
  refine later.invariant (Trails c n v s top) ⟨.refl, rfl, ?_⟩ ?_
  · intro call running
    rw [held] at running
    cases running
    refine ⟨rfl, fun _ here => (by cases here), ?_⟩
    have all : s.unpassed n (s.behind n top) ⟨id, v, 0, .ready⟩ = s.behind n top :=
      Finset.filter_true_of_mem fun i inside => Or.inl (mem_behind.mp inside).2
    rw [all]
    omega
  · rintro u a w trails taken ⟨quiet, untold, small⟩
    exact trails.keep faithful run respects others taken quiet untold small

end Fails

/-- A `Submit` on the quiet network. It returns nil if the slots that its replica has not recorded, up to one in which
nobody has voted, take at most twenty attempts, whichever of the slots in `told` it learns of on the way and when. It
does not if twenty slots that its replica has not recorded, and is not told of, are chosen with the values of other
calls. -/
theorem quiet_submit_budget [DecidableEq V] {id : Nat} {v : V} (faithful : Faithful c meaning)
    (respects : ∀ w w' x, meaning w = meaning w' → c.equal w x = c.equal w' x) (run : Reachable c s)
    (held : s.active n = some ⟨id, v, 0, .ready⟩) (equal : c.equal v v = true) (carries : Carries c meaning s)
    (room : ∀ k ∈ c.replicas, s.round k + 20 < 2 ^ 56) :
    (∀ told top, Unvoted c s.acceptor top → attempts c s.acceptor n told (s.missing n top) (s.round n) ≤ 20 →
      Lib.Inevitable (step c) (fun u a t => Quiet c n u a ∧ Told told n u t)
        (fun t => ∃ slot w, t.returned = ⟨id, slot, w⟩ :: s.returned) s) ∧
    ∀ top, 20 ≤ (s.behind n top).card →
      (∀ i ∈ s.behind n top, ∃ w, Chosen c meaning s i (meaning w) ∧ c.equal w v = false) →
      ∀ t, Lib.Reaches (step c) (fun u a t => Quiet c n u a ∧ Untold n u t ∧ RoundsBelow c t) s t →
        t.returned = s.returned := by
  refine ⟨fun told top unvoted enough => ?_, fun top lag others t later => ?_⟩
  · have affords : Affords c n told id v s top 20 s := ⟨run, rfl, rfl, held, le_rfl, room, unvoted, enough⟩
    exact affords.returns faithful equal carries
  · exact (trails_of_behind faithful respects run held others lag later).returned

/-- Replica `p` gets 7 chosen in the first `count` slots together with `q` while `r` is silent, and tells nobody.
Replica `q` then submits 8. -/
def lagBehind (p q r : R) (count : Nat) : List (Action R Nat Unit) :=
  ((List.range count).flatMap fun slot =>
    let ballot := 256 * (slot + 1)
    [.submit p 7, .acquire p slot 7] ++
      roundActions p slot ballot 7 [(p, ⟨true, 0, none, ballot⟩), (q, ⟨true, 0, none, ballot⟩)] [r] ()) ++
  [.submit q 8, .acquire q count 8]

/-- Replica `q` recovers the first `count` slots, one with each attempt, and gives up. -/
def recoverAll (p q r : R) (count : Nat) : List (Action R Nat Unit) :=
  ((List.range count).flatMap fun slot =>
    let ballot := 256 * (slot + 1)
    let voted := ⟨true, ballot, some 7, ballot + 1⟩
    roundActions q slot (ballot + 1) 7 [(p, voted), (q, voted), (r, ⟨true, 0, none, ballot + 1⟩)] [] ()) ++ [.giveUp q]

/-- Replica 1 is nineteen slots behind and told of none of them, or two slots behind and perhaps told of either. -/
theorem lagBehind_returns : (∃ s, Reachable threeReplicas s ∧ (s.log 0).applied = 19 ∧ (s.log 1).applied = 0 ∧
      Lib.Inevitable (step threeReplicas)
        (fun u a t => Quiet threeReplicas 1 u a ∧ Told (fun _ => false) 1 u t)
        (fun t => ∃ slot w, t.returned = ⟨19, slot, w⟩ :: s.returned) s) ∧
    ∃ s, Reachable threeReplicas s ∧ (s.log 0).applied = 2 ∧ (s.log 1).applied = 0 ∧
      Lib.Inevitable (step threeReplicas)
        (fun u a t => Quiet threeReplicas 1 u a ∧ Told (fun _ => true) 1 u t)
        (fun t => ∃ slot w, t.returned = ⟨2, slot, w⟩ :: s.returned) s := by
  have faithful : Faithful threeReplicas (id : Nat → Nat) := fun _ _ _ _ _ same => (Option.some.inj same).symm
  have respects : ∀ w w' x : Nat, id w = id w' → threeReplicas.equal w x = threeReplicas.equal w' x := by
    rintro w _ x rfl
    rfl
  constructor
  · obtain ⟨s, run, ahead, behind, held, room, unvoted, enough⟩ := Lib.reaches_of_check (step threeReplicas)
      (fun _ _ u => RoundsBelow threeReplicas u) (lagBehind 0 1 2 19) threeReplicas.init
      (fun s => (s.log 0).applied = 19 ∧ (s.log 1).applied = 0 ∧ s.active 1 = some ⟨19, 8, 0, .ready⟩ ∧
        (∀ k ∈ threeReplicas.replicas, s.round k + 20 < 2 ^ 56) ∧ Unvoted threeReplicas s.acceptor 19 ∧
        attempts threeReplicas s.acceptor 1 (fun _ => false) (s.missing 1 19) (s.round 1) ≤ 20) (by decide +kernel)
    have budget := quiet_submit_budget faithful respects run held rfl (fun _ _ _ _ => ⟨(), rfl⟩) room
    exact ⟨s, run, ahead, behind, budget.1 _ 19 unvoted enough⟩
  · obtain ⟨s, run, ahead, behind, held, room, unvoted, enough⟩ := Lib.reaches_of_check (step threeReplicas)
      (fun _ _ u => RoundsBelow threeReplicas u) (lagBehind 0 1 2 2) threeReplicas.init
      (fun s => (s.log 0).applied = 2 ∧ (s.log 1).applied = 0 ∧ s.active 1 = some ⟨2, 8, 0, .ready⟩ ∧
        (∀ k ∈ threeReplicas.replicas, s.round k + 20 < 2 ^ 56) ∧ Unvoted threeReplicas s.acceptor 2 ∧
        attempts threeReplicas s.acceptor 1 (fun _ => true) (s.missing 1 2) (s.round 1) ≤ 20) (by decide +kernel)
    have budget := quiet_submit_budget faithful respects run held rfl (fun _ _ _ _ => ⟨(), rfl⟩) room
    exact ⟨s, run, ahead, behind, budget.1 _ 2 unvoted enough⟩

/-- Replica 1 is twenty slots behind. -/
theorem lagBehind_gives_up : ∃ s, Reachable threeReplicas s ∧ (s.log 0).applied = 20 ∧ (s.log 1).applied = 0 ∧
    s.active 1 = some ⟨20, 8, 0, .ready⟩ ∧ ∃ t, Lib.Reaches (step threeReplicas)
      (fun u a t => Quiet threeReplicas 1 u a ∧ RoundsBelow threeReplicas t) s t ∧ t.active 1 = none ∧
      t.returned = s.returned := by
  obtain ⟨s, run, ahead, behind, held, ends⟩ := Lib.reaches_of_check (step threeReplicas)
    (fun _ _ u => RoundsBelow threeReplicas u) (lagBehind 0 1 2 20) threeReplicas.init
    (fun s => (s.log 0).applied = 20 ∧ (s.log 1).applied = 0 ∧ s.active 1 = some ⟨20, 8, 0, .ready⟩ ∧
      (Lib.runActions (step threeReplicas) (fun u a t => Quiet threeReplicas 1 u a ∧ RoundsBelow threeReplicas t) s
        (recoverAll 0 1 2 20)).any (fun t => decide (t.active 1 = none ∧ t.returned = s.returned)) = true)
    (by decide +kernel)
  exact ⟨s, run, ahead, behind, held, Lib.reaches_of_check (step threeReplicas) _ (recoverAll 0 1 2 20) s _ ends⟩

end PrefixMesh.Paxos
