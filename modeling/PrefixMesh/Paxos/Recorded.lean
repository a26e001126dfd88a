import PrefixMesh.Paxos.Agreement

/-! What the logs of a run hold. A recorded slot keeps its value for good, the logs
of all replicas agree wherever they overlap, and every log is in the shape that
`Commit` keeps. -/

namespace PrefixMesh.Paxos

variable {R V σ ρ C : Type} [LinearOrder R] [DecidableEq V]

private theorem log_effect {c : Cluster R V σ ρ} {s t : State R V σ} {a : Action R V ρ}
    (effect : Effect c s a t) : t.log = s.log ∨
      ∃ n slot v, t.log = Function.update s.log n ((s.log n).commit c.apply slot v) := by
  cases effect with
  | commit n call slot proposal _ _ => exact Or.inr ⟨n, slot, proposal, rfl⟩
  | deliverLearn m r v _ _ => exact Or.inr ⟨m.target, m.slot, v, rfl⟩
  | _ => exact Or.inl rfl

theorem lookup_step {c : Cluster R V σ ρ} {s t : State R V σ} {a : Action R V ρ} (effect : Effect c s a t)
    (n : R) (slot : Nat) (v : V) (found : (s.log n).chosen.lookup slot = some v) :
    (t.log n).chosen.lookup slot = some v := by
  rcases log_effect effect with same | ⟨k, at_, w, moved⟩
  · rw [same]
    exact found
  · rw [moved]
    by_cases here : n = k
    · subst here
      rw [Function.update_self]
      exact Log.commit_known c.apply _ at_ w slot v found
    · rw [Function.update_of_ne here]
      exact found

theorem recorded_step {c : Cluster R V σ ρ} {s t : State R V σ} {a : Action R V ρ} (effect : Effect c s a t) (n : R)
    (slot : Nat) (recorded : (s.log n).chosen.lookup slot ≠ none) : (t.log n).chosen.lookup slot ≠ none := by
  obtain ⟨v, found⟩ := Option.ne_none_iff_exists'.mp recorded
  rw [lookup_step effect n slot v found]
  exact Option.some_ne_none v

theorem lookup_leads {c : Cluster R V σ ρ} {s t : State R V σ} (later : Leads c s t) (n : R) (slot : Nat)
    (v : V) (found : (s.log n).chosen.lookup slot = some v) : (t.log n).chosen.lookup slot = some v :=
  later.invariant (fun u => (u.log n).chosen.lookup slot = some v) found
    (fun u a w holds taken _ => lookup_step (effect_of_step c u w a taken) n slot v holds)

theorem log_invariant {c : Cluster R V σ ρ} {s : State R V σ} (holds : Log V σ → Prop) (start : holds (newLog c.start))
    (commit : ∀ l slot v, holds l → holds (l.commit c.apply slot v)) (run : Reachable c s) (n : R) :
    holds (s.log n) := by
  refine run.invariant (fun u => holds (u.log n)) start ?_
  intro u a w inv taken _
  rcases log_effect (effect_of_step c u w a taken) with same | ⟨k, at_, v, moved⟩
  · rw [same]
    exact inv
  · rw [moved]
    by_cases here : n = k
    · subst here
      rw [Function.update_self]
      exact commit _ at_ v inv
    · rw [Function.update_of_ne here]
      exact inv

theorem logInv_reachable {c : Cluster R V σ ρ} {s : State R V σ} (run : Reachable c s) (n : R) :
    (s.log n).Inv c.apply c.start :=
  log_invariant (fun l => l.Inv c.apply c.start) (newLog_inv c.apply c.start)
    (fun l slot v inv => Log.commit_inv c.apply c.start l inv slot v) run n

theorem votes_step {c : Cluster R V σ ρ} {s t : State R V σ} {a : Action R V ρ} (effect : Effect c s a t) :
    ∀ v ∈ s.votes, v ∈ t.votes := by
  intro v cast
  cases effect with
  | deliverAccept m r x _ _ =>
    simp only [State.answerAccept]
    split_ifs
    · exact List.mem_cons_of_mem _ cast
    · exact cast
  | _ => exact cast

theorem votes_leads {c : Cluster R V σ ρ} {s t : State R V σ} (later : Leads c s t) :
    ∀ v ∈ s.votes, v ∈ t.votes := by
  refine later.invariant (fun u => ∀ v ∈ s.votes, v ∈ u.votes) (fun _ => id) ?_
  intro u a w holds taken _ v cast
  exact votes_step (effect_of_step c u w a taken) v (holds v cast)

theorem log_outsider {c : Cluster R V σ ρ} {meaning : V → C} (faithful : Faithful c meaning) {s : State R V σ}
    (run : Reachable c s) {n : R} (outside : n ∉ c.replicas) : s.log n = newLog c.start := by
  have all : Reachable c s ∧ (∀ m ∈ s.learns, m.target ∈ c.replicas) ∧ s.log n = newLog c.start := by
    refine run.invariant (fun u => Reachable c u ∧ (∀ m ∈ u.learns, m.target ∈ c.replicas) ∧ u.log n = newLog c.start)
      ⟨.refl, (fun _ member => by cases member), rfl⟩ ?_
    intro u a w ⟨reached, targets, empty⟩ taken small
    have members := (inv_reachable c meaning faithful u reached).ballots.members
    refine ⟨reached.tail taken small, ?_⟩
    cases effect_of_step c u w a taken with
    | announce k call a held _ _ _ =>
      refine ⟨fun m member => ?_, empty⟩
      rcases List.mem_append.mp member with fresh | old
      · obtain ⟨peer, listed, rfl⟩ := List.mem_map.mp fresh
        exact (c.mem_lists k peer).mp listed
      · exact targets m old
    | commit k call slot proposal held _ =>
      have other : n ≠ k := fun same => outside (same ▸ members k call held)
      exact ⟨targets, (Function.update_of_ne other _ _).trans empty⟩
    | deliverLearn m r v sent _ =>
      have other : n ≠ m.target := fun same => outside (same ▸ targets m sent)
      exact ⟨targets, (Function.update_of_ne other _ _).trans empty⟩
    | _ => exact ⟨targets, empty⟩
  exact all.2.2

theorem recorded_meaning {c : Cluster R V σ ρ} {meaning : V → C} (faithful : Faithful c meaning)
    {s t : State R V σ} (run : Reachable c s) (later : Leads c s t) {n k : R} {slot : Nat} {v w : V}
    (first : (s.log n).chosen.lookup slot = some v) (second : (t.log k).chosen.lookup slot = some w) :
    meaning v = meaning w := by
  have inv := inv_reachable c meaning faithful t (run.trans later)
  exact chosen_agree inv (inv.choice.logged n slot v (lookup_leads later n slot v first))
    (inv.choice.logged k slot w second)

/-- Agreement, quorum and validity of what the logs record, over a transport that delivers
values unchanged. The two states cover two reads at different moments of one run. -/
theorem recorded_agreement_quorum_validity (c : Cluster R V σ ρ)
    (unchanged : ∀ p q r v w, c.carry p q r v = some w → w = v)
    (s t : State R V σ) (run : Reachable c s) (later : Leads c s t) :
    (∀ n k slot v w, (s.log n).chosen.lookup slot = some v → (t.log k).chosen.lookup slot = some w →
      v = w) ∧
    (∀ n slot v, (s.log n).chosen.lookup slot = some v →
      ∃ ballot quorum, Lib.Majority c.replicas quorum ∧
        ∀ q ∈ quorum, (⟨q, slot, ballot, v⟩ : Vote R V) ∈ s.votes) ∧
    (∀ n slot v, (s.log n).chosen.lookup slot = some v → ∃ k, (k, v) ∈ s.calls) := by
  have faithful : Faithful c (id : V → V) := fun p q r v w carried => unchanged p q r v w carried
  have inv := inv_reachable c id faithful s run
  refine ⟨?_, ?_, ?_⟩
  · intro n k slot v w first second
    exact recorded_meaning faithful run later first second
  · intro n slot v found
    obtain ⟨ballot, quorum, majority, voted⟩ := inv.choice.logged n slot v found
    refine ⟨ballot, quorum, majority, ?_⟩
    intro q present
    obtain ⟨vote, cast, rfl, rfl, rfl, value⟩ := voted q present
    cases vote with
    | mk a k b w =>
      cases (value : w = v)
      exact cast
  · intro n slot v found
    obtain ⟨⟨k, w⟩, made, same⟩ := chosen_called inv (inv.choice.logged n slot v found)
    cases (same : w = v)
    exact ⟨k, made⟩

/-- One round of a `Submit` call of `n`: `answers` are the promises that come back, the calls to
the `silent` peers time out in both phases. -/
def roundActions (n : R) (slot ballot : Nat) (proposal : V) (answers : List (R × PrepareReply V))
    (silent : List R) (r : ρ) : List (Action R V ρ) :=
  .attempt n ::
    (answers.flatMap fun answer =>
      [.deliverPrepare ⟨n, answer.1, slot, ballot⟩ r, .recvPromise n answer.1 answer.2]) ++
    silent.map (.failPrepare n) ++
    .finishPrepare n ::
    (answers.flatMap fun answer =>
      [.deliverAccept ⟨n, answer.1, slot, ballot, proposal⟩ r, .recvAck n answer.1 ⟨true, ballot⟩]) ++
    silent.map (.failAccept n) ++
    [.finishAccept n, .commit n]

def threeReplicas : Cluster (Fin 3) Nat Unit Unit where
  replicas := [0, 1, 2]
  lists := fun _ => [0, 1, 2]
  equal := fun v w => v == w
  noop := fun _ => 0
  apply := fun _ _ _ => ()
  start := ()
  carry := fun _ _ _ v => some v
  distinct := by decide
  nonempty := by decide
  atMost := by decide
  listed := fun _ => .refl _

/-- Replica 0 gets 7 chosen with replica 1 while replica 2 is silent; replica 1 then learns it. -/
theorem threeReplicas_learn : ∃ s, Reachable threeReplicas s ∧ (s.log 0).chosen.lookup 0 = some 7 ∧
    (s.log 1).chosen.lookup 0 = some 7 ∧ (∃ k, (k, 7) ∈ s.calls) := by
  obtain ⟨s, run, first, second⟩ := Lib.reaches_of_check (step threeReplicas)
    (fun _ _ u => RoundsBelow threeReplicas u)
    ([.submit 0 7, .acquire 0 0 7] ++
      roundActions 0 0 256 7 [(0, ⟨true, 0, none, 256⟩), (1, ⟨true, 0, none, 256⟩)] [2] () ++
      [.deliverLearn ⟨0, 1, 0, 7⟩ ()]) threeReplicas.init
    (fun s => (s.log 0).chosen.lookup 0 = some 7 ∧ (s.log 1).chosen.lookup 0 = some 7) (by decide +kernel)
  obtain ⟨_, _, valid⟩ := recorded_agreement_quorum_validity threeReplicas
    (fun _ _ _ _ _ same => (Option.some.inj same).symm) s s run .refl
  exact ⟨s, run, first, second, valid 0 0 7 first⟩

end PrefixMesh.Paxos
