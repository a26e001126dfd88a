import PrefixMesh.Paxos.RealTime

/-! How many slots a value takes. `Submit` goes on to the first slot that its log has not
recorded, and does not look at what the slots before it hold. A value of its own that another
proposer has completed there in the meantime is proposed once more. -/

namespace PrefixMesh.Paxos

variable {R V σ ρ C : Type} [LinearOrder R]

def Action.attempts : Action R V ρ → Option R
  | .attempt n => some n
  | _ => none

/-- An attempt starts only while the value of its call is not in the log of the replica. -/
def Unrecorded (meaning : V → C) (s : State R V σ) (a : Action R V ρ) : Prop :=
  ∀ n ∈ a.attempts, ∀ call ∈ s.active n, ∀ entry ∈ (s.log n).chosen.entries, meaning entry.2 ≠ meaning call.value

instance [DecidableEq C] (meaning : V → C) (s : State R V σ) (a : Action R V ρ) :
    Decidable (Unrecorded meaning s a) :=
  inferInstanceAs (Decidable (∀ n ∈ a.attempts, ∀ call ∈ s.active n, ∀ entry ∈ (s.log n).chosen.entries,
    meaning entry.2 ≠ meaning call.value))

/-- Some replica has recorded every slot below `slot`, each with something else than `w`. -/
def Passed (meaning : V → C) (s : State R V σ) (slot : Nat) (w : C) : Prop :=
  ∃ n, ∀ k, k < slot → ∃ v, (s.log n).chosen.lookup k = some v ∧ meaning v ≠ w

theorem passed_firstUnchosen {c : Cluster R V σ ρ} {meaning : V → C} {s : State R V σ} {n : R} {call : Call R V}
    (log : (s.log n).Inv c.apply c.start) (held : s.active n = some call)
    (unrecorded : Unrecorded meaning s (.attempt n : Action R V ρ)) :
    Passed meaning s (s.log n).firstUnchosen (meaning call.value) := by
  refine ⟨n, fun k below => ?_⟩
  obtain ⟨v, found⟩ := Option.ne_none_iff_exists'.mp (Log.firstUnchosen_recorded log k below)
  exact ⟨v, found, unrecorded n rfl call held ⟨k, v⟩ (AList.mem_lookup_iff.mp found)⟩

/-- Calls, and the proposals they have made, are beyond all slots that may be chosen with their value. -/
structure PassedInv (meaning : V → C) (s : State R V σ) : Prop where
  active : ∀ n call slot, s.active n = some call → call.phase.slot = some slot →
    Passed meaning s slot (meaning call.value)
  accepts : ∀ m ∈ s.accepts, Passed meaning s m.slot (meaning m.value)

private theorem not_chosen_above {c : Cluster R V σ ρ} {meaning : V → C} {s : State R V σ} (inv : Inv c meaning s)
    (passed : PassedInv meaning s) {i j : Nat} {w : C} (first : Chosen c meaning s i w)
    (second : Chosen c meaning s j w) : ¬i < j := by
  intro below
  obtain ⟨v, cast, rfl, rfl⟩ := second.vote
  obtain ⟨m, sent, slot, _, same⟩ := inv.votes.proposed v cast
  obtain ⟨n, recorded⟩ := passed.accepts m sent
  obtain ⟨x, found, other⟩ := recorded i (slot ▸ below)
  exact other ((chosen_agree inv (inv.choice.logged n i x found) first).trans same.symm)

variable [DecidableEq V]

theorem Passed.step {c : Cluster R V σ ρ} {meaning : V → C} {s t : State R V σ} {a : Action R V ρ} {slot : Nat} {w : C}
    (passed : Passed meaning s slot w) (effect : Effect c s a t) : Passed meaning t slot w := by
  obtain ⟨n, recorded⟩ := passed
  refine ⟨n, fun k below => ?_⟩
  obtain ⟨v, found, other⟩ := recorded k below
  exact ⟨v, lookup_step effect n k v found, other⟩

theorem accepts_effect {c : Cluster R V σ ρ} {meaning : V → C} {s t : State R V σ} {a : Action R V ρ}
    (inv : Inv c meaning s) (effect : Effect c s a t) (m : AcceptMsg R V) (sent : m ∈ t.accepts) :
    (∃ m' ∈ s.accepts, m'.slot = m.slot ∧ meaning m'.value = meaning m.value) ∨
    ∃ n call, s.active n = some call ∧ call.phase.slot = some m.slot ∧ m.value = call.value := by
  cases effect with
  | propose n call p held phase _ _ =>
    rcases List.mem_append.mp sent with new | old
    · obtain ⟨peer, _, rfl⟩ := List.mem_map.mp new
      have quorum := inv.choice.phases n call held
      rw [phase] at quorum
      cases found : p.adopted with
      | none => exact Or.inr ⟨n, call, held, by rw [phase]; rfl, rfl⟩
      | some w => exact Or.inl (adopted_proposed inv.votes n p quorum w found)
    · exact Or.inl ⟨m, old, rfl, rfl⟩
  | _ => exact Or.inl ⟨m, sent, rfl, rfl⟩

theorem passedInv_step {c : Cluster R V σ ρ} {meaning : V → C} {s t : State R V σ} {a : Action R V ρ}
    (inv : Inv c meaning s) (logs : ∀ n, (s.log n).Inv c.apply c.start) (passed : PassedInv meaning s)
    (unrecorded : Unrecorded meaning s a) (effect : Effect c s a t) : PassedInv meaning t where
  active := by
    intro n next slot held here
    rcases active_effect effect n next held with ⟨call, before, _, value, moved⟩ | ⟨phase, _⟩
    · rw [← value]
      rcases moved with idle | same | ⟨rfl, target⟩
      · rw [idle] at here
        cases here
      · exact (passed.active n call slot before (same ▸ here)).step effect
      · rw [target] at here
        cases here
        exact (passed_firstUnchosen (logs n) before unrecorded).step effect
    · rw [phase] at here
      cases here
  accepts := by
    intro m sent
    rcases accepts_effect inv effect m sent with ⟨m', earlier, slot, same⟩ | ⟨n, call, held, here, value⟩
    · rw [← slot, ← same]
      exact (passed.accepts m' earlier).step effect
    · rw [value]
      exact (passed.active n call m.slot held here).step effect

abbrev Careful (c : Cluster R V σ ρ) (meaning : V → C) (s : State R V σ) : Prop :=
  Lib.Reaches (step c) (fun u a t => RoundsBelow c t ∧ Unrecorded meaning u a) c.init s

theorem Careful.reachable {c : Cluster R V σ ρ} {meaning : V → C} {s : State R V σ} (run : Careful c meaning s) :
    Reachable c s :=
  run.weaken fun _ _ _ allowed => allowed.1

theorem passedInv_careful {c : Cluster R V σ ρ} {meaning : V → C} (faithful : Faithful c meaning) {s : State R V σ}
    (run : Careful c meaning s) : PassedInv meaning s := by
  have both : Reachable c s ∧ PassedInv meaning s := by
    refine run.invariant (fun u => Reachable c u ∧ PassedInv meaning u) ⟨.refl, ?_, ?_⟩ ?_
    · simp [Cluster.init]
    · simp [Cluster.init]
    · rintro u a w ⟨reached, passed⟩ taken ⟨small, unrecorded⟩
      exact ⟨reached.tail taken small, passedInv_step (inv_reachable c meaning faithful u reached)
        (logInv_reachable reached) passed unrecorded (effect_of_step c u w a taken)⟩
  exact both.2

/-- In a run that is careful at every attempt, no value is chosen in two slots. -/
theorem value_takes_one_slot (c : Cluster R V σ ρ) (meaning : V → C) (faithful : Faithful c meaning)
    (s : State R V σ) (run : Careful c meaning s) (i j : Nat) (w : C) (first : Chosen c meaning s i w)
    (second : Chosen c meaning s j w) : i = j := by
  have inv := inv_reachable c meaning faithful s run.reachable
  have passed := passedInv_careful faithful run
  exact le_antisymm (not_lt.mp (not_chosen_above inv passed second first))
    (not_lt.mp (not_chosen_above inv passed first second))

/-- The `Accept`s of `n` reach only itself. `k` recovers the value `v` of `n` in slot 0 and gets it chosen, and `n`
learns of that; the third replica is `silent`. -/
def completedActions (n k silent : R) (v w : V) (r : ρ) : List (Action R V ρ) :=
  [.submit n v, .acquire n 0 v, .submit k w, .acquire k 1 w, .attempt n,
    .deliverPrepare ⟨n, n, 0, 256⟩ r, .recvPromise n n ⟨true, 0, none, 256⟩,
    .deliverPrepare ⟨n, k, 0, 256⟩ r, .recvPromise n k ⟨true, 0, none, 256⟩, .failPrepare n silent, .finishPrepare n,
    .deliverAccept ⟨n, n, 0, 256, v⟩ r, .recvAck n n ⟨true, 256⟩, .failAccept n k, .failAccept n silent,
    .finishAccept n] ++
  roundActions k 0 257 v [(n, ⟨true, 256, some v, 257⟩), (k, ⟨true, 0, none, 257⟩)] [silent] r ++
  [.deliverLearn ⟨k, n, 0, v⟩ r]

/-- After this, the next attempt of replica 0 is for a value that it has recorded. It takes slot 1 as well. -/
theorem threeReplicas_twice : ∃ s, Reachable threeReplicas s ∧ s.calls = [(0, 7), (1, 8)] ∧
    Chosen threeReplicas id s 0 7 ∧ Chosen threeReplicas id s 1 7 := by
  obtain ⟨s, run, calls, zero, one⟩ := Lib.reaches_of_check (step threeReplicas)
    (fun _ _ u => RoundsBelow threeReplicas u)
    (completedActions 0 1 2 7 8 () ++
      roundActions 0 1 512 7 [(0, ⟨true, 0, none, 512⟩), (1, ⟨true, 0, none, 512⟩)] [2] ()) threeReplicas.init
    (fun s => s.calls = [(0, 7), (1, 8)] ∧ (s.log 0).chosen.lookup 0 = some 7 ∧ (s.log 0).chosen.lookup 1 = some 7)
    (by decide)
  have inv := inv_reachable threeReplicas id (fun _ _ _ _ _ same => (Option.some.inj same).symm) s run
  exact ⟨s, run, calls, inv.choice.logged 0 0 7 zero, inv.choice.logged 0 1 7 one⟩

/-- The run up to that attempt is careful, and goes on so with the value of replica 1. -/
theorem threeReplicas_once : ∃ s, Careful threeReplicas id s ∧ Chosen threeReplicas id s 0 7 ∧
    Chosen threeReplicas id s 1 8 ∧ ∀ slot, Chosen threeReplicas id s slot 7 → slot = 0 := by
  obtain ⟨s, run, zero, one⟩ := Lib.reaches_of_check (step threeReplicas)
    (fun u a t => RoundsBelow threeReplicas t ∧ Unrecorded id u a)
    (completedActions 0 1 2 7 8 () ++
      roundActions 1 1 513 8 [(0, ⟨true, 0, none, 513⟩), (1, ⟨true, 0, none, 513⟩)] [2] ()) threeReplicas.init
    (fun s => (s.log 1).chosen.lookup 0 = some 7 ∧ (s.log 1).chosen.lookup 1 = some 8) (by decide)
  have faithful : Faithful threeReplicas (id : Nat → Nat) := fun _ _ _ _ _ same => (Option.some.inj same).symm
  have inv := inv_reachable threeReplicas id faithful s (Careful.reachable run)
  have chosen := inv.choice.logged 1 0 7 zero
  exact ⟨s, run, chosen, inv.choice.logged 1 1 8 one,
    fun slot again => value_takes_one_slot threeReplicas id faithful s run slot 0 7 again chosen⟩

end PrefixMesh.Paxos
