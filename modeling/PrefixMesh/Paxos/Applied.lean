import PrefixMesh.Paxos.RealTime

/-! A call that returns nil has its value applied on its own replica. The slot it works on
is the first one that its log has not recorded, so whoever records it, the call itself or
a concurrent `Learn`, leaves no hole below. -/

namespace PrefixMesh.Paxos

variable {R V σ ρ C : Type} [LinearOrder R] [DecidableEq V]

/-- A replica has recorded everything below the slot that it works on, and everything up to the slots that its calls
have returned with. -/
structure LocalInv (c : Cluster R V σ ρ) (s : State R V σ) : Prop where
  working : ∀ n call slot, s.active n = some call → call.phase.slot = some slot →
    ∀ k, k < slot → (s.log n).chosen.lookup k ≠ none
  returned : ∀ r ∈ s.returned, ∃ n v, s.calls[r.call]? = some (n, v) ∧ c.equal r.value v = true ∧
    ∀ k, k ≤ r.slot → (s.log n).chosen.lookup k ≠ none

theorem localInv_step {c : Cluster R V σ ρ} {meaning : V → C} {s t : State R V σ} {a : Action R V ρ}
    (logs : ∀ n, (s.log n).Inv c.apply c.start) (calls : CallInv c meaning s) (inv : LocalInv c s)
    (effect : Effect c s a t) : LocalInv c t where
  working := by
    intro n next slot held here k below
    apply recorded_step effect
    rcases active_effect effect n next held with ⟨call, before, _, _, moved⟩ | ⟨phase, _⟩
    · rcases moved with idle | same | ⟨_, target⟩
      · rw [idle] at here
        cases here
      · exact inv.working n call slot before (same ▸ here) k below
      · rw [target] at here
        cases here
        exact Log.firstUnchosen_recorded (logs n) k below
    · rw [phase] at here
      cases here
  returned := by
    intro r back
    rcases returned_effect effect r back with old | ⟨n, call, held, phase, id, equal, recorded⟩
    · obtain ⟨n, v, made, equal, filled⟩ := inv.returned r old
      exact ⟨n, v, calls_effect effect _ _ made, equal, fun k low => recorded_step effect n k (filled k low)⟩
    · refine ⟨n, call.value, ?_, equal, fun k low => ?_⟩
      · rw [id]
        exact calls_effect effect _ _ (calls.running n call held)
      · rcases Nat.eq_or_lt_of_le low with rfl | below
        · exact recorded
        · exact recorded_step effect n k (inv.working n call r.slot held (by rw [phase]; rfl) k below)

theorem localInv_reachable {c : Cluster R V σ ρ} {meaning : V → C} (faithful : Faithful c meaning) {s : State R V σ}
    (run : Reachable c s) : LocalInv c s := by
  have both : Reachable c s ∧ LocalInv c s := by
    refine run.invariant (fun u => Reachable c u ∧ LocalInv c u) ⟨.refl, ?_, ?_⟩ ?_
    · simp [Cluster.init]
    · simp [Cluster.init]
    · rintro u a w ⟨reached, inv⟩ taken small
      exact ⟨reached.tail taken small, localInv_step (logInv_reachable reached) (callInv_reachable faithful reached) inv
        (effect_of_step c u w a taken)⟩
  exact both.2

theorem returned_recorded {c : Cluster R V σ ρ} {meaning : V → C} (faithful : Faithful c meaning) {s : State R V σ}
    (run : Reachable c s) {r : Returned V} (back : r ∈ s.returned) :
    ∃ n v w, s.calls[r.call]? = some (n, v) ∧ c.equal r.value v = true ∧ r.slot < (s.log n).applied ∧
      (s.log n).chosen.lookup r.slot = some w ∧ meaning w = meaning r.value := by
  obtain ⟨n, v, made, equal, filled⟩ := (localInv_reachable faithful run).returned r back
  obtain ⟨w, found⟩ := Option.ne_none_iff_exists'.mp (filled r.slot le_rfl)
  have inv := inv_reachable c meaning faithful s run
  obtain ⟨_, _, chosen⟩ := (callInv_reachable faithful run).returned r back
  exact ⟨n, v, w, made, equal, Log.lt_applied (logInv_reachable run n) filled, found,
    chosen_agree inv (inv.choice.logged n r.slot w found) chosen⟩

theorem applied_le_returned {c : Cluster R V σ ρ} {meaning : V → C} (faithful : Faithful c meaning)
    {base s : State R V σ} (run : Reachable c base) (later : Leads c base s) {r : Returned V} (back : r ∈ s.returned)
    (fresh : base.calls.length ≤ r.call) {n : R} {v : V} (made : s.calls[r.call]? = some (n, v)) :
    (base.log n).applied ≤ r.slot := by
  obtain ⟨n', v', made', missing⟩ := (since_leads faithful run later).returned r back fresh
  rw [made] at made'
  cases made'
  by_contra above
  exact (logInv_reachable run n).recorded r.slot (not_le.mp above) missing

end PrefixMesh.Paxos
