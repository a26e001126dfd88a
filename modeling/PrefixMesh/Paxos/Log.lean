import Mathlib.Data.List.AList
import Mathlib.Data.Finset.Card
import Mathlib.Order.Interval.Finset.Nat

/-! The learner. Chosen values are recorded by slot and handed to the `apply`
callback in slot order; `state` is what the callback has built up so far. Slots
are `uint64` in the source: the one place where a caller's slot is added to is
`maxSeen`, which wraps. The two scans over the chosen map have no bound in the
source. A map with `n` entries has a free slot among any `n + 1` consecutive
ones, so here they carry the number of entries as fuel. -/

namespace PrefixMesh.Paxos

variable {V σ : Type}

structure Log (V σ : Type) where
  chosen : AList (fun _ : Nat => V)
  applied : Nat
  maxSeen : Nat
  state : σ

def newLog (start : σ) : Log V σ := ⟨∅, 0, 0, start⟩

def scan (chosen : AList (fun _ : Nat => V)) : Nat → Nat → Nat
  | 0, s => s
  | fuel + 1, s =>
      match chosen.lookup s with
      | none => s
      | some _ => scan chosen fuel (s + 1)

def applyLoop (apply : Nat → V → σ → σ) : Nat → Log V σ → Log V σ
  | 0, l => l
  | fuel + 1, l =>
      match l.chosen.lookup l.applied with
      | none => l
      | some v => applyLoop apply fuel
          { l with applied := l.applied + 1, state := apply l.applied v l.state }

/-- A conflicting commit is dropped, as is a repeated one. -/
def Log.commit (apply : Nat → V → σ → σ) (l : Log V σ) (slot : Nat) (value : V) : Log V σ :=
  match l.chosen.lookup slot with
  | some _ => l
  | none =>
      let recorded := { l with
        chosen := l.chosen.insert slot value
        maxSeen := if (slot + 1) % 2 ^ 64 > l.maxSeen then (slot + 1) % 2 ^ 64 else l.maxSeen }
      applyLoop apply recorded.chosen.entries.length recorded

def Log.firstUnchosen (l : Log V σ) : Nat :=
  scan l.chosen l.chosen.entries.length l.applied

def gapLoop (chosen : AList (fun _ : Nat => V)) : Nat → Nat → Nat × Bool
  | 0, _ => (0, false)
  | left + 1, s =>
      match chosen.lookup s with
      | none => (s, true)
      | some _ => gapLoop chosen left (s + 1)

def Log.gap (l : Log V σ) : Nat × Bool :=
  gapLoop l.chosen (l.maxSeen - l.applied) l.applied

theorem scan_none (chosen : AList (fun _ : Nat => V)) (fuel s : Nat)
    (free : chosen.lookup s = none) : scan chosen (fuel + 1) s = s := by
  simp only [scan, free]

theorem scan_some (chosen : AList (fun _ : Nat => V)) (fuel s : Nat) (v : V)
    (found : chosen.lookup s = some v) : scan chosen (fuel + 1) s = scan chosen fuel (s + 1) := by
  simp only [scan, found]

theorem scan_spec (chosen : AList (fun _ : Nat => V)) (fuel s : Nat) :
    s ≤ scan chosen fuel s ∧ scan chosen fuel s ≤ s + fuel ∧
    (∀ k, s ≤ k → k < scan chosen fuel s → chosen.lookup k ≠ none) ∧
    (chosen.lookup (scan chosen fuel s) = none ∨ scan chosen fuel s = s + fuel) := by
  induction fuel generalizing s with
  | zero =>
    refine ⟨by simp [scan], by simp [scan], ?_, Or.inr rfl⟩
    intro k low high
    simp only [scan] at high
    omega
  | succ fuel ih =>
    cases found : chosen.lookup s with
    | none =>
      rw [scan_none chosen fuel s found]
      exact ⟨le_rfl, by omega, fun k low high => by omega, Or.inl found⟩
    | some v =>
      obtain ⟨above, below, full, stop⟩ := ih (s + 1)
      rw [scan_some chosen fuel s v found]
      refine ⟨by omega, by omega, ?_, ?_⟩
      · intro k low high
        rcases Nat.eq_or_lt_of_le low with same | later
        · subst same
          simp [found]
        · exact full k later high
      · rcases stop with free | exhausted
        · exact Or.inl free
        · exact Or.inr (by omega)

private theorem slots_le_entries (chosen : AList (fun _ : Nat => V)) (s count : Nat)
    (full : ∀ k, s ≤ k → k < s + count → chosen.lookup k ≠ none) :
    count ≤ chosen.entries.length := by
  have inside : Finset.Ico s (s + count) ⊆ chosen.keys.toFinset := by
    intro k member
    obtain ⟨low, high⟩ := Finset.mem_Ico.mp member
    have recorded := full k low high
    rw [List.mem_toFinset, ← AList.mem_keys]
    exact AList.lookup_isSome.mp (Option.isSome_iff_ne_none.mpr recorded)
  calc count
      = (Finset.Ico s (s + count)).card := by rw [Nat.card_Ico, Nat.add_sub_cancel_left]
    _ ≤ chosen.keys.toFinset.card := Finset.card_le_card inside
    _ ≤ chosen.keys.length := List.toFinset_card_le chosen.keys
    _ = chosen.entries.length := List.length_map _

/-- With the entries as fuel the scan ends on a slot that is not recorded. -/
theorem scan_free (chosen : AList (fun _ : Nat => V)) (s : Nat) :
    chosen.lookup (scan chosen chosen.entries.length s) = none := by
  obtain ⟨above, below, full, stop⟩ := scan_spec chosen chosen.entries.length s
  rcases stop with free | exhausted
  · exact free
  · by_contra recorded
    have longer : ∀ k, s ≤ k → k < s + (chosen.entries.length + 1) → chosen.lookup k ≠ none := by
      intro k low high
      by_cases last : k = scan chosen chosen.entries.length s
      · exact last ▸ recorded
      · exact full k low (by omega)
    have sizes := slots_le_entries chosen s _ longer
    omega

theorem Log.firstUnchosen_free (l : Log V σ) : l.chosen.lookup l.firstUnchosen = none :=
  scan_free l.chosen l.applied

def applyBelow (apply : Nat → V → σ → σ) (chosen : AList (fun _ : Nat => V)) (start : σ) : Nat → σ
  | 0 => start
  | count + 1 =>
      match chosen.lookup count with
      | none => applyBelow apply chosen start count
      | some v => apply count v (applyBelow apply chosen start count)

/-- Everything below `applied` is recorded, the slot at `applied` is not, and the state is
the fold of the callback over the recorded slots below it. -/
structure Log.Inv (apply : Nat → V → σ → σ) (start : σ) (l : Log V σ) : Prop where
  recorded : ∀ k, k < l.applied → l.chosen.lookup k ≠ none
  stalled : l.chosen.lookup l.applied = none
  folded : l.state = applyBelow apply l.chosen start l.applied

theorem Log.firstUnchosen_recorded {apply : Nat → V → σ → σ} {start : σ} {l : Log V σ}
    (inv : l.Inv apply start) (k : Nat) (below : k < l.firstUnchosen) : l.chosen.lookup k ≠ none := by
  by_cases done : k < l.applied
  · exact inv.recorded k done
  · exact (scan_spec l.chosen l.chosen.entries.length l.applied).2.2.1 k (not_lt.mp done) below

theorem Log.lt_applied {apply : Nat → V → σ → σ} {start : σ} {l : Log V σ} (inv : l.Inv apply start) {slot : Nat}
    (recorded : ∀ k, k ≤ slot → l.chosen.lookup k ≠ none) : slot < l.applied := by
  by_contra behind
  exact recorded l.applied (not_lt.mp behind) inv.stalled

theorem newLog_inv (apply : Nat → V → σ → σ) (start : σ) : (newLog start : Log V σ).Inv apply start where
  recorded := by simp [newLog]
  stalled := AList.lookup_empty 0
  folded := rfl

theorem applyLoop_chosen (apply : Nat → V → σ → σ) (fuel : Nat) (l : Log V σ) :
    (applyLoop apply fuel l).chosen = l.chosen := by
  induction fuel generalizing l with
  | zero => rfl
  | succ fuel ih =>
    cases found : l.chosen.lookup l.applied with
    | none => simp only [applyLoop, found]
    | some v => simp only [applyLoop, found, ih]

theorem applyLoop_applied (apply : Nat → V → σ → σ) (fuel : Nat) (l : Log V σ) :
    (applyLoop apply fuel l).applied = scan l.chosen fuel l.applied := by
  induction fuel generalizing l with
  | zero => rfl
  | succ fuel ih =>
    cases found : l.chosen.lookup l.applied with
    | none => simp only [applyLoop, scan, found]
    | some v => simp only [applyLoop, scan, found, ih]

theorem applyLoop_folded (apply : Nat → V → σ → σ) (start : σ) (fuel : Nat) (l : Log V σ)
    (folded : l.state = applyBelow apply l.chosen start l.applied) :
    (applyLoop apply fuel l).state =
      applyBelow apply l.chosen start (applyLoop apply fuel l).applied := by
  induction fuel generalizing l with
  | zero => exact folded
  | succ fuel ih =>
    cases found : l.chosen.lookup l.applied with
    | none => simpa only [applyLoop, found] using folded
    | some v =>
      simp only [applyLoop, found]
      apply ih
      simp only [applyBelow, found, folded]

theorem applyBelow_congr (apply : Nat → V → σ → σ) (start : σ) (first second : AList (fun _ : Nat => V))
    (count : Nat) (same : ∀ k, k < count → first.lookup k = second.lookup k) :
    applyBelow apply first start count = applyBelow apply second start count := by
  induction count with
  | zero => rfl
  | succ count ih =>
    have below := ih (fun k low => same k (by omega))
    simp only [applyBelow, same count (by omega), below]

theorem Log.commit_lookup (apply : Nat → V → σ → σ) (l : Log V σ) (slot : Nat) (value : V) (k : Nat) :
    (l.commit apply slot value).chosen.lookup k =
      if k = slot ∧ l.chosen.lookup slot = none then some value else l.chosen.lookup k := by
  cases known : l.chosen.lookup slot with
  | some v => simp [Log.commit, known]
  | none =>
    simp only [Log.commit, known, applyLoop_chosen, and_true]
    by_cases same : k = slot
    · subst same
      simp
    · simp [same]

theorem Log.commit_known (apply : Nat → V → σ → σ) (l : Log V σ) (slot : Nat) (value : V) (k : Nat)
    (v : V) (known : l.chosen.lookup k = some v) :
    (l.commit apply slot value).chosen.lookup k = some v := by
  rw [Log.commit_lookup]
  by_cases fresh : k = slot ∧ l.chosen.lookup slot = none
  · rw [fresh.1, fresh.2] at known
    cases known
  · rw [if_neg fresh, known]

theorem Log.commit_recorded (apply : Nat → V → σ → σ) (l : Log V σ) (slot : Nat) (value : V) :
    (l.commit apply slot value).chosen.lookup slot ≠ none := by
  rw [Log.commit_lookup]
  split
  · exact Option.some_ne_none value
  next known => exact fun missing => known ⟨rfl, missing⟩

theorem Log.commit_inv (apply : Nat → V → σ → σ) (start : σ) (l : Log V σ) (inv : l.Inv apply start)
    (slot : Nat) (value : V) : (l.commit apply slot value).Inv apply start := by
  cases known : l.chosen.lookup slot with
  | some v => simpa only [Log.commit, known] using inv
  | none =>
    have fresh : ∀ k, k < l.applied → (l.chosen.insert slot value).lookup k = l.chosen.lookup k := by
      intro k low
      have different : k ≠ slot := fun same => inv.recorded k low (same ▸ known)
      exact AList.lookup_insert_ne different
    simp only [Log.commit, known]
    refine ⟨?_, ?_, ?_⟩
    · intro k low
      rw [applyLoop_applied] at low
      rw [applyLoop_chosen]
      by_cases below : k < l.applied
      · rw [fresh k below]
        exact inv.recorded k below
      · exact (scan_spec _ _ _).2.2.1 k (not_lt.mp below) low
    · rw [applyLoop_chosen, applyLoop_applied]
      exact scan_free _ _
    · rw [applyLoop_chosen]
      apply applyLoop_folded
      exact inv.folded.trans (applyBelow_congr apply start _ _ _ (fun k low => (fresh k low).symm))

end PrefixMesh.Paxos
