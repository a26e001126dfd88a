import PrefixMesh.Paxos.Log

/-! The learner on `uint64` slots. `Log.commit` counts slots without a bound; here
`applied` wraps as `maxSeen` does, and the loops of the source, which need not end, are
run for a number of rounds. As long as some slot is not recorded the two agree. The
callback of `NewLog` keeps the list of its calls. -/

namespace PrefixMesh.Paxos

variable {V σ : Type}

/-- The loop of `Commit`: `none` if it still runs after so many rounds. -/
def applyRounds (apply : Nat → V → σ → σ) : Nat → Log V σ → Option (Log V σ)
  | 0, _ => none
  | rounds + 1, l =>
      match l.chosen.lookup l.applied with
      | none => some l
      | some v => applyRounds apply rounds
          { l with applied := (l.applied + 1) % 2 ^ 64, state := apply l.applied v l.state }

def Log.commitWithin (apply : Nat → V → σ → σ) (rounds : Nat) (l : Log V σ) (slot : UInt64) (value : V) :
    Option (Log V σ) :=
  match l.chosen.lookup slot.toNat with
  | some _ => some l
  | none => applyRounds apply rounds { l with
      chosen := l.chosen.insert slot.toNat value
      maxSeen := if (slot.toNat + 1) % 2 ^ 64 > l.maxSeen then (slot.toNat + 1) % 2 ^ 64 else l.maxSeen }

def scanRounds (chosen : AList (fun _ : Nat => V)) : Nat → Nat → Option Nat
  | 0, _ => none
  | rounds + 1, s =>
      match chosen.lookup s with
      | none => some s
      | some _ => scanRounds chosen rounds ((s + 1) % 2 ^ 64)

def Log.firstUnchosenWithin (rounds : Nat) (l : Log V σ) : Option Nat := scanRounds l.chosen rounds l.applied

def listCall (slot : Nat) (value : V) (calls : List (Nat × V)) : List (Nat × V) := calls ++ [(slot, value)]

def commitAll (rounds : Nat) (commits : List (UInt64 × V)) : Option (Log V (List (Nat × V))) :=
  commits.foldlM (fun l c => l.commitWithin listCall rounds c.1 c.2) (newLog [])

def firstCommitted (commits : List (UInt64 × V)) (slot : Nat) : Option V :=
  (commits.find? fun c => decide (c.1.toNat = slot)).map Prod.snd

def Full (chosen : AList (fun _ : Nat => V)) : Prop := ∀ k, k < 2 ^ 64 → chosen.lookup k ≠ none

theorem applyRounds_more (apply : Nat → V → σ → σ) (rounds more : Nat) (l l' : Log V σ)
    (ended : applyRounds apply rounds l = some l') : applyRounds apply (rounds + more) l = some l' := by
  induction rounds generalizing l with
  | zero => cases ended
  | succ rounds ih =>
    rw [Nat.succ_add]
    cases found : l.chosen.lookup l.applied with
    | none => simpa only [applyRounds, found] using ended
    | some v =>
      simp only [applyRounds, found] at ended ⊢
      exact ih _ ended

theorem applyRounds_full (apply : Nat → V → σ → σ) (rounds : Nat) (l : Log V σ) (full : Full l.chosen)
    (low : l.applied < 2 ^ 64) : applyRounds apply rounds l = none := by
  induction rounds generalizing l with
  | zero => rfl
  | succ rounds ih =>
    cases found : l.chosen.lookup l.applied with
    | none => exact absurd found (full _ low)
    | some v =>
      simp only [applyRounds, found]
      exact ih _ full (Nat.mod_lt _ (by decide))

/-- If the unbounded loop stops below the last slot, the wrapping one does the same. -/
private theorem applyRounds_eq (apply : Nat → V → σ → σ) (fuel : Nat) (l : Log V σ)
    (free : l.chosen.lookup (scan l.chosen fuel l.applied) = none) (low : scan l.chosen fuel l.applied < 2 ^ 64) :
    applyRounds apply (fuel + 1) l = some (applyLoop apply fuel l) := by
  induction fuel generalizing l with
  | zero =>
    rw [scan] at free
    simp only [applyRounds, free, applyLoop]
  | succ fuel ih =>
    cases found : l.chosen.lookup l.applied with
    | none => simp only [applyRounds, applyLoop, found]
    | some v =>
      rw [scan_some l.chosen fuel l.applied v found] at free low
      have above := (scan_spec l.chosen fuel (l.applied + 1)).1
      rw [applyRounds, applyLoop, found]
      simp only
      rw [Nat.mod_eq_of_lt (by omega)]
      exact ih _ free low

/-- With a free slot ahead the loop ends, and where it ends does not depend on the rounds. -/
theorem applyRounds_free (apply : Nat → V → σ → σ) (l : Log V σ) (k : Nat) (ahead : l.applied ≤ k)
    (low : k < 2 ^ 64) (free : l.chosen.lookup k = none) (rounds : Nat) :
    (l.chosen.entries.length < rounds →
      applyRounds apply rounds l = some (applyLoop apply l.chosen.entries.length l)) ∧
    ∀ l', applyRounds apply rounds l = some l' → l' = applyLoop apply l.chosen.entries.length l := by
  have stops : scan l.chosen l.chosen.entries.length l.applied ≤ k := by
    by_contra passed
    exact (scan_spec l.chosen _ l.applied).2.2.1 k ahead (not_le.mp passed) free
  have ended := applyRounds_eq apply _ l (scan_free l.chosen l.applied) (by omega)
  constructor
  · intro enough
    have more := applyRounds_more apply _ (rounds - (l.chosen.entries.length + 1)) l _ ended
    rwa [Nat.add_sub_cancel' (by omega)] at more
  · intro l' returned
    have first := applyRounds_more apply _ (l.chosen.entries.length + 1) l l' returned
    have second := applyRounds_more apply _ rounds l _ ended
    rw [Nat.add_comm] at second
    exact Option.some.inj (first.symm.trans second)

section Commit

variable {apply : Nat → V → σ → σ} {l : Log V σ} {slot : UInt64} {value : V}

theorem Log.commitWithin_free {start : σ} (inv : l.Inv apply start) (k : Nat) (low : k < 2 ^ 64)
    (free : (l.commit apply slot.toNat value).chosen.lookup k = none) (rounds : Nat) :
    (l.chosen.entries.length + 1 < rounds →
      l.commitWithin apply rounds slot value = some (l.commit apply slot.toNat value)) ∧
    ∀ l', l.commitWithin apply rounds slot value = some l' → l' = l.commit apply slot.toNat value := by
  cases known : l.chosen.lookup slot.toNat with
  | some v =>
    simp only [Log.commitWithin, Log.commit, known]
    exact ⟨fun _ => trivial, fun l' returned => (Option.some.inj returned).symm⟩
  | none =>
    simp only [Log.commit, known, applyLoop_chosen] at free
    have ahead : l.applied ≤ k := by
      by_contra below
      have before := inv.recorded k (by omega)
      have different : k ≠ slot.toNat := fun same => before (same ▸ known)
      rw [AList.lookup_insert_ne different] at free
      exact before free
    simp only [Log.commitWithin, Log.commit, known]
    obtain ⟨ends, same⟩ := applyRounds_free apply { l with
      chosen := l.chosen.insert slot.toNat value
      maxSeen := if (slot.toNat + 1) % 2 ^ 64 > l.maxSeen then (slot.toNat + 1) % 2 ^ 64 else l.maxSeen }
      k ahead low free rounds
    refine ⟨fun enough => ends ?_, same⟩
    have size : (l.chosen.insert slot.toNat value).entries.length = l.chosen.entries.length + 1 := by
      rw [AList.entries_insert_of_notMem (AList.lookup_eq_none.mp known), List.length_cons]
    simp only [size]
    exact enough

end Commit

theorem firstCommitted_snoc (commits : List (UInt64 × V)) (c : UInt64 × V) (k : Nat) :
    firstCommitted (commits ++ [c]) k =
      if k = c.1.toNat ∧ firstCommitted commits c.1.toNat = none then some c.2 else firstCommitted commits k := by
  unfold firstCommitted
  rw [List.find?_append]
  cases found : commits.find? (fun d => decide (d.1.toNat = k)) with
  | some d =>
    have apart : ¬(k = c.1.toNat ∧ (commits.find? fun d => decide (d.1.toNat = c.1.toNat)).map Prod.snd = none) := by
      rintro ⟨rfl, none_⟩
      rw [found] at none_
      cases none_
    rw [if_neg apart]
    rfl
  | none =>
    by_cases same : k = c.1.toNat
    · subst same
      simp [found]
    · simp [same, Ne.symm same]

theorem firstCommitted_eq_none (commits : List (UInt64 × V)) (k : Nat) :
    firstCommitted commits k = none ↔ ∀ c ∈ commits, c.1.toNat ≠ k := by
  simp [firstCommitted]

theorem applyLoop_maxSeen (apply : Nat → V → σ → σ) (fuel : Nat) (l : Log V σ) :
    (applyLoop apply fuel l).maxSeen = l.maxSeen := by
  induction fuel generalizing l with
  | zero => rfl
  | succ fuel ih =>
    cases found : l.chosen.lookup l.applied with
    | none => simp only [applyLoop, found]
    | some v => simp only [applyLoop, found, ih]

theorem Log.gap_eq (l : Log V σ) (stalled : l.chosen.lookup l.applied = none) :
    l.gap = if l.applied < l.maxSeen then (l.applied, true) else (0, false) := by
  unfold Log.gap
  by_cases ahead : l.applied < l.maxSeen
  · obtain ⟨left, count⟩ : ∃ left, l.maxSeen - l.applied = left + 1 := ⟨l.maxSeen - l.applied - 1, by omega⟩
    rw [if_pos ahead, count]
    simp only [gapLoop, stalled]
  · rw [if_neg ahead, Nat.sub_eq_zero_of_le (by omega)]
    rfl

/-- What the log is after some commits, all of which have returned. The last slot leaves no trace in `maxSeen`. -/
structure Follows (commits : List (UInt64 × V)) (l : Log V (List (Nat × V))) : Prop where
  inv : l.Inv listCall []
  chosen : ∀ k, l.chosen.lookup k = firstCommitted commits k
  size : l.chosen.entries.length ≤ commits.length
  seen : ∀ s, s < l.maxSeen ↔ ∃ c ∈ commits, s ≤ c.1.toNat ∧ c.1.toNat + 1 < 2 ^ 64

theorem follows_nil : Follows ([] : List (UInt64 × V)) (newLog []) :=
  ⟨newLog_inv listCall [], fun k => AList.lookup_empty k, le_rfl, by simp [newLog]⟩

theorem Follows.commit {commits : List (UInt64 × V)} {l : Log V (List (Nat × V))} (follows : Follows commits l)
    (c : UInt64 × V) : Follows (commits ++ [c]) (l.commit listCall c.1.toNat c.2) := by
  have small := c.1.toNat_lt
  refine ⟨Log.commit_inv listCall [] l follows.inv _ _, ?_, ?_, ?_⟩
  · intro k
    rw [Log.commit_lookup, firstCommitted_snoc, follows.chosen, follows.chosen]
  · have before := follows.size
    rw [List.length_append, List.length_singleton]
    cases known : l.chosen.lookup c.1.toNat with
    | some v =>
      simp only [Log.commit, known]
      omega
    | none =>
      simp only [Log.commit, known, applyLoop_chosen]
      rw [AList.entries_insert_of_notMem (AList.lookup_eq_none.mp known), List.length_cons]
      omega
  · intro s
    have split_ : (∃ d ∈ commits ++ [c], s ≤ d.1.toNat ∧ d.1.toNat + 1 < 2 ^ 64) ↔
        s < l.maxSeen ∨ (s ≤ c.1.toNat ∧ c.1.toNat + 1 < 2 ^ 64) := by
      simp only [follows.seen s, List.mem_append, List.mem_singleton, or_and_right, exists_or, exists_eq_left]
    rw [split_]
    cases known : l.chosen.lookup c.1.toNat with
    | some v =>
      -- the slot has been seen before
      obtain ⟨d, member, same⟩ : ∃ d ∈ commits, d.1.toNat = c.1.toNat := by
        by_contra absent
        push Not at absent
        rw [follows.chosen, (firstCommitted_eq_none commits _).mpr absent] at known
        cases known
      simp only [Log.commit, known]
      constructor
      · exact Or.inl
      · rintro (before | ⟨low, high⟩)
        · exact before
        · exact (follows.seen s).mpr ⟨d, member, by omega, by omega⟩
    | none =>
      simp only [Log.commit, known, applyLoop_maxSeen]
      rcases Nat.lt_or_ge (c.1.toNat + 1) (2 ^ 64) with high | last
      · rw [Nat.mod_eq_of_lt high]
        split
        · omega
        · omega
      · have wraps : (c.1.toNat + 1) % 2 ^ 64 = 0 := by
          rw [show c.1.toNat + 1 = 2 ^ 64 by omega]
          rfl
        rw [wraps, if_neg (by omega)]
        omega

theorem Follows.applied_le {commits : List (UInt64 × V)} {l : Log V (List (Nat × V))} (follows : Follows commits l)
    (k : Nat) (free : firstCommitted commits k = none) : l.applied ≤ k := by
  by_contra below
  exact follows.inv.recorded k (by omega) ((follows.chosen k).trans free)

theorem commitAll_snoc (rounds : Nat) (commits : List (UInt64 × V)) (c : UInt64 × V) :
    commitAll rounds (commits ++ [c]) =
      (commitAll rounds commits).bind fun l => l.commitWithin listCall rounds c.1 c.2 := by
  unfold commitAll
  rw [List.foldlM_append]
  simp only [List.foldlM_cons, List.foldlM_nil, bind_pure]
  rfl

theorem commitAll_free (commits : List (UInt64 × V)) (k : Nat) (low : k < 2 ^ 64)
    (free : firstCommitted commits k = none) :
    ∃ l, Follows commits l ∧ (∀ rounds, commits.length < rounds → commitAll rounds commits = some l) ∧
      ∀ rounds l', commitAll rounds commits = some l' → l' = l := by
  induction commits using List.reverseRecOn with
  | nil => exact ⟨newLog [], follows_nil, fun _ _ => rfl, fun _ l' returned => (Option.some.inj returned).symm⟩
  | append_singleton commits c ih =>
    have before : firstCommitted commits k = none := by
      rw [firstCommitted_eq_none] at free ⊢
      exact fun d member => free d (List.mem_append_left _ member)
    obtain ⟨l, follows, returns, only_⟩ := ih before
    have after := follows.commit c
    rw [← after.chosen k] at free
    refine ⟨_, after, ?_, ?_⟩
    · intro rounds enough
      rw [List.length_append, List.length_singleton] at enough
      have size := follows.size
      rw [commitAll_snoc, returns rounds (by omega), Option.bind_some]
      exact (Log.commitWithin_free follows.inv k low free rounds).1 (by omega)
    · intro rounds l' returned
      rw [commitAll_snoc, Option.bind_eq_some_iff] at returned
      obtain ⟨m, first, second⟩ := returned
      rw [only_ rounds m first] at second
      exact (Log.commitWithin_free follows.inv k low free rounds).2 l' second

theorem commitAll_full (commits : List (UInt64 × V)) (full : ∀ k, k < 2 ^ 64 → firstCommitted commits k ≠ none)
    (rounds : Nat) : commitAll rounds commits = none := by
  induction commits using List.reverseRecOn with
  | nil => exact absurd rfl (full 0 (by decide))
  | append_singleton commits c ih =>
    rw [commitAll_snoc]
    by_cases before : ∀ k, k < 2 ^ 64 → firstCommitted commits k ≠ none
    · rw [ih before]
      rfl
    · push Not at before
      obtain ⟨k, low, free⟩ := before
      have slot : k = c.1.toNat := by
        by_contra different
        have now := full k low
        rw [firstCommitted_snoc, if_neg (fun both => different both.1)] at now
        exact now free
      obtain ⟨l, follows, _, only_⟩ := commitAll_free commits k low free
      cases returned : commitAll rounds commits with
      | none => rfl
      | some m =>
        rw [only_ rounds m returned, Option.bind_some]
        have known : l.chosen.lookup c.1.toNat = none := by rw [follows.chosen, ← slot, free]
        have bound := follows.applied_le k free
        simp only [Log.commitWithin, known]
        apply applyRounds_full
        · intro j small
          have recorded := full j small
          have same := (follows.commit c).chosen j
          simp only [Log.commit, known, applyLoop_chosen] at same
          rw [same]
          exact recorded
        · exact Nat.lt_of_le_of_lt bound low

private theorem applyBelow_listCall (chosen : AList (fun _ : Nat => V)) (count : Nat)
    (recorded : ∀ k, k < count → chosen.lookup k ≠ none) :
    (applyBelow listCall chosen [] count).length = count ∧
    ∀ k, k < count → ∃ v, chosen.lookup k = some v ∧ (applyBelow listCall chosen [] count)[k]? = some (k, v) := by
  induction count with
  | zero => exact ⟨rfl, fun k low => by omega⟩
  | succ count ih =>
    obtain ⟨length, calls⟩ := ih (fun k low => recorded k (by omega))
    cases found : chosen.lookup count with
    | none => exact absurd found (recorded count (by omega))
    | some v =>
      simp only [applyBelow, found, listCall, List.length_append, List.length_singleton, length]
      refine ⟨trivial, ?_⟩
      intro k low
      rcases Nat.lt_succ_iff_lt_or_eq.mp low with below | same
      · obtain ⟨w, known, call⟩ := calls k below
        exact ⟨w, known, by rw [List.getElem?_append_left (by omega), call]⟩
      · subst same
        exact ⟨v, found, by rw [List.getElem?_append_right (by omega), length, Nat.sub_self]; rfl⟩

/-- What is promised after a sequence of commits: the callback has been called for the slots below `applied`, in
order and with the first value of each; `applied` is the first slot that has not been committed; and a gap is
reported if and only if a later slot has been. -/
structure Settled (commits : List (UInt64 × V)) (l : Log V (List (Nat × V))) : Prop where
  length : l.state.length = l.applied
  calls : ∀ k, k < l.applied → ∃ v, firstCommitted commits k = some v ∧ l.state[k]? = some (k, v)
  applied : l.applied < 2 ^ 64 ∧ firstCommitted commits l.applied = none
  firstUnchosen : ∀ rounds, 0 < rounds → l.firstUnchosenWithin rounds = some l.applied
  gap : l.gap = if ∃ c ∈ commits, l.applied < c.1.toNat then (l.applied, true) else (0, false)

private theorem Follows.settled {commits : List (UInt64 × V)} {l : Log V (List (Nat × V))}
    (follows : Follows commits l) (low : l.applied < 2 ^ 64)
    (gap : l.gap = if ∃ c ∈ commits, l.applied < c.1.toNat then (l.applied, true) else (0, false)) :
    Settled commits l := by
  obtain ⟨length, calls⟩ := applyBelow_listCall l.chosen l.applied follows.inv.recorded
  rw [← follows.inv.folded] at length calls
  refine ⟨length, ?_, ⟨low, ?_⟩, ?_, gap⟩
  · simpa only [follows.chosen] using calls
  · rw [← follows.chosen]
    exact follows.inv.stalled
  · intro rounds some_
    obtain ⟨more, rfl⟩ : ∃ more, rounds = more + 1 := ⟨rounds - 1, by omega⟩
    simp only [Log.firstUnchosenWithin, scanRounds, follows.inv.stalled]

/-- If the last slot has been committed, so has another one above a slot that has not. -/
def Bridged (commits : List (UInt64 × V)) : Prop :=
  (∃ c ∈ commits, c.1.toNat = 2 ^ 64 - 1) →
    ∃ k, firstCommitted commits k = none ∧ ∃ c ∈ commits, k < c.1.toNat ∧ c.1.toNat < 2 ^ 64 - 1

private theorem Follows.settled_iff {commits : List (UInt64 × V)} {l : Log V (List (Nat × V))}
    (follows : Follows commits l) (low : l.applied < 2 ^ 64) : Settled commits l ↔ Bridged commits := by
  have stalled := follows.inv.stalled
  have gap := l.gap_eq stalled
  have free : firstCommitted commits l.applied = none := (follows.chosen _).symm.trans stalled
  have apart := (firstCommitted_eq_none commits l.applied).mp free
  constructor
  · rintro settled ⟨c, member, last⟩
    have above : l.applied < c.1.toNat := by
      have := apart c member
      omega
    have promised := settled.gap
    rw [if_pos ⟨c, member, above⟩, gap] at promised
    have seen : l.applied < l.maxSeen := by
      by_contra behind
      rw [if_neg behind] at promised
      exact Bool.false_ne_true (congrArg Prod.snd promised)
    obtain ⟨d, among, ahead, small⟩ := (follows.seen _).mp seen
    have := apart d among
    exact ⟨l.applied, free, d, among, by omega, by omega⟩
  · intro bridged
    refine follows.settled low ?_
    rw [gap]
    refine if_congr ?_ rfl rfl
    constructor
    · intro seen
      obtain ⟨d, among, ahead, _⟩ := (follows.seen _).mp seen
      have := apart d among
      exact ⟨d, among, by omega⟩
    · rintro ⟨c, member, above⟩
      have small := c.1.toNat_lt
      by_cases last : c.1.toNat = 2 ^ 64 - 1
      · obtain ⟨k, unseen, d, among, less, high⟩ := bridged ⟨c, member, last⟩
        have bound := follows.applied_le k unseen
        exact (follows.seen _).mpr ⟨d, among, by omega, by omega⟩
      · exact (follows.seen _).mpr ⟨c, member, by omega, by omega⟩

def SettledAfter (commits : List (UInt64 × V)) : Prop :=
  ∃ rounds l, commitAll rounds commits = some l ∧ Settled commits l

private theorem settledAfter_iff (commits : List (UInt64 × V)) : SettledAfter commits ↔ Bridged commits := by
  constructor
  · rintro ⟨rounds, l, returned, settled⟩
    obtain ⟨l', follows, _, only_⟩ := commitAll_free commits l.applied settled.applied.1 settled.applied.2
    have same := only_ rounds l returned
    subst same
    exact (follows.settled_iff settled.applied.1).mp settled
  · intro bridged
    obtain ⟨k, low, free⟩ : ∃ k, k < 2 ^ 64 ∧ firstCommitted commits k = none := by
      by_cases last : ∃ c ∈ commits, c.1.toNat = 2 ^ 64 - 1
      · obtain ⟨k, free, c, _, less, _⟩ := bridged last
        have := c.1.toNat_lt
        exact ⟨k, by omega, free⟩
      · push Not at last
        exact ⟨2 ^ 64 - 1, by decide, (firstCommitted_eq_none commits _).mpr last⟩
    obtain ⟨l, follows, returns, _⟩ := commitAll_free commits k low free
    have bound := follows.applied_le k free
    exact ⟨commits.length + 1, l, returns _ (by omega), (follows.settled_iff (by omega)).mpr bridged⟩

private theorem firstCommitted_congr (commits commits' : List (UInt64 × V))
    (same : ∀ c, c ∈ commits ↔ c ∈ commits')
    (agree : ∀ c ∈ commits, ∀ d ∈ commits, c.1 = d.1 → c.2 = d.2) (k : Nat) :
    firstCommitted commits k = firstCommitted commits' k := by
  cases first : commits.find? (fun c => decide (c.1.toNat = k)) with
  | none =>
    have absent : firstCommitted commits k = none := by rw [firstCommitted, first]; rfl
    have absent' : firstCommitted commits' k = none := by
      rw [firstCommitted_eq_none] at absent ⊢
      exact fun c member => absent c ((same c).mpr member)
    rw [absent, absent']
  | some c =>
    have here := List.mem_of_find?_eq_some first
    have slot : c.1.toNat = k := by simpa using List.find?_some first
    cases second : commits'.find? (fun c => decide (c.1.toNat = k)) with
    | none => exact absurd (decide_eq_true slot) (List.find?_eq_none.mp second c ((same c).mp here))
    | some d =>
      have there := (same d).mpr (List.mem_of_find?_eq_some second)
      have slot' : d.1.toNat = k := by simpa using List.find?_some second
      have equal : c.1 = d.1 := UInt64.toNat_inj.mp (slot.trans slot'.symm)
      simp only [firstCommitted, first, second, Option.map_some, agree c here d there equal]

/-- A sequence of commits keeps its promises after every call exactly if it never has committed the last slot without
a gap that another slot shows. The calls of the callback depend only on what has been committed, not on the order,
as long as a slot is left. -/
theorem commits_settled_iff (commits : List (UInt64 × V)) :
    ((∀ p, p <+: commits → SettledAfter p) ↔ ∀ p, p <+: commits → Bridged p) ∧
    ∀ commits' : List (UInt64 × V), (∀ c, c ∈ commits ↔ c ∈ commits') →
      (∀ c ∈ commits, ∀ d ∈ commits, c.1 = d.1 → c.2 = d.2) → (∃ k : UInt64, ∀ c ∈ commits, c.1 ≠ k) →
      ∃ rounds l l', commitAll rounds commits = some l ∧ commitAll rounds commits' = some l' ∧ l.state = l'.state := by
  refine ⟨forall₂_congr fun p _ => settledAfter_iff p, ?_⟩
  rintro commits' same agree ⟨k, unused⟩
  have equal := firstCommitted_congr commits commits' same agree
  have free : firstCommitted commits k.toNat = none :=
    (firstCommitted_eq_none commits _).mpr (fun c member slot => unused c member (UInt64.toNat_inj.mp slot))
  obtain ⟨l, follows, returns, _⟩ := commitAll_free commits k.toNat k.toNat_lt free
  obtain ⟨l', follows', returns', _⟩ := commitAll_free commits' k.toNat k.toNat_lt ((equal _).symm.trans free)
  have applied : l.applied = l'.applied := by
    apply Nat.le_antisymm
    · exact follows.applied_le _ (((equal _).trans (follows'.chosen _).symm).trans follows'.inv.stalled)
    · exact follows'.applied_le _ (((equal _).symm.trans (follows.chosen _).symm).trans follows.inv.stalled)
  refine ⟨commits.length + commits'.length + 1, l, l', returns _ (by omega), returns' _ (by omega), ?_⟩
  rw [follows.inv.folded, follows'.inv.folded, applied]
  apply applyBelow_congr
  intro j _
  rw [follows.chosen, follows'.chosen, equal]

/-- The last slot alone: it is recorded and far above `applied`, and no gap is reported. -/
theorem lastSlot_without_gap :
    (commitAll 2 [((0xffffffffffffffff : UInt64), 7)]).map (fun l => (l.applied, l.gap)) = some (0, (0, false)) ∧
    (0 : Nat) < (0xffffffffffffffff : UInt64).toNat ∧ ¬SettledAfter [((0xffffffffffffffff : UInt64), 7)] := by
  refine ⟨by decide +kernel, by decide +kernel, ?_⟩
  rw [settledAfter_iff]
  intro bridged
  obtain ⟨k, _, c, member, _, small⟩ := bridged ⟨_, List.mem_singleton_self _, by decide +kernel⟩
  rw [List.mem_singleton.mp member] at small
  exact absurd small (by decide +kernel)

end PrefixMesh.Paxos
