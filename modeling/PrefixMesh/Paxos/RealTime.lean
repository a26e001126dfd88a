import PrefixMesh.Paxos.Recorded

/-! Real time. A call proposes in the first slot its own replica has not recorded, so
the slot it returns with was not in that log when the call began, and every slot below
it is chosen. That the slot was not chosen elsewhere is a different matter: a replica
that missed a `Learn` recovers the value there, and takes it for its own if it is equal. -/

namespace PrefixMesh.Paxos

variable {R V σ ρ C : Type} [LinearOrder R]

/-- The slot a call works on, from its first message to its local commit. -/
def Phase.slot : Phase R V → Option Nat
  | .ready => none
  | .preparing p => some p.slot
  | .accepting a => some a.slot
  | .committing slot _ => some slot

def Action.enters (c : Cluster R V σ ρ) : Action R V ρ → Option (R × V)
  | .submit n v => some (n, v)
  | .gapFill n => some (n, c.noop n)
  | _ => none

/-- A running call keeps its slot, has just taken the lock, or has just picked its slot. -/
theorem active_effect [DecidableEq V] {c : Cluster R V σ ρ} {s t : State R V σ} {a : Action R V ρ}
    (effect : Effect c s a t) (k : R) (next : Call R V) (held : t.active k = some next) :
    (∃ call, s.active k = some call ∧ call.id = next.id ∧ call.value = next.value ∧
      (next.phase.slot = none ∨ next.phase.slot = call.phase.slot ∨
        a = .attempt k ∧ next.phase.slot = some (s.log k).firstUnchosen)) ∨
    (next.phase = .ready ∧ (next.id, next.value) ∈ s.waiting k) := by
  cases effect with
  | acquire n id v _ queued =>
    rcases Lib.update_cases held with ⟨rfl, given⟩ | ⟨_, earlier⟩
    · cases given
      exact Or.inr ⟨rfl, queued⟩
    · exact Or.inl ⟨next, earlier, rfl, rfl, Or.inr (Or.inl rfl)⟩
  | giveUp n call _ _ =>
    rcases Lib.update_cases held with ⟨rfl, given⟩ | ⟨_, earlier⟩
    · cases given
    · exact Or.inl ⟨next, earlier, rfl, rfl, Or.inr (Or.inl rfl)⟩
  | attempt n call before _ _ =>
    rcases Lib.update_cases held with ⟨rfl, given⟩ | ⟨_, earlier⟩
    · cases given
      exact Or.inl ⟨call, before, rfl, rfl, Or.inr (Or.inr ⟨rfl, rfl⟩)⟩
    · exact Or.inl ⟨next, earlier, rfl, rfl, Or.inr (Or.inl rfl)⟩
  | recvPromise n peer reply call p before phase _ _ =>
    rcases Lib.update_cases held with ⟨rfl, given⟩ | ⟨_, earlier⟩
    · cases given
      refine Or.inl ⟨call, before, rfl, rfl, Or.inr (Or.inl ?_)⟩
      simp only [phase, Phase.slot, (p.collect_eq peer reply).1]
    · exact Or.inl ⟨next, earlier, rfl, rfl, Or.inr (Or.inl rfl)⟩
  | failPrepare n peer call p before phase _ | failAccept n peer call p before phase _ =>
    rcases Lib.update_cases held with ⟨rfl, given⟩ | ⟨_, earlier⟩
    · cases given
      refine Or.inl ⟨call, before, rfl, rfl, Or.inr (Or.inl ?_)⟩
      simp only [phase, Phase.slot]
    · exact Or.inl ⟨next, earlier, rfl, rfl, Or.inr (Or.inl rfl)⟩
  | recvAck n peer reply call p before phase _ _ =>
    rcases Lib.update_cases held with ⟨rfl, given⟩ | ⟨_, earlier⟩
    · cases given
      refine Or.inl ⟨call, before, rfl, rfl, Or.inr (Or.inl ?_)⟩
      simp only [phase, Phase.slot, (p.collect_eq peer reply).1]
    · exact Or.inl ⟨next, earlier, rfl, rfl, Or.inr (Or.inl rfl)⟩
  | losePrepare n call p before _ _ _ | loseAccept n call p before _ _ _ =>
    rcases Lib.update_cases held with ⟨rfl, given⟩ | ⟨_, earlier⟩
    · cases given
      exact Or.inl ⟨call, before, rfl, rfl, Or.inl rfl⟩
    · exact Or.inl ⟨next, earlier, rfl, rfl, Or.inr (Or.inl rfl)⟩
  | propose n call p before phase _ _ | announce n call p before phase _ _ =>
    rcases Lib.update_cases held with ⟨rfl, given⟩ | ⟨_, earlier⟩
    · cases given
      refine Or.inl ⟨call, before, rfl, rfl, Or.inr (Or.inl ?_)⟩
      simp only [phase, Phase.slot]
    · exact Or.inl ⟨next, earlier, rfl, rfl, Or.inr (Or.inl rfl)⟩
  | commit n call slot proposal before _ =>
    rcases Lib.update_cases held with ⟨rfl, given⟩ | ⟨_, earlier⟩
    · split_ifs at given
      cases given
      exact Or.inl ⟨call, before, rfl, rfl, Or.inl rfl⟩
    · exact Or.inl ⟨next, earlier, rfl, rfl, Or.inr (Or.inl rfl)⟩
  | _ => exact Or.inl ⟨next, held, rfl, rfl, Or.inr (Or.inl rfl)⟩

theorem returned_effect [DecidableEq V] {c : Cluster R V σ ρ} {s t : State R V σ} {a : Action R V ρ}
    (effect : Effect c s a t) (r : Returned V) (back : r ∈ t.returned) : r ∈ s.returned ∨
      ∃ n call, s.active n = some call ∧ call.phase = .committing r.slot r.value ∧ r.call = call.id ∧
        c.equal r.value call.value = true ∧ (t.log n).chosen.lookup r.slot ≠ none := by
  cases effect with
  | commit n call slot proposal held phase =>
    simp only [State.commitLocal] at back
    split_ifs at back with equal
    · rcases List.mem_cons.mp back with rfl | old
      · refine Or.inr ⟨n, call, held, phase, rfl, equal, ?_⟩
        simp only [State.commitLocal, Function.update_self]
        exact Log.commit_recorded c.apply _ slot proposal
      · exact Or.inl old
    · exact Or.inl back
  | _ => exact Or.inl back

theorem calls_effect [DecidableEq V] {c : Cluster R V σ ρ} {s t : State R V σ} {a : Action R V ρ}
    (effect : Effect c s a t) (id : Nat) (x : R × V) (made : s.calls[id]? = some x) :
    t.calls[id]? = some x := by
  have longer : ∀ y, (s.calls ++ [y])[id]? = some x := by
    intro y
    rw [List.getElem?_append_left (List.getElem?_eq_some_iff.mp made).1]
    exact made
  cases effect with
  | submit n v _ => exact longer (n, v)
  | gapFill n _ _ => exact longer (n, c.noop n)
  | _ => exact made

private theorem waiting_effect [DecidableEq V] {c : Cluster R V σ ρ} {s t : State R V σ} {a : Action R V ρ}
    (effect : Effect c s a t) (k : R) (entry : Nat × V) (present : entry ∈ t.waiting k) :
    entry ∈ s.waiting k ∨ t.calls[entry.1]? = some (k, entry.2) := by
  have entered : ∀ n v, entry ∈ (s.enter n v).waiting k →
      entry ∈ s.waiting k ∨ (s.enter n v).calls[entry.1]? = some (k, entry.2) := by
    intro n v inside
    by_cases same : k = n
    · subst same
      simp only [State.enter, Function.update_self] at inside
      rcases List.mem_append.mp inside with old | new
      · exact Or.inl old
      · obtain rfl := List.mem_singleton.mp new
        exact Or.inr (by simp [State.enter])
    · simp only [State.enter, Function.update_of_ne same] at inside
      exact Or.inl inside
  cases effect with
  | submit n v _ => exact entered n v present
  | gapFill n _ _ => exact entered n (c.noop n) present
  | acquire n id v _ _ =>
    by_cases same : k = n
    · subst same
      simp only [State.acquire, Function.update_self] at present
      exact Or.inl (List.mem_of_mem_erase present)
    · simp only [State.acquire, Function.update_of_ne same] at present
      exact Or.inl present
  | _ => exact Or.inl present

def Filled (c : Cluster R V σ ρ) (meaning : V → C) (s : State R V σ) (slot : Nat) : Prop :=
  ∀ k, k < slot → ∃ w, Chosen c meaning s k w

theorem Filled.mono [DecidableEq V] {c : Cluster R V σ ρ} {meaning : V → C} {s t : State R V σ} {slot : Nat}
    (filled : Filled c meaning s slot) (grows : ∀ v ∈ s.votes, v ∈ t.votes) : Filled c meaning t slot := by
  intro k below
  obtain ⟨w, chosen⟩ := filled k below
  exact ⟨w, chosen.mono grows⟩

/-- Calls are known by their place in the history of calls, and no call ever works above a hole. -/
structure CallInv (c : Cluster R V σ ρ) (meaning : V → C) (s : State R V σ) : Prop where
  queued : ∀ n entry, entry ∈ s.waiting n → s.calls[entry.1]? = some (n, entry.2)
  running : ∀ n call, s.active n = some call → s.calls[call.id]? = some (n, call.value)
  filled : ∀ n call slot, s.active n = some call → call.phase.slot = some slot → Filled c meaning s slot
  returned : ∀ r ∈ s.returned, (∃ n v, s.calls[r.call]? = some (n, v) ∧ c.equal r.value v = true) ∧
    Filled c meaning s r.slot ∧ Chosen c meaning s r.slot (meaning r.value)

theorem callInv_init (c : Cluster R V σ ρ) (meaning : V → C) : CallInv c meaning c.init where
  queued := by simp [Cluster.init]
  running := by simp [Cluster.init]
  filled := by simp [Cluster.init]
  returned := by simp [Cluster.init]

theorem callInv_step [DecidableEq V] {c : Cluster R V σ ρ} {meaning : V → C} {s t : State R V σ} {a : Action R V ρ}
    (choice : ChoiceInv c meaning s) (logs : ∀ n, (s.log n).Inv c.apply c.start) (inv : CallInv c meaning s)
    (effect : Effect c s a t) : CallInv c meaning t where
  queued := by
    intro n entry present
    rcases waiting_effect effect n entry present with old | new
    · exact calls_effect effect _ _ (inv.queued n entry old)
    · exact new
  running := by
    intro n next held
    rcases active_effect effect n next held with ⟨call, before, id, value, _⟩ | ⟨_, queued⟩
    · rw [← id, ← value]
      exact calls_effect effect _ _ (inv.running n call before)
    · exact calls_effect effect _ _ (inv.queued n _ queued)
  filled := by
    intro n next slot held at_
    rcases active_effect effect n next held with ⟨call, before, _, _, moved⟩ | ⟨phase, _⟩
    · rcases moved with idle | same | ⟨_, target⟩
      · rw [idle] at at_
        cases at_
      · exact (inv.filled n call slot before (same ▸ at_)).mono (votes_step effect)
      · rw [target] at at_
        cases at_
        intro k below
        obtain ⟨v, found⟩ := Option.ne_none_iff_exists'.mp (Log.firstUnchosen_recorded (logs n) k below)
        exact ⟨meaning v, (choice.logged n k v found).mono (votes_step effect)⟩
    · rw [phase] at at_
      cases at_
  returned := by
    intro r back
    rcases returned_effect effect r back with old | ⟨n, call, held, phase, id, equal, _⟩
    · obtain ⟨⟨n, v, made, equal⟩, filled, chosen⟩ := inv.returned r old
      exact ⟨⟨n, v, calls_effect effect _ _ made, equal⟩, filled.mono (votes_step effect),
        chosen.mono (votes_step effect)⟩
    · have chosen := choice.phases n call held
      rw [phase] at chosen
      refine ⟨⟨n, call.value, ?_, equal⟩, ?_, Chosen.mono chosen (votes_step effect)⟩
      · rw [id]
        exact calls_effect effect _ _ (inv.running n call held)
      · exact (inv.filled n call r.slot held (by rw [phase]; rfl)).mono (votes_step effect)

theorem callInv_reachable [DecidableEq V] {c : Cluster R V σ ρ} {meaning : V → C} (faithful : Faithful c meaning)
    {s : State R V σ} (run : Reachable c s) : CallInv c meaning s := by
  have both : Reachable c s ∧ CallInv c meaning s := by
    refine run.invariant (fun u => Reachable c u ∧ CallInv c meaning u) ⟨.refl, callInv_init c meaning⟩ ?_
    rintro u a w ⟨reached, inv⟩ taken small
    exact ⟨reached.tail taken small, callInv_step (inv_reachable c meaning faithful u reached).choice
      (logInv_reachable reached) inv (effect_of_step c u w a taken)⟩
  exact both.2

/-- Calls that began at `base` or later only work on slots that their replica had not recorded at `base`. -/
structure Since (base s : State R V σ) : Prop where
  active : ∀ n call slot, s.active n = some call → base.calls.length ≤ call.id →
    call.phase.slot = some slot → (base.log n).chosen.lookup slot = none
  returned : ∀ r ∈ s.returned, base.calls.length ≤ r.call →
    ∃ n v, s.calls[r.call]? = some (n, v) ∧ (base.log n).chosen.lookup r.slot = none

theorem since_self {c : Cluster R V σ ρ} {meaning : V → C} {s : State R V σ} (inv : CallInv c meaning s) :
    Since s s where
  active := by
    intro n call slot held later
    have made := (List.getElem?_eq_some_iff.mp (inv.running n call held)).1
    omega
  returned := by
    intro r back later
    obtain ⟨⟨n, v, made, _⟩, _⟩ := inv.returned r back
    have before := (List.getElem?_eq_some_iff.mp made).1
    omega

theorem since_step [DecidableEq V] {c : Cluster R V σ ρ} {meaning : V → C} {base s t : State R V σ} {a : Action R V ρ}
    (calls : CallInv c meaning s) (later : Leads c base s) (inv : Since base s) (effect : Effect c s a t) :
    Since base t where
  active := by
    intro n next slot held fresh at_
    rcases active_effect effect n next held with ⟨call, before, id, _, moved⟩ | ⟨phase, _⟩
    · rcases moved with idle | same | ⟨_, target⟩
      · rw [idle] at at_
        cases at_
      · exact inv.active n call slot before (id ▸ fresh) (same ▸ at_)
      · rw [target] at at_
        cases at_
        by_contra recorded
        obtain ⟨v, found⟩ := Option.ne_none_iff_exists'.mp recorded
        have still := lookup_leads later n _ v found
        rw [Log.firstUnchosen_free] at still
        cases still
    · rw [phase] at at_
      cases at_
  returned := by
    intro r back fresh
    rcases returned_effect effect r back with old | ⟨n, call, held, phase, id, _⟩
    · obtain ⟨n, v, made, absent⟩ := inv.returned r old fresh
      exact ⟨n, v, calls_effect effect _ _ made, absent⟩
    · refine ⟨n, call.value, ?_, inv.active n call r.slot held (id ▸ fresh) (by rw [phase]; rfl)⟩
      rw [id]
      exact calls_effect effect _ _ (calls.running n call held)

theorem since_leads [DecidableEq V] {c : Cluster R V σ ρ} {meaning : V → C} (faithful : Faithful c meaning)
    {base s : State R V σ} (run : Reachable c base) (later : Leads c base s) : Since base s := by
  have both : Leads c base s ∧ Since base s := by
    refine later.invariant (fun u => Leads c base u ∧ Since base u)
      ⟨.refl, since_self (callInv_reachable faithful run)⟩ ?_
    rintro u a w ⟨reached, inv⟩ taken small
    exact ⟨reached.tail taken small, since_step (callInv_reachable faithful (run.trans reached)) reached inv
      (effect_of_step c u w a taken)⟩
  exact both.2

theorem Chosen.vote {c : Cluster R V σ ρ} {meaning : V → C} {s : State R V σ} {slot : Nat} {w : C}
    (chosen : Chosen c meaning s slot w) : ∃ v ∈ s.votes, v.slot = slot ∧ meaning v.value = w := by
  obtain ⟨b, quorum, majority, voted⟩ := chosen
  obtain ⟨q, present⟩ := majority.nonempty
  obtain ⟨v, cast, _, at_, _, same⟩ := voted q present
  exact ⟨v, cast, at_, same⟩

/-- A call that begins in `s` while no slot missing from its replica's log is already chosen with an
equal value, and that returns nil, took a slot that was not chosen in `s`, beyond the slots of all
calls that had returned by then. `respects` says that `Equal` looks at the meaning of the chosen value. -/
theorem submit_takes_new_slot [DecidableEq V] (c : Cluster R V σ ρ) (meaning : V → C) (faithful : Faithful c meaning)
    (respects : ∀ w w' v, meaning w = meaning w' → c.equal w v = c.equal w' v)
    (s t u : State R V σ) (a : Action R V ρ) (n : R) (v : V) (run : Reachable c s)
    (enters : a.enters c = some (n, v)) (started : step c s a = some t) (small : RoundsBelow c t)
    (later : Leads c t u)
    (unseen : ∀ slot w, (s.log n).chosen.lookup slot = none → Chosen c meaning s slot (meaning w) →
      c.equal w v = false)
    (r : Returned V) (own : r.call = s.calls.length) (back : r ∈ u.returned) :
    c.equal r.value v = true ∧ Chosen c meaning u r.slot (meaning r.value) ∧
      (∀ w, ¬Chosen c meaning s r.slot w) ∧ ∀ q ∈ s.returned, q.slot < r.slot := by
  have span : Leads c s u := (Lib.Reaches.refl.tail started small).trans later
  have finished := callInv_reachable faithful (run.trans span)
  obtain ⟨⟨k, x, made, equal⟩, _, chosen⟩ := finished.returned r back
  obtain ⟨k', x', made', absent⟩ := (since_leads faithful run span).returned r back own.ge
  -- the call's place in the history tells its replica and its value
  have entry : u.calls[r.call]? = some (n, v) := by
    have first : t.calls[r.call]? = some (n, v) := by
      rw [own]
      cases effect_of_step c s t a started with
      | submit k w _ => cases enters; simp [State.enter]
      | gapFill k _ _ => cases enters; simp [State.enter]
      | _ => cases enters
    exact later.invariant (fun x => x.calls[r.call]? = some (n, v)) first
      (fun x b y holds taken _ => calls_effect (effect_of_step c x y b taken) _ _ holds)
  rw [entry] at made made'
  cases made
  cases made'
  have new : ∀ w, ¬Chosen c meaning s r.slot w := by
    intro w before
    obtain ⟨vote, _, _, rfl⟩ := before.vote
    have same := chosen_agree (inv_reachable c meaning faithful u (run.trans span))
      (before.mono (votes_leads span)) chosen
    rw [respects _ _ _ same.symm, unseen r.slot vote.value absent before] at equal
    cases equal
  refine ⟨equal, chosen, new, ?_⟩
  intro q earlier
  obtain ⟨_, filled, chosenQ⟩ := (callInv_reachable faithful run).returned q earlier
  by_contra notAbove
  rcases Nat.eq_or_lt_of_le (not_lt.mp notAbove) with same | below
  · exact new _ (same ▸ chosenQ)
  · obtain ⟨w, chosenBelow⟩ := filled r.slot below
    exact new w chosenBelow

/-- The first replica gets 7 and then 8 chosen together with the second, and the third misses both `Learn`s. -/
def lagging (first second third : R) : List (Action R Nat Unit) :=
  [.submit first 7, .acquire first 0 7] ++
    roundActions first 0 256 7 [(first, ⟨true, 0, none, 256⟩), (second, ⟨true, 0, none, 256⟩)] [third] () ++
    [.submit first 8, .acquire first 1 8] ++
    roundActions first 1 512 8 [(first, ⟨true, 0, none, 512⟩), (second, ⟨true, 0, none, 512⟩)] [third] ()

/-- After both have returned, replica 2 submits 9: it recovers 7 and 8 in the slots it has missed and
returns with the slot after them. -/
theorem threeReplicas_behind : ∃ s t u, Reachable threeReplicas s ∧
    (⟨0, 0, 7⟩ : Returned Nat) ∈ s.returned ∧ (⟨1, 1, 8⟩ : Returned Nat) ∈ s.returned ∧
    (s.log 2).chosen.lookup 0 = none ∧ (s.log 2).chosen.lookup 1 = none ∧
    step threeReplicas s (.submit 2 9) = some t ∧ Leads threeReplicas t u ∧
    (⟨2, 2, 9⟩ : Returned Nat) ∈ u.returned ∧ Chosen threeReplicas id u 2 9 ∧
    (∀ w, ¬Chosen threeReplicas id s 2 w) ∧ ∀ q ∈ s.returned, q.slot < 2 := by
  obtain ⟨s, run, seven, eight, missed, missed', cast, rest⟩ := Lib.reaches_of_check (step threeReplicas)
    (fun _ _ u => RoundsBelow threeReplicas u) (lagging 0 1 2) threeReplicas.init
    (fun s => (⟨0, 0, 7⟩ : Returned Nat) ∈ s.returned ∧ (⟨1, 1, 8⟩ : Returned Nat) ∈ s.returned ∧
      (s.log 2).chosen.lookup 0 = none ∧ (s.log 2).chosen.lookup 1 = none ∧ (∀ v ∈ s.votes, v.value ≠ 9) ∧
      ((step threeReplicas s (.submit 2 9)).any fun t => decide (RoundsBelow threeReplicas t) &&
        (Lib.runActions (step threeReplicas) (fun _ _ u => RoundsBelow threeReplicas u) t
          (.acquire 2 2 9 ::
            roundActions 2 0 258 7 [(1, ⟨true, 256, some 7, 258⟩), (2, ⟨true, 0, none, 258⟩)] [0] () ++
            roundActions 2 1 514 8 [(1, ⟨true, 512, some 8, 514⟩), (2, ⟨true, 0, none, 514⟩)] [0] () ++
            roundActions 2 2 770 9 [(1, ⟨true, 0, none, 770⟩), (2, ⟨true, 0, none, 770⟩)] [0] ())).any fun u =>
          decide ((⟨2, 2, 9⟩ : Returned Nat) ∈ u.returned ∧ s.calls.length = 2)) = true) (by decide)
  obtain ⟨t, started, passed⟩ := (Option.any_eq_true _ _).mp rest
  obtain ⟨small, passed⟩ := (Bool.and_eq_true _ _).mp passed
  obtain ⟨u, executed, facts⟩ := (Option.any_eq_true _ _).mp passed
  obtain ⟨back, count⟩ := of_decide_eq_true facts
  have later := Lib.reaches_of_runActions _ _ _ executed
  obtain ⟨_, chosen, new, order⟩ := submit_takes_new_slot threeReplicas id
    (fun _ _ _ _ _ same => (Option.some.inj same).symm) (fun _ _ v same => congrArg (threeReplicas.equal · v) same)
    s t u (.submit 2 9) 2 9 run rfl started (of_decide_eq_true small) later
    (fun slot w _ chosen => by
      obtain ⟨v, voted, _, same⟩ := chosen.vote
      exact decide_eq_false fun nine => cast v voted (same.trans nine)) ⟨2, 2, 9⟩ count.symm back
  exact ⟨s, t, u, run, seven, eight, missed, missed', started, later, back, chosen, new, order⟩

/-- In the same situation a `Submit` of 7 at replica 2 returns nil with slot 0, although that slot was chosen before
the call and 8 had been returned for slot 1: no slot that was open when the call began holds 7. -/
theorem threeReplicas_lagging : ∃ s t u r, Reachable threeReplicas s ∧
    step threeReplicas s (.submit 2 7) = some t ∧ RoundsBelow threeReplicas t ∧ Leads threeReplicas t u ∧
    r ∈ u.returned ∧ r.call = s.calls.length ∧
    (∀ slot w, Chosen threeReplicas id u slot w → threeReplicas.equal w 7 = true →
      Chosen threeReplicas id s slot w) ∧
    ∃ q ∈ s.returned, r.slot < q.slot := by
  obtain ⟨s, run, zero, one, returned, rest⟩ := Lib.reaches_of_check (step threeReplicas)
    (fun _ _ u => RoundsBelow threeReplicas u) (lagging 0 1 2) threeReplicas.init
    (fun s => (⟨0, 0, 256, 7⟩ : Vote (Fin 3) Nat) ∈ s.votes ∧ (⟨1, 0, 256, 7⟩ : Vote (Fin 3) Nat) ∈ s.votes ∧
      (⟨1, 1, 8⟩ : Returned Nat) ∈ s.returned ∧
      ((step threeReplicas s (.submit 2 7)).any fun t => decide (RoundsBelow threeReplicas t) &&
        (Lib.runActions (step threeReplicas) (fun _ _ u => RoundsBelow threeReplicas u) t
          (.acquire 2 2 7 :: roundActions 2 0 258 7
            [(1, ⟨true, 256, some 7, 258⟩), (2, ⟨true, 0, none, 258⟩)] [0] ())).any fun u =>
          decide ((⟨2, 0, 7⟩ : Returned Nat) ∈ u.returned ∧ s.calls.length = 2 ∧
            ∀ v ∈ u.votes, v.value = 7 → v.slot = 0)) = true) (by decide)
  obtain ⟨t, started, passed⟩ := (Option.any_eq_true _ _).mp rest
  obtain ⟨small, passed⟩ := (Bool.and_eq_true _ _).mp passed
  obtain ⟨u, executed, facts⟩ := (Option.any_eq_true _ _).mp passed
  obtain ⟨back, count, only⟩ := of_decide_eq_true facts
  refine ⟨s, t, u, ⟨2, 0, 7⟩, run, started, of_decide_eq_true small,
    Lib.reaches_of_runActions _ _ _ executed, back, count.symm, ?_, ⟨1, 1, 8⟩, returned, by decide⟩
  intro slot w chosen equal
  obtain rfl : w = 7 := by simpa [threeReplicas] using equal
  obtain ⟨v, cast, at_, same⟩ := chosen.vote
  obtain rfl : 0 = slot := (only v cast same).symm.trans at_
  refine ⟨256, {0, 1}, ⟨by decide, by decide⟩, ?_⟩
  intro q present
  rcases Finset.mem_insert.mp present with rfl | second
  · exact ⟨_, zero, rfl, rfl, rfl, rfl⟩
  · obtain rfl := Finset.mem_singleton.mp second
    exact ⟨_, one, rfl, rfl, rfl, rfl⟩

end PrefixMesh.Paxos
