import PrefixMesh.Directory.Monitor

/-! A node that has gone silent is found out. Once a detector has listed such a node, and a
majority of the replicas has not heard of it for `DeadAfter`, the detector proposes the
node dead within a number of its own steps that is known beforehand, however the steps
interleave with those of everybody else. -/

namespace PrefixMesh.Directory

theorem StateMachine.hasMember_of_applyCommand {sm : StateMachine} {cmd : ClusterCommand} {id : String}
    (member : (sm.applyCommand cmd).hasMember id = true) : sm.hasMember id = true ∨ sm.joined cmd = some id := by
  simp only [StateMachine.hasMember, decide_eq_true_eq] at member ⊢
  cases cmd with
  | nodeJoin info =>
    cases update : sm.changed (.nodeJoin info) with
    | none =>
      simp only [StateMachine.applyCommand, update] at member
      exact Or.inl member
    | some members =>
      simp only [StateMachine.applyCommand, update] at member
      simp only [StateMachine.joined, update, Option.isSome_some, if_true, Option.some.injEq]
      simp only [StateMachine.changed, Option.ite_none_right_eq_some, Option.some.injEq] at update
      rw [← update.2, Finmap.mem_insert] at member
      exact member.symm.imp_right Eq.symm
  | nodeLeave gone | nodeDead gone =>
    refine Or.inl ?_
    simp only [StateMachine.applyCommand, StateMachine.changed] at member
    split at member
    next update =>
      rw [Option.ite_none_right_eq_some, Option.some.injEq] at update
      rw [← update.2] at member
      exact (Finmap.mem_erase.mp member).2
    next => exact member
  | _ => exact Or.inl member

namespace Monitor

variable {R : Type} (c : Config R) (lost : R → Bool) (p : R) (id : String)

/-- The steps of the pass of a detector, those of the peers that it asks included. -/
def own [DecidableEq R] : Action R → Bool
  | .wake q | .list q _ | .next q _ | .probe q | .answer q | .receive q | .lose q | .finish q => decide (q = p)
  | _ => false

/-- The replicas that have lost the node hear nothing of it: no heartbeat, no join; and they can be asked. -/
def Unheard (s : State R) : Action R → Prop
  | .heartbeat n x => ¬(lost n = true ∧ x = id)
  | .apply n =>
      match s.log[s.applied n]? with
      | some cmd => ¬(lost n = true ∧ (s.sm n).joined cmd = some id)
      | none => True
  | .lose q =>
      match s.phase q with
      | .asking _ _ asked (n :: _) _ _ => ¬(q = p ∧ asked = id ∧ lost n = true)
      | _ => True
  | _ => True

instance [DecidableEq R] (s : State R) (a : Action R) : Decidable (Unheard lost p id s a) :=
  match a with
  | .heartbeat n x => inferInstanceAs (Decidable ¬(lost n = true ∧ x = id))
  | .apply n =>
      match found : s.log[s.applied n]? with
      | some cmd => decidable_of_iff (¬(lost n = true ∧ (s.sm n).joined cmd = some id)) (by simp only [Unheard, found])
      | none => isTrue (by simp only [Unheard, found])
  | .lose q =>
      match found : s.phase q with
      | .asking _ _ asked (n :: _) _ _ =>
          decidable_of_iff (¬(q = p ∧ asked = id ∧ lost n = true)) (by simp only [Unheard, found])
      | .asking _ _ _ [] _ _ | .idle | .woken _ | .scanning _ _ => isTrue (by simp only [Unheard, found])
  | .advance _ | .choose _ | .wake _ | .list _ _ | .next _ _ | .probe _ | .answer _ | .receive _ | .finish _ =>
      isTrue trivial

/-- The steps of a pass for one member: looking at its record, three steps for each peer, and the end. -/
def perMember : Nat := 3 * (c.replicas.length - 1) + 2

def Reply.progress : Reply → Nat
  | .waiting => 0
  | .member => 1
  | .answered _ => 2

def rank : Phase R → Nat
  | .idle | .woken _ => 0
  | .scanning _ rest => 1 + rest.length * perMember c
  | .asking _ rest _ peers _ reply => 1 + rest.length * perMember c + (3 * peers.length - reply.progress) + 1

/-- Enough votes have come in or are going to: a replica that has lost the node does not vote for it. -/
structure Counts (s : State R) (peers : List R) (suspecting : Nat) (reply : Reply) : Prop where
  enough : c.replicas.countP lost ≤ suspecting + peers.countP lost
  honest : ∀ q, peers.head? = some q → lost q = true → reply ≠ .answered false
  heard : ∀ q, peers.head? = some q → lost q = true → reply = .member → (s.las q id).isSome = true

def PassOk (s : State R) : Phase R → Prop
  | .idle | .woken _ => (p, id) ∈ s.submitted
  | .scanning now rest => (p, id) ∈ s.submitted ∨ id ∈ rest ∧ s.expired c p id now = true
  | .asking now rest asked peers suspecting reply => (p, id) ∈ s.submitted ∨
      id ∈ rest ∧ s.expired c p id now = true ∨ asked = id ∧ Counts c lost id s peers suspecting reply

def Seeded (s : State R) : Prop := ∀ n x, (s.sm n).hasMember x = true → (s.las n x).isSome = true

structure Closing (s : State R) : Prop where
  seeded : Seeded s
  silent : ∀ n, lost n = true → ∀ last, s.las n id = some last → c.deadAfter < s.now - last
  pass : PassOk c lost p id s (s.phase p)

variable {c lost p id} {s t : State R}

theorem passOk_of_submitted (proposed : (p, id) ∈ s.submitted) (phase : Phase R) : PassOk c lost p id s phase := by
  cases phase with
  | idle | woken => exact proposed
  | scanning | asking => exact Or.inl proposed

theorem PassOk.mono {phase : Phase R} (pass : PassOk c lost p id s phase) (self : lost p = true)
    (las : ∀ n, lost n = true → t.las n id = s.las n id) (grown : ∀ x ∈ s.submitted, x ∈ t.submitted) :
    PassOk c lost p id t phase := by
  have same : ∀ now, t.expired c p id now = s.expired c p id now := fun now => by simp only [State.expired, las p self]
  cases phase with
  | idle | woken => exact grown _ pass
  | scanning now rest =>
    refine pass.imp (grown _) fun ahead => ⟨ahead.1, ?_⟩
    rw [same]
    exact ahead.2
  | asking now rest asked peers suspecting reply =>
    refine pass.imp (grown _) (Or.imp (fun ahead => ⟨ahead.1, ?_⟩) fun counts => ⟨counts.1, { counts.2 with
      heard := fun q head gone waits => ?_ }⟩)
    · rw [same]
      exact ahead.2
    · rw [las q gone]
      exact counts.2.heard q head gone waits

section Surroundings

structure Surround (lost : R → Bool) (id : String) (s t : State R) : Prop where
  now : s.now ≤ t.now
  seeded : Seeded s → Seeded t
  las : ∀ n, lost n = true → t.las n id = s.las n id

theorem Surround.same (now : t.now = s.now) (sm : t.sm = s.sm) (las : t.las = s.las) : Surround lost id s t := by
  refine ⟨now.ge, fun seeded n x member => ?_, fun n _ => by rw [las]⟩
  rw [las]
  exact seeded n x (sm ▸ member)

variable [DecidableEq R]

theorem Surround.record {n : R} {x : String} (unheard : ¬(lost n = true ∧ x = id)) :
    Surround lost id s (s.record n x) := by
  refine ⟨le_rfl, fun seeded m y member => ?_, fun m gone => ?_⟩
  · rw [record_las]
    split
    · rfl
    · exact seeded m y member
  · rw [record_las, if_neg]
    rintro ⟨rfl, same⟩
    exact unheard ⟨gone, same.symm⟩

theorem Surround.applyNext {n : R} {cmd : ClusterCommand} (unheard : ¬(lost n = true ∧ (s.sm n).joined cmd = some id)) :
    Surround lost id s (s.applyNext n cmd) := by
  have las : ∀ m y, (s.applyNext n cmd).las m y =
      if m = n ∧ (s.sm n).joined cmd = some y then some s.now else s.las m y := by
    intro m y
    simp only [State.applyNext]
    split
    next x joined =>
      rw [record_las, joined]
      exact if_congr (and_congr_right fun _ => by rw [Option.some.injEq, eq_comm]) rfl rfl
    next none_ => rw [none_, if_neg (by simp)]
  refine ⟨?_, fun seeded m y member => ?_, fun m gone => ?_⟩
  · simp only [State.applyNext]
    split
    · exact le_rfl
    · exact le_rfl
  · rw [las]
    split
    · rfl
    next other =>
      simp only [State.applyNext, Function.update_apply] at member
      split at member
      next same =>
        subst same
        refine seeded m y ((StateMachine.hasMember_of_applyCommand member).resolve_right fun joined => ?_)
        exact other ⟨rfl, joined⟩
      next => exact seeded m y member
  · rw [las, if_neg]
    rintro ⟨rfl, joined⟩
    exact unheard ⟨gone, joined⟩

theorem conclude_same (s : State R) (q : R) (now : Int) (rest : List String) (x : String) (suspecting : Nat) :
    (s.conclude c q now rest x suspecting).now = s.now ∧ (s.conclude c q now rest x suspecting).sm = s.sm ∧
      (s.conclude c q now rest x suspecting).las = s.las ∧
      (s.conclude c q now rest x suspecting).phase = Function.update s.phase q (.scanning now rest) := by
  simp only [State.conclude]
  split
  · exact ⟨rfl, rfl, rfl, rfl⟩
  · exact ⟨rfl, rfl, rfl, rfl⟩

inductive Effect (c : Config R) (s : State R) : Action R → State R → Prop where
  | world {a : Action R} {t : State R} (around : ∀ p, own p a = false) (phase : t.phase = s.phase)
      (submitted : t.submitted = s.submitted) : Effect c s a t
  | wake (q : R) (idle : s.phase q = .idle) : Effect c s (.wake q) (s.setPhase q (.woken s.now))
  | list (q : R) (now : Int) (ids : List String) (woken : s.phase q = .woken now) :
      Effect c s (.list q ids) (s.setPhase q (.scanning now ids))
  | rest (q : R) (order : List R) (now : Int) (at_ : s.phase q = .scanning now []) :
      Effect c s (.next q order) (s.setPhase q .idle)
  | skip (q : R) (order : List R) (now : Int) (x : String) (rest : List String)
      (at_ : s.phase q = .scanning now (x :: rest)) (heard : ¬s.expired c q x now = true) :
      Effect c s (.next q order) (s.setPhase q (.scanning now rest))
  | ask (q : R) (order : List R) (now : Int) (x : String) (rest : List String)
      (at_ : s.phase q = .scanning now (x :: rest)) (all : order.Perm (c.replicas.erase q)) :
      Effect c s (.next q order) (s.setPhase q (.asking now rest x order 1 .waiting))
  | probe (q : R) (now : Int) (rest : List String) (x : String) (n : R) (peers : List R) (suspecting : Nat)
      (at_ : s.phase q = .asking now rest x (n :: peers) suspecting .waiting) :
      Effect c s (.probe q) (s.setPhase q (.asking now rest x (n :: peers) suspecting
        (if (s.sm n).hasMember x then .member else .answered true)))
  | answer (q : R) (now : Int) (rest : List String) (x : String) (n : R) (peers : List R) (suspecting : Nat)
      (at_ : s.phase q = .asking now rest x (n :: peers) suspecting .member) :
      Effect c s (.answer q) (s.setPhase q (.asking now rest x (n :: peers) suspecting
        (.answered (s.expired c n x s.now))))
  | receive (q : R) (now : Int) (rest : List String) (x : String) (n : R) (peers : List R) (suspecting : Nat)
      (suspect : Bool) (at_ : s.phase q = .asking now rest x (n :: peers) suspecting (.answered suspect)) :
      Effect c s (.receive q) (s.setPhase q (.asking now rest x peers
        (if suspect then suspecting + 1 else suspecting) .waiting))
  | lose (q : R) (now : Int) (rest : List String) (x : String) (n : R) (peers : List R) (suspecting : Nat)
      (reply : Reply) (at_ : s.phase q = .asking now rest x (n :: peers) suspecting reply) :
      Effect c s (.lose q) (s.setPhase q (.asking now rest x peers suspecting .waiting))
  | finish (q : R) (now : Int) (rest : List String) (x : String) (suspecting : Nat) (reply : Reply)
      (at_ : s.phase q = .asking now rest x [] suspecting reply) :
      Effect c s (.finish q) (s.conclude c q now rest x suspecting)

theorem effect_of_step {a : Action R} (taken : step c s a = some t) : Effect c s a t := by
  cases a with
  | advance d | heartbeat n x | choose cmd =>
    cases taken
    exact .world (fun _ => rfl) rfl rfl
  | apply n =>
    simp only [step] at taken
    split at taken
    next => cases taken
    next cmd _ =>
      cases taken
      refine .world (fun _ => rfl) ?_ ?_
      · simp only [State.applyNext]
        split <;> rfl
      · simp only [State.applyNext]
        split <;> rfl
  | wake q =>
    simp only [step, Option.ite_none_right_eq_some, Option.some.injEq] at taken
    obtain ⟨⟨_, idle⟩, rfl⟩ := taken
    exact .wake q idle
  | list q ids =>
    simp only [step] at taken
    split at taken
    next now woken =>
      simp only [Option.ite_none_right_eq_some, Option.some.injEq] at taken
      obtain ⟨_, rfl⟩ := taken
      exact .list q now ids woken
    next => cases taken
  | next q order =>
    simp only [step] at taken
    split at taken
    next now at_ =>
      cases taken
      exact .rest q order now at_
    next now x rest at_ =>
      split at taken
      next =>
        simp only [Option.ite_none_right_eq_some, Option.some.injEq] at taken
        obtain ⟨all, rfl⟩ := taken
        exact .ask q order now x rest at_ all
      next heard =>
        cases taken
        exact .skip q order now x rest at_ heard
    next => cases taken
  | probe q =>
    simp only [step] at taken
    split at taken
    next at_ =>
      cases taken
      exact .probe q _ _ _ _ _ _ at_
    next => cases taken
  | answer q =>
    simp only [step] at taken
    split at taken
    next at_ =>
      cases taken
      exact .answer q _ _ _ _ _ _ at_
    next => cases taken
  | receive q =>
    simp only [step] at taken
    split at taken
    next at_ =>
      cases taken
      exact .receive q _ _ _ _ _ _ _ at_
    next => cases taken
  | lose q =>
    simp only [step] at taken
    split at taken
    next at_ =>
      cases taken
      exact .lose q _ _ _ _ _ _ _ at_
    next => cases taken
  | finish q =>
    simp only [step] at taken
    split at taken
    next at_ =>
      cases taken
      exact .finish q _ _ _ _ _ at_
    next => cases taken

theorem surround_of_step {a : Action R} (taken : step c s a = some t) (unheard : Unheard lost p id s a) :
    Surround lost id s t := by
  have effect := effect_of_step taken
  cases a with
  | advance d =>
    cases taken
    exact ⟨by simp only; omega, fun seeded => seeded, fun _ _ => rfl⟩
  | heartbeat n x =>
    cases taken
    exact .record unheard
  | choose cmd =>
    cases taken
    exact .same rfl rfl rfl
  | apply n =>
    simp only [step] at taken
    split at taken
    next => cases taken
    next cmd next_ =>
      cases taken
      simp only [Unheard, next_] at unheard
      exact .applyNext unheard
  | finish q =>
    cases effect with
    | world around => simpa [own] using around q
    | finish _ now rest x suspecting =>
      obtain ⟨now_, sm, las, _⟩ := conclude_same (c := c) s q now rest x suspecting
      exact .same now_ sm las
  | wake q | list q | next q | probe q | answer q | receive q | lose q =>
    cases effect with
    | world around => simpa [own] using around q
    | _ => exact .same rfl rfl rfl

end Surroundings

section Pass

structure Moves (c : Config R) (lost : R → Bool) (p : R) (id : String) (s t : State R) (cost : Nat) : Prop where
  pass : PassOk c lost p id t (t.phase p)
  grown : ∀ x ∈ s.submitted, x ∈ t.submitted
  lower : (p, id) ∈ t.submitted ∨ rank c (t.phase p) + cost ≤ rank c (s.phase p)

theorem PassOk.moved [DecidableEq R] {q : R} {phase : Phase R} (pass : PassOk c lost p id s (s.phase p))
    (self : lost p = true) (las : ∀ n, lost n = true → t.las n id = s.las n id)
    (moved : t.phase = Function.update s.phase q phase) (grown : ∀ x ∈ s.submitted, x ∈ t.submitted)
    (new : q = p → (p, id) ∉ s.submitted → PassOk c lost p id s phase ∧
      ((p, id) ∈ t.submitted ∨ rank c phase + 1 ≤ rank c (s.phase p)) ∨ (p, id) ∈ t.submitted) :
    Moves c lost p id s t (if decide (q = p) then 1 else 0) := by
  by_cases mine : q = p
  · rw [if_pos (decide_eq_true mine)]
    have here : t.phase p = phase := by rw [moved, mine, Function.update_self]
    have done : (p, id) ∈ t.submitted → Moves c lost p id s t 1 :=
      fun proposed => ⟨passOk_of_submitted proposed _, grown, Or.inl proposed⟩
    by_cases proposed : (p, id) ∈ s.submitted
    · exact done (grown _ proposed)
    · rcases new mine proposed with ⟨ok, lower⟩ | now
      · rw [← here] at ok lower
        exact ⟨ok.mono self las grown, grown, lower⟩
      · exact done now
  · have there : t.phase p = s.phase p := by rw [moved, Function.update_of_ne (Ne.symm mine)]
    rw [if_neg (by simpa using mine)]
    refine ⟨?_, grown, Or.inr ?_⟩
    · rw [there]
      exact pass.mono self las grown
    · rw [there, Nat.add_zero]

theorem counts_waiting {peers : List R} {suspecting : Nat}
    (enough : c.replicas.countP lost ≤ suspecting + peers.countP lost) :
    Counts c lost id s peers suspecting .waiting :=
  ⟨enough, fun _ _ _ => by simp, fun _ _ _ waits => by cases waits⟩

theorem Counts.ask [DecidableEq R] {order : List R} (known : p ∈ c.replicas) (self : lost p = true)
    (all : order.Perm (c.replicas.erase p)) : Counts c lost id s order 1 .waiting := by
  have whole := (List.perm_cons_erase known).countP_eq lost
  rw [List.countP_cons, if_pos self, ← all.countP_eq] at whole
  exact counts_waiting (by omega)

theorem Counts.reply {n : R} {peers : List R} {suspecting : Nat} {reply reply' : Reply}
    (counts : Counts c lost id s (n :: peers) suspecting reply) (honest : lost n = true → reply' ≠ .answered false)
    (heard : lost n = true → reply' = .member → (s.las n id).isSome = true) :
    Counts c lost id s (n :: peers) suspecting reply' where
  enough := counts.enough
  honest := by
    intro q head
    cases head
    exact honest
  heard := by
    intro q head
    cases head
    exact heard

theorem Counts.receive {n : R} {peers : List R} {suspecting : Nat} {suspect : Bool}
    (counts : Counts c lost id s (n :: peers) suspecting (.answered suspect)) :
    Counts c lost id s peers (if suspect then suspecting + 1 else suspecting) .waiting := by
  have enough := counts.enough
  rw [List.countP_cons] at enough
  refine counts_waiting ?_
  cases suspect with
  | true =>
    simp only [if_true]
    split at enough
    · omega
    · omega
  | false =>
    have kept : ¬lost n = true := fun gone => counts.honest n rfl gone rfl
    rw [if_neg kept] at enough
    simpa using enough

theorem Counts.lose {n : R} {peers : List R} {suspecting : Nat} {reply : Reply}
    (counts : Counts c lost id s (n :: peers) suspecting reply) (kept : ¬lost n = true) :
    Counts c lost id s peers suspecting .waiting := by
  have enough := counts.enough
  rw [List.countP_cons, if_neg kept, Nat.add_zero] at enough
  exact counts_waiting enough

theorem Closing.expired (closing : Closing c lost p id s) {n : R} (gone : lost n = true)
    (heard : (s.las n id).isSome = true) : s.expired c n id s.now = true := by
  obtain ⟨last, found⟩ := Option.isSome_iff_exists.mp heard
  simp only [State.expired, found, Option.any_some, decide_eq_true_eq]
  exact closing.silent n gone last found

variable [DecidableEq R] (known : p ∈ c.replicas) (self : lost p = true)
  (majority : c.replicas.length / 2 < c.replicas.countP lost)

include known majority in
theorem Counts.conclude {now : Int} {rest : List String} {suspecting : Nat} {reply : Reply}
    (counts : Counts c lost id s [] suspecting reply) :
    (p, id) ∈ (s.conclude c p now rest id suspecting).submitted := by
  have enough := counts.enough
  rw [List.countP_nil, Nat.add_zero] at enough
  have total : (c.replicas.erase p).length + 1 = c.replicas.length := by
    rw [List.length_erase_of_mem known]
    have := List.length_pos_of_mem known
    omega
  simp only [State.conclude, total]
  rw [if_pos (by omega)]
  exact List.mem_cons_self

include known self majority in
theorem moves_of_step {a : Action R} (closing : Closing c lost p id s) (taken : step c s a = some t)
    (unheard : Unheard lost p id s a) : Moves c lost p id s t (if own p a then 1 else 0) := by
  have las := (surround_of_step taken unheard).las
  have pass := closing.pass
  have effect := effect_of_step taken
  cases effect with
  | world out phase submitted =>
    rw [out p, if_neg Bool.false_ne_true]
    have grown : ∀ x ∈ s.submitted, x ∈ t.submitted := fun x inside => submitted ▸ inside
    refine ⟨?_, grown, Or.inr ?_⟩
    · rw [phase]
      exact pass.mono self las grown
    · rw [phase, Nat.add_zero]
  | wake q idle =>
    refine pass.moved self las rfl (fun _ inside => inside) fun mine absent => absurd ?_ absent
    rw [← mine, idle, mine] at pass
    exact pass
  | list q now ids woken =>
    refine pass.moved self las rfl (fun _ inside => inside) fun mine absent => absurd ?_ absent
    rw [← mine, woken, mine] at pass
    exact pass
  | rest q order now at_ =>
    refine pass.moved self las rfl (fun _ inside => inside) fun mine absent => absurd ?_ absent
    rw [← mine, at_, mine] at pass
    exact pass.resolve_right fun ahead => by cases ahead.1
  | skip q order now x rest at_ heard =>
    refine pass.moved self las rfl (fun _ inside => inside) fun mine absent => Or.inl ?_
    subst mine
    rw [at_] at pass ⊢
    obtain ⟨listed, expired⟩ := pass.resolve_left absent
    refine ⟨Or.inr ⟨?_, expired⟩, Or.inr ?_⟩
    · refine (List.mem_cons.mp listed).resolve_left ?_
      rintro rfl
      exact heard expired
    · simp only [rank, List.length_cons, Nat.succ_mul, perMember]
      omega
  | ask q order now x rest at_ all =>
    refine pass.moved self las rfl (fun _ inside => inside) fun mine absent => Or.inl ?_
    subst mine
    rw [at_] at pass ⊢
    obtain ⟨listed, expired⟩ := pass.resolve_left absent
    refine ⟨Or.inr ?_, Or.inr ?_⟩
    · rcases List.mem_cons.mp listed with rfl | later
      · exact Or.inr ⟨rfl, .ask known self all⟩
      · exact Or.inl ⟨later, expired⟩
    · have length := all.length_eq
      rw [List.length_erase_of_mem known] at length
      simp only [rank, Reply.progress, List.length_cons, Nat.succ_mul, perMember, length]
      omega
  | probe q now rest x n peers suspecting at_ =>
    refine pass.moved self las rfl (fun _ inside => inside) fun mine absent => Or.inl ?_
    subst mine
    rw [at_] at pass ⊢
    refine ⟨Or.inr ((pass.resolve_left absent).imp_right fun asked => ⟨asked.1, ?_⟩), Or.inr ?_⟩
    · refine asked.2.reply (fun _ => ?_) fun _ waits => ?_
      · split <;> simp
      · split at waits
        next member => exact closing.seeded n id (asked.1 ▸ member)
        next => cases waits
    · simp only [rank, List.length_cons]
      split <;> simp only [Reply.progress] <;> omega
  | answer q now rest x n peers suspecting at_ =>
    refine pass.moved self las rfl (fun _ inside => inside) fun mine absent => Or.inl ?_
    subst mine
    rw [at_] at pass ⊢
    refine ⟨Or.inr ((pass.resolve_left absent).imp_right fun asked => ⟨asked.1, ?_⟩), Or.inr ?_⟩
    · refine asked.2.reply (fun gone => ?_) fun _ waits => by cases waits
      rw [asked.1, closing.expired gone (asked.2.heard n rfl gone rfl)]
      simp
    · simp only [rank, Reply.progress, List.length_cons]
      omega
  | receive q now rest x n peers suspecting suspect at_ =>
    refine pass.moved self las rfl (fun _ inside => inside) fun mine absent => Or.inl ?_
    subst mine
    rw [at_] at pass ⊢
    have ahead := pass.resolve_left absent
    refine ⟨Or.inr (ahead.imp_right fun asked => ⟨asked.1, asked.2.receive⟩), Or.inr ?_⟩
    simp only [rank, Reply.progress, List.length_cons]
    omega
  | lose q now rest x n peers suspecting reply at_ =>
    refine pass.moved self las rfl (fun _ inside => inside) fun mine absent => Or.inl ?_
    subst mine
    simp only [Unheard, at_, true_and] at unheard
    rw [at_] at pass ⊢
    have ahead := pass.resolve_left absent
    refine ⟨Or.inr (ahead.imp_right fun asked => ⟨asked.1, asked.2.lose fun gone => unheard ⟨asked.1, gone⟩⟩),
      Or.inr ?_⟩
    cases reply <;> simp only [rank, Reply.progress, List.length_cons] <;> omega
  | finish q now rest x suspecting reply at_ =>
    obtain ⟨_, _, _, phase⟩ := conclude_same (c := c) s q now rest x suspecting
    have grown : ∀ y ∈ s.submitted, y ∈ (s.conclude c q now rest x suspecting).submitted := by
      intro y inside
      simp only [State.conclude]
      split
      · exact List.mem_cons_of_mem _ inside
      · exact inside
    refine pass.moved self las phase grown fun mine absent => ?_
    subst mine
    rw [at_] at pass ⊢
    rcases pass.resolve_left absent with ahead | ⟨rfl, counts⟩
    · refine Or.inl ⟨Or.inr ahead, Or.inr ?_⟩
      simp only [rank, List.length_nil]
      omega
    · exact Or.inr (counts.conclude known majority)

include known self majority in
theorem Closing.kept {a : Action R} (closing : Closing c lost p id s) (taken : step c s a = some t)
    (unheard : Unheard lost p id s a) : Closing c lost p id t := by
  have around := surround_of_step taken unheard
  refine ⟨around.seeded closing.seeded, fun n gone last found => ?_, (moves_of_step known self majority closing taken
    unheard).pass⟩
  rw [around.las n gone] at found
  have before := closing.silent n gone last found
  have later := around.now
  omega

theorem Closing.enabled (closing : Closing c lost p id s) : (p, id) ∈ s.submitted ∨
    ∃ a t, own p a = true ∧ step c s a = some t ∧ Unheard lost p id s a := by
  have mine : decide (p = p) = true := decide_eq_true rfl
  have pass := closing.pass
  cases at_ : s.phase p with
  | idle | woken =>
    rw [at_] at pass
    exact Or.inl pass
  | scanning now rest =>
    cases rest with
    | nil => exact Or.inr ⟨.next p [], _, mine, by simp only [step, at_]; rfl, trivial⟩
    | cons x rest =>
      by_cases expired : s.expired c p x now = true
      · have asks : step c s (.next p (c.replicas.erase p)) =
            some (s.setPhase p (.asking now rest x (c.replicas.erase p) 1 .waiting)) := by
          simp only [step, at_, if_pos expired]
          exact if_pos (.refl _)
        exact Or.inr ⟨.next p (c.replicas.erase p), _, mine, asks, trivial⟩
      · have skips : step c s (.next p []) = some (s.setPhase p (.scanning now rest)) := by
          simp only [step, at_, if_neg expired]
        exact Or.inr ⟨.next p [], _, mine, skips, trivial⟩
  | asking now rest asked peers suspecting reply =>
    cases peers with
    | nil => exact Or.inr ⟨.finish p, _, mine, by simp only [step, at_]; rfl, trivial⟩
    | cons n peers =>
      cases reply with
      | waiting => exact Or.inr ⟨.probe p, _, mine, by simp only [step, at_]; rfl, trivial⟩
      | member => exact Or.inr ⟨.answer p, _, mine, by simp only [step, at_]; rfl, trivial⟩
      | answered suspect => exact Or.inr ⟨.receive p, _, mine, by simp only [step, at_]; rfl, trivial⟩

end Pass

theorem unheard_of_nobody (p : R) (id : String) (a : Action R) : Unheard (fun _ => false) p id s a := by
  cases a with
  | apply n | lose q =>
    simp only [Unheard, Bool.false_eq_true, false_and, and_false, not_false_eq_true]
    split <;> trivial
  | _ => simp [Unheard]

theorem seeded_of_reaches [DecidableEq R] (run : Lib.Reaches (step c) (fun _ _ _ => True) State.init s) : Seeded s := by
  refine run.invariant Seeded (fun n x member => ?_) fun u a v seeded taken _ n =>
    (surround_of_step taken (unheard_of_nobody n "" a)).seeded seeded n
  exact absurd (of_decide_eq_true member) Finmap.notMem_empty

variable (c lost p id) {k : Nat} {now : Int} {rest : List String}

/-- A detector has listed a node whose record has expired, and a majority of the replicas, the detector's among them,
has heard nothing of the node for `DeadAfter`, goes on hearing nothing and can be asked. Then the detector proposes
the node dead within the steps that a pass over the rest of its list can take, whatever else happens in between, and
until then it can always take one. -/
theorem silent_node_proposed [DecidableEq R] (known : p ∈ c.replicas) (self : lost p = true)
    (majority : c.replicas.length / 2 < c.replicas.countP lost)
    (reached : Lib.Reaches (step c) (fun _ _ _ => True) State.init s) (scanning : s.phase p = .scanning now rest)
    (listed : id ∈ rest) (expired : s.expired c p id now = true)
    (silent : ∀ n, lost n = true → ∀ last, s.las n id = some last → c.deadAfter < s.now - last)
    (run : Lib.Reaches (Lib.counted (step c) (own p)) (fun x a _ => Unheard lost p id x.1 a) (s, 0) (t, k)) :
    (1 + rest.length * perMember c ≤ k → (p, id) ∈ t.submitted) ∧ ((p, id) ∈ t.submitted ∨
      ∃ a u, own p a = true ∧ step c t a = some u ∧ Unheard lost p id t a) := by
  have start : Closing c lost p id s := by
    refine ⟨seeded_of_reaches reached, silent, ?_⟩
    rw [scanning]
    exact Or.inr ⟨listed, expired⟩
  have paced := Lib.Reaches.paced (fun u a _ => Unheard lost p id u a) (fun u => rank c (u.phase p))
    (Closing c lost p id) (fun u => (p, id) ∈ u.submitted) run start (fun u closing ended => ?_)
    fun u a v closing taken unheard => ?_
  · rw [scanning] at paced
    exact ⟨paced.2, paced.1.enabled⟩
  · have pass := closing.pass
    cases at_ : u.phase p with
    | idle | woken =>
      rw [at_] at pass
      exact pass
    | scanning | asking =>
      rw [at_] at ended
      simp only [rank] at ended
      omega
  · have moves := moves_of_step known self majority closing taken unheard
    exact ⟨closing.kept known self majority taken unheard, moves.grown _, moves.lower⟩

def sampleLost (n : Fin 3) : Bool := decide (n.val < 2)

/-- Replica 0 asks both others, while time passes and the last replica goes on hearing the node. -/
theorem silent_node_proposed_sample : ∃ s t, Lib.Reaches (step sampleConfig) (fun _ _ _ => True) State.init s ∧
    s.phase 0 = .scanning 4 ["x"] ∧ (0, "x") ∈ t.submitted ∧
    Lib.Reaches (Lib.counted (step sampleConfig) (own 0)) (fun x a _ => Unheard sampleLost 0 "x" x.1 a)
      (s, 0) (t, 9) := by
  obtain ⟨s, reached, scanning, expired, silent, checked⟩ := Lib.reaches_of_check (step sampleConfig)
    (fun _ _ _ => True)
    [.choose sampleJoin, .apply 0, .apply 1, .apply 2, .advance 4, .heartbeat 2 "x", .wake 0, .list 0 ["x"]] State.init
    (fun s => s.phase 0 = .scanning 4 ["x"] ∧ s.expired sampleConfig 0 "x" 4 = true ∧
      (∀ n, sampleLost n = true → ∀ last ∈ s.las n "x", sampleConfig.deadAfter < s.now - last) ∧
      (Lib.runActions (Lib.counted (step sampleConfig) (own 0)) (fun x a _ => Unheard sampleLost 0 "x" x.1 a) (s, 0)
        [.next 0 [1, 2], .probe 0, .advance 1, .answer 0, .receive 0, .heartbeat 2 "x", .probe 0, .answer 0,
          .receive 0, .finish 0, .next 0 []]).any (fun x => decide (x.2 = 9)) = true) (by decide)
  obtain ⟨⟨t, k⟩, run, nine⟩ := Lib.reaches_of_check _ _ _ _ (fun x : State (Fin 3) × Nat => x.2 = 9) checked
  cases nine
  exact ⟨s, t, reached, scanning, (silent_node_proposed sampleConfig sampleLost 0 "x" (by decide) (by decide)
    (by decide) reached scanning (by decide) expired silent run).1 (by decide), run⟩

end Monitor

end PrefixMesh.Directory
