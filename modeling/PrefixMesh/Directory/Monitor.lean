import PrefixMesh.Directory.StateMachine
import PrefixMesh.Lib.Runs

/-! Failure detection. The replicas apply one log, each at its own pace, and record
heartbeats by their own state; clocks are taken to agree. A detector wakes up, reads
the clock, takes the members and goes through them. For a member whose record has
expired it asks its peers one by one. A peer answers by its state at that moment, and
the answer may come late or never. -/

namespace PrefixMesh.Directory.Monitor

variable {R : Type}

structure Config (R : Type) where
  replicas : List R
  deadAfter : Int
  distinct : replicas.Nodup

/-- How far a `Suspect` request has come: the peer has found the node to be a member, or has answered. -/
inductive Reply where
  | waiting
  | member
  | answered (suspect : Bool)
  deriving DecidableEq

/-- Where the detector of a replica is. `now` is the time it woke up, `peers` are those still to ask, with the
request to the first of them under way. -/
inductive Phase (R : Type) where
  | idle
  | woken (now : Int)
  | scanning (now : Int) (rest : List String)
  | asking (now : Int) (rest : List String) (id : String) (peers : List R) (suspecting : Nat) (reply : Reply)
  deriving DecidableEq

structure State (R : Type) where
  log : List ClusterCommand
  applied : R → Nat
  sm : R → StateMachine
  las : R → String → Option Int
  now : Int
  phase : R → Phase R
  submitted : List (R × String)

def State.init : State R where
  log := []
  applied := fun _ => 0
  sm := fun _ => newStateMachine
  las := fun _ _ => none
  now := 0
  phase := fun _ => .idle
  submitted := []

inductive Action (R : Type) where
  | advance (d : Nat)
  | heartbeat (n : R) (id : String)
  | choose (cmd : ClusterCommand)
  | apply (n : R)
  | wake (p : R)
  | list (p : R) (ids : List String)
  | next (p : R) (order : List R)
  | probe (p : R)
  | answer (p : R)
  | receive (p : R)
  | lose (p : R)
  | finish (p : R)

variable (c : Config R)

/-- A node that has never been heard of is not expired. -/
def State.expired (s : State R) (n : R) (id : String) (now : Int) : Bool :=
  (s.las n id).any (fun last => decide (now - last > c.deadAfter))

section Steps

variable [DecidableEq R]

def State.record (s : State R) (n : R) (id : String) : State R :=
  { s with las := Function.update s.las n (Function.update (s.las n) id (some s.now)) }

/-- The next command of the log; a join seeds the record of the node. -/
def State.applyNext (s : State R) (n : R) (cmd : ClusterCommand) : State R :=
  let seeded := match (s.sm n).joined cmd with
    | some id => s.record n id
    | none => s
  { seeded with
    applied := Function.update s.applied n (s.applied n + 1)
    sm := Function.update s.sm n ((s.sm n).applyCommand cmd) }

def State.setPhase (s : State R) (p : R) (phase : Phase R) : State R :=
  { s with phase := Function.update s.phase p phase }

/-- The end of `quorumSuspects` and what the detector does with its result. -/
def State.conclude (s : State R) (p : R) (now : Int) (rest : List String) (id : String) (suspecting : Nat) :
    State R :=
  let total := (c.replicas.erase p).length + 1
  if suspecting > total / 2 then
    { s.setPhase p (.scanning now rest) with submitted := (p, id) :: s.submitted }
  else s.setPhase p (.scanning now rest)

def step (s : State R) : Action R → Option (State R)
  | .advance d => some { s with now := s.now + d }
  | .heartbeat n id => some (s.record n id)
  | .choose cmd => some { s with log := s.log ++ [cmd] }
  | .apply n =>
      match s.log[s.applied n]? with
      | none => none
      | some cmd => some (s.applyNext n cmd)
  | .wake p =>
      if p ∈ c.replicas ∧ s.phase p = .idle then some (s.setPhase p (.woken s.now)) else none
  | .list p ids =>
      match s.phase p with
      | .woken now =>
          if ids.Nodup ∧ ids.toFinset = (s.sm p).members.keys then some (s.setPhase p (.scanning now ids)) else none
      | _ => none
  | .next p order =>
      match s.phase p with
      | .scanning _ [] => some (s.setPhase p .idle)
      | .scanning now (id :: rest) =>
          if s.expired c p id now then
            if order.Perm (c.replicas.erase p) then some (s.setPhase p (.asking now rest id order 1 .waiting)) else none
          else some (s.setPhase p (.scanning now rest))
      | _ => none
  -- the handler of `Suspect`, which takes two locks: a node that is not a member is suspect
  | .probe p =>
      match s.phase p with
      | .asking now rest id (q :: peers) suspecting .waiting =>
          let reply := if (s.sm q).hasMember id then Reply.member else .answered true
          some (s.setPhase p (.asking now rest id (q :: peers) suspecting reply))
      | _ => none
  | .answer p =>
      match s.phase p with
      | .asking now rest id (q :: peers) suspecting .member =>
          some (s.setPhase p (.asking now rest id (q :: peers) suspecting (.answered (s.expired c q id s.now))))
      | _ => none
  | .receive p =>
      match s.phase p with
      | .asking now rest id (_ :: peers) suspecting (.answered suspect) =>
          some (s.setPhase p (.asking now rest id peers (if suspect then suspecting + 1 else suspecting) .waiting))
      | _ => none
  | .lose p =>
      match s.phase p with
      | .asking now rest id (_ :: peers) suspecting _ =>
          some (s.setPhase p (.asking now rest id peers suspecting .waiting))
      | _ => none
  | .finish p =>
      match s.phase p with
      | .asking now rest id [] suspecting _ => some (s.conclude c p now rest id suspecting)
      | _ => none

end Steps

/-- Replica `n` holds a record of `id` that was no older than `DeadAfter` at the given time. -/
def State.fresh (s : State R) (id : String) (now : Int) (n : R) : Bool :=
  (s.las n id).any (fun last => decide (now - last ≤ c.deadAfter))

def Majority (s : State R) (id : String) (now : Int) : Prop :=
  c.replicas.length / 2 < c.replicas.countP (s.fresh c id now)

instance (s : State R) (id : String) (now : Int) : Decidable (Majority c s id now) :=
  inferInstanceAs (Decidable (_ < _))

/-- While some replica has the node as a member, a majority holds a record of it no older than `DeadAfter`. -/
def Heard (id : String) (s : State R) : Prop :=
  (∃ n ∈ c.replicas, (s.sm n).hasMember id = true) → Majority c s id s.now

instance (id : String) (s : State R) : Decidable (Heard c id s) :=
  inferInstanceAs (Decidable ((∃ n ∈ c.replicas, (s.sm n).hasMember id = true) → Majority c s id s.now))

/-- A peer that is asked about the node, and whose record of it was fresh when the detector woke up, has the
node as a member, and the record is still fresh when it is looked at. -/
def Current (id : String) (s : State R) : Action R → Prop
  | .probe p =>
      match s.phase p with
      | .asking now _ asked (q :: _) _ .waiting =>
          asked = id → s.fresh c id now q = true → id ∈ (s.sm q).members
      | _ => True
  | .answer p =>
      match s.phase p with
      | .asking now _ asked (q :: _) _ .member =>
          asked = id → s.fresh c id now q = true → s.fresh c id s.now q = true
      | _ => True
  | _ => True

instance (id : String) (s : State R) (a : Action R) : Decidable (Current c id s a) := by
  cases a <;> simp only [Current] <;> first | infer_instance | (split <;> infer_instance)

/-- The votes in an exchange about `id`. A majority `heard` of the replicas had fresh records when the detector
woke up, and none of them has been counted or is about to be. -/
structure Tally (s : State R) (id : String) (now : Int) (peers : List R) (suspecting : Nat) (reply : Reply)
    (heard : R → Bool) : Prop where
  majority : c.replicas.length / 2 < c.replicas.countP heard
  fresh : ∀ q ∈ c.replicas, heard q = true → s.fresh c id now q = true
  asked : ∀ q ∈ peers, q ∈ c.replicas
  votes : suspecting + c.replicas.countP heard + peers.countP (fun q => !heard q) ≤ c.replicas.length
  pending : ∀ q, peers.head? = some q → reply = .answered true → heard q = false

def PhaseOk (s : State R) (id : String) (p : R) : Phase R → Prop
  | .idle => True
  | .woken now => p ∈ c.replicas ∧ now ≤ s.now
  | .scanning now rest => p ∈ c.replicas ∧ now ≤ s.now ∧ (id ∈ rest → Majority c s id now)
  | .asking now rest asked peers suspecting reply =>
      p ∈ c.replicas ∧ now ≤ s.now ∧ (id ∈ rest → Majority c s id now) ∧
      (asked = id → ∃ heard, Tally c s id now peers suspecting reply heard)

structure Inv (id : String) (s : State R) : Prop where
  past : ∀ n x last, s.las n x = some last → last ≤ s.now
  phases : ∀ p, PhaseOk c s id p (s.phase p)
  silent : ∀ p, (p, id) ∉ s.submitted

variable {c} {s t : State R} {id : String}

theorem Majority.mono {now : Int} (majority : Majority c s id now)
    (grown : ∀ q, s.fresh c id now q = true → t.fresh c id now q = true) : Majority c t id now :=
  Nat.lt_of_lt_of_le majority (List.countP_mono_left (fun q _ => grown q))

theorem PhaseOk.mono {p : R} {phase : Phase R} (ok : PhaseOk c s id p phase) (later : s.now ≤ t.now)
    (grown : ∀ now q, s.fresh c id now q = true → t.fresh c id now q = true) : PhaseOk c t id p phase := by
  cases phase with
  | idle => trivial
  | woken now => exact ⟨ok.1, Int.le_trans ok.2 later⟩
  | scanning now rest =>
    obtain ⟨known, past, listed⟩ := ok
    exact ⟨known, Int.le_trans past later, fun member => (listed member).mono (grown now)⟩
  | asking now rest asked peers suspecting reply =>
    obtain ⟨known, past, listed, tallied⟩ := ok
    refine ⟨known, Int.le_trans past later, fun member => (listed member).mono (grown now), ?_⟩
    intro same
    obtain ⟨heard, tally⟩ := tallied same
    exact ⟨heard, { tally with fresh := fun q member here => grown now q (tally.fresh q member here) }⟩

theorem Inv.world (inv : Inv c id s) (later : s.now ≤ t.now)
    (past : ∀ n x last, t.las n x = some last → last ≤ t.now)
    (newer : ∀ n x last, s.las n x = some last → ∃ last', t.las n x = some last' ∧ last ≤ last')
    (phase : t.phase = s.phase) (submitted : t.submitted = s.submitted) : Inv c id t := by
  refine ⟨past, ?_, submitted ▸ inv.silent⟩
  intro p
  rw [phase]
  refine (inv.phases p).mono later ?_
  intro now q fresh
  obtain ⟨last, found, young⟩ := (Option.any_eq_true _ _).mp fresh
  obtain ⟨last', found', order⟩ := newer q id last found
  simp only [decide_eq_true_eq] at young
  exact (Option.any_eq_true _ _).mpr ⟨last', found', decide_eq_true (by omega)⟩

section Votes

variable {p q : R} {now : Int} {peers : List R} {suspecting : Nat} {reply : Reply} {heard : R → Bool}

theorem not_expired_of_fresh (fresh : s.fresh c id now p = true) : s.expired c p id now = false := by
  obtain ⟨last, found, young⟩ := (Option.any_eq_true _ _).mp fresh
  simp only [decide_eq_true_eq] at young
  simp only [State.expired, found, Option.any_some, decide_eq_false_iff_not]
  omega

theorem Tally.answer (tally : Tally c s id now (q :: peers) suspecting reply heard) {reply' : Reply}
    (honest : s.fresh c id now q = true → reply' ≠ .answered true) :
    Tally c s id now (q :: peers) suspecting reply' heard := by
  refine ⟨tally.majority, tally.fresh, tally.asked, tally.votes, ?_⟩
  intro q' head answered
  cases head
  by_contra hears
  have fresh := tally.fresh q (tally.asked q List.mem_cons_self) (Bool.eq_true_of_not_eq_false hears)
  exact honest fresh answered

theorem Tally.receive {suspect : Bool}
    (tally : Tally c s id now (q :: peers) suspecting (.answered suspect) heard) :
    Tally c s id now peers (if suspect then suspecting + 1 else suspecting) .waiting heard := by
  have votes := tally.votes
  rw [List.countP_cons] at votes
  refine ⟨tally.majority, tally.fresh, fun n member => tally.asked n (List.mem_cons_of_mem q member), ?_, nofun⟩
  cases suspect with
  | false =>
    simp only [Bool.false_eq_true, if_false]
    omega
  | true =>
    have lost := tally.pending q rfl rfl
    simp only [lost, Bool.not_false, if_true] at votes ⊢
    omega

theorem Tally.lose (tally : Tally c s id now (q :: peers) suspecting reply heard) :
    Tally c s id now peers suspecting .waiting heard := by
  have votes := tally.votes
  rw [List.countP_cons] at votes
  refine ⟨tally.majority, tally.fresh, fun n member => tally.asked n (List.mem_cons_of_mem q member), ?_, nofun⟩
  omega

theorem Tally.few (tally : Tally c s id now [] suspecting reply heard) :
    ¬ suspecting > c.replicas.length / 2 := by
  have majority := tally.majority
  have votes := tally.votes
  rw [List.countP_nil] at votes
  omega

end Votes

theorem Heard.majority {p : R} {now : Int} (heard : Heard c id s) (known : p ∈ c.replicas)
    (member : (s.sm p).hasMember id = true) (past : now ≤ s.now) : Majority c s id now := by
  refine Nat.lt_of_lt_of_le (heard ⟨p, known, member⟩) (List.countP_mono_left ?_)
  intro q _ fresh
  obtain ⟨last, found, young⟩ := (Option.any_eq_true _ _).mp fresh
  simp only [decide_eq_true_eq] at young
  exact (Option.any_eq_true _ _).mpr ⟨last, found, decide_eq_true (by omega)⟩

theorem inv_init : Inv c id (State.init : State R) where
  past := nofun
  phases := fun _ => trivial
  silent := fun _ => List.not_mem_nil

variable [DecidableEq R]

theorem Inv.setPhase (inv : Inv c id s) (p : R) (phase : Phase R) (ok : PhaseOk c s id p phase) :
    Inv c id (s.setPhase p phase) := by
  have unchanged : ∀ n ph, PhaseOk c s id n ph → PhaseOk c (s.setPhase p phase) id n ph :=
    fun n ph ok => ok.mono (Int.le_refl _) (fun _ _ fresh => fresh)
  refine ⟨inv.past, ?_, inv.silent⟩
  intro n
  by_cases same : n = p
  · subst same
    simp only [State.setPhase, Function.update_self]
    exact unchanged n phase ok
  · simp only [State.setPhase, Function.update_of_ne same]
    exact unchanged n _ (inv.phases n)

theorem record_las (s : State R) (n m : R) (x y : String) :
    (s.record n x).las m y = if m = n ∧ y = x then some s.now else s.las m y := by
  simp only [State.record, Function.update_apply]
  by_cases first : m = n
  · by_cases second : y = x
    · simp [first, second]
    · simp [first, second]
  · simp [first]

theorem Inv.record (inv : Inv c id s) (n : R) (x : String) : Inv c id (s.record n x) := by
  refine inv.world (Int.le_refl _) ?_ ?_ rfl rfl
  · intro m y last found
    rw [record_las] at found
    split at found
    · cases found
      exact Int.le_refl _
    · exact inv.past m y last found
  · intro m y last found
    rw [record_las]
    split
    · exact ⟨s.now, rfl, inv.past m y last found⟩
    · exact ⟨last, found, Int.le_refl _⟩

theorem Inv.applyNext (inv : Inv c id s) (n : R) (cmd : ClusterCommand) : Inv c id (s.applyNext n cmd) := by
  have seeded : Inv c id (match (s.sm n).joined cmd with
      | some x => s.record n x
      | none => s) := by
    split
    · exact inv.record n _
    · exact inv
  exact seeded.world (Int.le_refl _) seeded.past (fun m y last found => ⟨last, found, Int.le_refl _⟩) rfl rfl

theorem tally_start {p : R} {now : Int} {order : List R} (known : p ∈ c.replicas) (majority : Majority c s id now)
    (expired : s.expired c p id now = true) (all : order.Perm (c.replicas.erase p)) :
    Tally c s id now order 1 .waiting (s.fresh c id now) := by
  have lost : s.fresh c id now p = false := by
    by_contra fresh
    simp [not_expired_of_fresh (Bool.eq_true_of_not_eq_false fresh)] at expired
  have others := all.countP_eq (fun q => !s.fresh c id now q)
  have whole := (List.perm_cons_erase known).countP_eq (fun q => !s.fresh c id now q)
  simp only [List.countP_cons, lost, Bool.not_false, if_true] at whole
  have split := List.length_eq_countP_add_countP (s.fresh c id now) (l := c.replicas)
  simp only [Bool.not_eq_true, Bool.decide_eq_false] at split
  refine ⟨majority, fun _ _ fresh => fresh, ?_, by omega, nofun⟩
  intro q member
  exact List.mem_of_mem_erase (all.mem_iff.mp member)

theorem Inv.asking {p : R} {now : Int} {rest : List String} {asked : String} {peers peers' : List R}
    {suspecting suspecting' : Nat} {reply reply' : Reply} (inv : Inv c id s)
    (held : s.phase p = .asking now rest asked peers suspecting reply)
    (kept : asked = id → ∀ heard, Tally c s id now peers suspecting reply heard →
      Tally c s id now peers' suspecting' reply' heard) :
    Inv c id (s.setPhase p (.asking now rest asked peers' suspecting' reply')) := by
  have ok := inv.phases p
  rw [held] at ok
  obtain ⟨known, past, listed, tallied⟩ := ok
  refine inv.setPhase p _ ⟨known, past, listed, ?_⟩
  intro same
  obtain ⟨heard, tally⟩ := tallied same
  exact ⟨heard, kept same heard tally⟩

theorem Inv.conclude {p : R} {now : Int} {rest : List String} {asked : String} {suspecting : Nat} {reply : Reply}
    (inv : Inv c id s) (held : s.phase p = .asking now rest asked [] suspecting reply) :
    Inv c id (s.conclude c p now rest asked suspecting) := by
  have ok := inv.phases p
  rw [held] at ok
  obtain ⟨known, past, listed, tallied⟩ := ok
  have scanned := inv.setPhase p (.scanning now rest) ⟨known, past, listed⟩
  have total : (c.replicas.erase p).length + 1 = c.replicas.length := by
    rw [List.length_erase_of_mem known]
    have := List.length_pos_of_mem known
    omega
  simp only [State.conclude, total]
  split
  next many =>
    refine ⟨scanned.past, fun n => (scanned.phases n).mono (Int.le_refl _) (fun _ _ fresh => fresh), ?_⟩
    intro n
    simp only [List.mem_cons, Prod.mk.injEq, not_or]
    refine ⟨?_, inv.silent n⟩
    rintro ⟨-, same⟩
    obtain ⟨heard, tally⟩ := tallied same.symm
    exact tally.few many
  next => exact scanned

theorem Inv.list {p : R} {now : Int} {ids : List String} (inv : Inv c id s) (held : s.phase p = .woken now)
    (all : ids.toFinset = (s.sm p).members.keys) (heard : Heard c id s) :
    Inv c id (s.setPhase p (.scanning now ids)) := by
  have ok := inv.phases p
  rw [held] at ok
  obtain ⟨known, past⟩ := ok
  refine inv.setPhase p _ ⟨known, past, ?_⟩
  intro listed
  rw [← List.mem_toFinset, all] at listed
  exact heard.majority known (decide_eq_true (Finmap.mem_keys.mp listed)) past

theorem inv_step {a : Action R} (inv : Inv c id s) (taken : step c s a = some t) (heard : Heard c id t)
    (current : Current c id s a) : Inv c id t := by
  cases a with
  | advance d =>
    cases taken
    exact inv.world (by simp only; omega) (fun n x last found => by have := inv.past n x last found; simp only; omega)
      (fun n x last found => ⟨last, found, Int.le_refl _⟩) rfl rfl
  | heartbeat n x =>
    cases taken
    exact inv.record n x
  | choose cmd =>
    cases taken
    exact inv.world (Int.le_refl _) inv.past (fun n x last found => ⟨last, found, Int.le_refl _⟩) rfl rfl
  | apply n =>
    simp only [step] at taken
    split at taken
    next => cases taken
    next cmd _ =>
      cases taken
      exact inv.applyNext n cmd
  | wake p =>
    simp only [step, Option.ite_none_right_eq_some, Option.some.injEq] at taken
    obtain ⟨⟨known, idle⟩, rfl⟩ := taken
    exact inv.setPhase p _ ⟨known, Int.le_refl _⟩
  | list p ids =>
    simp only [step] at taken
    split at taken
    next now held =>
      simp only [Option.ite_none_right_eq_some, Option.some.injEq] at taken
      obtain ⟨⟨_, all⟩, rfl⟩ := taken
      exact inv.list held all heard
    next => cases taken
  | next p order =>
    simp only [step] at taken
    split at taken
    next =>
      cases taken
      exact inv.setPhase p _ trivial
    next now asked rest held =>
      have ok := inv.phases p
      rw [held] at ok
      obtain ⟨known, past, listed⟩ := ok
      have later : id ∈ rest → Majority c s id now := fun member => listed (List.mem_cons_of_mem asked member)
      split at taken
      next expired =>
        simp only [Option.ite_none_right_eq_some, Option.some.injEq] at taken
        obtain ⟨all, rfl⟩ := taken
        refine inv.setPhase p _ ⟨known, past, later, ?_⟩
        rintro rfl
        exact ⟨_, tally_start known (listed List.mem_cons_self) expired all⟩
      next =>
        cases taken
        exact inv.setPhase p _ ⟨known, past, later⟩
    next => cases taken
  | probe p =>
    simp only [step] at taken
    split at taken
    next now rest asked q peers suspecting held =>
      cases taken
      simp only [Current, held] at current
      refine inv.asking held (fun same heard tally => tally.answer ?_)
      intro fresh
      have member : (s.sm q).hasMember id = true := decide_eq_true (current same fresh)
      rw [same, if_pos member]
      exact nofun
    next => cases taken
  | answer p =>
    simp only [step] at taken
    split at taken
    next now rest asked q peers suspecting held =>
      cases taken
      simp only [Current, held] at current
      refine inv.asking held (fun same heard tally => tally.answer ?_)
      intro fresh
      rw [same, not_expired_of_fresh (current same fresh)]
      exact nofun
    next => cases taken
  | receive p =>
    simp only [step] at taken
    split at taken
    next held =>
      cases taken
      exact inv.asking held (fun _ _ tally => tally.receive)
    next => cases taken
  | lose p =>
    simp only [step] at taken
    split at taken
    next held =>
      cases taken
      exact inv.asking held (fun _ _ tally => tally.lose)
    next => cases taken
  | finish p =>
    simp only [step] at taken
    split at taken
    next held =>
      cases taken
      exact inv.conclude held
    next => cases taken

/-- A node that a majority hears is not proposed dead, as long as the peers that are asked about it and heard it
when the detector woke up answer from a current state. -/
theorem nodeDead_never_submitted (c : Config R) (id : String) (s : State R)
    (run : Lib.Reaches (step c) (fun u a t => Heard c id t ∧ Current c id u a) State.init s) (p : R) :
    (p, id) ∉ s.submitted :=
  (run.invariant (Inv c id) inv_init (fun _ _ _ inv taken allowed => inv_step inv taken allowed.1 allowed.2)).silent p

def sampleConfig : Config (Fin 3) := ⟨List.finRange 3, 3, List.nodup_finRange 3⟩

def sampleJoin : ClusterCommand := .nodeJoin ⟨"x", "x:1", 1000⟩

/-- Replica 0 loses the heartbeats of the node and asks the others, which have them. -/
theorem sampleConfig_asked : ∃ s, Lib.Reaches (step sampleConfig)
    (fun u a t => Heard sampleConfig "x" t ∧ Current sampleConfig "x" u a) State.init s ∧
    s.phase 0 = .scanning 4 [] ∧ (0, "x") ∉ s.submitted := by
  obtain ⟨s, run, asked⟩ := Lib.reaches_of_check (step sampleConfig)
    (fun u a t => Heard sampleConfig "x" t ∧ Current sampleConfig "x" u a)
    [.heartbeat 1 "x", .heartbeat 2 "x", .choose sampleJoin, .apply 0, .apply 1, .apply 2,
      .advance 2, .heartbeat 1 "x", .heartbeat 2 "x", .advance 2,
      .wake 0, .list 0 ["x"], .next 0 [1, 2], .probe 0, .answer 0, .receive 0, .probe 0, .answer 0, .receive 0,
      .finish 0] State.init (fun s => s.phase 0 = .scanning 4 []) (by decide)
  exact ⟨s, run, asked, nodeDead_never_submitted sampleConfig "x" s run 0⟩

/-- Replica 1 has not applied the join. It and replica 2 hear the node from before the join is in the log, and
still replica 0, which does not, proposes it dead: replica 1 answers for a node it does not know. -/
theorem sampleConfig_lagging : ∃ s, Lib.Reaches (step sampleConfig)
    (fun _ _ t => Heard sampleConfig "x" t ∧ (t.log ≠ [] → Majority sampleConfig t "x" t.now)) State.init s ∧
    (0, "x") ∈ s.submitted :=
  Lib.reaches_of_check (step sampleConfig)
    (fun _ _ t => Heard sampleConfig "x" t ∧ (t.log ≠ [] → Majority sampleConfig t "x" t.now))
    [.heartbeat 1 "x", .heartbeat 2 "x", .choose sampleJoin, .apply 0, .apply 2,
      .advance 2, .heartbeat 1 "x", .heartbeat 2 "x", .advance 2,
      .wake 0, .list 0 ["x"], .next 0 [1, 2], .probe 0, .receive 0, .probe 0, .answer 0, .receive 0,
      .finish 0] State.init (fun s => (0, "x") ∈ s.submitted) (by decide)

/-- Every replica has applied the join. By the time replica 1 is asked its record has expired, while that of
replica 0 no longer is. -/
example : ∃ s, Lib.Reaches (step sampleConfig)
    (fun _ _ t => Heard sampleConfig "x" t ∧ (t.log ≠ [] → Majority sampleConfig t "x" t.now)) State.init s ∧
    (0, "x") ∈ s.submitted :=
  Lib.reaches_of_check (step sampleConfig)
    (fun _ _ t => Heard sampleConfig "x" t ∧ (t.log ≠ [] → Majority sampleConfig t "x" t.now))
    [.heartbeat 1 "x", .heartbeat 2 "x", .choose sampleJoin, .apply 0, .apply 1, .apply 2,
      .advance 2, .heartbeat 1 "x", .heartbeat 2 "x", .advance 2,
      .wake 0, .list 0 ["x"], .next 0 [1, 2], .heartbeat 0 "x", .heartbeat 2 "x", .advance 2,
      .probe 0, .answer 0, .receive 0, .lose 0, .finish 0]
    State.init (fun s => (0, "x") ∈ s.submitted) (by decide)

end PrefixMesh.Directory.Monitor
