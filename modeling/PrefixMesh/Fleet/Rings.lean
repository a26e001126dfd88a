import PrefixMesh.Fleet.System
import PrefixMesh.Cachenode.Server

/-! What the fleet knows about the directory. Every ring that a stream carries or a watcher holds
is the ring of a prefix of the log, so the epoch determines it across the whole fleet; and a
watcher that has taken everything its stream has to offer is not behind its replica. -/

namespace PrefixMesh.Fleet

open Directory Cachenode Ringwatch Lib

section Replicas

variable {pb : Protobuf} {d : Deployment pb} {C : Type}

theorem applied_mono {s t : Paxos.State String Bytes StateMachine} (run : Paxos.Reachable d.cluster s)
    (later : Paxos.Leads d.cluster s t) (n : String) : (s.log n).applied ≤ (t.log n).applied := by
  by_contra short
  obtain ⟨v, found⟩ := Option.ne_none_iff_exists'.mp
    ((Paxos.logInv_reachable run n).recorded (t.log n).applied (not_le.mp short))
  have stalled := (Paxos.logInv_reachable (run.trans later) n).stalled
  rw [Paxos.lookup_leads later n _ v found] at stalled
  cases stalled

theorem published_le {s : Paxos.State String Bytes StateMachine} (run : Paxos.Reachable d.cluster s)
    {ring : Directory.Ring} (shown : d.Published s ring) : ∃ n ∈ d.ids, ring.epoch ≤ (s.log n).state.epoch := by
  obtain ⟨n, i, low, is⟩ := shown
  obtain ⟨more, top⟩ := Nat.exists_eq_add_of_le low
  have bound : ring.epoch ≤ (s.log n).state.epoch := by
    rw [is.epoch, d.state_eq run n, top]
    exact (d.stateAfter_mono s n i more).1
  by_cases member : n ∈ d.ids
  · exact ⟨n, member, bound⟩
  · rw [Paxos.log_outsider (hop_faithful d) run member] at bound
    obtain ⟨k, first⟩ := List.exists_mem_of_length_pos d.nonempty
    exact ⟨k, first, bound.trans (Nat.zero_le _)⟩

/-- Replica `n` once `Apply` has run for the first `shown` slots: its state machine, and the rings in its streams. -/
structure Replica (d : Deployment pb) (dir : Paxos.State String Bytes StateMachine) (n : String) (shown : Nat)
    (w : Watch C) : Prop where
  low : shown ≤ (dir.log n).applied
  sm : w.sm = d.stateAfter dir n shown
  streams : w.Inv
  sent : ∀ c, ∀ ring ∈ (w.streams c).sent, d.Published dir ring
  holding : ∀ c ring, (w.streams c).phase = .holding ring → d.Published dir ring

theorem replica_init (n : String) : Replica d d.cluster.init n 0 (Watch.start C) where
  low := Nat.zero_le _
  sm := rfl
  streams := Watch.inv_start
  sent := fun _ _ member => by cases member
  holding := fun _ _ here => by cases here

variable {dir dir' : Paxos.State String Bytes StateMachine} {n : String} {shown : Nat} {w w' : Watch C}

theorem Replica.published (here : Replica d dir n shown w) {ring : Directory.Ring} (is : w.sm.IsRing ring) :
    d.Published dir ring :=
  ⟨n, shown, here.low, here.sm ▸ is⟩

theorem Replica.later (here : Replica d dir n shown w) (run : Paxos.Reachable d.cluster dir)
    (later : Paxos.Leads d.cluster dir dir') : Replica d dir' n shown w := by
  have low := here.low.trans (applied_mono run later n)
  refine ⟨low, ?_, here.streams, ?_, ?_⟩
  · rw [here.sm]
    exact d.stateAfter_agree run later n n shown here.low low
  · exact fun c ring member => (here.sent c ring member).mono run later
  · exact fun c ring holds => (here.holding c ring holds).mono run later

theorem Replica.sent_last (here : Replica d dir n shown w) {c : C} (done : ∀ watchers ∈ w.applies, watchers = [])
    (empty : (w.streams c).signal = false) (waiting : (w.streams c).phase = .waiting) :
    ∃ ring, (w.streams c).sent.getLast? = some ring ∧ ring.epoch = w.sm.epoch := by
  have inv := here.streams.streams c
  obtain ⟨nonempty, informed⟩ := inv.waiting waiting
  have last := inv.last (by rw [waiting]; trivial)
  have current : (w.streams c).lastSent = w.sm.epoch := by
    rcases informed with same | full | ⟨watchers, member, listed⟩
    · exact same
    · rw [empty] at full
      cases full
    · rw [done watchers member] at listed
      cases listed
  cases top : (w.streams c).sent.getLast? with
  | none => exact absurd (List.getLast?_eq_none_iff.mp top) nonempty
  | some ring =>
    rw [top] at last
    exact ⟨ring, rfl, last.symm.trans current⟩

variable [DecidableEq C]

private theorem Replica.rings (here : Replica d dir n shown w) {a : WatchAction C} (moved : w.step pb a = some w') :
    (∀ c, ∀ ring ∈ (w'.streams c).sent, d.Published dir ring) ∧
    ∀ c ring, (w'.streams c).phase = .holding ring → d.Published dir ring := by
  refine ⟨fun c ring member => ?_, fun c ring holds => ?_⟩
  · rcases (Watch.grows_step moved c).sent with same | ⟨last, holds, more⟩
    · rw [same] at member
      exact here.sent c ring member
    · rw [more, List.mem_append, List.mem_singleton] at member
      rcases member with old | rfl
      · exact here.sent c ring old
      · exact here.holding c ring holds
  · rcases (Watch.grows_step moved c).holding ring holds with before | is
    · exact here.holding c ring before
    · exact here.published is

theorem Replica.stream (here : Replica d dir n shown w) {a : WatchAction C} (other : isApply a = false)
    (moved : w.step pb a = some w') : Replica d dir n shown w' := by
  have same : w'.sm = w.sm := by
    rw [Watch.sm_step moved]
    cases a with
    | apply raw watchers => cases other
    | _ => rfl
  obtain ⟨sent, holding⟩ := here.rings moved
  exact ⟨here.low, same.trans here.sm, here.streams.step a moved, sent, holding⟩

theorem Replica.apply (here : Replica d dir n shown w) {raw : Bytes} {watchers : List C}
    (below : shown < (dir.log n).applied) (found : (dir.log n).chosen.lookup shown = some raw)
    (moved : w.step pb (.apply raw watchers) = some w') : Replica d dir n (shown + 1) w' := by
  obtain ⟨sent, holding⟩ := here.rings moved
  refine ⟨below, ?_, here.streams.step _ moved, sent, holding⟩
  rw [Watch.sm_step moved, here.sm]
  simp only [Deployment.stateAfter, Paxos.applyBelow, found, Deployment.cluster]

end Replicas

section Members

variable {pb : Protobuf} {C F : Type} {cfg : Config pb C F}

theorem dir_leads [DecidableEq C] [DecidableEq F] {s t : State C F}
    (run : Leads cfg s t) : Paxos.Leads cfg.d.cluster s.dir t.dir := by
  refine run.invariant (fun u => Paxos.Leads cfg.d.cluster s.dir u.dir) .refl ?_
  intro u a v before taken small
  rcases (effect_of_step taken).directory with same | ⟨b, moved⟩
  · rw [same]
    exact before
  · exact before.tail moved small

def Replicas (cfg : Config pb C F) (s : State C F) : Prop := ∀ n, Replica cfg.d s.dir n (s.shown n) (s.watch n)

theorem replicas_step [DecidableEq C] {s t : State C F} (run : Paxos.Reachable cfg.d.cluster s.dir)
    (later : Paxos.Leads cfg.d.cluster s.dir t.dir) (inv : Replicas cfg s) (moved : ReplicaMove pb s t) :
    Replicas cfg t := by
  intro n
  refine Replica.later ?_ run later
  cases moved with
  | still watch shown =>
    rw [watch, shown]
    exact inv n
  | stream k a w other moved watch shown =>
    rw [watch, shown]
    by_cases here : n = k
    · subst here
      rw [Function.update_self]
      exact (inv n).stream other moved
    · rw [Function.update_of_ne here]
      exact inv n
  | apply k raw watchers w below found moved watch shown =>
    rw [watch, shown]
    by_cases here : n = k
    · subst here
      rw [Function.update_self, Function.update_self]
      exact (inv n).apply below found moved
    · rw [Function.update_of_ne here, Function.update_of_ne here]
      exact inv n

theorem sent_step [DecidableEq C] {s t : State C F} (moved : ReplicaMove pb s t) (n : String) (c : C) {k : Nat}
    {msg : Directory.Ring} (sent : (s.sent n c)[k]? = some msg) : (t.sent n c)[k]? = some msg := by
  have grown : ∀ (m : String) (a : WatchAction C) (w : Watch C), (s.watch m).step pb a = some w →
      t.watch = Function.update s.watch m w → (t.sent n c)[k]? = some msg := by
    intro m a w moved watch
    unfold State.sent at sent ⊢
    rw [watch]
    by_cases here : n = m
    · subst here
      rw [Function.update_self]
      rcases (Watch.grows_step moved c).sent with same | ⟨last, _, more⟩
      · rw [same]
        exact sent
      · rw [more, List.getElem?_append_left (List.getElem?_eq_some_iff.mp sent).1]
        exact sent
    · rw [Function.update_of_ne here]
      exact sent
  cases moved with
  | still watch shown =>
    unfold State.sent at sent ⊢
    rw [watch]
    exact sent
  | stream m a w _ moved watch _ => exact grown m a w moved watch
  | apply m raw watchers w _ _ moved watch _ => exact grown m _ w moved watch

/-- What a member has: a ring of the log, the same one that it may be handing to `onRing`, and at least as new as the
last message from its stream. -/
structure Informed (cfg : Config pb C F) (s : State C F) (m : Member C) : Prop where
  ring : ∀ ring, m.watcher.ring = some ring → ∃ msg, cfg.d.Published s.dir msg ∧ ring = ringOf cfg.point msg
  calling : ∀ msg, m.calling = some msg →
    cfg.d.Published s.dir msg ∧ m.watcher.ring = some (ringOf cfg.point msg)
  link : ∀ link k, m.link = some link → link.received = k + 1 → ∃ msg ring,
    (s.sent link.replica link.stream)[k]? = some msg ∧ m.watcher.ring = some ring ∧ msg.epoch ≤ ring.epoch

theorem informed_init (s : State C F) (dialNodes : Bool) : Informed cfg s (newMember dialNodes : Member C) where
  ring := fun _ here => by cases here
  calling := fun _ here => by cases here
  link := fun _ _ here => by cases here

theorem Informed.later [DecidableEq C] {s t : State C F} {m : Member C} (inv : Informed cfg s m)
    (run : Paxos.Reachable cfg.d.cluster s.dir) (later : Paxos.Leads cfg.d.cluster s.dir t.dir)
    (moved : ReplicaMove pb s t) : Informed cfg t m where
  ring := by
    intro ring here
    obtain ⟨msg, shown, is⟩ := inv.ring ring here
    exact ⟨msg, shown.mono run later, is⟩
  calling := by
    intro msg here
    obtain ⟨shown, is⟩ := inv.calling msg here
    exact ⟨shown.mono run later, is⟩
  link := by
    intro link k here last
    obtain ⟨msg, ring, sent, held, below⟩ := inv.link link k here last
    exact ⟨msg, ring, sent_step moved _ _ sent, held, below⟩

theorem Informed.receive {s : State C F} {m : Member C} (inv : Informed cfg s m) {link : Link C}
    {msg : Directory.Ring} (sent : (s.sent link.replica link.stream)[link.received]? = some msg)
    (shown : cfg.d.Published s.dir msg) : Informed cfg s (m.receive cfg.point cfg.dial link msg) := by
  have ring := apply_ring cfg.point cfg.dial m.watcher msg
  have last : ∀ link' k, some { link with received := link.received + 1 } = some link' → link'.received = k + 1 →
      (s.sent link'.replica link'.stream)[k]? = some msg := by
    intro link' k same received
    cases same
    cases Nat.succ.inj received
    exact sent
  cases old : m.watcher.stale msg with
  | true =>
    rw [old, if_pos rfl] at ring
    refine ⟨fun r here => inv.ring r (ring ▸ here), fun r due => ?_, fun link' k same received => ?_⟩
    · simp [Member.receive, old] at due
    · obtain ⟨held, current⟩ : ∃ held, m.watcher.ring = some held := by
        cases here : m.watcher.ring with
        | none => simp [Watcher.stale, here] at old
        | some held => exact ⟨held, rfl⟩
      exact ⟨msg, held, last link' k same received, ring.trans current, ((stale_iff current msg).mp old).1⟩
  | false =>
    rw [old, if_neg Bool.false_ne_true] at ring
    refine ⟨fun r here => ?_, fun r due => ?_, fun link' k same received => ?_⟩
    · exact ⟨msg, shown, Option.some.inj (here.symm.trans ring)⟩
    · simp only [Member.receive, old, Bool.false_eq_true, if_false, Option.some.injEq] at due
      subst due
      exact ⟨shown, ring⟩
    · exact ⟨msg, _, last link' k same received, ring, le_rfl⟩

theorem informed_move {s : State C F} {f : F} {m : Member C} (replicas : Replicas cfg s)
    (inv : Informed cfg s (s.members f)) (moved : MemberMove cfg s f m) : Informed cfg s m := by
  cases moved with
  | still => exact inv
  | connect n c free =>
    refine { ring := inv.ring, calling := inv.calling, link := fun link k here last => ?_ }
    cases here
    cases last
  | lose next resting =>
    exact { ring := inv.ring, calling := inv.calling, link := fun _ _ here => by cases here }
  | receive link msg here resting sent =>
    exact inv.receive sent ((replicas link.replica).sent link.stream msg (List.mem_of_getElem? sent))
  | callback msg due =>
    exact { ring := inv.ring, calling := (fun _ other => by cases other), link := inv.link }
  | busy a busy => exact { ring := inv.ring, calling := inv.calling, link := inv.link }
  | joined self n known member => exact { ring := inv.ring, calling := inv.calling, link := inv.link }

structure Inv (cfg : Config pb C F) (s : State C F) : Prop where
  directory : Paxos.Reachable cfg.d.cluster s.dir
  replicas : Replicas cfg s
  members : ∀ f, Informed cfg s (s.members f)

theorem inv_reachable [DecidableEq C] [DecidableEq F] {s : State C F} (run : Reachable cfg s) : Inv cfg s := by
  refine run.invariant (Inv cfg) ⟨.refl, replica_init, fun _ => informed_init _ _⟩ ?_
  intro u a v inv taken small
  have effect := effect_of_step taken
  have later : Paxos.Leads cfg.d.cluster u.dir v.dir := dir_leads (.tail .refl taken small)
  refine ⟨inv.directory.trans later, replicas_step inv.directory later inv.replicas effect.replicas, fun f => ?_⟩
  exact (informed_move inv.replicas (inv.members f) (effect.members f)).later inv.directory later effect.replicas

/-- Two members of the fleet that hold rings of the same epoch, at any two moments of a run, hold the same ring; and a
cache node turns a caller away as too old only when a replica has applied a newer epoch than the caller's. -/
theorem fleet_rings_agree [DecidableEq C] [DecidableEq F] (cfg : Config pb C F) (s t : State C F)
    (run : Reachable cfg s) (later : Leads cfg s t)
    (f g : F) (ring : Hashring.Ring) (held : (s.members f).watcher.ring = some ring) :
    (∀ ring', (t.members g).watcher.ring = some ring' → ring'.epoch = ring.epoch → ring' = ring) ∧
    ∀ status, checkEpoch (some (t.members g).watcher.epoch) ring.epoch = .error status →
      ∃ n ∈ cfg.d.ids, ring.epoch < (t.dir.log n).state.epoch := by
  have before := inv_reachable run
  have after := inv_reachable (run.trans later)
  obtain ⟨msg, shown, is⟩ := (before.members f).ring ring held
  refine ⟨fun ring' held' epochs => ?_, fun status rejected => ?_⟩
  · obtain ⟨msg', shown', is'⟩ := (after.members g).ring ring' held'
    rw [is, is'] at epochs ⊢
    exact ringOf_eq cfg.point cfg.d after.directory shown' (shown.mono before.directory (dir_leads later)) epochs
  · have newer : ring.epoch < (t.members g).watcher.epoch := by
      by_contra low
      simp [checkEpoch, low] at rejected
    cases held' : (t.members g).watcher.ring with
    | none =>
      rw [Watcher.epoch, held'] at newer
      exact absurd newer (Nat.not_lt_zero _)
    | some ring' =>
      obtain ⟨msg', shown', is'⟩ := (after.members g).ring ring' held'
      obtain ⟨n, member, low⟩ := published_le after.directory shown'
      rw [Watcher.epoch, held', Option.elim_some, is', ringOf_epoch] at newer
      exact ⟨n, member, newer.trans_le low⟩

/-- Member `f` has received everything from its stream on replica `n`, and nothing is on its way there. -/
structure Quiet (s : State C F) (f : F) (n : String) (c : C) : Prop where
  link : (s.members f).link = some ⟨n, c, (s.sent n c).length⟩
  waiting : ((s.watch n).streams c).phase = .waiting
  empty : ((s.watch n).streams c).signal = false
  signalled : ∀ watchers ∈ (s.watch n).applies, watchers = []
  shown : s.shown n = (s.dir.log n).applied

instance [DecidableEq C] (s : State C F) (f : F) (n : String) (c : C) : Decidable (Quiet s f n c) :=
  decidable_of_iff ((s.members f).link = some ⟨n, c, (s.sent n c).length⟩ ∧
      ((s.watch n).streams c).phase = .waiting ∧ ((s.watch n).streams c).signal = false ∧
      (∀ watchers ∈ (s.watch n).applies, watchers = []) ∧ s.shown n = (s.dir.log n).applied)
    ⟨fun ⟨link, waiting, empty, signalled, shown⟩ => ⟨link, waiting, empty, signalled, shown⟩,
      fun quiet => ⟨quiet.link, quiet.waiting, quiet.empty, quiet.signalled, quiet.shown⟩⟩

section Quiet

variable {s : State C F} {f : F} {n : String} {c : C}

theorem Quiet.received [DecidableEq C] [DecidableEq F] (quiet : Quiet s f n c) (run : Reachable cfg s) : ∃ ring,
    (s.members f).watcher.ring = some ring ∧ (s.dir.log n).state.epoch ≤ ring.epoch := by
  have inv := inv_reachable run
  have replica := inv.replicas n
  have state : (s.watch n).sm = (s.dir.log n).state := by
    rw [replica.sm, quiet.shown]
    exact (cfg.d.state_eq inv.directory n).symm
  obtain ⟨last, top, level⟩ := replica.sent_last quiet.signalled quiet.empty quiet.waiting
  obtain ⟨k, size⟩ : ∃ k, (s.sent n c).length = k + 1 := by
    refine Nat.exists_eq_add_one_of_ne_zero fun none_ => ?_
    rw [State.sent, List.length_eq_zero_iff] at none_
    rw [none_] at top
    cases top
  obtain ⟨msg, ring, sent, held, below⟩ := (inv.members f).link _ k quiet.link size
  have last_ : (s.sent n c).getLast? = some last := top
  rw [List.getLast?_eq_getElem?, size, Nat.add_sub_cancel, sent, Option.some.injEq] at last_
  exact ⟨ring, held, by rw [← state, ← level, ← last_]; exact below⟩

theorem Quiet.ring_eq [DecidableEq C] [DecidableEq F] (quiet : Quiet s f n c) (run : Reachable cfg s)
    (newest : ∀ k ∈ cfg.d.ids, (s.dir.log k).state.epoch ≤ (s.dir.log n).state.epoch) {msg : Directory.Ring}
    (is : (s.dir.log n).state.IsRing msg) : (s.members f).watcher.ring = some (ringOf cfg.point msg) := by
  have inv := inv_reachable run
  obtain ⟨ring, held, above⟩ := quiet.received run
  obtain ⟨msg', shown, shape⟩ := (inv.members f).ring ring held
  obtain ⟨k, member, low⟩ := published_le inv.directory shown
  have bound := newest k member
  have epochs : msg'.epoch = msg.epoch := by
    have ends := is.epoch
    rw [shape, ringOf_epoch] at above
    omega
  have shown' : cfg.d.Published s.dir msg := ⟨n, _, le_rfl, cfg.d.state_eq inv.directory n ▸ is⟩
  rw [held, shape]
  exact congrArg some (ringOf_eq cfg.point cfg.d inv.directory shown shown' epochs)

end Quiet

/-- No update is lost on the way: a member that has received everything from its stream has a ring that is at least as
new as its replica's, and exactly that one if no replica is ahead. -/
theorem quiet_member_current [DecidableEq C] [DecidableEq F] (cfg : Config pb C F) (s : State C F)
    (run : Reachable cfg s) (f : F) (n : String) (c : C) (quiet : Quiet s f n c) :
    (s.dir.log n).state.epoch ≤ (s.members f).watcher.epoch ∧
    ((∀ k ∈ cfg.d.ids, (s.dir.log k).state.epoch ≤ (s.dir.log n).state.epoch) →
      ∀ msg, (s.dir.log n).state.IsRing msg → (s.members f).watcher.ring = some (ringOf cfg.point msg)) := by
  refine ⟨?_, fun newest _ is => quiet.ring_eq run newest is⟩
  obtain ⟨ring, held, above⟩ := quiet.received run
  rw [Watcher.epoch, held, Option.elim_some]
  exact above

end Members

/-- The cache node `a`, member `true`, and a gateway, with the two replicas of `sampleDeployment`. -/
def sampleFleet : Config samplePb Bool Bool where
  d := sampleDeployment
  directories := fun _ => ["p", "q"]
  self := fun f => if f then some ⟨"a", "x", 0⟩ else none
  dialNodes := fun f => !f
  owner := id
  point := fun _ i => i
  dial := fun _ => true

/-- The cache node joins, and both members follow the ring on a stream of replica `p`. -/
def sampleActions : List (Action Bool Bool) :=
  [.run true, .take true joinRaw, .directory (.acquire "p" 0 joinRaw)] ++
  (Paxos.roundActions "p" 0 256 joinRaw [("p", ⟨true, 0, none, 256⟩), ("q", ⟨true, 0, none, 256⟩)] [] joinRaw).map
    Action.directory ++
  [.apply "p" [], .answer true ⟨0, 0, joinRaw⟩ ⟨1, [], 128⟩] ++
  [true, false].flatMap fun f =>
    [.connect f f, .stream "p" (.subscribe f), .stream "p" (.read f ⟨1, [⟨"a", "x", 0⟩], 128⟩),
     .stream "p" (.send f true), .receive f, .callback f]

theorem sample_quiet : ∃ s, Reachable sampleFleet s ∧ Quiet s true "p" true ∧
    (∀ k ∈ sampleFleet.d.ids, (s.dir.log k).state.epoch ≤ (s.dir.log "p").state.epoch) ∧
    (s.dir.log "p").state.epoch = 1 ∧ (s.members true).calling = none ∧ (s.members true).agent = ⟨.idle, false⟩ ∧
    (s.members true).watcher.ring.map (fun ring => ring.epoch) = some 1 ∧
    (s.members false).watcher.ring.map (fun ring => ring.epoch) = some 1 :=
  reaches_of_check (step sampleFleet) (fun _ _ u => Paxos.RoundsBelow sampleFleet.d.cluster u.dir) sampleActions
    sampleFleet.init _ (by decide +kernel)

theorem fleet_rings_agree_sample : ∃ s ring ring', Reachable sampleFleet s ∧
    (s.members true).watcher.ring = some ring ∧ (s.members false).watcher.ring = some ring' ∧ ring' = ring := by
  obtain ⟨s, run, _, _, _, _, _, first, second⟩ := sample_quiet
  obtain ⟨ring, held, one⟩ := Option.map_eq_some_iff.mp first
  obtain ⟨ring', held', one'⟩ := Option.map_eq_some_iff.mp second
  have agree := fleet_rings_agree sampleFleet s s run .refl true false ring held
  exact ⟨s, ring, ring', run, held, held', agree.1 ring' held' (one'.trans one.symm)⟩

theorem quiet_member_current_sample : ∃ s, Reachable sampleFleet s ∧ (s.dir.log "p").state.epoch = 1 ∧
    ∀ msg, (s.dir.log "p").state.IsRing msg →
      (s.members true).watcher.ring = some (ringOf sampleFleet.point msg) := by
  obtain ⟨s, run, quiet, newest, one, _⟩ := sample_quiet
  exact ⟨s, run, one, (quiet_member_current sampleFleet s run true "p" true quiet).2 newest⟩

end PrefixMesh.Fleet
