import PrefixMesh.Cachenode.Agent
import PrefixMesh.Directory.Watch
import PrefixMesh.Ringwatch.Watcher

/-! The control plane as one system: the directory replicas with their logs, the `WatchRing`
streams of each replica, and the watchers of the fleet, of gateways, cache nodes and prefetchers.
A replica's log runs ahead of its state machine while `Commit` applies what it has recorded, so
`shown n` counts the slots whose `Apply` has changed the state of replica `n`. A message that was
sent on a stream is received once, in order, while the watcher stays on the stream. `joinedAt`
is history that no transition reads. -/

namespace PrefixMesh.Fleet

open Directory Cachenode Ringwatch Lib

variable {pb : Protobuf} {C F : Type} [DecidableEq C] [DecidableEq F]

/-- The deployment with its fleet. `directories f` are the replicas at the addresses that member `f` is given,
`self f` is the node that a cache node announces, and `owner c` the member whose call stream `c` is. -/
structure Config (pb : Protobuf) (C F : Type) where
  d : Deployment pb
  directories : F → List String
  self : F → Option NodeInfo
  dialNodes : F → Bool
  owner : C → F
  point : String → Nat → Nat
  dial : String → Bool

/-- A `WatchRing` call that is under way, with the number of messages received from it. -/
structure Link (C : Type) where
  replica : String
  stream : C
  received : Nat
  deriving DecidableEq

/-- A member of the fleet. `next` is the index of `Run`'s loop over the directories, and `calling` the ring that
`apply` has taken over and is handing to `onRing`. The first number of `joinedAt` is the epoch of the replica that
answered the last successful `Join`, the second one that of the watcher at that moment. -/
structure Member (C : Type) where
  watcher : Watcher
  next : Nat
  link : Option (Link C)
  calling : Option Directory.Ring
  agent : Agent
  joinedAt : Option (Nat × Nat)

structure State (C F : Type) where
  dir : Paxos.State String Bytes StateMachine
  shown : String → Nat
  watch : String → Watch C
  members : F → Member C

inductive Action (C F : Type) where
  | directory (a : Paxos.Action String Bytes Bytes)
  | apply (n : String) (watchers : List C)
  | stream (n : String) (a : WatchAction C)
  | connect (f : F) (c : C)
  | lose (f : F)
  | receive (f : F)
  | callback (f : F)
  | run (f : F)
  | take (f : F) (raw : Bytes)
  | answer (f : F) (r : Paxos.Returned Bytes) (ring : Directory.Ring)
  | refuse (f : F)
  | resume (f : F)
  | rejoin (f : F)

def newMember (dialNodes : Bool) : Member C := ⟨newWatcher dialNodes, 0, none, none, newAgent, none⟩

def Config.init (cfg : Config pb C F) : State C F where
  dir := cfg.d.cluster.init
  shown := fun _ => 0
  watch := fun _ => Watch.start C
  members := fun f => newMember (cfg.dialNodes f)

def State.set (s : State C F) (f : F) (m : Member C) : State C F := { s with members := Function.update s.members f m }

def State.setAgent (s : State C F) (f : F) (a : Agent) : State C F := s.set f { s.members f with agent := a }

def State.setWatch (s : State C F) (n : String) (w : Watch C) : State C F :=
  { s with watch := Function.update s.watch n w }

def State.sent (s : State C F) (n : String) (c : C) : List Directory.Ring := ((s.watch n).streams c).sent

/-- `Run` of an agent starts the watcher; the other members start theirs at once. -/
def Config.watches (cfg : Config pb C F) (s : State C F) (f : F) : Bool :=
  (cfg.self f).isNone || ((s.members f).agent.errand != .starting && (s.members f).agent.errand != .ended)

def isApply : WatchAction C → Bool
  | .apply _ _ => true
  | _ => false

/-- A message received in `watchOne`: `apply` drops it as stale, or takes it over and calls `onRing`. -/
def Member.receive (point : String → Nat → Nat) (dial : String → Bool) (m : Member C) (link : Link C)
    (msg : Directory.Ring) : Member C :=
  { m with
    watcher := m.watcher.apply point dial msg
    link := some { link with received := link.received + 1 }
    calling := if m.watcher.stale msg then none else some msg }

/-- The two ends of a `Join` call are transitions of their own: the replica takes the request up, and it answers when
its `Submit` has returned and the state machine has applied the slot. -/
def step (cfg : Config pb C F) (s : State C F) : Action C F → Option (State C F)
  | .directory a => (Paxos.step cfg.d.cluster s.dir a).map fun dir => { s with dir := dir }
  | .apply n watchers =>
      if s.shown n < (s.dir.log n).applied then
        match (s.dir.log n).chosen.lookup (s.shown n) with
        | none => none
        | some raw =>
            ((s.watch n).step pb (.apply raw watchers)).map fun w =>
              { s.setWatch n w with shown := Function.update s.shown n (s.shown n + 1) }
      else none
  | .stream n a => if isApply a then none else ((s.watch n).step pb a).map (s.setWatch n)
  | .connect f c =>
      match (s.members f).link, (cfg.directories f)[(s.members f).next]? with
      | none, some n =>
          if cfg.watches s f ∧ cfg.owner c = f ∧ ((s.watch n).streams c).phase = .idle then
            some (s.set f { s.members f with link := some ⟨n, c, 0⟩ })
          else none
      | _, _ => none
  | .lose f =>
      if (s.members f).calling = none then
        some (s.set f { s.members f with
          link := none
          next := ((s.members f).next + 1) % (cfg.directories f).length })
      else none
  | .receive f =>
      match (s.members f).link, (s.members f).calling with
      | some link, none =>
          match (s.sent link.replica link.stream)[link.received]? with
          | none => none
          | some msg => some (s.set f ((s.members f).receive cfg.point cfg.dial link msg))
      | _, _ => none
  | .callback f =>
      match (s.members f).calling with
      | none => none
      | some msg =>
          some (s.set f { s.members f with
            calling := none
            agent := (cfg.self f).elim (s.members f).agent fun self => (s.members f).agent.onRing self msg })
  | .run f =>
      if (cfg.self f).isSome then ((s.members f).agent.run (cfg.directories f)).map (s.setAgent f) else none
  | .take f raw =>
      match cfg.self f, (s.members f).agent.replica (cfg.directories f) with
      | some self, some n =>
          if pb.encodes (.nodeJoin self) raw then
            match Paxos.step cfg.d.cluster s.dir (.submit n raw), (s.members f).agent.taken s.dir.calls.length with
            | some dir, some a => some ({ s with dir := dir }.setAgent f a)
            | _, _ => none
          else none
      | _, _ => none
  | .answer f r ring =>
      match cfg.self f, (s.members f).agent.errand, (s.members f).agent.replica (cfg.directories f) with
      | some self, .asking _ (some call), some n =>
          if r ∈ s.dir.returned ∧ r.call = call ∧ r.slot < s.shown n then
            match Directory.join (some self) (.ok ()) (s.watch n).sm ring with
            | .ok _ =>
                some (s.set f { s.members f with
                  agent := (s.members f).agent.joined
                  joinedAt := some ((s.watch n).sm.epoch, (s.members f).watcher.epoch) })
            | .error _ => ((s.members f).agent.refused (cfg.directories f)).map (s.setAgent f)
          else none
      | _, _, _ => none
  | .refuse f => ((s.members f).agent.refused (cfg.directories f)).map (s.setAgent f)
  | .resume f => (s.members f).agent.resume.map (s.setAgent f)
  | .rejoin f => (s.members f).agent.received.map (s.setAgent f)

/-- `t` comes after `s` in a run of the control plane whose rounds stay below `2 ^ 56`. -/
abbrev Leads (cfg : Config pb C F) (s t : State C F) : Prop :=
  Reaches (step cfg) (fun _ _ u => Paxos.RoundsBelow cfg.d.cluster u.dir) s t

abbrev Reachable (cfg : Config pb C F) (s : State C F) : Prop := Leads cfg cfg.init s

inductive ReplicaMove (pb : Protobuf) (s t : State C F) : Prop where
  | still (watch : t.watch = s.watch) (shown : t.shown = s.shown)
  | stream (n : String) (a : WatchAction C) (w : Watch C) (other : isApply a = false)
      (moved : (s.watch n).step pb a = some w) (watch : t.watch = Function.update s.watch n w)
      (shown : t.shown = s.shown)
  | apply (n : String) (raw : Bytes) (watchers : List C) (w : Watch C)
      (below : s.shown n < (s.dir.log n).applied) (found : (s.dir.log n).chosen.lookup (s.shown n) = some raw)
      (moved : (s.watch n).step pb (.apply raw watchers) = some w) (watch : t.watch = Function.update s.watch n w)
      (shown : t.shown = Function.update s.shown n (s.shown n + 1))

inductive MemberMove (cfg : Config pb C F) (s : State C F) (f : F) : Member C → Prop where
  | still : MemberMove cfg s f (s.members f)
  | connect (n : String) (c : C) (free : (s.members f).link = none) :
      MemberMove cfg s f { s.members f with link := some ⟨n, c, 0⟩ }
  | lose (next : Nat) (resting : (s.members f).calling = none) :
      MemberMove cfg s f { s.members f with link := none, next := next }
  | receive (link : Link C) (msg : Directory.Ring) (here : (s.members f).link = some link)
      (resting : (s.members f).calling = none)
      (sent : (s.sent link.replica link.stream)[link.received]? = some msg) :
      MemberMove cfg s f ((s.members f).receive cfg.point cfg.dial link msg)
  | callback (msg : Directory.Ring) (due : (s.members f).calling = some msg) :
      MemberMove cfg s f { s.members f with
        calling := none
        agent := (cfg.self f).elim (s.members f).agent fun self => (s.members f).agent.onRing self msg }
  | busy (a : Agent) (busy : a.Busy) : MemberMove cfg s f { s.members f with agent := a }
  | joined (self : NodeInfo) (n : String) (known : cfg.self f = some self)
      (member : (s.watch n).sm.hasMember self.nodeId = true) :
      MemberMove cfg s f { s.members f with
        agent := (s.members f).agent.joined
        joinedAt := some ((s.watch n).sm.epoch, (s.members f).watcher.epoch) }

structure Effect (cfg : Config pb C F) (s t : State C F) : Prop where
  directory : t.dir = s.dir ∨ ∃ a, Paxos.step cfg.d.cluster s.dir a = some t.dir
  replicas : ReplicaMove pb s t
  members : ∀ f, MemberMove cfg s f (t.members f)

private theorem effect_set {cfg : Config pb C F} {s : State C F} {f : F} {m : Member C}
    (moved : MemberMove cfg s f m) : Effect cfg s (s.set f m) where
  directory := Or.inl rfl
  replicas := .still rfl rfl
  members := by
    intro g
    by_cases same : g = f
    · subst same
      simpa only [State.set, Function.update_self] using moved
    · simp only [State.set, Function.update_of_ne same]
      exact .still

private theorem effect_agent {cfg : Config pb C F} {s t : State C F} {f : F} {moved : Option Agent}
    (busy : ∀ a, moved = some a → a.Busy) (taken : moved.map (s.setAgent f) = some t) : Effect cfg s t := by
  obtain ⟨a, here, rfl⟩ := Option.map_eq_some_iff.mp taken
  exact effect_set (.busy a (busy a here))

theorem join_ok {self : NodeInfo} {submitted : Except String Unit} {sm : StateMachine} {ring answer : Directory.Ring}
    (ok : Directory.join (some self) submitted sm ring = .ok answer) : sm.hasMember self.nodeId = true := by
  unfold Directory.join at ok
  simp only at ok
  split at ok
  · cases ok
  · split at ok
    · cases ok
    · split at ok
      · assumption
      · cases ok

theorem effect_of_step {cfg : Config pb C F} {s t : State C F} {a : Action C F} (taken : step cfg s a = some t) :
    Effect cfg s t := by
  cases a with
  | directory a =>
    obtain ⟨dir, moved, rfl⟩ := Option.map_eq_some_iff.mp taken
    exact ⟨Or.inr ⟨a, moved⟩, .still rfl rfl, fun _ => .still⟩
  | apply n watchers =>
    simp only [step] at taken
    split at taken
    next below =>
      split at taken
      · cases taken
      next raw found =>
        obtain ⟨w, moved, rfl⟩ := Option.map_eq_some_iff.mp taken
        exact ⟨Or.inl rfl, .apply n raw watchers w below found moved rfl rfl, fun _ => .still⟩
    · cases taken
  | stream n a =>
    simp only [step] at taken
    split at taken
    · cases taken
    next other =>
      obtain ⟨w, moved, rfl⟩ := Option.map_eq_some_iff.mp taken
      exact ⟨Or.inl rfl, .stream n a w (Bool.eq_false_of_not_eq_true other) moved rfl rfl, fun _ => .still⟩
  | connect f c =>
    simp only [step] at taken
    split at taken
    next n free _ =>
      split at taken
      · cases taken
        exact effect_set (.connect n c free)
      · cases taken
    · cases taken
  | lose f =>
    simp only [step] at taken
    split at taken
    next resting =>
      cases taken
      exact effect_set (.lose _ resting)
    · cases taken
  | receive f =>
    simp only [step] at taken
    split at taken
    next link here resting =>
      split at taken
      · cases taken
      next msg sent =>
        cases taken
        exact effect_set (.receive link msg here resting sent)
    · cases taken
  | callback f =>
    simp only [step] at taken
    split at taken
    · cases taken
    next msg due =>
      cases taken
      exact effect_set (.callback msg due)
  | run f =>
    simp only [step] at taken
    split at taken
    · exact effect_agent (fun _ => Agent.run_busy) taken
    · cases taken
  | take f raw =>
    simp only [step] at taken
    split at taken
    next n _ _ =>
      split at taken
      · split at taken
        next dir a moved here =>
          cases taken
          have agent : Effect cfg s (s.setAgent f a) := effect_set (.busy a (Agent.taken_busy here))
          exact ⟨Or.inr ⟨_, moved⟩, .still rfl rfl, agent.members⟩
        · cases taken
      · cases taken
    · cases taken
  | answer f r ring =>
    simp only [step] at taken
    split at taken
    next self _ call n known _ _ =>
      split at taken
      · split at taken
        next answer ok =>
          cases taken
          exact effect_set (.joined self n known (join_ok ok))
        · exact effect_agent (fun _ => Agent.refused_busy) taken
      · cases taken
    · cases taken
  | refuse f => exact effect_agent (fun _ => Agent.refused_busy) taken
  | resume f => exact effect_agent (fun _ => Agent.resume_busy) taken
  | rejoin f => exact effect_agent (fun _ => Agent.received_busy) taken

end PrefixMesh.Fleet
