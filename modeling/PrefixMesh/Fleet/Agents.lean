import PrefixMesh.Fleet.Rings

/-! Cache nodes that were removed from the ring join again. The callback of a watcher raises the
`rejoin` signal for every ring without the node, so a node that is out of its watcher's ring and
at rest has joined since it got that ring. Whether it is back then depends on the replica that
answered: one that is behind may still count the node as a member from before its removal. -/

namespace PrefixMesh.Fleet

open Directory Cachenode Ringwatch Lib

section Membership

variable {sm : StateMachine} {msg : Directory.Ring}

theorem exists_isRing (sm : StateMachine) : ∃ ring, sm.IsRing ring := by
  obtain ⟨nodes, listed⟩ := Quot.exists_rep (sm.members.entries.map fun entry => entry.2)
  exact ⟨⟨sm.epoch, nodes, 128⟩, rfl, listed, rfl⟩

theorem lists_iff_hasMember (keyed : sm.Keyed) (is : sm.IsRing msg) (nodeId : String) :
    lists msg nodeId = true ↔ sm.hasMember nodeId = true := by
  have entries : ∀ info, info ∈ msg.nodes ↔ ∃ id, (⟨id, info⟩ : Σ _ : String, NodeInfo) ∈ sm.members.entries := by
    intro info
    rw [← Multiset.mem_coe, is.nodes, Multiset.mem_map]
    constructor
    · rintro ⟨⟨id, _⟩, member, same⟩
      exact ⟨id, same ▸ member⟩
    · rintro ⟨id, member⟩
      exact ⟨⟨id, info⟩, member, rfl⟩
  have own : ∀ id info, (⟨id, info⟩ : Σ _ : String, NodeInfo) ∈ sm.members.entries → info.nodeId = id :=
    fun id info member => keyed id info (Finmap.lookup_eq_some_iff.mpr member)
  rw [StateMachine.hasMember, decide_eq_true_eq, Finmap.mem_iff]
  simp only [lists, List.any_eq_true, beq_iff_eq]
  constructor
  · rintro ⟨info, listed, same⟩
    obtain ⟨id, member⟩ := (entries info).mp listed
    obtain rfl : id = nodeId := (own id info member).symm.trans same
    exact ⟨info, Finmap.lookup_eq_some_iff.mpr member⟩
  · rintro ⟨info, found⟩
    have member := Finmap.lookup_eq_some_iff.mp found
    exact ⟨info, (entries info).mpr ⟨nodeId, member⟩, own nodeId info member⟩

theorem mem_ringOf (keyed : sm.Keyed) (is : sm.IsRing msg) (point : String → Nat → Nat) (nodeId : String) :
    nodeId ∈ (ringOf point msg).addrs ↔ lists msg nodeId = true := by
  rw [Finmap.mem_iff]
  simp only [ringOf, Hashring.newRing, Finmap.lookup_toFinmap, nodeMap_lookup _ (is.distinct keyed), lists,
    List.any_eq_true, beq_iff_eq]
  constructor
  · rintro ⟨_, info, listed, same, _⟩
    exact ⟨info, listed, same⟩
  · rintro ⟨info, listed, same⟩
    exact ⟨info.addr, info, listed, same, rfl⟩

end Membership

variable {pb : Protobuf} {C F : Type} {cfg : Config pb C F}

/-- A node that its watcher's ring does not list is about to hear of it, is busy with it, or has joined since, at a
replica with another epoch. -/
def Minds (cfg : Config pb C F) (s : State C F) (f : F) (m : Member C) : Prop :=
  ∀ self ring, cfg.self f = some self → m.watcher.ring = some ring → self.nodeId ∉ ring.addrs →
    m.calling ≠ none ∨ m.agent.Busy ∨ ∃ msg, cfg.d.Published s.dir msg ∧
      m.joinedAt = some (msg.epoch, ring.epoch) ∧ msg.epoch ≠ ring.epoch

theorem Minds.later {s t : State C F} {f : F} {m : Member C} (minds : Minds cfg s f m)
    (run : Paxos.Reachable cfg.d.cluster s.dir) (later : Paxos.Leads cfg.d.cluster s.dir t.dir) :
    Minds cfg t f m := by
  intro self ring known held missing
  rcases minds self ring known held missing with due | busy | ⟨msg, shown, facts⟩
  · exact Or.inl due
  · exact Or.inr (Or.inl busy)
  · exact Or.inr (Or.inr ⟨msg, shown.mono run later, facts⟩)

/-- The ring that a member is handing to `onRing` is the one it has, so the callback sees what is missing there. -/
theorem minds_callback {s : State C F} {f : F} (informed : Informed cfg s (s.members f)) {msg : Directory.Ring}
    (due : (s.members f).calling = some msg) :
    Minds cfg s f { s.members f with
      calling := none
      agent := (cfg.self f).elim (s.members f).agent fun self => (s.members f).agent.onRing self msg } := by
  intro self ring known held missing
  obtain ⟨⟨n, i, low, is⟩, current⟩ := informed.calling msg due
  have same : ring = ringOf cfg.point msg := Option.some.inj (held.symm.trans current)
  have absent : lists msg self.nodeId = false := by
    rw [same, mem_ringOf (cfg.d.stateAfter_keyed s.dir n i) is] at missing
    exact Bool.eq_false_of_not_eq_true missing
  refine Or.inr (Or.inl ?_)
  simp only [known, Option.elim_some]
  exact Agent.onRing_busy absent

theorem minds_joined {s : State C F} {f : F} (inv : Inv cfg s) {self : NodeInfo} {n : String}
    (known : cfg.self f = some self) (member : (s.watch n).sm.hasMember self.nodeId = true) :
    Minds cfg s f { s.members f with
      agent := (s.members f).agent.joined
      joinedAt := some ((s.watch n).sm.epoch, (s.members f).watcher.epoch) } := by
  intro self' ring known' held missing
  obtain rfl : self = self' := Option.some.inj (known.symm.trans known')
  have epoch : (s.members f).watcher.epoch = ring.epoch := by
    change (s.members f).watcher.ring = some ring at held
    rw [Watcher.epoch, held, Option.elim_some]
  have replica := inv.replicas n
  obtain ⟨answer, now⟩ := exists_isRing (s.watch n).sm
  refine Or.inr (Or.inr ⟨answer, replica.published now, by rw [epoch, now.epoch], fun epochs => missing ?_⟩)
  obtain ⟨msg, ⟨k, i, low, is⟩, shape⟩ := (inv.members f).ring ring held
  have level : (cfg.d.stateAfter s.dir n (s.shown n)).epoch = (cfg.d.stateAfter s.dir k i).epoch := by
    rw [← replica.sm, ← now.epoch, epochs, shape, ringOf_epoch, is.epoch]
  have same := cfg.d.eq_of_epoch_eq inv.directory .refl n k _ i replica.low low level
  have keyed := cfg.d.stateAfter_keyed s.dir k i
  rw [shape, mem_ringOf keyed is, lists_iff_hasMember keyed is, ← same, ← replica.sm]
  exact member

theorem minds_move {s : State C F} {f : F} {m : Member C} (inv : Inv cfg s) (minds : Minds cfg s f (s.members f))
    (moved : MemberMove cfg s f m) : Minds cfg s f m := by
  cases moved with
  | still => exact minds
  | connect n c free => exact minds
  | lose next resting => exact minds
  | receive link msg here resting sent =>
    intro self ring known held missing
    have applied := apply_ring cfg.point cfg.dial (s.members f).watcher msg
    cases old : (s.members f).watcher.stale msg with
    | true =>
      -- nothing has changed, and the callback is not called
      rw [old, if_pos rfl] at applied
      rcases minds self ring known (applied ▸ held) missing with due | rest
      · exact absurd resting due
      · exact Or.inr rest
    | false => exact Or.inl (by simp [Member.receive, old])
  | callback msg due => exact minds_callback (inv.members f) due
  | busy a busy => exact fun _ _ _ _ _ => Or.inr (Or.inl busy)
  | joined self n known member => exact minds_joined inv known member

theorem minds_reachable [DecidableEq C] [DecidableEq F] {s : State C F} (run : Reachable cfg s) (f : F) :
    Minds cfg s f (s.members f) := by
  have both : Reachable cfg s ∧ Minds cfg s f (s.members f) := by
    refine run.invariant (fun u => Reachable cfg u ∧ Minds cfg u f (u.members f)) ⟨.refl, ?_⟩ ?_
    · intro _ _ _ held
      cases held
    · intro u a v ⟨reached, minds⟩ taken small
      have inv := inv_reachable reached
      have moved := minds_move inv minds ((effect_of_step taken).members f)
      exact ⟨reached.tail taken small, moved.later inv.directory (dir_leads (.tail .refl taken small))⟩
  exact both.2

/-- An agent at rest that has received everything from a stream of a replica which no other one is ahead of: its node
is a member, unless its last `Join` was answered by a replica that was behind the ring the agent already had. -/
theorem resting_agent_member [DecidableEq C] [DecidableEq F] (cfg : Config pb C F) (s : State C F)
    (run : Reachable cfg s) (f : F) (self : NodeInfo) (known : cfg.self f = some self) (n : String) (c : C)
    (quiet : Quiet s f n c) (newest : ∀ k ∈ cfg.d.ids, (s.dir.log k).state.epoch ≤ (s.dir.log n).state.epoch)
    (resting : (s.members f).calling = none) (idle : (s.members f).agent = ⟨.idle, false⟩) :
    (s.dir.log n).state.hasMember self.nodeId = true ∨
    ∃ e, (s.members f).joinedAt = some (e, (s.dir.log n).state.epoch) ∧ e < (s.dir.log n).state.epoch := by
  have inv := inv_reachable run
  obtain ⟨msg, is⟩ := exists_isRing (s.dir.log n).state
  have held := quiet.ring_eq run newest is
  have state := cfg.d.state_eq inv.directory n
  have keyed := cfg.d.stateAfter_keyed s.dir n (s.dir.log n).applied
  rw [← state] at keyed
  by_cases listed : self.nodeId ∈ (ringOf cfg.point msg).addrs
  · rw [mem_ringOf keyed is, lists_iff_hasMember keyed is] at listed
    exact Or.inl listed
  · rcases minds_reachable run f self _ known held listed with due | busy | ⟨answer, shown, joined, other⟩
    · exact absurd resting due
    · rw [idle] at busy
      simp [Agent.Busy] at busy
    · obtain ⟨k, member, low⟩ := published_le inv.directory shown
      have bound := newest k member
      rw [ringOf_epoch, is.epoch] at joined other
      exact Or.inr ⟨answer.epoch, joined, by omega⟩

theorem resting_agent_member_sample : ∃ s, Reachable sampleFleet s ∧ Quiet s true "p" true ∧
    (s.members true).agent = ⟨.idle, false⟩ ∧
    ((s.dir.log "p").state.hasMember "a" = true ∨
      ∃ e, (s.members true).joinedAt = some (e, (s.dir.log "p").state.epoch) ∧ e < (s.dir.log "p").state.epoch) := by
  obtain ⟨s, run, quiet, newest, _, resting, idle, _⟩ := sample_quiet
  exact ⟨s, run, quiet, idle,
    resting_agent_member sampleFleet s run true ⟨"a", "x", 0⟩ rfl "p" true quiet newest resting idle⟩

/-- The node joins through `p` and is removed there while `q` learns of neither. Its agent hears of the removal and
turns to `q`, which finds the old join chosen in its first slot. -/
def removalActions : List (Action Bool Bool) :=
  [.run true, .take true joinRaw, .directory (.acquire "p" 0 joinRaw)] ++
  (Paxos.roundActions "p" 0 256 joinRaw [("p", ⟨true, 0, none, 256⟩), ("q", ⟨true, 0, none, 256⟩)] [] joinRaw).map
    Action.directory ++
  [.apply "p" [], .answer true ⟨0, 0, joinRaw⟩ ⟨1, [], 128⟩, .directory (.submit "p" deadRaw),
   .directory (.acquire "p" 1 deadRaw)] ++
  (Paxos.roundActions "p" 1 512 deadRaw [("p", ⟨true, 0, none, 512⟩), ("q", ⟨true, 0, none, 512⟩)] [] deadRaw).map
    Action.directory ++
  [.apply "p" [], .connect true true, .stream "p" (.subscribe true), .stream "p" (.read true ⟨2, [], 128⟩),
   .stream "p" (.send true true), .receive true, .callback true, .rejoin true, .refuse true, .take true joinRaw,
   .directory (.acquire "q" 2 joinRaw)] ++
  (Paxos.roundActions "q" 0 257 joinRaw [("p", ⟨true, 256, some joinRaw, 257⟩), ("q", ⟨true, 256, some joinRaw, 257⟩)]
    [] joinRaw).map Action.directory ++
  [.apply "q" [], .answer true ⟨2, 0, joinRaw⟩ ⟨1, [], 128⟩]

/-- The exception does occur: the agent is at rest and its node is out of the newest ring. -/
example : ∃ s, Reachable sampleFleet s ∧ Quiet s true "p" true ∧ (s.members true).agent = ⟨.idle, false⟩ ∧
    (s.dir.log "p").state.hasMember "a" = false ∧ (s.members true).joinedAt = some (1, 2) :=
  reaches_of_check (step sampleFleet) (fun _ _ u => Paxos.RoundsBelow sampleFleet.d.cluster u.dir) removalActions
    sampleFleet.init _ (by decide +kernel)

end PrefixMesh.Fleet
