import PrefixMesh.Directory.Replicas
import PrefixMesh.Hashring.Ring

/-! The fleet side of the control plane. A connection is known by the address it was
dialled at, and a client by its connection. `dial` says which addresses can be dialled. -/

namespace PrefixMesh.Ringwatch
open Directory (NodeInfo)

structure Watcher where
  dialNodes : Bool
  ring : Option Hashring.Ring
  conns : String → Option String
  clients : String → Option String

def newWatcher (dialNodes : Bool) : Watcher := ⟨dialNodes, none, fun _ => none, fun _ => none⟩

def Watcher.epoch (w : Watcher) : Nat := w.ring.elim 0 (fun ring => ring.epoch)

def nodeMap (nodes : List NodeInfo) : AList (fun _ : String => String) :=
  nodes.foldl (fun m n => m.insert n.nodeId n.addr) ∅

def ringOf (point : String → Nat → Nat) (msg : Directory.Ring) : Hashring.Ring :=
  Hashring.newRing point msg.epoch (nodeMap msg.nodes) msg.vnodesPerNode

/-- The first loop of `apply`: known ids are skipped, as are addresses that cannot be dialled. -/
def Watcher.dialLoop (dial : String → Bool) : List (Σ _ : String, String) → Watcher → Watcher
  | [], w => w
  | ⟨id, addr⟩ :: rest, w =>
      if (w.conns id).isSome then dialLoop dial rest w
      else if dial addr then
        dialLoop dial rest { w with
          conns := Function.update w.conns id (some addr)
          clients := Function.update w.clients id (some addr) }
      else dialLoop dial rest w

/-- The second loop: connections of departed nodes are dropped. -/
def Watcher.dropLoop (w : Watcher) (nodes : AList (fun _ : String => String)) : Watcher :=
  { w with
    conns := fun id => if id ∈ nodes then w.conns id else none
    clients := fun id => if (w.conns id).isSome ∧ id ∉ nodes then none else w.clients id }

def Watcher.stale (w : Watcher) (msg : Directory.Ring) : Bool :=
  w.ring.any fun ring => decide (msg.epoch ≤ ring.epoch ∧ msg.epoch ≠ 0)

def Watcher.apply (point : String → Nat → Nat) (dial : String → Bool) (w : Watcher) (msg : Directory.Ring) :
    Watcher :=
  let nodes := nodeMap msg.nodes
  if w.stale msg then w
  else
    let w := { w with ring := some (ringOf point msg) }
    if w.dialNodes then (Watcher.dialLoop dial nodes.entries w).dropLoop nodes else w

/-- The watcher after a sequence of messages, from any mix of streams. -/
def watch (point : String → Nat → Nat) (dial : String → Bool) (dialNodes : Bool) (msgs : List Directory.Ring) :
    Watcher :=
  msgs.foldl (Watcher.apply point dial) (newWatcher dialNodes)

section

variable (point : String → Nat → Nat) (dial : String → Bool)

@[simp]
theorem ringOf_epoch (msg : Directory.Ring) : (ringOf point msg).epoch = msg.epoch := rfl

theorem stale_iff {w : Watcher} {ring : Hashring.Ring} (current : w.ring = some ring) (msg : Directory.Ring) :
    w.stale msg = true ↔ msg.epoch ≤ ring.epoch ∧ msg.epoch ≠ 0 := by
  simp [Watcher.stale, current]

theorem watch_concat (dialNodes : Bool) (msgs : List Directory.Ring) (msg : Directory.Ring) :
    watch point dial dialNodes (msgs ++ [msg]) = (watch point dial dialNodes msgs).apply point dial msg := by
  simp [watch]

theorem dialLoop_ring (entries : List (Σ _ : String, String)) (w : Watcher) :
    (Watcher.dialLoop dial entries w).ring = w.ring ∧
    (Watcher.dialLoop dial entries w).dialNodes = w.dialNodes := by
  induction entries generalizing w with
  | nil => exact ⟨rfl, rfl⟩
  | cons entry rest ih =>
    obtain ⟨id, addr⟩ := entry
    unfold Watcher.dialLoop
    split_ifs
    · exact ih w
    · exact ih _
    · exact ih w

theorem apply_ring (w : Watcher) (msg : Directory.Ring) : (w.apply point dial msg).ring =
    if w.stale msg then w.ring else some (ringOf point msg) := by
  unfold Watcher.apply
  by_cases old : w.stale msg = true
  · simp [old]
  · by_cases dials : w.dialNodes = true
    · simp [old, dials, Watcher.dropLoop, (dialLoop_ring dial _ _).1]
    · simp [old, dials]

theorem apply_dialNodes (w : Watcher) (msg : Directory.Ring) :
    (w.apply point dial msg).dialNodes = w.dialNodes := by
  unfold Watcher.apply
  by_cases old : w.stale msg = true
  · simp [old]
  · by_cases dials : w.dialNodes = true
    · simp [old, dials, Watcher.dropLoop, (dialLoop_ring dial _ _).2]
    · simp [old, dials]

private theorem foldl_insert_lookup (nodes : List NodeInfo) (m : AList (fun _ : String => String))
    (distinct : (nodes.map (fun n => n.nodeId)).Nodup) (id addr : String) :
    (nodes.foldl (fun m n => m.insert n.nodeId n.addr) m).lookup id = some addr ↔
      (∃ n ∈ nodes, n.nodeId = id ∧ n.addr = addr) ∨
        (∀ n ∈ nodes, n.nodeId ≠ id) ∧ m.lookup id = some addr := by
  induction nodes generalizing m with
  | nil => simp
  | cons n rest ih =>
    rw [List.map_cons, List.nodup_cons] at distinct
    rw [List.foldl_cons, ih _ distinct.2]
    by_cases same : n.nodeId = id
    · subst same
      have alone : ∀ k ∈ rest, k.nodeId ≠ n.nodeId :=
        fun k member equal => distinct.1 (List.mem_map.mpr ⟨k, member, equal⟩)
      simp only [List.mem_cons, exists_eq_or_imp, AList.lookup_insert, Option.some.injEq, true_and,
        forall_eq_or_imp, ne_eq, not_true_eq_false, false_and, or_false]
      constructor
      · rintro (⟨k, member, equal, _⟩ | ⟨_, found⟩)
        · exact absurd equal (alone k member)
        · exact Or.inl found
      · rintro (found | ⟨k, member, equal, _⟩)
        · exact Or.inr ⟨alone, found⟩
        · exact absurd equal (alone k member)
    · have other : (m.insert n.nodeId n.addr).lookup id = m.lookup id :=
        AList.lookup_insert_ne (Ne.symm same)
      simp only [other, List.mem_cons, exists_eq_or_imp, forall_eq_or_imp, same, false_and, false_or,
        ne_eq, not_false_eq_true, true_and]

theorem nodeMap_lookup (nodes : List NodeInfo) (distinct : (nodes.map (fun n => n.nodeId)).Nodup)
    (id addr : String) : (nodeMap nodes).lookup id = some addr ↔
      ∃ n ∈ nodes, n.nodeId = id ∧ n.addr = addr := by
  have built := foldl_insert_lookup nodes ∅ distinct id addr
  simpa [nodeMap] using built

/-- Two messages with the same epoch, from any replicas, describe the same ring. -/
theorem ringOf_eq {pb : Directory.Protobuf} (d : Directory.Deployment pb)
    {s : Paxos.State String Directory.Bytes Directory.StateMachine} (run : Paxos.Reachable d.cluster s)
    {first second : Directory.Ring} (shown : d.Published s first) (shown' : d.Published s second)
    (epochs : first.epoch = second.epoch) : ringOf point first = ringOf point second := by
  obtain ⟨n, i, low, left⟩ := shown
  obtain ⟨k, j, low', right⟩ := shown'
  have same := d.eq_of_epoch_eq run .refl n k i j low low' (by rw [← left.epoch, ← right.epoch, epochs])
  have keyed := d.stateAfter_keyed s n i
  rw [← same] at right
  have maps : (nodeMap first.nodes).toFinmap = (nodeMap second.nodes).toFinmap := by
    apply Finmap.ext_lookup
    intro id
    apply Option.ext
    intro addr
    simp only [Finmap.lookup_toFinmap]
    rw [nodeMap_lookup _ (left.distinct keyed), nodeMap_lookup _ (right.distinct keyed)]
    simp only [left.same_nodes right]
  simp only [ringOf, epochs, left.vnodes, right.vnodes]
  exact Hashring.newRing_congr point _ _ maps

def Highest (msgs : List Directory.Ring) (top : Directory.Ring) : Prop :=
  top ∈ msgs ∧ ∀ m ∈ msgs, m.epoch ≤ top.epoch

theorem exists_highest (msgs : List Directory.Ring) (some_ : msgs ≠ []) : ∃ top, Highest msgs top := by
  induction msgs with
  | nil => exact absurd rfl some_
  | cons m rest ih =>
    by_cases last : rest = []
    · exact ⟨m, List.mem_cons_self, by simp [last]⟩
    · obtain ⟨top, member, above⟩ := ih last
      by_cases higher : m.epoch ≤ top.epoch
      · refine ⟨top, List.mem_cons_of_mem _ member, ?_⟩
        simpa [higher] using above
      · refine ⟨m, List.mem_cons_self, ?_⟩
        intro k present
        rcases List.mem_cons.mp present with rfl | old
        · exact le_rfl
        · have := above k old
          omega

def ZeroOnlyFirst (msgs : List Directory.Ring) : Prop :=
  ∀ earlier m later, msgs = earlier ++ m :: later → m.epoch = 0 → ∀ k ∈ earlier, k.epoch = 0

theorem watch_highest {pb : Directory.Protobuf} (d : Directory.Deployment pb)
    {s : Paxos.State String Directory.Bytes Directory.StateMachine} (run : Paxos.Reachable d.cluster s)
    (dialNodes : Bool) (msgs : List Directory.Ring) (published : ∀ m ∈ msgs, d.Published s m)
    (zero : ZeroOnlyFirst msgs) (top : Directory.Ring) (highest : Highest msgs top) :
    (watch point dial dialNodes msgs).ring = some (ringOf point top) := by
  induction msgs using List.reverseRecOn generalizing top with
  | nil => exact absurd highest.1 (by simp)
  | append_singleton msgs m ih =>
    obtain ⟨member, above⟩ := highest
    have shown : ∀ k ∈ msgs, d.Published s k := fun k old => published k (List.mem_append_left _ old)
    have last : d.Published s m := published m (by simp)
    have final := above m (by simp)
    rw [watch_concat, apply_ring]
    by_cases first : msgs = []
    · subst first
      obtain rfl : top = m := by simpa using member
      simp [watch, newWatcher, Watcher.stale]
    · obtain ⟨old, memberOld, aboveOld⟩ := exists_highest msgs first
      have zeroOld : ZeroOnlyFirst msgs := by
        intro earlier k later split_
        exact zero earlier k (later ++ [m]) (by rw [split_]; simp)
      have before := ih shown zeroOld old ⟨memberOld, aboveOld⟩
      have reached := above old (List.mem_append_left _ memberOld)
      by_cases stale : m.epoch ≤ old.epoch ∧ m.epoch ≠ 0
      · rw [if_pos ((stale_iff before m).mpr stale), before]
        have level : old.epoch = top.epoch := by
          rcases List.mem_append.mp member with inside | isLast
          · have := aboveOld top inside
            omega
          · obtain rfl := List.mem_singleton.mp isLast
            omega
        exact congrArg some (ringOf_eq point d run (shown old memberOld) (published top member) level)
      · rw [if_neg (fun dropped => stale ((stale_iff before m).mp dropped))]
        have level : m.epoch = top.epoch := by
          rcases List.mem_append.mp member with inside | isLast
          · have bound := aboveOld top inside
            by_cases none_ : m.epoch = 0
            · have := zero msgs m [] rfl none_ top inside
              omega
            · have : ¬m.epoch ≤ old.epoch := fun low => stale ⟨low, none_⟩
              omega
          · rw [List.mem_singleton.mp isLast]
        exact congrArg some (ringOf_eq point d run last (published top member) level)

def NeverBack (dialNodes : Bool) (msgs : List Directory.Ring) : Prop :=
  ∀ earlier m later, msgs = earlier ++ m :: later →
    (watch point dial dialNodes earlier).epoch ≤ (watch point dial dialNodes (earlier ++ [m])).epoch ∧
    ∀ top, Highest (earlier ++ [m]) top →
      (watch point dial dialNodes (earlier ++ [m])).ring = some (ringOf point top)

/-- For messages that replicas of one directory show, the watcher's ring never goes back exactly if no
epoch-zero message, the ring of an empty log, follows a message with a positive epoch. -/
theorem watch_neverBack_iff {pb : Directory.Protobuf} (d : Directory.Deployment pb)
    (s : Paxos.State String Directory.Bytes Directory.StateMachine) (run : Paxos.Reachable d.cluster s)
    (dialNodes : Bool) (msgs : List Directory.Ring) (published : ∀ m ∈ msgs, d.Published s m) :
    NeverBack point dial dialNodes msgs ↔ ZeroOnlyFirst msgs := by
  constructor
  · intro never earlier m later split_ none_ k member
    obtain ⟨top, inside, above⟩ := exists_highest (earlier ++ [m]) (by simp)
    have ring := (never earlier m later split_).2 top ⟨inside, above⟩
    have accepted : ¬(watch point dial dialNodes earlier).stale m = true := by
      simp [Watcher.stale, none_]
    rw [watch_concat, apply_ring, if_neg accepted, Option.some.injEq] at ring
    have level : m.epoch = top.epoch := congrArg Hashring.Ring.epoch ring
    have below := above k (List.mem_append_left _ member)
    omega
  · intro zero earlier m later split_
    have restrict : ∀ part rest, msgs = part ++ rest → ∀ top, Highest part top →
        (watch point dial dialNodes part).ring = some (ringOf point top) := by
      intro part rest whole top highest
      refine watch_highest point dial d run dialNodes part ?_ ?_ top highest
      · exact fun k inside => published k (whole ▸ List.mem_append_left _ inside)
      · intro before k after cut
        exact zero before k (after ++ rest) (by rw [whole, cut]; simp)
    have whole := restrict (earlier ++ [m]) later (by simp [split_])
    refine ⟨?_, whole⟩
    by_cases first : earlier = []
    · simp [first, watch, newWatcher, Watcher.epoch]
    · obtain ⟨old, memberOld, aboveOld⟩ := exists_highest earlier first
      obtain ⟨top, member, above⟩ := exists_highest (earlier ++ [m]) (by simp)
      have before := restrict earlier (m :: later) split_ old ⟨memberOld, aboveOld⟩
      simp only [Watcher.epoch, before, whole top ⟨member, above⟩, Option.elim_some]
      exact above old (List.mem_append_left _ memberOld)

end

/-- A replica that has applied a join shows the node at epoch 1, one that has not shows no node at epoch 0. -/
private theorem sample_published : ∃ s, Paxos.Reachable Directory.sampleDeployment.cluster s ∧
    Directory.sampleDeployment.Published s ⟨1, [⟨"a", "x", 0⟩], 128⟩ ∧
    Directory.sampleDeployment.Published s ⟨0, [], 128⟩ := by
  obtain ⟨s, run, applied, epoch, nodes⟩ := Lib.reaches_of_check
    (Paxos.step Directory.sampleDeployment.cluster)
    (fun _ _ u => Paxos.RoundsBelow Directory.sampleDeployment.cluster u)
    ([.submit "p" Directory.joinRaw, .acquire "p" 0 Directory.joinRaw] ++
      Paxos.roundActions "p" 0 256 Directory.joinRaw [("p", ⟨true, 0, none, 256⟩), ("q", ⟨true, 0, none, 256⟩)] []
        Directory.joinSwapped)
    Directory.sampleDeployment.cluster.init
    (fun s => (s.log "p").applied = 1 ∧
      1 = (Directory.sampleDeployment.stateAfter s "p" 1).epoch ∧
      (([⟨"a", "x", 0⟩] : List NodeInfo) : Multiset NodeInfo) =
        (Directory.sampleDeployment.stateAfter s "p" 1).members.entries.map (fun entry => entry.2)) (by decide)
  exact ⟨s, run, ⟨"p", 1, applied.ge, epoch, nodes, rfl⟩, ⟨"q", 0, Nat.zero_le _, rfl, rfl, rfl⟩⟩

theorem sample_neverBack : ∃ s, Paxos.Reachable Directory.sampleDeployment.cluster s ∧
    (∀ m ∈ ([⟨0, [], 128⟩, ⟨1, [⟨"a", "x", 0⟩], 128⟩] : List Directory.Ring),
      Directory.sampleDeployment.Published s m) ∧
    ∀ point dial, NeverBack point dial true [⟨0, [], 128⟩, ⟨1, [⟨"a", "x", 0⟩], 128⟩] := by
  obtain ⟨s, run, one, zero⟩ := sample_published
  have published : ∀ m ∈ ([⟨0, [], 128⟩, ⟨1, [⟨"a", "x", 0⟩], 128⟩] : List Directory.Ring),
      Directory.sampleDeployment.Published s m := by
    intro m member
    rcases List.mem_cons.mp member with rfl | rest
    · exact zero
    · exact List.mem_singleton.mp rest ▸ one
  refine ⟨s, run, published, ?_⟩
  intro point dial
  apply (watch_neverBack_iff point dial Directory.sampleDeployment s run true _ published).mpr
  intro earlier m later split_ none_ k member
  cases earlier with
  | nil => cases member
  | cons first rest =>
    simp only [List.cons_append, List.cons.injEq] at split_
    obtain ⟨rfl, tail⟩ := split_
    cases rest with
    | nil => exact List.mem_singleton.mp member ▸ rfl
    | cons second rest => simp at tail

/-- The watcher hears of epoch 1 from one replica and then of epoch 0 from a replica that lags behind:
its epoch and its nodes are gone. -/
theorem sample_goes_back : ∃ s, Paxos.Reachable Directory.sampleDeployment.cluster s ∧
    Directory.sampleDeployment.Published s ⟨1, [⟨"a", "x", 0⟩], 128⟩ ∧
    Directory.sampleDeployment.Published s ⟨0, [], 128⟩ ∧
    ∀ point dial, ¬NeverBack point dial true [⟨1, [⟨"a", "x", 0⟩], 128⟩, ⟨0, [], 128⟩] := by
  obtain ⟨s, run, one, zero⟩ := sample_published
  refine ⟨s, run, one, zero, ?_⟩
  intro point dial never
  have fell := (never [⟨1, [⟨"a", "x", 0⟩], 128⟩] ⟨0, [], 128⟩ [] rfl).1
  have high : (watch point dial true [⟨1, [⟨"a", "x", 0⟩], 128⟩]).ring =
      some (ringOf point ⟨1, [⟨"a", "x", 0⟩], 128⟩) := by
    change ((newWatcher true).apply point dial _).ring = _
    rw [apply_ring]
    rfl
  have low : (watch point dial true ([⟨1, [⟨"a", "x", 0⟩], 128⟩] ++ [⟨0, [], 128⟩])).ring =
      some (ringOf point ⟨0, [], 128⟩) := by
    rw [watch_concat, apply_ring, if_neg]
    simp [stale_iff high]
  rw [Watcher.epoch, Watcher.epoch, high, low] at fell
  simp at fell

section

variable (point : String → Nat → Nat) (dial : String → Bool)

theorem dialLoop_clients (entries : List (Σ _ : String, String)) (w : Watcher) (same : w.clients = w.conns) :
    (Watcher.dialLoop dial entries w).clients = (Watcher.dialLoop dial entries w).conns := by
  induction entries generalizing w with
  | nil => exact same
  | cons entry rest ih =>
    obtain ⟨id, addr⟩ := entry
    unfold Watcher.dialLoop
    split_ifs
    · exact ih w same
    · exact ih _ (by simp [same])
    · exact ih w same

theorem dialLoop_conns (entries : List (Σ _ : String, String)) (w : Watcher) (id : String) :
    (Watcher.dialLoop (fun _ => true) entries w).conns id = (w.conns id).or (entries.dlookup id) := by
  induction entries generalizing w with
  | nil => simp [Watcher.dialLoop]
  | cons entry rest ih =>
    obtain ⟨key, addr⟩ := entry
    unfold Watcher.dialLoop
    by_cases same : id = key
    · subst same
      cases known : w.conns id with
      | some old =>
        rw [if_pos (by simp), ih]
        simp [known]
      | none =>
        rw [if_neg (by simp), if_pos rfl, ih]
        simp
    · have skip : List.dlookup id (⟨key, addr⟩ :: rest) = rest.dlookup id := List.dlookup_cons_ne _ _ same
      rw [skip]
      split_ifs
      · exact ih w
      · rw [ih]
        simp [Function.update_of_ne same]
      · exact ih w

/-- A fresh ring, with every dial succeeding: known ids keep their connection, whatever the address. -/
theorem apply_clients (w : Watcher) (msg : Directory.Ring) (dials : w.dialNodes = true)
    (same : w.clients = w.conns) (fresh : ¬w.stale msg = true) :
    (w.apply point (fun _ => true) msg).clients = (w.apply point (fun _ => true) msg).conns ∧
    ∀ id, (w.apply point (fun _ => true) msg).conns id =
      if id ∈ nodeMap msg.nodes then (w.conns id).or ((nodeMap msg.nodes).lookup id) else none := by
  have taken : w.apply point (fun _ => true) msg = (Watcher.dialLoop (fun _ => true)
      (nodeMap msg.nodes).entries { w with ring := some (ringOf point msg) }).dropLoop (nodeMap msg.nodes) := by
    unfold Watcher.apply
    rw [if_neg fresh, if_pos dials]
  have pair := dialLoop_clients (fun _ => true) (nodeMap msg.nodes).entries
    { w with ring := some (ringOf point msg) } same
  have conns := dialLoop_conns (nodeMap msg.nodes).entries { w with ring := some (ringOf point msg) }
  rw [taken]
  generalize Watcher.dialLoop (fun _ => true) (nodeMap msg.nodes).entries
    { w with ring := some (ringOf point msg) } = dialled at pair conns
  constructor
  · funext id
    by_cases member : id ∈ nodeMap msg.nodes
    · simp [Watcher.dropLoop, member, pair]
    · cases known : dialled.conns id with
      | none => simp [Watcher.dropLoop, member, known, pair]
      | some addr => simp [Watcher.dropLoop, member, known]
  · intro id
    simp only [Watcher.dropLoop, conns]
    rfl

def Watcher.Matched (w : Watcher) : Prop :=
  ∃ ring, w.ring = some ring ∧ ∀ id, w.clients id = ring.addrs.lookup id

def Watcher.KeepsAddrs (w : Watcher) (msg : Directory.Ring) : Prop :=
  ¬w.stale msg = true → ∀ ring, w.ring = some ring → ∀ id addr addr',
    ring.addrs.lookup id = some addr → (nodeMap msg.nodes).lookup id = some addr' → addr = addr'

theorem watch_dialNodes (dialNodes : Bool) (msgs : List Directory.Ring) :
    (watch point dial dialNodes msgs).dialNodes = dialNodes := by
  induction msgs using List.reverseRecOn with
  | nil => rfl
  | append_singleton msgs m ih => rw [watch_concat, apply_dialNodes, ih]

theorem watch_clients (msgs : List Directory.Ring) :
    (watch point (fun _ => true) true msgs).clients = (watch point (fun _ => true) true msgs).conns := by
  induction msgs using List.reverseRecOn with
  | nil => rfl
  | append_singleton msgs m ih =>
    rw [watch_concat]
    by_cases old : (watch point (fun _ => true) true msgs).stale m = true
    · simpa [Watcher.apply, old] using ih
    · exact (apply_clients point _ m (watch_dialNodes point _ true msgs) ih old).1

private theorem matched_apply (w : Watcher) (msg : Directory.Ring) (dials : w.dialNodes = true)
    (same : w.clients = w.conns) (before : w.Matched ∨ w.ring = none ∧ ∀ id, w.conns id = none)
    (keeps : w.KeepsAddrs msg) : (w.apply point (fun _ => true) msg).Matched := by
  by_cases old : w.stale msg = true
  · rcases before with matched | ⟨none_, _⟩
    · simpa [Watcher.apply, old] using matched
    · simp [Watcher.stale, none_] at old
  · obtain ⟨pair, conns⟩ := apply_clients point w msg dials same old
    refine ⟨ringOf point msg, by rw [apply_ring, if_neg old], ?_⟩
    intro id
    have table : (ringOf point msg).addrs.lookup id = (nodeMap msg.nodes).lookup id := rfl
    rw [pair, conns, table]
    cases found : (nodeMap msg.nodes).lookup id with
    | none =>
      have absent : id ∉ nodeMap msg.nodes := AList.lookup_eq_none.mp found
      rw [if_neg absent]
    | some addr =>
      have member : id ∈ nodeMap msg.nodes := AList.lookup_isSome.mp (by simp [found])
      rw [if_pos member]
      rcases before with ⟨ring, current, clients⟩ | ⟨_, empty⟩
      · cases known : ring.addrs.lookup id with
        | none => rw [← same, clients, known, Option.none_or]
        | some addr' =>
          rw [← same, clients, known, keeps old ring current id addr' addr known found, Option.some_or]
      · rw [empty, Option.none_or]

/-- With every dial succeeding, the clients match the ring after each message exactly if no message that is
taken gives a node of the current ring another address. -/
theorem watch_matched_iff (msgs : List Directory.Ring) :
    (∀ earlier m later, msgs = earlier ++ m :: later →
      (watch point (fun _ => true) true (earlier ++ [m])).Matched) ↔
    ∀ earlier m later, msgs = earlier ++ m :: later →
      (watch point (fun _ => true) true earlier).KeepsAddrs m := by
  constructor
  · intro matched earlier m later split_ fresh ring current id addr addr' known found
    have dials := watch_dialNodes point (fun _ => true) true earlier
    have same := watch_clients point earlier
    -- the watcher has a ring, so it matched after the last message before this one
    have before : (watch point (fun _ => true) true earlier).Matched := by
      rcases List.eq_nil_or_concat earlier with empty | ⟨front, last, whole⟩
      · subst empty
        cases current
      · subst whole
        rw [List.concat_eq_append]
        exact matched front last (m :: later) (by simp [split_])
    obtain ⟨ring', current', clients⟩ := before
    obtain rfl : ring' = ring := Option.some.inj (current'.symm.trans current)
    obtain ⟨ring', current', clients'⟩ := matched earlier m later split_
    obtain ⟨pair, conns⟩ := apply_clients point _ m dials same fresh
    rw [watch_concat, apply_ring, if_neg fresh] at current'
    obtain rfl := Option.some.inj current'
    have after := clients' id
    have member : id ∈ nodeMap m.nodes := AList.lookup_isSome.mp (by simp [found])
    have table : (ringOf point m).addrs.lookup id = (nodeMap m.nodes).lookup id := rfl
    rw [watch_concat, pair, conns, if_pos member, ← same, clients, known, table, found, Option.some_or] at after
    exact Option.some.inj after
  · intro keeps earlier m later split_
    induction earlier using List.reverseRecOn generalizing m later with
    | nil =>
      rw [watch_concat]
      exact matched_apply point _ m rfl rfl (Or.inr ⟨rfl, fun _ => rfl⟩) (keeps [] m later split_)
    | append_singleton front last ih =>
      have before := ih last (m :: later) (by simp [split_])
      rw [watch_concat]
      exact matched_apply point _ m (watch_dialNodes point _ true _) (watch_clients point _) (Or.inl before)
        (keeps _ m later split_)

end

/-- A member joins again under another address: the ring has the new address, the client the old one. -/
theorem rejoin_not_matched : ¬∃ point, (watch point (fun _ => true) true
    [⟨1, [⟨"a", "x", 0⟩], 128⟩, ⟨2, [⟨"a", "y", 0⟩], 128⟩]).Matched := by
  rintro ⟨point, ring, current, clients⟩
  have old : (watch point (fun _ => true) true
    [⟨1, [⟨"a", "x", 0⟩], 128⟩, ⟨2, [⟨"a", "y", 0⟩], 128⟩]).clients "a" = some "x" := rfl
  have new : ring.addrs.lookup "a" = some "y" := by
    obtain rfl := Option.some.inj current
    rfl
  rw [clients, new] at old
  exact absurd (Option.some.inj old) (by decide)

end PrefixMesh.Ringwatch
