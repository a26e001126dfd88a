import PrefixMesh.Mesh.Written

/-! What a prompt finds in the mesh. On one ring, as long as no call fails and no node
crashes or has to make room, the blocks of a request that has ended stay with an owner, and
every later `Match` finds them as far as its own prompt goes the same way. -/

namespace PrefixMesh.Mesh

open Hashring (Ring)
open Cachenode (Answered CachePutRequest Keeps checkEpoch)
open Gateway (Batch ByOwner Hits MatchResponse Round depthLoop groupLoop ownerOf routeLoop settle settleLoop)
open Loadgen (Config Request)

variable {W F : Type}

/-- The steps of a mesh without failures: the source shows one ring and has a client for each node, the nodes accept
its epoch, no call of the gateway fails, and nothing gets lost on the nodes. -/
def smooth (m : Setup F) (ring : Ring) (s : State W F m.cfg) : Action W m.cfg → Bool
  | .read _ shown => decide (shown = some ring)
  | .fanout _ missing => decide (missing = [])
  | .arrive _ node => (s.nodes.nodes node).all fun own => (checkEpoch own.epoch ring.epoch).isOk
  | .fail _ _ _ => false
  | .receive _ shown => decide (shown = some ring)
  | .close _ _ missing => decide (missing = [])
  | .deliver k => (s.wire k).head?.all fun req => Cachenode.smooth m.nodes ring.addrs s.nodes (.putNext k req)
  | .drop _ _ => false
  | .other a => Cachenode.smooth m.nodes ring.addrs s.nodes a
  | _ => true

structure Filled (ring : Ring) : Prop where
  size : ring.size ≠ 0
  first : ∀ id, ∃ n, ownerOf ring id 0 = some n
  below : ∀ id r n, ownerOf ring id r = some n → ∀ r' ≤ r, ∃ n', ownerOf ring id r' = some n'
  owners : ∀ id (rf : Int) n, n ∈ ring.owners id rf ↔ ∃ r : Nat, (r : Int) < rf ∧ ownerOf ring id r = some n

theorem filled_newRing (point : String → Nat → Nat) (epoch : Nat) (nodes : AList (fun _ : String => String))
    (vnodesPerNode : Int) (some_ : nodes.keys ≠ []) : Filled (Hashring.newRing point epoch nodes vnodesPerNode) := by
  have length : ∀ id : List UInt8, (Hashring.clockwise (Hashring.placed point (Hashring.vnodeCount vnodesPerNode)
      nodes.keys) (Hashring.uint64 id)) ≠ [] := by
    intro id empty
    obtain ⟨n, member⟩ := List.exists_mem_of_ne_nil _ some_
    have inside := (Hashring.mem_clockwise_placed point _ (Hashring.vnodeCount_pos vnodesPerNode) _
      (Hashring.uint64 id) n).mpr member
    rw [empty] at inside
    cases inside
  refine ⟨?_, fun id => ?_, fun id r n owned r' low => ?_,
    Gateway.mem_owners_iff point epoch nodes vnodesPerNode⟩
  · rw [Hashring.newRing_size]
    exact Nat.pos_iff_ne_zero.mp (List.length_pos_of_ne_nil some_)
  · rw [Gateway.ownerOf_newRing]
    exact ⟨_, List.getElem?_eq_getElem (List.length_pos_of_ne_nil (length id))⟩
  · rw [Gateway.ownerOf_newRing] at owned ⊢
    have inside := (List.getElem?_eq_some_iff.mp owned).1
    exact ⟨_, List.getElem?_eq_getElem (by omega)⟩

variable {m : Setup F} {ring : Ring} {s t : State W F m.cfg}

def Kept (m : Setup F) (ring : Ring) (s : State W F m.cfg) (id : BlockID) : Prop :=
  ∃ r < m.rf, ∃ n, ownerOf ring id.1 r = some n ∧ s.nodes.holds m.nodes n id = true

/-- The block is one of a request that had ended when the job began. -/
def Knows (m : Setup F) (job : Job m.cfg) (id : BlockID) : Prop := ∃ req ∈ job.known, id ∈ req.ids m.sha

/-- Of each such block, one owner is known to have it. -/
def Places (m : Setup F) (ring : Ring) (s : State W F m.cfg) (job : Job m.cfg) (place : BlockID → Nat) : Prop :=
  ∀ id, Knows m job id → place id < m.rf ∧
    ∃ n, ownerOf ring id.1 (place id) = some n ∧ s.nodes.holds m.nodes n id = true

def HitsKept (m : Setup F) (ring : Ring) (s : State W F m.cfg) (job : Job m.cfg) (hits : Hits) : Prop :=
  ∀ i id, hits.present i = true → (job.req.ids m.sha)[i]? = some id → Kept m ring s id

/-- A node says that it has a block only if it does, and of a block placed with it, it does say so. -/
def Replies (m : Setup F) (s : State W F m.cfg) (job : Job m.cfg) (place : BlockID → Nat) (replica : Nat)
    (node : String) (raw : List UInt8) (here : Bool) : Prop :=
  ∀ id : BlockID, id.1 = raw → (here = true → s.nodes.holds m.nodes node id = true) ∧
    (Knows m job id → place id = replica → here = true)

structure ProbeKept (m : Setup F) (ring : Ring) (s : State W F m.cfg) (job : Job m.cfg) (place : BlockID → Nat)
    (replica : Nat) (p : Probe) : Prop where
  formed : ∀ x ∈ p.content, x.2 = (job.req.raw m.sha).getD x.1 []
  owner : ∀ x ∈ p.content, ownerOf ring x.2 replica = some p.node
  call : ∀ k, p.call = some k → k < s.nodes.begun ∧
    Answered (Replies m s job place replica p.node) p.node (p.content.map Prod.snd) (s.nodes.calls k)

/-- A round: what is known is found, or is going to be asked for where it is. -/
structure RoundKept (m : Setup F) (ring : Ring) (s : State W F m.cfg) (job : Job m.cfg) (place : BlockID → Nat)
    (replica : Nat) (round : Round) (pending : List Probe) : Prop where
  hits : HitsKept m ring s job round.hits
  more : replica < m.rf
  single : Single pending
  probes : ∀ p ∈ pending, ProbeKept m ring s job place replica p
  tracked : ∀ i id, (job.req.ids m.sha)[i]? = some id → Knows m job id → round.hits.present i = true ∨
    i ∈ round.retry ∧ replica < place id ∨ replica ≤ place id ∧ ∃ p ∈ pending, (i, id.1) ∈ p.content

/-- The block is still to be sent on the stream, or has been sent and not been read, or the stream is over. -/
def OnWay (s : State W F m.cfg) (x : Stream) (id : BlockID) : Prop :=
  (∃ b ∈ x.content, b.blockId = id.1) ∨ ∃ k, x.call = some k ∧
    ((∃ req ∈ s.wire k, ∃ b, req.block = some b ∧ b.blockId = id.1) ∨
      ∀ n stored existing, s.nodes.calls k ≠ some (n, .put stored existing))

structure StreamsKept (m : Setup F) (ring : Ring) (s : State W F m.cfg) (res : Result m.cfg) (streams : List Stream) :
    Prop where
  single : Single streams
  call : ∀ x ∈ streams, ∀ k, x.call = some k → k < s.nodes.begun ∧
    ∀ n stored existing, s.nodes.calls k = some (n, .put stored existing) → n = x.node
  blocks : ∀ id ∈ res.req.ids m.sha, Kept m ring s id ∨
    ∃ x ∈ streams, (∃ r < m.rf, ownerOf ring id.1 r = some x.node) ∧ OnWay s x id

def Reused (m : Setup F) (r : Result m.cfg) : Prop :=
  ∀ k ≤ (r.req.ids m.sha).length, (∀ j < k, ∀ id, (r.req.ids m.sha)[j]? = some id → Knows m r.toJob id) → k ≤ r.depth

def PhaseKept (m : Setup F) (ring : Ring) (s : State W F m.cfg) : Phase m.cfg → Prop
  | .idle | .stopped => True
  | .asked job _ => ∃ place, Places m ring s job place
  | .rounds job _ shown replica probe hits _ => shown = ring ∧ HitsKept m ring s job hits ∧
      ∃ place, Places m ring s job place ∧ ∀ i id, (job.req.ids m.sha)[i]? = some id → Knows m job id →
        hits.present i = true ∨ i ∈ probe ∧ replica ≤ place id
  | .probing job _ shown replica round _ pending => shown = ring ∧
      ∃ place, Places m ring s job place ∧ RoundKept m ring s job place replica round pending
  | .matched job _ _ resp _ => (∃ place, Places m ring s job place) ∧
      (∀ j < resp.matchedDepth.toNat, ∀ id, (job.req.ids m.sha)[j]? = some id → Kept m ring s id) ∧
      Reused m ⟨job, resp⟩
  | .writing res rest byOwner => ∀ id ∈ res.req.ids m.sha, Kept m ring s id ∨ (∃ b ∈ rest, b.blockId = id.1) ∨
      ∃ r < m.rf, ∃ n, ownerOf ring id.1 r = some n ∧ ∃ b ∈ (byOwner.lookup n).getD [], b.blockId = id.1
  | .forwarding res _ streams => StreamsKept m ring s res streams

structure Reuses (m : Setup F) (ring : Ring) (s : State W F m.cfg) : Prop where
  nodes : Cachenode.Inv s.nodes
  ended : ∀ req ∈ s.ended, ∀ id ∈ req.ids m.sha, Kept m ring s id
  phases : ∀ w, PhaseKept m ring s (s.phase w)
  results : ∀ r ∈ s.results, Reused m r

structure Onward (m : Setup F) (s t : State W F m.cfg) : Prop where
  keeps : Keeps m.nodes s.nodes t.nodes
  begun : s.nodes.begun ≤ t.nodes.begun
  calls : t.nodes.calls = s.nodes.calls ∨ ∃ b, Cachenode.step m.nodes s.nodes b = some t.nodes
  wire : ∀ k, ∀ req ∈ s.wire k, req ∈ t.wire k ∨ ∀ n stored existing, t.nodes.calls k = some (n, .put stored existing) →
    ∀ b, req.block = some b → ∀ id : BlockID, b.blockId = id.1 → t.nodes.holds m.nodes n id = true

section Onward

variable {a : Action W m.cfg}

theorem Onward.of_frame (inv : Cachenode.Inv s.nodes) (frame : Frame m s t) (keeps : Keeps m.nodes s.nodes t.nodes)
    (wire : ∀ k, ∀ req ∈ s.wire k, req ∈ t.wire k) : Onward m s t := by
  rcases frame.nodes with same | ⟨b, taken, _⟩
  · exact ⟨keeps, by rw [same], Or.inl (by rw [same]), fun k req inside => Or.inl (wire k req inside)⟩
  · exact ⟨keeps, Cachenode.begun_mono taken inv, Or.inr ⟨b, taken⟩, fun k req inside => Or.inl (wire k req inside)⟩

theorem Onward.respond [DecidableEq W] {u : State W F m.cfg} (nodes : u.nodes = s.nodes) (wire : u.wire = s.wire)
    (w : W) (job : Job m.cfg) (resp : MatchResponse) : Onward m s (u.respond m w job resp) := by
  refine ⟨?_, ?_, Or.inl ?_, fun k req inside => Or.inl ?_⟩
  · rw [respond_nodes, nodes]
    exact fun _ _ => id
  · rw [respond_nodes, nodes]
  · rw [respond_nodes, nodes]
  · rwa [respond_wire, wire]

theorem onward_of_effect [DecidableEq W] (inv : Cachenode.Inv s.nodes) (effect : Effect m s a t)
    (ok : smooth m ring s a = true) : Onward m s t := by
  have frame := frame_of_effect effect
  cases effect with
  | deliver k req rest nodes queued inner =>
    simp only [smooth, queued, List.head?_cons, Option.all_some] at ok
    refine ⟨(Cachenode.moves_of_step inv _ inner).keeps ring.addrs ok, Cachenode.begun_mono inner inv,
      Or.inr ⟨_, inner⟩, fun j x inside => ?_⟩
    by_cases same : j = k
    · subst same
      rw [queued] at inside
      rcases List.mem_cons.mp inside with rfl | behind
      · exact Or.inr fun n stored existing open_ b block id named =>
          Cachenode.putNext_holds inv inner ok open_ block named
      · simp only [Function.update_self]
        exact Or.inl behind
    · simp only [Function.update_of_ne same]
      exact Or.inl inside
  | other b nodes _ inner =>
    exact .of_frame inv frame ((Cachenode.moves_of_step inv b inner).keeps ring.addrs ok) fun _ _ => id
  | send w res epoch streams node b content k at_ found =>
    refine .of_frame inv frame (fun _ _ => id) fun j x inside => ?_
    by_cases same : j = k
    · subst same
      simp only [Function.update_self]
      exact List.mem_append_left _ inside
    · simp only [Function.update_of_ne same]
      exact inside
  | read w shown job attempt _ =>
    unfold State.read at frame ⊢
    split at frame
    · exact .respond rfl rfl w job _
    · split at frame
      next empty =>
        rw [if_pos empty]
        exact .respond rfl rfl w job _
      next filled =>
        rw [if_neg filled]
        exact .of_frame inv frame (fun _ _ => id) fun _ _ => id
  | conclude w newer job attempt ring resp wrongEpoch _ =>
    unfold State.conclude at frame ⊢
    split at frame
    next again =>
      rw [if_pos again]
      exact .of_frame inv frame (fun _ _ => id) fun _ _ => id
    next once =>
      rw [if_neg once]
      refine Onward.respond (s := s) ?_ ?_ w job resp <;> rfl
  | arrive w job attempt ring replica round wrongEpoch pending node batch own _ _ _ =>
    unfold State.arrive at frame ⊢
    split at frame
    · exact .of_frame inv frame (fun _ _ => id) fun _ _ => id
    · exact .of_frame inv frame (Cachenode.keeps_same rfl) fun _ _ => id
  | receive w shown res b rest byOwner _ =>
    unfold State.receive at frame ⊢
    split at frame
    · exact .of_frame inv frame (fun _ _ => id) fun _ _ => id
    · exact .of_frame inv frame (fun _ _ => id) fun _ _ => id
  | answer | open_ | recv => exact .of_frame inv frame (Cachenode.keeps_same rfl) fun _ _ => id
  | begin_ | fanout | fail | finishRound | collect | close | drop | done | abort =>
    exact .of_frame inv frame (fun _ _ => id) fun _ _ => id

variable {job : Job m.cfg} {place : BlockID → Nat} {replica : Nat} {id : BlockID}

theorem Onward.kept (onward : Onward m s t) (kept : Kept m ring s id) : Kept m ring t id := by
  obtain ⟨r, low, n, owned, held⟩ := kept
  exact ⟨r, low, n, owned, onward.keeps n id held⟩

theorem Onward.places (onward : Onward m s t) (places : Places m ring s job place) : Places m ring t job place := by
  intro id known
  obtain ⟨low, n, owned, held⟩ := places id known
  exact ⟨low, n, owned, onward.keeps n id held⟩

theorem Onward.hits {hits : Hits} (onward : Onward m s t) (kept : HitsKept m ring s job hits) :
    HitsKept m ring t job hits :=
  fun i id here at_ => onward.kept (kept i id here at_)

theorem Onward.replies {node : String} {raw : List UInt8} {here : Bool} (onward : Onward m s t)
    (replies : Replies m s job place replica node raw here) : Replies m t job place replica node raw here :=
  fun id same => ⟨fun yes => onward.keeps node id ((replies id same).1 yes), (replies id same).2⟩

theorem ProbeKept.replies {p : Probe} {node : Cachenode.Node F} (probe : ProbeKept m ring s job place replica p)
    (places : Places m ring s job place) {raw : List UInt8} (asked : raw ∈ p.content.map Prod.snd)
    (here : s.nodes.nodes p.node = some node) (named : Cachenode.toID raw = .ok id) :
    Replies m s job place replica p.node raw (node.store.contains m.nodes.fl id).1 := by
  intro id' same
  obtain rfl : id' = id := Subtype.ext (same.trans (Cachenode.toID_ok named).symm)
  have held : s.nodes.holds m.nodes p.node id' = (node.store.contains m.nodes.fl id').1 := by
    simp only [Cachenode.State.holds, here, Option.any_some]
  refine ⟨fun yes => held.trans yes, fun known own => ?_⟩
  obtain ⟨_, n, owned, there⟩ := places id' known
  obtain ⟨x, inside, rfl⟩ := List.mem_map.mp asked
  have same_ := probe.owner x inside
  rw [← same, ← own, owned, Option.some.injEq] at same_
  rw [← held, ← same_]
  exact there

theorem Onward.probe {p : Probe} (onward : Onward m s t) (places : Places m ring s job place)
    (probe : ProbeKept m ring s job place replica p) : ProbeKept m ring t job place replica p := by
  refine ⟨probe.formed, probe.owner, fun k called => ?_⟩
  obtain ⟨old, answered⟩ := probe.call k called
  refine ⟨lt_of_lt_of_le old onward.begun, ?_⟩
  rcases onward.calls with same | ⟨b, taken⟩
  · rw [same]
    exact answered.imp fun _ _ => onward.replies
  · exact (Cachenode.answered_step taken old answered fun node raw asked id here named =>
      probe.replies places asked here named).imp fun _ _ => onward.replies

theorem Onward.round {round : Round} {pending : List Probe} (onward : Onward m s t)
    (places : Places m ring s job place) (kept : RoundKept m ring s job place replica round pending) :
    RoundKept m ring t job place replica round pending where
  hits := onward.hits kept.hits
  more := kept.more
  single := kept.single
  probes := fun p inside => onward.probe places (kept.probes p inside)
  tracked := kept.tracked

theorem Onward.put_call (onward : Onward m s t) {k : Nat} (old : k < s.nodes.begun) {n : String}
    {stored existing : UInt32} (open_ : t.nodes.calls k = some (n, .put stored existing)) :
    ∃ stored' existing', s.nodes.calls k = some (n, .put stored' existing') := by
  rcases onward.calls with same | ⟨b, taken⟩
  · exact ⟨stored, existing, same ▸ open_⟩
  · exact Cachenode.put_call_step taken old open_

theorem Onward.onWay {x : Stream} (onward : Onward m s t) (call : ∀ k, x.call = some k → k < s.nodes.begun ∧
      ∀ n stored existing, s.nodes.calls k = some (n, .put stored existing) → n = x.node) (onWay : OnWay s x id) :
    OnWay t x id ∨ t.nodes.holds m.nodes x.node id = true := by
  rcases onWay with waiting | ⟨k, called, ⟨req, sent, b, block, named⟩ | finished⟩
  · exact Or.inl (Or.inl waiting)
  · obtain ⟨old, own⟩ := call k called
    rcases onward.wire k req sent with still | read
    · exact Or.inl (Or.inr ⟨k, called, Or.inl ⟨req, still, b, block, named⟩⟩)
    · by_cases open_ : ∃ n stored existing, t.nodes.calls k = some (n, .put stored existing)
      · obtain ⟨n, stored, existing, now⟩ := open_
        obtain ⟨_, _, before⟩ := onward.put_call old now
        exact Or.inr (own n _ _ before ▸ read n stored existing now b block id named)
      · exact Or.inl (Or.inr ⟨k, called, Or.inr fun n stored existing now => open_ ⟨n, stored, existing, now⟩⟩)
  · refine Or.inl (Or.inr ⟨k, called, Or.inr fun n stored existing now => ?_⟩)
    obtain ⟨_, _, before⟩ := onward.put_call (call k called).1 now
    exact finished n _ _ before

theorem Onward.streams {res : Result m.cfg} {streams : List Stream} (onward : Onward m s t)
    (kept : StreamsKept m ring s res streams) : StreamsKept m ring t res streams where
  single := kept.single
  call := by
    intro x inside k called
    obtain ⟨old, own⟩ := kept.call x inside k called
    refine ⟨lt_of_lt_of_le old onward.begun, fun n stored existing now => ?_⟩
    obtain ⟨_, _, before⟩ := onward.put_call old now
    exact own n _ _ before
  blocks := by
    intro id listed
    rcases kept.blocks id listed with there | ⟨x, inside, ⟨r, low, owned⟩, onWay⟩
    · exact Or.inl (onward.kept there)
    · rcases onward.onWay (kept.call x inside) onWay with still | held
      · exact Or.inr ⟨x, inside, ⟨r, low, owned⟩, still⟩
      · exact Or.inl ⟨r, low, x.node, owned, held⟩

theorem Onward.phase {phase : Phase m.cfg} (onward : Onward m s t) (kept : PhaseKept m ring s phase) :
    PhaseKept m ring t phase := by
  cases phase with
  | idle | stopped => trivial
  | asked =>
    obtain ⟨place, places⟩ := kept
    exact ⟨place, onward.places places⟩
  | rounds =>
    obtain ⟨same, hits, place, places, tracked⟩ := kept
    exact ⟨same, onward.hits hits, place, onward.places places, tracked⟩
  | probing =>
    obtain ⟨same, place, places, round⟩ := kept
    exact ⟨same, place, onward.places places, onward.round places round⟩
  | matched =>
    obtain ⟨⟨place, places⟩, hits, deep⟩ := kept
    exact ⟨⟨place, onward.places places⟩, fun j below id at_ => onward.kept (hits j below id at_), deep⟩
  | writing =>
    intro id listed
    exact (kept id listed).imp onward.kept fun rest => rest
  | forwarding => exact onward.streams kept

end Onward

section Match

variable {job : Job m.cfg} {place : BlockID → Nat} {replica : Nat}

theorem raw_getD {req : Request m.cfg} {i : Nat} {id : BlockID} (at_ : (req.ids m.sha)[i]? = some id) :
    (req.raw m.sha).getD i [] = id.1 := by
  rw [Request.raw, List.getD_eq_getElem?_getD, List.getElem?_map, at_]
  rfl

theorem raw_ne_nil (req : Request m.cfg) : req.raw m.sha ≠ [] := by
  intro empty
  have length := congrArg List.length empty
  rw [Request.raw, List.length_map, req.length_ids, req.length_blocks] at length
  cases length

theorem exists_places (kept : ∀ req ∈ job.known, ∀ id ∈ req.ids m.sha, Kept m ring s id) :
    ∃ place, Places m ring s job place := by
  have each : ∀ id, ∃ r, Knows m job id → r < m.rf ∧ ∃ n, ownerOf ring id.1 r = some n ∧
      s.nodes.holds m.nodes n id = true := by
    intro id
    by_cases known : Knows m job id
    · obtain ⟨req, ended, listed⟩ := known
      obtain ⟨r, low, n, owned, held⟩ := kept req ended id listed
      exact ⟨r, fun _ => ⟨low, n, owned, held⟩⟩
    · exact ⟨0, fun known' => absurd known' known⟩
  choose place places using each
  exact ⟨place, places⟩

theorem RoundKept.fanout (filled : Filled ring) {probe : List Nat} {hits : Hits} (more : replica < m.rf)
    (places : Places m ring s job place) (kept : HitsKept m ring s job hits)
    (tracked : ∀ i id, (job.req.ids m.sha)[i]? = some id → Knows m job id →
      hits.present i = true ∨ i ∈ probe ∧ replica ≤ place id) :
    let groups := groupLoop ring (job.req.raw m.sha) replica (fun i n => decide ((i, n) ∉ [])) probe ∅ []
    RoundKept m ring s job place replica ⟨hits, groups.2, false⟩
      (groups.1.entries.map fun entry => ⟨entry.1, entry.2, none⟩) := by
  intro groups
  have formed : ∀ entry ∈ groups.1.entries, ∀ x ∈ entry.2, x.2 = (job.req.raw m.sha).getD x.1 [] ∧
      ownerOf ring x.2 replica = some entry.1 := fun entry listed x inside =>
    ((Gateway.groupLoop_formed ring _ replica _ (fun _ => True) probe (fun _ _ => trivial) ∅ [] (by simp) entry.1
      entry.2 (AList.mem_lookup_iff.mpr listed)).2 x inside).2
  refine ⟨kept, more, ?_, ?_, ?_⟩
  · rw [Single, List.map_map]
    exact groups.1.nodupKeys
  · intro p inside
    obtain ⟨entry, listed, rfl⟩ := List.mem_map.mp inside
    exact ⟨fun x among => (formed entry listed x among).1, fun x among => (formed entry listed x among).2,
      fun k called => by cases called⟩
  · intro i id at_ known
    rcases tracked i id at_ known with found | ⟨asked, low⟩
    · exact Or.inl found
    · refine Or.inr (Or.inr ⟨low, ?_⟩)
      obtain ⟨_, n, owned, _⟩ := places id known
      obtain ⟨n', owned'⟩ := filled.below id.1 _ n owned replica low
      rw [← raw_getD at_] at owned'
      rcases Gateway.groupLoop_covers ring (job.req.raw m.sha) replica (fun i n => decide ((i, n) ∉ [])) probe ∅ [] i
        n' asked owned' with grouped | ⟨missing, _⟩
      · cases found : groups.1.lookup n' with
        | none =>
          rw [show (groupLoop ring _ replica _ probe ∅ []).1.lookup n' = none from found] at grouped
          cases grouped
        | some batch =>
          rw [show (groupLoop ring _ replica _ probe ∅ []).1.lookup n' = some batch from found, raw_getD at_] at grouped
          exact ⟨⟨n', batch, none⟩, List.mem_map.mpr ⟨⟨n', batch⟩, AList.mem_lookup_iff.mp found, rfl⟩, grouped⟩
      · simp at missing

theorem settle_present (must : Nat × List UInt8 → Prop) {node : String} {batch : Batch} {present : List Bool}
    (each : List.Forall₂ (fun x here => must x → here = true) batch present) {x : Nat × List UInt8} (member : x ∈ batch)
    (due : must x) (r : Round) : (settle (.ok present) node batch r).hits.present x.1 = true := by
  simp only [settle]
  induction each generalizing r with
  | nil => cases member
  | @cons y here batch present first _ ih =>
    simp only [settleLoop, List.head?_cons, List.tail_cons, Option.some.injEq]
    rcases List.mem_cons.mp member with rfl | later
    · rw [if_pos (first due)]
      exact (Gateway.settleLoop_extends ..).present _ (Function.update_self ..)
    · split
      · exact ih later _
      · exact ih later _

theorem RoundKept.answer {round : Round} {pending : List Probe} {p : Probe} {present : List Bool}
    (kept : RoundKept m ring s job place replica round pending) (inside : p ∈ pending)
    (each : List.Forall₂ (Replies m s job place replica p.node) (p.content.map Prod.snd) present) :
    RoundKept m ring s job place replica (settle (.ok present) p.node p.content round) (without pending p.node) := by
  have probe := kept.probes p inside
  have replies := List.forall₂_map_left_iff.mp each
  refine ⟨?_, kept.more, kept.single.without p.node,
    fun q member => kept.probes q (List.mem_of_mem_filter member), ?_⟩
  · have good : ∀ i, (settle (.ok present) p.node p.content round).hits.present i = true →
        ∀ id, (job.req.ids m.sha)[i]? = some id → Kept m ring s id := by
      refine settle_hits (List.forall₂_iff_get.mpr ⟨replies.length_eq, fun i low high hit id at_ => ?_⟩)
        fun i here id => kept.hits i id here
      have listed := List.get_mem p.content ⟨i, low⟩
      have named : id.1 = (p.content.get ⟨i, low⟩).2 := by rw [probe.formed _ listed, raw_getD at_]
      refine ⟨replica, kept.more, p.node, ?_, (replies.get low high id named).1 hit⟩
      rw [named]
      exact probe.owner _ listed
    exact fun i id here at_ => good i here id at_
  · intro i id at_ known
    have extends_ := Gateway.settle_extends (.ok present) p.node p.content round
    rcases kept.tracked i id at_ known with found | ⟨again, later⟩ | ⟨low, q, listed, asked⟩
    · exact Or.inl (extends_.present i found)
    · exact Or.inr (Or.inl ⟨extends_.retry i again, later⟩)
    · by_cases same : q.node = p.node
      · obtain rfl := kept.single.eq listed inside same
        rcases Nat.eq_or_lt_of_le low with here | later
        · refine Or.inl (settle_present (fun x => x = (i, id.1)) ?_ asked rfl round)
          refine replies.imp fun x here' reply own => ?_
          rw [own] at reply
          exact (reply id rfl).2 known here.symm
        · exact (Gateway.settle_covers (.ok present) q.node q.content round _ asked).imp_right
            fun again => Or.inl ⟨again, later⟩
      · exact Or.inr (Or.inr ⟨low, q, mem_without listed same, asked⟩)

theorem RoundKept.arrive {round : Round} {pending : List Probe} {p q : Probe}
    (kept : RoundKept m ring s job place replica round pending) (inside : p ∈ pending) (node : q.node = p.node)
    (content : q.content = p.content) (probe : ProbeKept m ring s job place replica q) :
    RoundKept m ring s job place replica round (replaced pending q) := by
  refine ⟨kept.hits, kept.more, kept.single.replaced q, fun x member => ?_, fun i id at_ known => ?_⟩
  · rcases mem_replaced member with rfl | old
    · exact probe
    · exact kept.probes x old
  · rcases kept.tracked i id at_ known with found | again | ⟨low, x, listed, asked⟩
    · exact Or.inl found
    · exact Or.inr (Or.inl again)
    · refine Or.inr (Or.inr ⟨low, ?_⟩)
      by_cases same : x.node = p.node
      · obtain rfl := kept.single.eq listed inside same
        exact ⟨q, mem_replaced_self listed (same.trans node.symm), content ▸ asked⟩
      · exact ⟨x, mem_replaced_other listed (fun own => same (own.trans node)), asked⟩

theorem le_response_depth (ring : Ring) {chain : List (List UInt8)} {hits : Hits} {k : Nat}
    (small : chain.length < 2 ^ 32) (short : k ≤ chain.length) (all : ∀ i < k, hits.present i = true) :
    k ≤ (response chain ring hits).matchedDepth.toNat := by
  obtain ⟨below, _, after⟩ := Gateway.depthLoop_spec hits.present chain.length 0
  have whole : (response chain ring hits).matchedDepth.toNat = depthLoop hits.present chain.length 0 :=
    UInt32.toNat_ofNat_of_lt' (lt_of_le_of_lt (by omega) small)
  rw [whole]
  by_contra deeper
  have missing := after (by omega)
  rw [all _ (not_le.mp deeper)] at missing
  cases missing

theorem collect_reused (small : m.cfg.sysBlocks + m.cfg.docBlocks + 1 < 2 ^ 32) {probe : List Nat} {hits : Hits}
    (finished : ¬(replica < m.rf ∧ probe ≠ [])) (places : Places m ring s job place)
    (tracked : ∀ i id, (job.req.ids m.sha)[i]? = some id → Knows m job id →
      hits.present i = true ∨ i ∈ probe ∧ replica ≤ place id) :
    Reused m ⟨job, response (job.req.raw m.sha) ring hits⟩ := by
  intro k short known
  have length : (job.req.raw m.sha).length = (job.req.ids m.sha).length := List.length_map ..
  refine le_response_depth ring ?_ (length ▸ short) fun i below => ?_
  · rwa [length, job.req.length_ids, job.req.length_blocks]
  · have inside : i < (job.req.ids m.sha).length := lt_of_lt_of_le below short
    have at_ := List.getElem?_eq_getElem inside
    refine (tracked i _ at_ (known i below _ at_)).resolve_right fun left => finished ⟨?_, List.ne_nil_of_mem left.1⟩
    exact lt_of_le_of_lt left.2 (places _ (known i below _ at_)).1

end Match

section Write

variable {res : Result m.cfg}

theorem phaseKept_answered {job : Job m.cfg} {resp : MatchResponse}
    (kept : ∀ j < resp.matchedDepth.toNat, ∀ id, (job.req.ids m.sha)[j]? = some id → Kept m ring s id) :
    PhaseKept m ring s (answeredPhase m job resp) := by
  unfold answeredPhase
  split
  · intro id listed
    obtain ⟨j, at_⟩ := List.mem_iff_getElem?.mp listed
    by_cases matched : j < resp.matchedDepth.toNat
    · exact Or.inl (kept j matched id at_)
    · exact Or.inr (Or.inl (Request.writeBack_mem (not_lt.mp matched) at_))
  · trivial

theorem phaseKept_receive (filled : Filled ring) {b : WireBlock} {rest : List WireBlock}
    {byOwner byOwner' : ByOwner WireBlock} (routed : routeLoop m.rf [⟨some b, some ring⟩] byOwner = some byOwner')
    (kept : PhaseKept m ring s (.writing res (b :: rest) byOwner)) :
    PhaseKept m ring s (.writing res rest byOwner') := by
  have mem := Gateway.routeLoop_mem (m.rf : Int) _ byOwner byOwner' routed
  intro id listed
  rcases kept id listed with there | ⟨x, waiting, named⟩ | ⟨r, low, n, owned, x, noted, named⟩
  · exact Or.inl there
  · rcases List.mem_cons.mp waiting with rfl | behind
    · obtain ⟨n, owned⟩ := filled.first id.1
      have low : 0 < m.rf := m.replicated
      refine Or.inr (Or.inr ⟨0, low, n, owned, x, (mem n x).mpr (Or.inr ⟨ring, List.mem_singleton_self _, ?_⟩), named⟩)
      rw [named, filled.owners]
      exact ⟨0, by exact_mod_cast low, owned⟩
    · exact Or.inr (Or.inl ⟨x, behind, named⟩)
  · exact Or.inr (Or.inr ⟨r, low, n, owned, x, (mem n x).mpr (Or.inl noted), named⟩)

theorem StreamsKept.close {byOwner : ByOwner WireBlock} (kept : PhaseKept m ring s (.writing res [] byOwner)) :
    StreamsKept m ring s res ((byOwner.entries.filter fun entry => decide (entry.1 ∉ [])).map fun entry =>
      ⟨entry.1, entry.2, none⟩) := by
  refine ⟨single_entries byOwner _, fun x inside k called => ?_, fun id listed => ?_⟩
  · obtain ⟨entry, _, rfl⟩ := List.mem_map.mp inside
    cases called
  · rcases kept id listed with there | ⟨x, waiting, _⟩ | ⟨r, low, n, owned, x, noted, named⟩
    · exact Or.inl there
    · cases waiting
    · cases found : byOwner.lookup n with
      | none =>
        rw [found] at noted
        cases noted
      | some blocks =>
        rw [found, Option.getD_some] at noted
        have listed : (⟨n, blocks⟩ : Σ _ : String, List WireBlock) ∈
            byOwner.entries.filter fun entry => decide (entry.1 ∉ []) :=
          List.mem_filter.mpr ⟨AList.mem_lookup_iff.mp found, decide_eq_true List.not_mem_nil⟩
        exact Or.inr ⟨⟨n, blocks, none⟩, List.mem_map.mpr ⟨_, listed, rfl⟩, ⟨r, low, owned⟩, Or.inl ⟨x, noted, named⟩⟩

theorem StreamsKept.replace {streams : List Stream} {x y : Stream} (kept : StreamsKept m ring s res streams)
    (inside : x ∈ streams) (node : y.node = x.node)
    (call : ∀ k, y.call = some k → k < s.nodes.begun ∧
      ∀ n stored existing, s.nodes.calls k = some (n, .put stored existing) → n = y.node)
    (onWay : ∀ id, OnWay s x id → OnWay s y id) : StreamsKept m ring s res (replaced streams y) := by
  refine ⟨kept.single.replaced y, fun z member => ?_, fun id listed => ?_⟩
  · rcases mem_replaced member with rfl | old
    · exact call
    · exact kept.call z old
  · rcases kept.blocks id listed with there | ⟨z, member, ⟨r, low, owned⟩, way⟩
    · exact Or.inl there
    · refine Or.inr ?_
      by_cases same : z.node = x.node
      · obtain rfl := kept.single.eq member inside same
        exact ⟨y, mem_replaced_self member (same.trans node.symm), ⟨r, low, node ▸ owned⟩, onWay id way⟩
      · exact ⟨z, mem_replaced_other member (fun own => same (own.trans node)), ⟨r, low, owned⟩, way⟩

theorem StreamsKept.without {streams : List Stream} {x : Stream} (kept : StreamsKept m ring s res streams)
    (inside : x ∈ streams) (none_ : ∀ id, ¬OnWay s x id) : StreamsKept m ring s res (without streams x.node) := by
  refine ⟨kept.single.without x.node, fun z member => kept.call z (List.mem_of_mem_filter member), fun id listed => ?_⟩
  refine (kept.blocks id listed).imp_right fun ⟨z, member, owned, way⟩ => ⟨z, mem_without member ?_, owned, way⟩
  intro same
  obtain rfl := kept.single.eq member inside same
  exact none_ id way

end Write

structure Moved (m : Setup F) (ring : Ring) (s t : State W F m.cfg) : Prop where
  phases : ∀ w, t.phase w = s.phase w ∨ PhaseKept m ring t (t.phase w)
  ended : ∀ req ∈ t.ended, req ∈ s.ended ∨ ∀ id ∈ req.ids m.sha, Kept m ring t id
  results : ∀ r ∈ t.results, r ∈ s.results ∨ Reused m r

section Steps

variable {a : Action W m.cfg} {w : W}

theorem phases_update [DecidableEq W] {phase : Phase m.cfg} (moved : t.phase = Function.update s.phase w phase)
    (new : PhaseKept m ring t phase) (w' : W) : t.phase w' = s.phase w' ∨ PhaseKept m ring t (t.phase w') := by
  rw [moved]
  by_cases same : w' = w
  · rw [same, Function.update_self]
    exact Or.inr new
  · exact Or.inl (Function.update_of_ne same ..)

theorem Moved.of_phase [DecidableEq W] {phase : Phase m.cfg} (moved : t.phase = Function.update s.phase w phase)
    (new : PhaseKept m ring t phase) (ended : t.ended = s.ended) (results : t.results = s.results) :
    Moved m ring s t :=
  ⟨phases_update moved new, fun _ inside => Or.inl (ended ▸ inside), fun _ inside => Or.inl (results ▸ inside)⟩

theorem mem_respond_ended [DecidableEq W] {u : State W F m.cfg} {job : Job m.cfg} {resp : MatchResponse}
    {req : Request m.cfg} (inside : req ∈ (u.respond m w job resp).ended) :
    req ∈ u.ended ∨ req = job.req ∧ (job.req.ids m.sha).length ≤ resp.matchedDepth.toNat := by
  unfold State.respond at inside
  dsimp only at inside
  split at inside
  · exact Or.inl inside
  next all =>
    rcases List.mem_cons.mp inside with rfl | old
    · exact Or.inr ⟨rfl, not_lt.mp all⟩
    · exact Or.inl old

theorem Moved.respond [DecidableEq W] {u : State W F m.cfg} {job : Job m.cfg} {resp : MatchResponse}
    (phase : u.phase = s.phase) (ended : u.ended = s.ended) (results : u.results = s.results)
    (kept : ∀ j < resp.matchedDepth.toNat, ∀ id, (job.req.ids m.sha)[j]? = some id →
      Kept m ring (u.respond m w job resp) id)
    (reused : Reused m ⟨job, resp⟩) : Moved m ring s (u.respond m w job resp) where
  phases := phases_update (by rw [respond_phase, phase]) (phaseKept_answered kept)
  ended := by
    intro req inside
    rcases mem_respond_ended inside with old | ⟨rfl, all⟩
    · exact Or.inl (ended ▸ old)
    · refine Or.inr fun id listed => ?_
      obtain ⟨j, at_⟩ := List.mem_iff_getElem?.mp listed
      exact kept j (lt_of_lt_of_le (List.getElem?_eq_some_iff.mp at_).1 all) id at_
  results := by
    intro r inside
    rw [respond_results, results] at inside
    rcases List.mem_cons.mp inside with rfl | old
    · exact Or.inr reused
    · exact Or.inl old

theorem moved_of_effect [DecidableEq W] (filled : Filled ring) (small : m.cfg.sysBlocks + m.cfg.docBlocks + 1 < 2 ^ 32)
    (reuses : Reuses m ring s) (effect : Effect m s a t) (ok : smooth m ring s a = true) : Moved m ring s t := by
  have onward := onward_of_effect reuses.nodes effect ok
  have before : ∀ w phase, s.phase w = phase → PhaseKept m ring s phase := fun w _ at_ => at_ ▸ reuses.phases w
  cases effect with
  | begin_ w req free =>
    have places : ∃ place, Places m ring s ⟨req, s.ended⟩ place := exists_places reuses.ended
    exact .of_phase rfl places rfl rfl
  | read w shown job attempt at_ =>
    obtain ⟨place, places⟩ := before w _ at_
    simp only [smooth, decide_eq_true_eq] at ok
    subst ok
    have more : ¬(ring.size = 0 ∨ job.req.raw m.sha = []) := by
      rintro (empty | empty)
      · exact filled.size empty
      · exact raw_ne_nil job.req empty
    simp only [State.read, if_neg more] at onward ⊢
    have unknown : ∀ t : State W F m.cfg, HitsKept m ring t job ⟨fun _ => false, fun _ => ""⟩ := by
      intro _ i id here
      cases here
    refine .of_phase rfl ⟨rfl, unknown _, place, onward.places places, fun i id at_ _ => ?_⟩ rfl rfl
    refine Or.inr ⟨List.mem_range.mpr ?_, Nat.zero_le _⟩
    rw [Request.raw, List.length_map]
    exact (List.getElem?_eq_some_iff.mp at_).1
  | fanout w missing job attempt shown replica probe hits wrongEpoch at_ more some_ =>
    obtain ⟨rfl, kept, place, places, tracked⟩ := before w _ at_
    simp only [smooth, decide_eq_true_eq] at ok
    subst ok
    exact .of_phase rfl ⟨rfl, place, onward.places places,
      onward.round places (.fanout filled more places kept tracked)⟩ rfl rfl
  | arrive w job attempt shown replica round wrongEpoch pending node batch own at_ found here =>
    obtain ⟨rfl, place, places, kept⟩ := before w _ at_
    simp only [smooth, here, Option.all_some] at ok
    unfold State.arrive at onward ⊢
    split at onward
    next refused =>
      rw [refused] at ok
      cases ok
    next accepted =>
      have probe := kept.probes _ found
      refine .of_phase rfl ⟨rfl, place, onward.places places, ?_⟩ rfl rfl
      refine (onward.round places kept).arrive found rfl rfl ⟨probe.formed, probe.owner, fun k called => ?_⟩
      cases called
      refine ⟨Nat.lt_succ_self _, ?_⟩
      simp only [Cachenode.State.begin_, Cachenode.State.setCall, Function.update_self]
      exact Cachenode.answered_new _ _ _
  | answer w job attempt shown replica round wrongEpoch pending node batch k n present at_ found finished =>
    obtain ⟨rfl, place, places, kept⟩ := before w _ at_
    have answered := ((kept.probes _ found).call k rfl).2
    rw [finished] at answered
    exact .of_phase rfl ⟨rfl, place, onward.places places, onward.round places (kept.answer found answered.all)⟩ rfl rfl
  | fail => cases ok
  | finishRound w job attempt shown replica round wrongEpoch at_ =>
    obtain ⟨rfl, place, places, kept⟩ := before w _ at_
    refine .of_phase rfl ⟨rfl, onward.hits kept.hits, place, onward.places places, fun i id at_ known => ?_⟩ rfl rfl
    rcases kept.tracked i id at_ known with found | again | ⟨_, p, none_, _⟩
    · exact Or.inl found
    · exact Or.inr again
    · cases none_
  | collect w job attempt shown replica probe hits wrongEpoch at_ finished =>
    obtain ⟨rfl, kept, place, places, tracked⟩ := before w _ at_
    refine .of_phase rfl ⟨⟨place, onward.places places⟩, fun j below id at_ => ?_,
      collect_reused small finished places tracked⟩ rfl rfl
    exact onward.kept (kept j id ((response_depth _ shown hits).2 j below) at_)
  | conclude w newer job attempt shown resp wrongEpoch at_ =>
    obtain ⟨⟨place, places⟩, kept, reused⟩ := before w _ at_
    unfold State.conclude at onward ⊢
    split at onward
    next again =>
      rw [if_pos again]
      exact .of_phase rfl ⟨place, onward.places places⟩ rfl rfl
    next once =>
      rw [if_neg once]
      exact Moved.respond rfl rfl rfl (fun j below id at_ => onward.kept (kept j below id at_)) reused
  | receive w shown res b rest byOwner at_ =>
    simp only [smooth, decide_eq_true_eq] at ok
    subst ok
    unfold State.receive at onward ⊢
    split at onward
    next => exact .of_phase rfl trivial rfl rfl
    next routed =>
      have kept := phaseKept_receive filled routed (before w _ at_)
      exact .of_phase rfl (onward.phase kept) rfl rfl
  | close w shown missing res byOwner at_ =>
    simp only [smooth, decide_eq_true_eq] at ok
    subst ok
    exact .of_phase rfl (onward.streams (.close (before w _ at_))) rfl rfl
  | open_ w res epoch streams node blocks own at_ found here =>
    have kept : StreamsKept m ring s res streams := before w _ at_
    refine .of_phase rfl ((onward.streams kept).replace found rfl (fun k called => ?_) fun id way => ?_) rfl rfl
    · cases called
      refine ⟨Nat.lt_succ_self _, fun n stored existing now => ?_⟩
      simp only [Cachenode.State.begin_, Cachenode.State.setCall, Function.update_self, Option.some.injEq,
        Prod.mk.injEq] at now
      exact now.1.symm
    · rcases way with waiting | ⟨k, called, _⟩
      · exact Or.inl waiting
      · cases called
  | send w res epoch streams node b blocks k at_ found =>
    have kept := onward.streams (before w _ at_ : StreamsKept m ring s res streams)
    refine .of_phase rfl (kept.replace found rfl (fun j called => kept.call _ found j called) fun id way => ?_) rfl rfl
    rcases way with ⟨x, waiting, named⟩ | sent
    · rcases List.mem_cons.mp waiting with rfl | behind
      · refine Or.inr ⟨k, rfl, Or.inl ⟨⟨epoch, some x⟩, ?_, x, rfl, named⟩⟩
        simp only [Function.update_self]
        exact List.mem_append_right _ (List.mem_singleton_self _)
      · exact Or.inl ⟨x, behind, named⟩
    · exact Or.inr sent
  | deliver k req rest nodes queued inner => exact ⟨fun _ => Or.inl rfl, fun _ => Or.inl, fun _ => Or.inl⟩
  | recv w res epoch streams node k n stored existing at_ found finished read =>
    have kept : StreamsKept m ring s res streams := before w _ at_
    refine .of_phase rfl (onward.streams (kept.without found fun id way => ?_)) rfl rfl
    rcases way with ⟨x, waiting, _⟩ | ⟨j, called, ⟨x, sent, _⟩ | closed⟩
    · cases waiting
    · cases called
      rw [read] at sent
      cases sent
    · cases called
      exact closed n stored existing finished
  | drop => cases ok
  | done w res epoch at_ =>
    have kept := onward.streams (before w _ at_ : StreamsKept m ring s res [])
    refine ⟨phases_update rfl trivial, fun req inside => ?_, fun _ => Or.inl⟩
    rcases List.mem_cons.mp inside with rfl | old
    · refine Or.inr fun id listed => (kept.blocks id listed).resolve_right ?_
      rintro ⟨x, none_, _⟩
      cases none_
    · exact Or.inl old
  | abort w => exact .of_phase rfl trivial rfl rfl
  | other => exact ⟨fun _ => Or.inl rfl, fun _ => Or.inl, fun _ => Or.inl⟩

theorem Reuses.step [DecidableEq W] (filled : Filled ring) (small : m.cfg.sysBlocks + m.cfg.docBlocks + 1 < 2 ^ 32)
    (reuses : Reuses m ring s) (taken : step m s a = some t) (ok : smooth m ring s a = true) : Reuses m ring t := by
  have effect := effect_of_step taken
  have onward := onward_of_effect reuses.nodes effect ok
  have moved := moved_of_effect filled small reuses effect ok
  refine ⟨(frame_of_effect effect).inv reuses.nodes, fun req inside => ?_, fun w => ?_, fun r inside => ?_⟩
  · rcases moved.ended req inside with old | new
    · exact fun id listed => onward.kept (reuses.ended req old id listed)
    · exact new
  · rcases moved.phases w with same | new
    · rw [same]
      exact onward.phase (reuses.phases w)
    · exact new
  · exact (moved.results r inside).elim (reuses.results r) id

theorem reuses_init : Reuses m ring (init m.cfg : State W F m.cfg) where
  nodes := Cachenode.inv_init
  ended := by
    intro req inside
    cases inside
  phases := fun _ => trivial
  results := by
    intro r inside
    cases inside

end Steps

theorem Reused.shares {r : Result m.cfg} (reused : Reused m r) {req : Request m.cfg} (known : req ∈ r.known) {k : Nat}
    (short : k ≤ r.req.blocks.length) (shares : r.req.Shares req k) : k ≤ r.depth := by
  refine reused k (r.req.length_ids ▸ short) fun j below id at_ => ?_
  exact ⟨req, known, List.mem_of_getElem? (shares.ids below at_)⟩

/-- Any number of workers share the prompts of one mesh whose ring does not change. As long as no call fails, no node
crashes and the stores admit what they get without evicting, the `Match` for a prompt comes at least as far as the
prompt agrees with that of any request that had ended when this one began: over the system prompt for a request of
the same tenant, and over the document as well for one with the same document. Chains are taken to be shorter than
2^32 blocks, as the depth of an answer is a 32-bit number. -/
theorem shared_prefix_matched [DecidableEq W] (m : Setup F) (point : String → Nat → Nat) (epoch : Nat)
    (addrs : AList (fun _ : String => String)) (vnodesPerNode : Int) (some_ : addrs.keys ≠ [])
    (small : m.cfg.sysBlocks + m.cfg.docBlocks + 1 < 2 ^ 32) (s : State W F m.cfg)
    (run : Lib.Reaches (step m) (fun u a _ => smooth m (Hashring.newRing point epoch addrs vnodesPerNode) u a = true)
      (init m.cfg) s) (r : Result m.cfg) (answered : r ∈ s.results) (req : Request m.cfg) (known : req ∈ r.known) :
    (∀ k ≤ r.req.blocks.length, r.req.Shares req k → k ≤ r.depth) ∧
      (r.req.tenant = req.tenant → m.cfg.sysBlocks ≤ r.depth) ∧
      (r.req.tenant = req.tenant → r.req.doc = req.doc → m.cfg.sysBlocks + m.cfg.docBlocks ≤ r.depth) := by
  have filled := filled_newRing point epoch addrs vnodesPerNode some_
  have reuses : Reuses m (Hashring.newRing point epoch addrs vnodesPerNode) s :=
    run.invariant (Reuses m _) reuses_init fun u a v reuses taken ok => reuses.step filled small taken ok
  have reused := reuses.results r answered
  have length := r.req.length_blocks
  refine ⟨fun k => reused.shares known, fun tenant => ?_, fun tenant doc => ?_⟩
  · exact reused.shares known (by omega) (r.req.shares_tenant req tenant)
  · exact reused.shares known (by omega) (r.req.shares_doc req tenant doc)

theorem shared_prefix_matched_sample : ∃ s : State Unit Int sampleMesh.cfg,
    Lib.Reaches (step sampleMesh) (fun u a _ => smooth sampleMesh (Gateway.sampleRing 1 ["b"]) u a = true)
      (init sampleMesh.cfg) s ∧
    ∃ r ∈ s.results, r.known = [samplePrompt 7] ∧ r.req = samplePrompt 8 ∧ 1 ≤ r.depth := by
  obtain ⟨s, run, known⟩ := Lib.reaches_of_check (step sampleMesh)
    (fun u a _ => smooth sampleMesh (Gateway.sampleRing 1 ["b"]) u a = true) sampleRun (init sampleMesh.cfg)
    (fun s => ∃ r ∈ s.results, r.known = [samplePrompt 7] ∧ r.req = samplePrompt 8) (by decide +kernel)
  obtain ⟨r, answered, ended, own⟩ := known
  have tenant : r.req.tenant = (samplePrompt 7).tenant := own ▸ rfl
  exact ⟨s, run, r, answered, ended, own, (shared_prefix_matched sampleMesh Hashring.samplePoint 1
    (["b"].map (fun id => (⟨id, id⟩ : Σ _ : String, String))).toAList 1 (by decide) (by decide) s run r answered
    (samplePrompt 7) (ended ▸ List.mem_singleton_self _)).2.1 tenant⟩

end PrefixMesh.Mesh
