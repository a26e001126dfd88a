import PrefixMesh.Cachenode.Warming
import PrefixMesh.Gateway.Match
import PrefixMesh.Loadgen.Request

/-! The mesh under load: workers, the gateway in front of them and the cache nodes. The
`Match` and the `PutBlocks` of a worker are taken apart into the moments at which the
gateway reads its ring, sends to a node or hears from it, so that the calls of all workers
interleave with each other and with everything else that happens on the nodes. What the
ring source shows is up to the environment each time it is read. -/

namespace PrefixMesh.Mesh

open Hashring (Ring)
open Cachenode (CachePutRequest checkEpoch)
open Gateway (Batch ByOwner BlockRef Hits MatchResponse Round depthLoop groupLoop routeLoop settle)
open Loadgen (Config Metrics Request)

instance : DecidableEq Ring := fun r r' =>
  decidable_of_iff (r.epoch = r'.epoch ∧ r.vnodes = r'.vnodes ∧ r.addrs = r'.addrs) (by cases r; cases r'; simp)

/-- The parameters of the mesh; `New` of the gateway makes `rf` at least 1. -/
structure Setup (F : Type) where
  nodes : Cachenode.Cluster F
  cfg : Config
  sha : List UInt8 → BlockID
  rf : Nat
  replicated : 1 ≤ rf
  emits : Bool

/-- What the gateway has for a node; `call` is the handler there, once the request has arrived. -/
structure Outgoing (α : Type) where
  node : String
  content : α
  call : Option Nat

/-- A `Contains` of a round. -/
abbrev Probe := Outgoing Batch

/-- The stream to an owner, with the blocks that are still to be sent. -/
abbrev Stream := Outgoing (List WireBlock)

/-- A request together with the requests that had ended when it began. -/
structure Job (cfg : Config) where
  req : Request cfg
  known : List (Request cfg)

structure Result (cfg : Config) extends Job cfg where
  resp : MatchResponse

def Result.depth {cfg : Config} (r : Result cfg) : Nat := r.resp.matchedDepth.toNat

/-- An `AccessEvent` of the gateway, without its time. -/
structure AccessEvent where
  chainHead : List UInt8
  modelId : String
  depthRequested : UInt32
  depthMatched : UInt32
  deepestHit : List UInt8
  nextMiss : List UInt8
  chain : List (List UInt8)
  deriving DecidableEq

/-- Where the request of a worker stands. A worker that has met an error has stopped. -/
inductive Phase (cfg : Config) where
  | idle
  | stopped
  | asked (job : Job cfg) (attempt : Nat)
  | rounds (job : Job cfg) (attempt : Nat) (ring : Ring) (replica : Nat) (probe : List Nat) (hits : Hits)
      (wrongEpoch : Bool)
  | probing (job : Job cfg) (attempt : Nat) (ring : Ring) (replica : Nat) (round : Round) (wrongEpoch : Bool)
      (pending : List Probe)
  | matched (job : Job cfg) (attempt : Nat) (ring : Ring) (resp : MatchResponse) (wrongEpoch : Bool)
  | writing (res : Result cfg) (rest : List WireBlock) (byOwner : ByOwner WireBlock)
  | forwarding (res : Result cfg) (epoch : Nat) (streams : List Stream)

/-- `wire` is what has been sent on a stream and not been read by the node, and `uploaded` is what the streams of the
workers have brought to the gateway. -/
structure State (W F : Type) (cfg : Config) where
  nodes : Cachenode.State F
  phase : W → Phase cfg
  wire : Nat → List CachePutRequest
  results : List (Result cfg)
  ended : List (Request cfg)
  metrics : Metrics
  events : List AccessEvent
  uploaded : List WireBlock

inductive Action (W : Type) (cfg : Config) where
  | begin_ (w : W) (req : Request cfg)
  | read (w : W) (ring : Option Ring)
  | fanout (w : W) (missing : List (Nat × String))
  | arrive (w : W) (node : String)
  | answer (w : W) (node : String)
  | fail (w : W) (node : String) (e : Status)
  | finishRound (w : W)
  | collect (w : W)
  | conclude (w : W) (newer : Option Ring)
  | receive (w : W) (ring : Option Ring)
  | close (w : W) (ring : Option Ring) (missing : List String)
  | open_ (w : W) (node : String)
  | send (w : W) (node : String)
  | deliver (k : Nat)
  | recv (w : W) (node : String)
  | drop (w : W) (node : String)
  | done (w : W)
  | abort (w : W)
  | other (a : Cachenode.Action)

variable {W F : Type} [DecidableEq W]

def init (cfg : Config) : State W F cfg :=
  ⟨Cachenode.State.init, fun _ => .idle, fun _ => [], [], [], ⟨0, 0, 0, 0, 0⟩, [], []⟩

/-- What happens on the nodes besides the calls of the gateway: all but further `PutBlocks`. -/
def Unrelated : Cachenode.Action → Bool
  | .startPut _ => false
  | .putNext _ _ => false
  | _ => true

section Parts

variable {cfg : Config}

def State.setPhase (s : State W F cfg) (w : W) (phase : Phase cfg) : State W F cfg :=
  { s with phase := Function.update s.phase w phase }

def emitAccess (modelID : String) (chain : List (List UInt8)) (resp : MatchResponse) : Option AccessEvent :=
  chain.head?.map fun head => {
    chainHead := head
    modelId := modelID
    depthRequested := UInt32.ofNat chain.length
    depthMatched := resp.matchedDepth
    deepestHit := if resp.matchedDepth > 0 then chain.getD (resp.matchedDepth.toNat - 1) [] else []
    nextMiss := chain.getD resp.matchedDepth.toNat []
    chain := chain }

/-- The end of `matchOnRing`. -/
def response (chain : List (List UInt8)) (ring : Ring) (hits : Hits) : MatchResponse :=
  let depth := depthLoop hits.present chain.length 0
  let refs := (List.range depth).map fun i =>
    (⟨chain.getD i [], (ring.addrs.lookup (hits.holders i)).getD ""⟩ : BlockRef)
  ⟨UInt32.ofNat depth, refs, ring.epoch⟩

/-- The worker has the answer of `Match`: it counts, and goes on to write the misses back. -/
def State.respond (m : Setup F) (s : State W F m.cfg) (w : W) (job : Job m.cfg) (resp : MatchResponse) :
    State W F m.cfg :=
  let depth := resp.matchedDepth.toNat
  let s := { s with
    results := ⟨job, resp⟩ :: s.results
    metrics := job.req.count m.sha depth s.metrics }
  if depth < (job.req.ids m.sha).length then
    s.setPhase w (.writing ⟨job, resp⟩ (job.req.writeBack m.sha depth) ∅)
  else { s.setPhase w .idle with ended := job.req :: s.ended }

variable {α : Type}

def outgoingTo (list : List (Outgoing α)) (node : String) : Option (Outgoing α) := list.find? fun x => x.node = node

def without (list : List (Outgoing α)) (node : String) : List (Outgoing α) := list.filter fun x => x.node ≠ node

def replaced (list : List (Outgoing α)) (new : Outgoing α) : List (Outgoing α) :=
  list.map fun x => if x.node = new.node then new else x

end Parts

variable (m : Setup F)

/-- The head of the loop in `Match`. -/
def State.read (s : State W F m.cfg) (w : W) (job : Job m.cfg) (attempt : Nat) : Option Ring → State W F m.cfg
  | none => s.respond m w job ⟨0, [], 0⟩
  | some ring =>
      if ring.size = 0 ∨ job.req.raw m.sha = [] then s.respond m w job ⟨0, [], 0⟩
      else s.setPhase w (.rounds job attempt ring 0 (List.range (job.req.raw m.sha).length)
        ⟨fun _ => false, fun _ => ""⟩ false)

/-- The first loop of `probeReplica`. -/
def State.fanout (s : State W F m.cfg) (w : W) (job : Job m.cfg) (attempt : Nat) (ring : Ring) (replica : Nat)
    (probe : List Nat) (hits : Hits) (wrongEpoch : Bool) (missing : List (Nat × String)) : State W F m.cfg :=
  let (batches, unroutable) :=
    groupLoop ring (job.req.raw m.sha) replica (fun i node => decide ((i, node) ∉ missing)) probe ∅ []
  s.setPhase w (.probing job attempt ring replica ⟨hits, unroutable, false⟩ wrongEpoch
    (batches.entries.map fun entry => ⟨entry.1, entry.2, none⟩))

def State.arrive (s : State W F m.cfg) (w : W) (job : Job m.cfg) (attempt : Nat) (ring : Ring) (replica : Nat)
    (round : Round) (wrongEpoch : Bool) (pending : List Probe) (p : Probe) (own : Option Nat) : State W F m.cfg :=
  match checkEpoch own ring.epoch with
  | .error e => s.setPhase w (.probing job attempt ring replica (settle (.error e) p.node p.content round) wrongEpoch
      (without pending p.node))
  | .ok () => { s.setPhase w (.probing job attempt ring replica round wrongEpoch
        (replaced pending { p with call := some s.nodes.begun })) with
      nodes := s.nodes.begin_ p.node (.contains (p.content.map Prod.snd) []) }

/-- After `matchOnRing`: another attempt, or the answer. -/
def State.conclude (s : State W F m.cfg) (w : W) (job : Job m.cfg) (attempt : Nat) (ring : Ring) (resp : MatchResponse)
    (wrongEpoch : Bool) (newer : Option Ring) : State W F m.cfg :=
  if wrongEpoch && attempt == 0 && newer.any (fun r => decide (r.epoch > ring.epoch)) then
    s.setPhase w (.asked job (attempt + 1))
  else
    let event := if m.emits then emitAccess m.cfg.modelID (job.req.raw m.sha) resp else none
    { s with events := event.toList ++ s.events }.respond m w job resp

def State.receive (s : State W F m.cfg) (w : W) (res : Result m.cfg) (b : WireBlock) (rest : List WireBlock)
    (byOwner : ByOwner WireBlock) (ring : Option Ring) : State W F m.cfg :=
  let s := { s with uploaded := b :: s.uploaded }
  match routeLoop m.rf [⟨some b, ring⟩] byOwner with
  | none => s.setPhase w .stopped
  | some byOwner => s.setPhase w (.writing res rest byOwner)

/-- `PutBlocks` has all blocks and starts to forward them. -/
def State.close (s : State W F m.cfg) (w : W) (res : Result m.cfg) (byOwner : ByOwner WireBlock) (ring : Option Ring)
    (missing : List String) : State W F m.cfg :=
  let owners := byOwner.entries.filter fun entry => decide (entry.1 ∉ missing)
  s.setPhase w (.forwarding res (ring.elim 0 fun r => r.epoch) (owners.map fun entry => ⟨entry.1, entry.2, none⟩))

def step (s : State W F m.cfg) : Action W m.cfg → Option (State W F m.cfg)
  | .begin_ w req =>
      match s.phase w with
      | .idle => some (s.setPhase w (.asked ⟨req, s.ended⟩ 0))
      | _ => none
  | .read w ring =>
      match s.phase w with
      | .asked job attempt => some (s.read m w job attempt ring)
      | _ => none
  | .fanout w missing =>
      match s.phase w with
      | .rounds job attempt ring replica probe hits wrongEpoch =>
          if replica < m.rf ∧ probe ≠ [] then
            some (s.fanout m w job attempt ring replica probe hits wrongEpoch missing)
          else none
      | _ => none
  | .arrive w node =>
      match s.phase w with
      | .probing job attempt ring replica round wrongEpoch pending =>
          match outgoingTo pending node, s.nodes.nodes node with
          | some ⟨n, batch, none⟩, some own =>
              some (s.arrive m w job attempt ring replica round wrongEpoch pending ⟨n, batch, none⟩ own.epoch)
          | _, _ => none
      | _ => none
  | .answer w node =>
      match s.phase w with
      | .probing job attempt ring replica round wrongEpoch pending =>
          match outgoingTo pending node with
          | some ⟨n, batch, some k⟩ =>
              match s.nodes.calls k with
              | some (_, .contains [] present) =>
                  some { s.setPhase w (.probing job attempt ring replica (settle (.ok present) n batch round)
                      wrongEpoch (without pending n)) with nodes := s.nodes.finish k }
              | _ => none
          | _ => none
      | _ => none
  | .fail w node e =>
      match s.phase w with
      | .probing job attempt ring replica round wrongEpoch pending =>
          match outgoingTo pending node with
          | some p => some (s.setPhase w (.probing job attempt ring replica (settle (.error e) p.node p.content round)
              wrongEpoch (without pending p.node)))
          | none => none
      | _ => none
  | .finishRound w =>
      match s.phase w with
      | .probing job attempt ring replica round wrongEpoch [] =>
          some (s.setPhase w (.rounds job attempt ring (replica + 1) round.retry round.hits
            (wrongEpoch || round.wrongEpoch)))
      | _ => none
  | .collect w =>
      match s.phase w with
      | .rounds job attempt ring replica probe hits wrongEpoch =>
          if replica < m.rf ∧ probe ≠ [] then none
          else some (s.setPhase w (.matched job attempt ring (response (job.req.raw m.sha) ring hits) wrongEpoch))
      | _ => none
  | .conclude w newer =>
      match s.phase w with
      | .matched job attempt ring resp wrongEpoch => some (s.conclude m w job attempt ring resp wrongEpoch newer)
      | _ => none
  | .receive w ring =>
      match s.phase w with
      | .writing res (b :: rest) byOwner => some (s.receive m w res b rest byOwner ring)
      | _ => none
  | .close w ring missing =>
      match s.phase w with
      | .writing res [] byOwner => some (s.close m w res byOwner ring missing)
      | _ => none
  | .open_ w node =>
      match s.phase w with
      | .forwarding res epoch streams =>
          match outgoingTo streams node, s.nodes.nodes node with
          | some ⟨n, blocks, none⟩, some _ =>
              some { s.setPhase w (.forwarding res epoch (replaced streams ⟨n, blocks, some s.nodes.begun⟩)) with
                nodes := s.nodes.begin_ n (.put 0 0) }
          | _, _ => none
      | _ => none
  | .send w node =>
      match s.phase w with
      | .forwarding res epoch streams =>
          match outgoingTo streams node with
          | some ⟨n, b :: blocks, some k⟩ =>
              some { s.setPhase w (.forwarding res epoch (replaced streams ⟨n, blocks, some k⟩)) with
                wire := Function.update s.wire k (s.wire k ++ [⟨epoch, some b⟩]) }
          | _ => none
      | _ => none
  | .deliver k =>
      match s.wire k with
      | [] => none
      | req :: rest => (Cachenode.step m.nodes s.nodes (.putNext k req)).map fun nodes =>
          { s with nodes := nodes, wire := Function.update s.wire k rest }
  | .recv w node =>
      match s.phase w with
      | .forwarding res epoch streams =>
          match outgoingTo streams node with
          | some ⟨n, [], some k⟩ =>
              match s.nodes.calls k, s.wire k with
              | some (_, .put _ _), [] => some { s.setPhase w (.forwarding res epoch (without streams n)) with
                  nodes := s.nodes.finish k }
              | _, _ => none
          | _ => none
      | _ => none
  | .drop w node =>
      match s.phase w with
      | .forwarding res epoch streams => some (s.setPhase w (.forwarding res epoch (without streams node)))
      | _ => none
  | .done w =>
      match s.phase w with
      | .forwarding res _ [] => some { s.setPhase w .idle with ended := res.req :: s.ended }
      | _ => none
  | .abort w => some (s.setPhase w .stopped)
  | .other a =>
      if Unrelated a then (Cachenode.step m.nodes s.nodes a).map fun nodes => { s with nodes := nodes } else none

abbrev Reachable (s : State W F m.cfg) : Prop := Lib.Reaches (step m) (fun _ _ _ => True) (init m.cfg) s

section Respond

variable (s : State W F m.cfg) (w : W) (job : Job m.cfg) (resp : MatchResponse)

@[simp]
theorem respond_nodes : (s.respond m w job resp).nodes = s.nodes := by
  unfold State.respond
  dsimp only
  split <;> rfl

@[simp]
theorem respond_wire : (s.respond m w job resp).wire = s.wire := by
  unfold State.respond
  dsimp only
  split <;> rfl

@[simp]
theorem respond_results : (s.respond m w job resp).results = ⟨job, resp⟩ :: s.results := by
  unfold State.respond
  dsimp only
  split <;> rfl

def answeredPhase : Phase m.cfg :=
  if resp.matchedDepth.toNat < (job.req.ids m.sha).length then
    .writing ⟨job, resp⟩ (job.req.writeBack m.sha resp.matchedDepth.toNat) ∅
  else .idle

theorem respond_phase : (s.respond m w job resp).phase = Function.update s.phase w (answeredPhase m job resp) := by
  unfold State.respond answeredPhase
  dsimp only
  split <;> rfl

end Respond

inductive Effect (s : State W F m.cfg) : Action W m.cfg → State W F m.cfg → Prop where
  | begin_ (w : W) (req : Request m.cfg) (free : s.phase w = .idle) :
      Effect s (.begin_ w req) (s.setPhase w (.asked ⟨req, s.ended⟩ 0))
  | read (w : W) (shown : Option Ring) (job : Job m.cfg) (attempt : Nat) (at_ : s.phase w = .asked job attempt) :
      Effect s (.read w shown) (s.read m w job attempt shown)
  | fanout (w : W) (missing : List (Nat × String)) (job : Job m.cfg) (attempt : Nat) (ring : Ring) (replica : Nat)
      (probe : List Nat) (hits : Hits) (wrongEpoch : Bool)
      (at_ : s.phase w = .rounds job attempt ring replica probe hits wrongEpoch) (more : replica < m.rf)
      (some_ : probe ≠ []) :
      Effect s (.fanout w missing) (s.fanout m w job attempt ring replica probe hits wrongEpoch missing)
  | arrive (w : W) (job : Job m.cfg) (attempt : Nat) (ring : Ring) (replica : Nat) (round : Round) (wrongEpoch : Bool)
      (pending : List Probe) (node : String) (batch : Batch) (own : Cachenode.Node F)
      (at_ : s.phase w = .probing job attempt ring replica round wrongEpoch pending)
      (found : ⟨node, batch, none⟩ ∈ pending) (here : s.nodes.nodes node = some own) :
      Effect s (.arrive w node)
        (s.arrive m w job attempt ring replica round wrongEpoch pending ⟨node, batch, none⟩ own.epoch)
  | answer (w : W) (job : Job m.cfg) (attempt : Nat) (ring : Ring) (replica : Nat) (round : Round) (wrongEpoch : Bool)
      (pending : List Probe) (node : String) (batch : Batch) (k : Nat) (n : String) (present : List Bool)
      (at_ : s.phase w = .probing job attempt ring replica round wrongEpoch pending)
      (found : ⟨node, batch, some k⟩ ∈ pending) (finished : s.nodes.calls k = some (n, .contains [] present)) :
      Effect s (.answer w node) { s.setPhase w (.probing job attempt ring replica
        (settle (.ok present) node batch round) wrongEpoch (without pending node)) with
          nodes := s.nodes.finish k }
  | fail (w : W) (e : Status) (job : Job m.cfg) (attempt : Nat) (ring : Ring) (replica : Nat) (round : Round)
      (wrongEpoch : Bool) (pending : List Probe) (p : Probe)
      (at_ : s.phase w = .probing job attempt ring replica round wrongEpoch pending) (found : p ∈ pending) :
      Effect s (.fail w p.node e) (s.setPhase w (.probing job attempt ring replica
        (settle (.error e) p.node p.content round) wrongEpoch (without pending p.node)))
  | finishRound (w : W) (job : Job m.cfg) (attempt : Nat) (ring : Ring) (replica : Nat) (round : Round)
      (wrongEpoch : Bool) (at_ : s.phase w = .probing job attempt ring replica round wrongEpoch []) :
      Effect s (.finishRound w) (s.setPhase w (.rounds job attempt ring (replica + 1) round.retry round.hits
        (wrongEpoch || round.wrongEpoch)))
  | collect (w : W) (job : Job m.cfg) (attempt : Nat) (ring : Ring) (replica : Nat) (probe : List Nat) (hits : Hits)
      (wrongEpoch : Bool) (at_ : s.phase w = .rounds job attempt ring replica probe hits wrongEpoch)
      (finished : ¬(replica < m.rf ∧ probe ≠ [])) :
      Effect s (.collect w) (s.setPhase w (.matched job attempt ring (response (job.req.raw m.sha) ring hits)
        wrongEpoch))
  | conclude (w : W) (newer : Option Ring) (job : Job m.cfg) (attempt : Nat) (ring : Ring) (resp : MatchResponse)
      (wrongEpoch : Bool) (at_ : s.phase w = .matched job attempt ring resp wrongEpoch) :
      Effect s (.conclude w newer) (s.conclude m w job attempt ring resp wrongEpoch newer)
  | receive (w : W) (shown : Option Ring) (res : Result m.cfg) (b : WireBlock) (rest : List WireBlock)
      (byOwner : ByOwner WireBlock) (at_ : s.phase w = .writing res (b :: rest) byOwner) :
      Effect s (.receive w shown) (s.receive m w res b rest byOwner shown)
  | close (w : W) (shown : Option Ring) (missing : List String) (res : Result m.cfg) (byOwner : ByOwner WireBlock)
      (at_ : s.phase w = .writing res [] byOwner) :
      Effect s (.close w shown missing) (s.close m w res byOwner shown missing)
  | open_ (w : W) (res : Result m.cfg) (epoch : Nat) (streams : List Stream) (node : String) (blocks : List WireBlock)
      (own : Cachenode.Node F) (at_ : s.phase w = .forwarding res epoch streams)
      (found : ⟨node, blocks, none⟩ ∈ streams) (here : s.nodes.nodes node = some own) :
      Effect s (.open_ w node) { s.setPhase w (.forwarding res epoch
        (replaced streams ⟨node, blocks, some s.nodes.begun⟩)) with nodes := s.nodes.begin_ node (.put 0 0) }
  | send (w : W) (res : Result m.cfg) (epoch : Nat) (streams : List Stream) (node : String) (b : WireBlock)
      (blocks : List WireBlock) (k : Nat) (at_ : s.phase w = .forwarding res epoch streams)
      (found : ⟨node, b :: blocks, some k⟩ ∈ streams) :
      Effect s (.send w node) { s.setPhase w (.forwarding res epoch
        (replaced streams ⟨node, blocks, some k⟩)) with
          wire := Function.update s.wire k (s.wire k ++ [⟨epoch, some b⟩]) }
  | deliver (k : Nat) (req : CachePutRequest) (rest : List CachePutRequest) (nodes : Cachenode.State F)
      (queued : s.wire k = req :: rest) (inner : Cachenode.step m.nodes s.nodes (.putNext k req) = some nodes) :
      Effect s (.deliver k) { s with nodes := nodes, wire := Function.update s.wire k rest }
  | recv (w : W) (res : Result m.cfg) (epoch : Nat) (streams : List Stream) (node : String) (k : Nat) (n : String)
      (stored existing : UInt32) (at_ : s.phase w = .forwarding res epoch streams)
      (found : ⟨node, [], some k⟩ ∈ streams) (finished : s.nodes.calls k = some (n, .put stored existing))
      (read : s.wire k = []) :
      Effect s (.recv w node) { s.setPhase w (.forwarding res epoch (without streams node)) with
        nodes := s.nodes.finish k }
  | drop (w : W) (node : String) (res : Result m.cfg) (epoch : Nat) (streams : List Stream)
      (at_ : s.phase w = .forwarding res epoch streams) :
      Effect s (.drop w node) (s.setPhase w (.forwarding res epoch (without streams node)))
  | done (w : W) (res : Result m.cfg) (epoch : Nat) (at_ : s.phase w = .forwarding res epoch []) :
      Effect s (.done w) { s.setPhase w .idle with ended := res.req :: s.ended }
  | abort (w : W) : Effect s (.abort w) (s.setPhase w .stopped)
  | other (a : Cachenode.Action) (nodes : Cachenode.State F) (unrelated : Unrelated a = true)
      (inner : Cachenode.step m.nodes s.nodes a = some nodes) : Effect s (.other a) { s with nodes := nodes }

section Outgoing

variable {α : Type} {list : List (Outgoing α)} {node : String} {x y : Outgoing α}

theorem outgoingTo_mem (found : outgoingTo list node = some x) : x ∈ list ∧ x.node = node :=
  ⟨List.mem_of_find?_eq_some found, by simpa using List.find?_some found⟩

theorem mem_replaced (member : y ∈ replaced list x) : y = x ∨ y ∈ list := by
  obtain ⟨old, inside, rfl⟩ := List.mem_map.mp member
  split
  · exact Or.inl rfl
  · exact Or.inr inside

theorem mem_replaced_self (member : y ∈ list) (same : y.node = x.node) : x ∈ replaced list x :=
  List.mem_map.mpr ⟨y, member, if_pos same⟩

theorem mem_replaced_other (member : y ∈ list) (other : y.node ≠ x.node) : y ∈ replaced list x :=
  List.mem_map.mpr ⟨y, member, if_neg other⟩

theorem mem_without (member : y ∈ list) (other : y.node ≠ node) : y ∈ without list node :=
  List.mem_filter.mpr ⟨member, decide_eq_true other⟩

def Single (list : List (Outgoing α)) : Prop := (list.map Outgoing.node).Nodup

theorem Single.eq (single : Single list) (first : x ∈ list) (second : y ∈ list) (same : x.node = y.node) : x = y :=
  List.inj_on_of_nodup_map single first second same

theorem Single.without (single : Single list) (node : String) : Single (without list node) :=
  (List.filter_sublist.map Outgoing.node).nodup single

theorem Single.replaced (single : Single list) (x : Outgoing α) : Single (replaced list x) := by
  have nodes : (Mesh.replaced list x).map Outgoing.node = list.map Outgoing.node := by
    rw [Mesh.replaced, List.map_map]
    refine List.map_congr_left fun y _ => ?_
    simp only [Function.comp_apply]
    split
    next same => exact same.symm
    next => rfl
  rw [Single, nodes]
  exact single

theorem single_entries (byOwner : ByOwner α) (kept : (Σ _ : String, List α) → Bool) :
    Single ((byOwner.entries.filter kept).map fun entry => (⟨entry.1, entry.2, none⟩ : Outgoing (List α))) := by
  rw [Single, List.map_map]
  exact (List.filter_sublist.map Sigma.fst).nodup byOwner.nodupKeys

end Outgoing

variable {m} {s t : State W F m.cfg}

theorem effect_of_step {a : Action W m.cfg} (taken : step m s a = some t) : Effect m s a t := by
  cases a with
  | begin_ w req =>
    simp only [step] at taken
    split at taken
    next free =>
      cases taken
      exact .begin_ w req free
    next => cases taken
  | read w shown =>
    simp only [step] at taken
    split at taken
    next job attempt at_ =>
      cases taken
      exact .read w shown job attempt at_
    next => cases taken
  | fanout w missing =>
    simp only [step] at taken
    split at taken
    next at_ =>
      rw [Option.ite_none_right_eq_some] at taken
      obtain ⟨⟨more, some_⟩, same⟩ := taken
      cases same
      exact .fanout w missing _ _ _ _ _ _ _ at_ more some_
    next => cases taken
  | arrive w node =>
    simp only [step] at taken
    split at taken
    next at_ =>
      split at taken
      next found here =>
        obtain ⟨inside, rfl⟩ := outgoingTo_mem found
        cases taken
        exact .arrive w _ _ _ _ _ _ _ _ _ _ at_ inside here
      next => cases taken
    next => cases taken
  | answer w node =>
    simp only [step] at taken
    split at taken
    next at_ =>
      split at taken
      next found =>
        obtain ⟨inside, rfl⟩ := outgoingTo_mem found
        split at taken
        next finished =>
          cases taken
          exact .answer w _ _ _ _ _ _ _ _ _ _ _ _ at_ inside finished
        next => cases taken
      next => cases taken
    next => cases taken
  | fail w node e =>
    simp only [step] at taken
    split at taken
    next at_ =>
      split at taken
      next found =>
        obtain ⟨inside, rfl⟩ := outgoingTo_mem found
        cases taken
        exact .fail w e _ _ _ _ _ _ _ _ at_ inside
      next => cases taken
    next => cases taken
  | finishRound w =>
    simp only [step] at taken
    split at taken
    next at_ =>
      cases taken
      exact .finishRound w _ _ _ _ _ _ at_
    next => cases taken
  | collect w =>
    simp only [step] at taken
    split at taken
    next at_ =>
      split at taken
      next => cases taken
      next finished =>
        cases taken
        exact .collect w _ _ _ _ _ _ _ at_ finished
    next => cases taken
  | conclude w newer =>
    simp only [step] at taken
    split at taken
    next at_ =>
      cases taken
      exact .conclude w newer _ _ _ _ _ at_
    next => cases taken
  | receive w shown =>
    simp only [step] at taken
    split at taken
    next at_ =>
      cases taken
      exact .receive w shown _ _ _ _ at_
    next => cases taken
  | close w shown missing =>
    simp only [step] at taken
    split at taken
    next at_ =>
      cases taken
      exact .close w shown missing _ _ at_
    next => cases taken
  | open_ w node =>
    simp only [step] at taken
    split at taken
    next at_ =>
      split at taken
      next found here =>
        obtain ⟨inside, rfl⟩ := outgoingTo_mem found
        cases taken
        exact .open_ w _ _ _ _ _ _ at_ inside here
      next => cases taken
    next => cases taken
  | send w node =>
    simp only [step] at taken
    split at taken
    next at_ =>
      split at taken
      next found =>
        obtain ⟨inside, rfl⟩ := outgoingTo_mem found
        cases taken
        exact .send w _ _ _ _ _ _ _ at_ inside
      next => cases taken
    next => cases taken
  | deliver k =>
    simp only [step] at taken
    split at taken
    next => cases taken
    next queued =>
      obtain ⟨nodes, inner, rfl⟩ := Option.map_eq_some_iff.mp taken
      exact .deliver k _ _ nodes queued inner
  | recv w node =>
    simp only [step] at taken
    split at taken
    next at_ =>
      split at taken
      next found =>
        obtain ⟨inside, rfl⟩ := outgoingTo_mem found
        split at taken
        next finished read =>
          cases taken
          exact .recv w _ _ _ _ _ _ _ _ at_ inside finished read
        next => cases taken
      next => cases taken
    next => cases taken
  | drop w node =>
    simp only [step] at taken
    split at taken
    next at_ =>
      cases taken
      exact .drop w node _ _ _ at_
    next => cases taken
  | done w =>
    simp only [step] at taken
    split at taken
    next at_ =>
      cases taken
      exact .done w _ _ at_
    next => cases taken
  | abort w =>
    cases taken
    exact .abort w
  | other a =>
    simp only [step, Option.ite_none_right_eq_some] at taken
    obtain ⟨unrelated, mapped⟩ := taken
    obtain ⟨nodes, inner, rfl⟩ := Option.map_eq_some_iff.mp mapped
    exact .other a nodes unrelated inner

end PrefixMesh.Mesh
