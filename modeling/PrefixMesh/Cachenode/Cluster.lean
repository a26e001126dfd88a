import PrefixMesh.Cachenode.Warmer
import PrefixMesh.Lib.Runs
import PrefixMesh.Blockstore.PagedRuns

/-! A cluster of cache nodes. Requests of clients and warm commands are arbitrary and
arrive at any time; the rounds of all handlers interleave. A node that panics or
crashes loses its store and its handlers and may boot again with an empty store. The
state also records what clients have put and what `GetBlocks` has answered. -/

namespace PrefixMesh.Cachenode

open Blockstore

variable {F : Type}

structure Node (F : Type) where
  store : Store F
  epoch : Option Nat
  warmer : Warmer

/-- A handler in progress. A warm command waits for the answer of its source until it has one. -/
inductive Call where
  | get (rest : List (List UInt8))
  | contains (rest : List (List UInt8)) (present : List Bool)
  | touch (rest : List (List UInt8))
  | put (stored existing : UInt32)
  | warm (cmd : WarmCommand) (fetched : Option WireBlock)

structure Answer where
  node : String
  requested : List UInt8
  block : WireBlock
  deriving DecidableEq

structure Cluster (F : Type) where
  fl : Float64 F
  intn : String → Nat → Nat
  config : String → Config
  static : String → Bool
  rate : ℚ

structure State (F : Type) where
  nodes : String → Option (Node F)
  calls : Nat → Option (String × Call)
  begun : Nat
  now : ℚ
  puts : List WireBlock
  answers : List Answer

def State.init : State F := ⟨fun _ => none, fun _ => none, 0, 0, [], []⟩

inductive Action where
  | boot (n : String)
  | crash (n : String)
  | clock (now : ℚ)
  | ring (n : String) (epoch : Nat)
  | startGet (n : String) (ringEpoch : Nat) (ids : List (List UInt8))
  | startContains (n : String) (ringEpoch : Nat) (ids : List (List UInt8))
  | startTouch (n : String) (ringEpoch : Nat) (ids : List (List UInt8))
  | startPut (n : String)
  | getNext (k : Nat)
  | containsNext (k : Nat)
  | touchNext (k : Nat)
  | putNext (k : Nat) (req : CachePutRequest)
  | warm (n : String) (cmd : WarmCommand)
  | serve (k : Nat) (source : String)
  | keep (k : Nat)
  | finish (k : Nat)

def State.setNode (s : State F) (n : String) (node : Node F) : State F :=
  { s with nodes := Function.update s.nodes n (some node) }

def State.setCall (s : State F) (k : Nat) (n : String) (call : Call) : State F :=
  { s with calls := Function.update s.calls k (some (n, call)) }

def State.begin_ (s : State F) (n : String) (call : Call) : State F :=
  { s.setCall s.begun n call with begun := s.begun + 1 }

def State.finish (s : State F) (k : Nat) : State F :=
  { s with calls := Function.update s.calls k none }

def State.down (s : State F) (n : String) : State F :=
  { s with
    nodes := Function.update s.nodes n none
    calls := fun k => (s.calls k).filter (fun call => call.1 ≠ n) }

def State.answer (s : State F) (n : String) (raw : List UInt8) (sent : Option WireBlock) : State F :=
  { s with answers := (sent.map (fun p => ⟨n, raw, p⟩)).toList ++ s.answers }

/-- A unary or server-streaming request: the epoch is checked once. -/
def State.start (s : State F) (n : String) (ringEpoch : Nat) (call : Call) : Option (State F) :=
  match s.nodes n with
  | none => none
  | some node =>
      match checkEpoch node.epoch ringEpoch with
      | .error _ => some s
      | .ok () => some (s.begin_ n call)

variable (c : Cluster F)

def State.boot (s : State F) (n : String) : Option (State F) :=
  match s.nodes n with
  | some _ => none
  | none =>
      match (c.config n).newStore c.fl with
      | none => none
      | some store =>
          some (s.setNode n ⟨store, if c.static n then none else some 0, newWarmer c.rate s.now⟩)

def State.getNext (s : State F) (k : Nat) (n : String) (node : Node F) (raw : List UInt8)
    (rest : List (List UInt8)) : State F :=
  match getOne c.fl raw node.store with
  | .error _ => s.finish k
  | .ok (sent, store) => ((s.setNode n { node with store := store }).setCall k n (.get rest)).answer n raw sent

def State.containsNext (s : State F) (k : Nat) (n : String) (node : Node F) (raw : List UInt8)
    (rest : List (List UInt8)) (present : List Bool) : State F :=
  match containsOne c.fl raw node.store with
  | .error _ => s.finish k
  | .ok (here, store) =>
      (s.setNode n { node with store := store }).setCall k n (.contains rest (present ++ [here]))

def State.touchNext (s : State F) (k : Nat) (n : String) (node : Node F) (raw : List UInt8)
    (rest : List (List UInt8)) : State F :=
  match touchOne c.fl raw node.store with
  | .error _ => s.finish k
  | .ok store => (s.setNode n { node with store := store }).setCall k n (.touch rest)

/-- A request that reaches the store is a put of the client, whether the block is stored or not. -/
def State.putNext (s : State F) (k : Nat) (n : String) (node : Node F) (stored existing : UInt32)
    (req : CachePutRequest) : State F :=
  match putOne c.fl (c.intn n) node.epoch req node.store with
  | .error _ => s.finish k
  | .ok ⟨none, _, _⟩ => s.down n
  | .ok ⟨some true, _, store⟩ =>
      { (s.setNode n { node with store := store }).setCall k n (.put (stored + 1) existing) with
        puts := req.block.toList ++ s.puts }
  | .ok ⟨some false, _, store⟩ =>
      { (s.setNode n { node with store := store }).setCall k n (.put stored (existing + 1)) with
        puts := req.block.toList ++ s.puts }

def State.warm (s : State F) (n : String) (node : Node F) (cmd : WarmCommand) : State F :=
  let (fetch, store, warmer) := node.warmer.handle c.fl n cmd s.now node.store
  let s := s.setNode n { node with store := store, warmer := warmer }
  if fetch then s.begin_ n (.warm cmd none) else s

/-- The source runs `GetBlocks` for the one id of the command, with no epoch; the warmer takes the first
message of the stream. -/
def State.serve (s : State F) (k : Nat) (n : String) (cmd : WarmCommand) (source : String) (node : Node F) :
    State F :=
  match checkEpoch node.epoch 0 with
  | .error _ => s.finish k
  | .ok () =>
      match getOne c.fl cmd.blockId node.store with
      | .error _ => s.finish k
      | .ok (none, store) => (s.setNode source { node with store := store }).finish k
      | .ok (some p, store) =>
          ((s.setNode source { node with store := store }).setCall k n (.warm cmd (some p))).answer source
            cmd.blockId (some p)

/-- The end of `Handle`: whatever block has come is stored. -/
def State.keep (s : State F) (k : Nat) (n : String) (node : Node F) (p : WireBlock) : State F :=
  match fromProto (some p) with
  | .error _ => s.finish k
  | .ok b =>
      let result := node.store.put c.fl (c.intn n) b
      match result.stored with
      | none => s.down n
      | some _ => (s.setNode n { node with
          store := result.store
          warmer := { node.warmer with executed := node.warmer.executed + 1 } }).finish k

def State.running (s : State F) (k : Nat) : Option (String × Node F × Call) :=
  match s.calls k with
  | none => none
  | some (n, call) => (s.nodes n).map (fun node => (n, node, call))

def step (s : State F) : Action → Option (State F)
  | .boot n => s.boot c n
  | .crash n => some (s.down n)
  | .clock now => some { s with now := now }
  | .ring n epoch =>
      (s.nodes n).map (fun node => s.setNode n { node with epoch := node.epoch.map (fun _ => epoch) })
  | .startGet n ringEpoch ids => s.start n ringEpoch (.get ids)
  | .startContains n ringEpoch ids => s.start n ringEpoch (.contains ids [])
  | .startTouch n ringEpoch ids => s.start n ringEpoch (.touch ids)
  | .startPut n => (s.nodes n).map (fun _ => s.begin_ n (.put 0 0))
  | .getNext k =>
      match s.running k with
      | some (n, node, .get (raw :: rest)) => some (s.getNext c k n node raw rest)
      | _ => none
  | .containsNext k =>
      match s.running k with
      | some (n, node, .contains (raw :: rest) present) => some (s.containsNext c k n node raw rest present)
      | _ => none
  | .touchNext k =>
      match s.running k with
      | some (n, node, .touch (raw :: rest)) => some (s.touchNext c k n node raw rest)
      | _ => none
  | .putNext k req =>
      match s.running k with
      | some (n, node, .put stored existing) => some (s.putNext c k n node stored existing req)
      | _ => none
  | .warm n cmd => (s.nodes n).map (fun node => s.warm c n node cmd)
  | .serve k source =>
      match s.running k, s.nodes source with
      | some (n, _, .warm cmd none), some node => some (s.serve c k n cmd source node)
      | _, _ => none
  | .keep k =>
      match s.running k with
      | some (n, node, .warm _ (some p)) => some (s.keep c k n node p)
      | _ => none
  | .finish k => some (s.finish k)

abbrev Reachable (s : State F) : Prop := Lib.Reaches (step c) (fun _ _ _ => True) State.init s

structure Inv (s : State F) : Prop where
  stores : ∀ n node, s.nodes n = some node → Sound s.puts node.store
  fetched : ∀ k n cmd p, s.calls k = some (n, .warm cmd (some p)) → p ∈ s.puts
  answers : ∀ a ∈ s.answers, a.block.blockId = a.requested ∧ a.block ∈ s.puts

variable {c} {s t : State F}

theorem Inv.setNode (inv : Inv s) (n : String) (node : Node F) (sound : Sound s.puts node.store) :
    Inv (s.setNode n node) := by
  refine ⟨?_, inv.fetched, inv.answers⟩
  intro m x found
  rcases Lib.update_cases found with ⟨rfl, new⟩ | ⟨_, old⟩
  · cases new
    exact sound
  · exact inv.stores m x old

theorem Inv.setCall (inv : Inv s) (k : Nat) (n : String) (call : Call)
    (known : ∀ cmd p, call = .warm cmd (some p) → p ∈ s.puts) : Inv (s.setCall k n call) := by
  refine ⟨inv.stores, ?_, inv.answers⟩
  intro j m cmd p found
  rcases Lib.update_cases found with ⟨rfl, new⟩ | ⟨_, old⟩
  · cases new
    exact known cmd p rfl
  · exact inv.fetched j m cmd p old

theorem Inv.begin_ (inv : Inv s) (n : String) (call : Call)
    (known : ∀ cmd p, call = .warm cmd (some p) → p ∈ s.puts) : Inv (s.begin_ n call) :=
  let called := inv.setCall s.begun n call known
  ⟨called.stores, called.fetched, called.answers⟩

theorem Inv.finish (inv : Inv s) (k : Nat) : Inv (s.finish k) := by
  refine ⟨inv.stores, ?_, inv.answers⟩
  intro j m cmd p found
  rcases Lib.update_cases found with ⟨_, new⟩ | ⟨_, old⟩
  · cases new
  · exact inv.fetched j m cmd p old

theorem Inv.down (inv : Inv s) (n : String) : Inv (s.down n) := by
  refine ⟨?_, ?_, inv.answers⟩
  · intro m x found
    rcases Lib.update_cases found with ⟨_, new⟩ | ⟨_, old⟩
    · cases new
    · exact inv.stores m x old
  · intro j m cmd p found
    exact inv.fetched j m cmd p (Option.filter_eq_some_iff.mp found).1

theorem Inv.answer (inv : Inv s) (n : String) (raw : List UInt8) (sent : Option WireBlock)
    (known : ∀ p, sent = some p → p.blockId = raw ∧ p ∈ s.puts) : Inv (s.answer n raw sent) := by
  refine ⟨inv.stores, inv.fetched, ?_⟩
  intro a member
  rcases List.mem_append.mp member with new | old
  · obtain ⟨p, found, rfl⟩ := Option.map_eq_some_iff.mp (Option.mem_toList.mp new)
    exact known p found
  · exact inv.answers a old

theorem Inv.grow (inv : Inv s) (more : List WireBlock) : Inv { s with puts := more ++ s.puts } where
  stores n node found := (inv.stores n node found).mono _ (fun _ old => List.mem_append_right _ old)
  fetched k n cmd p found := List.mem_append_right _ (inv.fetched k n cmd p found)
  answers a member := ⟨(inv.answers a member).1, List.mem_append_right _ (inv.answers a member).2⟩

theorem Inv.start (inv : Inv s) (n : String) (ringEpoch : Nat) (call : Call)
    (plain : ∀ cmd p, call ≠ .warm cmd (some p)) (started : s.start n ringEpoch call = some t) : Inv t := by
  unfold State.start at started
  split at started
  · cases started
  · split at started
    · cases started
      exact inv
    · cases started
      exact inv.begin_ n call (fun cmd p same => absurd same (plain cmd p))

theorem Inv.getNext (inv : Inv s) (k : Nat) (n : String) (node : Node F) (raw : List UInt8)
    (rest : List (List UInt8)) (here : s.nodes n = some node) : Inv (s.getNext c k n node raw rest) := by
  unfold State.getNext
  split
  · exact inv.finish k
  next sent store got =>
    obtain ⟨sound, known⟩ := getOne_sound c.fl (inv.stores n node here) raw sent store got
    exact ((inv.setNode n _ sound).setCall k n (.get rest) nofun).answer n raw sent known

theorem Inv.containsNext (inv : Inv s) (k : Nat) (n : String) (node : Node F) (raw : List UInt8)
    (rest : List (List UInt8)) (present : List Bool) (here : s.nodes n = some node) :
    Inv (s.containsNext c k n node raw rest present) := by
  unfold State.containsNext
  split
  · exact inv.finish k
  next found store probed =>
    have sound : Sound s.puts store := (inv.stores n node here).read fun _ => containsOne_rep probed
    exact (inv.setNode n _ sound).setCall k n _ nofun

theorem Inv.touchNext (inv : Inv s) (k : Nat) (n : String) (node : Node F) (raw : List UInt8)
    (rest : List (List UInt8)) (here : s.nodes n = some node) : Inv (s.touchNext c k n node raw rest) := by
  unfold State.touchNext
  split
  · exact inv.finish k
  next store touched =>
    have sound : Sound s.puts store := (inv.stores n node here).read fun _ => touchOne_rep touched
    exact (inv.setNode n _ sound).setCall k n _ nofun

theorem Inv.putNext (inv : Inv s) (k : Nat) (n : String) (node : Node F) (stored existing : UInt32)
    (req : CachePutRequest) (here : s.nodes n = some node) : Inv (s.putNext c k n node stored existing req) := by
  -- the client's block is recorded before it is stored
  have grown := inv.grow req.block.toList
  have sound : ∀ outcome evicted store, outcome ≠ none →
      putOne c.fl (c.intn n) node.epoch req node.store = .ok ⟨outcome, evicted, store⟩ →
      Sound (req.block.toList ++ s.puts) store := by
    intro outcome evicted store survives put
    obtain ⟨b, parsed, whole⟩ := putOne_ok put
    have known : toProto b ∈ req.block.toList ++ s.puts := by
      rw [toProto_fromProto parsed]
      exact List.mem_cons_self
    have kept := (grown.stores n node here).put c.fl (c.intn n) b known (by rw [← whole]; exact survives)
    rwa [← whole] at kept
  unfold State.putNext
  split
  · exact inv.finish k
  · exact inv.down n
  next evicted store put =>
    have stored := sound (some true) evicted store (Option.some_ne_none true) put
    exact (grown.setNode n { node with store := store } stored).setCall k n _ nofun
  next evicted store put =>
    have refused := sound (some false) evicted store (Option.some_ne_none false) put
    exact (grown.setNode n { node with store := store } refused).setCall k n _ nofun

theorem Inv.warm (inv : Inv s) (n : String) (node : Node F) (cmd : WarmCommand) (here : s.nodes n = some node) :
    Inv (s.warm c n node cmd) := by
  have sound := (inv.stores n node here).read fun _ => node.warmer.handle_rep c.fl n cmd s.now
  have next_ := inv.setNode n { node with
    store := (node.warmer.handle c.fl n cmd s.now node.store).2.1
    warmer := (node.warmer.handle c.fl n cmd s.now node.store).2.2 } sound
  simp only [State.warm]
  split
  · exact next_.begin_ n _ nofun
  · exact next_

theorem Inv.serve (inv : Inv s) (k : Nat) (n : String) (cmd : WarmCommand) (source : String) (node : Node F)
    (here : s.nodes source = some node) : Inv (s.serve c k n cmd source node) := by
  unfold State.serve
  split
  · exact inv.finish k
  · split
    · exact inv.finish k
    next store got =>
      obtain ⟨sound, _⟩ := getOne_sound c.fl (inv.stores source node here) cmd.blockId none store got
      exact (inv.setNode source _ sound).finish k
    next p store got =>
      obtain ⟨sound, known⟩ := getOne_sound c.fl (inv.stores source node here) cmd.blockId (some p) store got
      refine ((inv.setNode source _ sound).setCall k n _ ?_).answer source cmd.blockId (some p) known
      intro cmd' p' same
      cases same
      exact (known p rfl).2

theorem Inv.keep (inv : Inv s) (k : Nat) (n : String) (node : Node F) (p : WireBlock) (known : p ∈ s.puts)
    (here : s.nodes n = some node) : Inv (s.keep c k n node p) := by
  unfold State.keep
  split
  · exact inv.finish k
  next b parsed =>
    have same := Option.some.inj (toProto_fromProto parsed)
    dsimp only
    split
    · exact inv.down n
    next survives =>
      have sound := (inv.stores n node here).put c.fl (c.intn n) b (same ▸ known) (by rw [survives]; nofun)
      exact (inv.setNode n _ sound).finish k

theorem running_cases {k : Nat} {n : String} {node : Node F} {call : Call}
    (found : s.running k = some (n, node, call)) : s.calls k = some (n, call) ∧ s.nodes n = some node := by
  unfold State.running at found
  split at found
  · cases found
  next m other at_ =>
    obtain ⟨x, here, same⟩ := Option.map_eq_some_iff.mp found
    cases same
    exact ⟨at_, here⟩

inductive Effect (c : Cluster F) (s : State F) : Action → State F → Prop where
  | boot (n : String) (store : Store F) (down : s.nodes n = none) (made : (c.config n).newStore c.fl = some store) :
      Effect c s (.boot n) (s.setNode n ⟨store, if c.static n then none else some 0, newWarmer c.rate s.now⟩)
  | crash (n : String) : Effect c s (.crash n) (s.down n)
  | clock (now : ℚ) : Effect c s (.clock now) { s with now := now }
  | ring (n : String) (epoch : Nat) (node : Node F) (here : s.nodes n = some node) :
      Effect c s (.ring n epoch) (s.setNode n { node with epoch := node.epoch.map (fun _ => epoch) })
  | startGet (n : String) (ringEpoch : Nat) (ids : List (List UInt8)) (t : State F)
      (started : s.start n ringEpoch (.get ids) = some t) : Effect c s (.startGet n ringEpoch ids) t
  | startContains (n : String) (ringEpoch : Nat) (ids : List (List UInt8)) (t : State F)
      (started : s.start n ringEpoch (.contains ids []) = some t) : Effect c s (.startContains n ringEpoch ids) t
  | startTouch (n : String) (ringEpoch : Nat) (ids : List (List UInt8)) (t : State F)
      (started : s.start n ringEpoch (.touch ids) = some t) : Effect c s (.startTouch n ringEpoch ids) t
  | startPut (n : String) (node : Node F) (here : s.nodes n = some node) :
      Effect c s (.startPut n) (s.begin_ n (.put 0 0))
  | getNext (k : Nat) (n : String) (node : Node F) (raw : List UInt8) (rest : List (List UInt8))
      (found : s.running k = some (n, node, .get (raw :: rest))) :
      Effect c s (.getNext k) (s.getNext c k n node raw rest)
  | containsNext (k : Nat) (n : String) (node : Node F) (raw : List UInt8) (rest : List (List UInt8))
      (present : List Bool) (found : s.running k = some (n, node, .contains (raw :: rest) present)) :
      Effect c s (.containsNext k) (s.containsNext c k n node raw rest present)
  | touchNext (k : Nat) (n : String) (node : Node F) (raw : List UInt8) (rest : List (List UInt8))
      (found : s.running k = some (n, node, .touch (raw :: rest))) :
      Effect c s (.touchNext k) (s.touchNext c k n node raw rest)
  | putNext (k : Nat) (req : CachePutRequest) (n : String) (node : Node F) (stored existing : UInt32)
      (found : s.running k = some (n, node, .put stored existing)) :
      Effect c s (.putNext k req) (s.putNext c k n node stored existing req)
  | warm (n : String) (cmd : WarmCommand) (node : Node F) (here : s.nodes n = some node) :
      Effect c s (.warm n cmd) (s.warm c n node cmd)
  | serve (k : Nat) (source n : String) (own : Node F) (cmd : WarmCommand) (node : Node F)
      (found : s.running k = some (n, own, .warm cmd none)) (here : s.nodes source = some node) :
      Effect c s (.serve k source) (s.serve c k n cmd source node)
  | keep (k : Nat) (n : String) (node : Node F) (cmd : WarmCommand) (p : WireBlock)
      (found : s.running k = some (n, node, .warm cmd (some p))) : Effect c s (.keep k) (s.keep c k n node p)
  | finish (k : Nat) : Effect c s (.finish k) (s.finish k)

theorem effect_of_step (a : Action) (taken : step c s a = some t) : Effect c s a t := by
  cases a with
  | boot n =>
    simp only [step, State.boot] at taken
    split at taken
    · cases taken
    next down =>
      split at taken
      · cases taken
      next store made =>
        cases taken
        exact .boot n store down made
  | crash n =>
    cases taken
    exact .crash n
  | clock now =>
    cases taken
    exact .clock now
  | ring n epoch =>
    obtain ⟨node, here, rfl⟩ := Option.map_eq_some_iff.mp taken
    exact .ring n epoch node here
  | startGet n ringEpoch ids => exact .startGet n ringEpoch ids t taken
  | startContains n ringEpoch ids => exact .startContains n ringEpoch ids t taken
  | startTouch n ringEpoch ids => exact .startTouch n ringEpoch ids t taken
  | startPut n =>
    obtain ⟨node, here, rfl⟩ := Option.map_eq_some_iff.mp taken
    exact .startPut n node here
  | getNext k =>
    simp only [step] at taken
    split at taken
    next found =>
      cases taken
      exact .getNext k _ _ _ _ found
    next => cases taken
  | containsNext k =>
    simp only [step] at taken
    split at taken
    next found =>
      cases taken
      exact .containsNext k _ _ _ _ _ found
    next => cases taken
  | touchNext k =>
    simp only [step] at taken
    split at taken
    next found =>
      cases taken
      exact .touchNext k _ _ _ _ found
    next => cases taken
  | putNext k req =>
    simp only [step] at taken
    split at taken
    next found =>
      cases taken
      exact .putNext k req _ _ _ _ found
    next => cases taken
  | warm n cmd =>
    obtain ⟨node, here, rfl⟩ := Option.map_eq_some_iff.mp taken
    exact .warm n cmd node here
  | serve k source =>
    simp only [step] at taken
    split at taken
    next found here =>
      cases taken
      exact .serve k source _ _ _ _ found here
    next => cases taken
  | keep k =>
    simp only [step] at taken
    split at taken
    next found =>
      cases taken
      exact .keep k _ _ _ _ found
    next => cases taken
  | finish k =>
    cases taken
    exact .finish k

theorem inv_step (inv : Inv s) (a : Action) (taken : step c s a = some t) : Inv t := by
  cases effect_of_step a taken with
  | boot n store _ made =>
    refine inv.setNode n _ ⟨fun _ => none, Config.newStore_rep c.fl _ store made, ?_⟩
    intro id b found
    cases found
  | crash n => exact inv.down n
  | clock now => exact ⟨inv.stores, inv.fetched, inv.answers⟩
  | ring n epoch node here => exact inv.setNode n _ (inv.stores n node here)
  | startGet n ringEpoch ids _ started => exact inv.start n ringEpoch (.get ids) nofun started
  | startContains n ringEpoch ids _ started => exact inv.start n ringEpoch (.contains ids []) nofun started
  | startTouch n ringEpoch ids _ started => exact inv.start n ringEpoch (.touch ids) nofun started
  | startPut n _ _ => exact inv.begin_ n _ nofun
  | getNext k n node raw rest found => exact inv.getNext k n node raw rest (running_cases found).2
  | containsNext k n node raw rest present found =>
    exact inv.containsNext k n node raw rest present (running_cases found).2
  | touchNext k n node raw rest found => exact inv.touchNext k n node raw rest (running_cases found).2
  | putNext k req n node stored existing found =>
    exact inv.putNext k n node stored existing req (running_cases found).2
  | warm n cmd node here => exact inv.warm n node cmd here
  | serve k source n _ cmd node _ here => exact inv.serve k n cmd source node here
  | keep k n node cmd p found =>
    obtain ⟨live, here⟩ := running_cases found
    exact inv.keep k n node p (inv.fetched k n cmd p live) here
  | finish k => exact inv.finish k

theorem inv_init : Inv (State.init : State F) where
  stores _ _ found := by cases found
  fetched _ _ _ _ found := by cases found
  answers _ member := by cases member

/-- Whatever happens in the cluster, a block that `GetBlocks` sends for an id carries that id and is one that
a client put under it. -/
theorem answers_put_by_clients (c : Cluster F) (s : State F) (run : Reachable c s) (a : Answer)
    (member : a ∈ s.answers) :
    a.block.blockId = a.requested ∧ ∃ p ∈ s.puts, p.blockId = a.requested ∧ p.parentId = a.block.parentId ∧
      p.modelId = a.block.modelId ∧ p.payload = a.block.payload ∧ p.tokenCount = a.block.tokenCount ∧
      p.costUs = a.block.costUs := by
  have inv : Inv s := run.invariant Inv inv_init (fun _ a _ inv taken _ => inv_step inv a taken)
  obtain ⟨named, put⟩ := inv.answers a member
  exact ⟨named, a.block, put, named, rfl, rfl, rfl, rfl, rfl⟩

/-- Node `a` has a paged store with pages of two bytes, node `b` a plain LRU store. -/
def sampleCluster : Cluster Int where
  fl := sampleFloat
  intn := fun _ => id
  config := fun n => if n = "a" then .paged 4 2 .lru else .lru 1000
  static := fun _ => false
  rate := 1

def sampleWire : WireBlock :=
  ⟨List.replicate 32 1, List.replicate 32 0, "m", ⟨[5, 6, 7], by decide⟩, 3, 9⟩

/-- A client puts a block on `a`, `b` warms itself from `a`, and a client reads the block from `b` after `a`
has crashed. -/
theorem sampleCluster_answer : ∃ s, Reachable sampleCluster s ∧
    (⟨"b", List.replicate 32 1, sampleWire⟩ : Answer) ∈ s.answers ∧
    ∃ p ∈ s.puts, p.blockId = List.replicate 32 1 := by
  obtain ⟨s, run, sent⟩ := Lib.reaches_of_check (step sampleCluster) (fun _ _ _ => True)
    [.boot "a", .boot "b", .startPut "a", .putNext 0 ⟨1, some sampleWire⟩,
      .warm "b" ⟨List.replicate 32 1, "a", 0, "b"⟩, .serve 1 "a", .keep 1, .crash "a",
      .startGet "b" 0 [List.replicate 32 1], .getNext 2] State.init
    (fun s => (⟨"b", List.replicate 32 1, sampleWire⟩ : Answer) ∈ s.answers) (by decide +kernel)
  obtain ⟨_, p, put, named, _⟩ := answers_put_by_clients sampleCluster s run _ sent
  exact ⟨s, run, sent, p, put, named⟩

end PrefixMesh.Cachenode
