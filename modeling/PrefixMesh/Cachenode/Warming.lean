import PrefixMesh.Cachenode.Cluster
import Mathlib.Data.Finmap

/-! Warm commands on their way to the nodes. A command is delivered to its target once,
at any time and in any order, and the steps of the handlers interleave with each other
and with the requests of clients. As long as no node crashes and no store has to make
room, nothing that is held gets lost, and a command that has been handled to its end has
brought its block to the target. -/

namespace PrefixMesh.Cachenode

open Blockstore

variable {F : Type}

def State.holds (c : Cluster F) (s : State F) (n : String) (id : BlockID) : Bool :=
  (s.nodes n).any fun node => (node.store.contains c.fl id).1

/-- A store admits a block: it does not fail, evicts nothing, and has the block then. -/
def admits (fl : Float64 F) (intn : Nat → Nat) (b : Block) (s : Store F) : Bool :=
  let result := s.put fl intn b
  result.stored.isSome && result.evicted.isEmpty && (result.stored == some true || (s.contains fl b.id).1)

/-- The steps of a cluster without failures: no node crashes, no handler of a warm command is cut off, the
address that a warmer dials is the one of the node that answers, and the stores admit all blocks. -/
def smooth (c : Cluster F) (addrs : Finmap fun _ : String => String) (s : State F) : Action → Bool
  | .crash _ => false
  | .finish k =>
      match s.calls k with
      | some (_, .warm _ _) => false
      | _ => true
  | .serve k source =>
      match s.calls k with
      | some (_, .warm cmd _) => decide (addrs.lookup source = some cmd.sourceNode)
      | _ => true
  | .putNext k req =>
      match s.running k, fromProto req.block with
      | some (n, node, .put _ _), .ok b => admits c.fl (c.intn n) b node.store
      | _, _ => true
  | .keep k =>
      match s.running k with
      | some (n, node, .warm _ (some p)) =>
          match fromProto (some p) with
          | .ok b => admits c.fl (c.intn n) b node.store
          | .error _ => true
      | _ => true
  | _ => true

/-- Commands that their targets have not consumed yet. -/
structure Warming (F : Type) where
  cluster : State F
  pending : List WarmCommand

inductive WarmingAction where
  | deliver (cmd : WarmCommand)
  | other (a : Action)

def Warming.step (c : Cluster F) (w : Warming F) : WarmingAction → Option (Warming F)
  | .deliver cmd =>
      if cmd ∈ w.pending then
        (Cachenode.step c w.cluster (.warm cmd.targetNode cmd)).map fun s => ⟨s, w.pending.erase cmd⟩
      else none
  | .other a => (Cachenode.step c w.cluster a).map fun s => { w with cluster := s }

/-- A command is delivered before its deadline, while the target has budget for it. -/
def Warming.smooth (c : Cluster F) (addrs : Finmap fun _ : String => String) (w : Warming F) : WarmingAction → Bool
  | .deliver cmd => (w.cluster.nodes cmd.targetNode).any fun node =>
      !decide (cmd.deadlineUnixMs > 0 ∧ ⌊w.cluster.now * 1000⌋ > cmd.deadlineUnixMs) &&
        (node.warmer.allow w.cluster.now).1
  | .other a => Cachenode.smooth c addrs w.cluster a

abbrev Warming.Leads (c : Cluster F) (addrs : Finmap fun _ : String => String) (w w' : Warming F) : Prop :=
  Lib.Reaches (Warming.step c) (fun u a _ => u.smooth c addrs a = true) w w'

def State.Idle (s : State F) : Prop := ∀ k n cmd fetched, s.calls k ≠ some (n, .warm cmd fetched)

section Stores

variable {fl : Float64 F} {intn : Nat → Nat} {s s' : Store F} {blocks : BlockID → Option Block}

theorem contains_of_rep (rep : s.Rep blocks) (rep' : s'.Rep blocks) (id : BlockID) :
    (s'.contains fl id).1 = (s.contains fl id).1 := by
  rw [(rep.contains fl id).1, (rep'.contains fl id).1]

theorem admits_put (rep : s.Rep blocks) (b : Block) (admitted : admits fl intn b s = true) :
    ((s.put fl intn b).store.contains fl b.id).1 = true ∧
    ∀ id, (s.contains fl id).1 = true → ((s.put fl intn b).store.contains fl id).1 = true := by
  simp only [admits, Bool.and_eq_true, Bool.or_eq_true, beq_iff_eq, List.isEmpty_iff] at admitted
  obtain ⟨⟨survives, nothing⟩, present⟩ := admitted
  rcases rep.put fl intn b with panics | ⟨refused, same⟩ | ⟨_, _, new⟩
  · rw [panics] at survives
    cases survives
  · have before : (s.contains fl b.id).1 = true := by
      refine present.resolve_left ?_
      rw [refused]
      decide
    exact ⟨by rw [contains_of_rep rep same, before], fun id held => by rw [contains_of_rep rep same, held]⟩
  · rw [nothing] at new
    refine ⟨by rw [(new.contains fl b.id).1, Function.update_self]; rfl, fun id held => ?_⟩
    rw [(new.contains fl id).1]
    by_cases named : id = b.id
    · subst named
      rw [Function.update_self]
      rfl
    · rw [Function.update_of_ne named, ← held, (rep.contains fl id).1]
      rfl

end Stores

variable {c : Cluster F} {addrs : Finmap fun _ : String => String} {s t : State F}

def Keeps (c : Cluster F) (s t : State F) : Prop := ∀ n id, s.holds c n id = true → t.holds c n id = true

theorem keeps_same (nodes : t.nodes = s.nodes) : Keeps c s t := by
  intro n id held
  unfold State.holds at held ⊢
  rw [nodes]
  exact held

theorem keeps_update {n : String} {node node' : Node F} (here : s.nodes n = some node)
    (nodes : t.nodes = Function.update s.nodes n (some node'))
    (stores : ∀ id, (node.store.contains c.fl id).1 = true → (node'.store.contains c.fl id).1 = true) :
    Keeps c s t := by
  intro m id held
  unfold State.holds at held ⊢
  rw [nodes]
  by_cases same : m = n
  · subst same
    rw [here] at held
    rw [Function.update_self]
    exact stores id held
  · rw [Function.update_of_ne same]
    exact held

theorem keeps_read (inv : Inv s) {n : String} {node node' : Node F} (here : s.nodes n = some node)
    (nodes : t.nodes = Function.update s.nodes n (some node'))
    (same : ∀ blocks, node.store.Rep blocks → node'.store.Rep blocks) : Keeps c s t := by
  obtain ⟨blocks, rep, _⟩ := inv.stores n node here
  refine keeps_update here nodes fun id held => ?_
  rw [contains_of_rep rep (same blocks rep), held]

/-- What a step does to the calls. Only the node of a warm command and its source take part in its handler. -/
inductive CallsMove (c : Cluster F) (s : State F) (a : Action) (t : State F) : Prop where
  | same (calls : t.calls = s.calls) (begun : t.begun = s.begun)
  | opened (x : String × Call) (calls : t.calls = Function.update s.calls s.begun (some x))
      (begun : t.begun = s.begun + 1)
  | turned (k : Nat) (n : String) (call : Call) (next : Option (String × Call)) (live : s.calls k = some (n, call))
      (calls : t.calls = Function.update s.calls k next) (begun : t.begun = s.begun)
      (own : ∀ cmd fetched, call = .warm cmd fetched → (∃ source, a = .serve k source) ∨ a = .keep k)
  | closed (k : Nat) (finish : a = .finish k) (calls : t.calls = Function.update s.calls k none)
      (begun : t.begun = s.begun)
  | down (n : String) (calls : t.calls = fun k => (s.calls k).filter fun call => call.1 ≠ n)
      (begun : t.begun = s.begun) (rough : ∀ addrs, smooth c addrs s a = false)

structure Moves (c : Cluster F) (s : State F) (a : Action) (t : State F) : Prop where
  calls : CallsMove c s a t
  keeps : ∀ addrs, smooth c addrs s a = true → Keeps c s t

theorem Moves.start (n : String) (ringEpoch : Nat) (call : Call) (a : Action)
    (started : s.start n ringEpoch call = some t) : Moves c s a t := by
  unfold State.start at started
  split at started
  · cases started
  · split at started
    · cases started
      exact ⟨.same rfl rfl, fun _ _ => keeps_same rfl⟩
    · cases started
      exact ⟨.opened _ rfl rfl, fun _ _ => keeps_same rfl⟩

section Rounds

variable {k : Nat} {n : String} {node : Node F}

theorem Moves.getNext (inv : Inv s) {raw : List UInt8} {rest : List (List UInt8)}
    (found : s.running k = some (n, node, .get (raw :: rest))) :
    Moves c s (.getNext k) (s.getNext c k n node raw rest) := by
  obtain ⟨live, here⟩ := running_cases found
  unfold State.getNext
  split
  · exact ⟨.turned k n _ _ live rfl rfl nofun, fun _ _ => keeps_same rfl⟩
  next sent store got =>
    exact ⟨.turned k n _ _ live rfl rfl nofun, fun _ _ => keeps_read inv here rfl fun _ => getOne_rep got⟩

theorem Moves.containsNext (inv : Inv s) {raw : List UInt8} {rest : List (List UInt8)} {present : List Bool}
    (found : s.running k = some (n, node, .contains (raw :: rest) present)) :
    Moves c s (.containsNext k) (s.containsNext c k n node raw rest present) := by
  obtain ⟨live, here⟩ := running_cases found
  unfold State.containsNext
  split
  · exact ⟨.turned k n _ _ live rfl rfl nofun, fun _ _ => keeps_same rfl⟩
  next yes store probed =>
    exact ⟨.turned k n _ _ live rfl rfl nofun, fun _ _ => keeps_read inv here rfl fun _ => containsOne_rep probed⟩

theorem Moves.touchNext (inv : Inv s) {raw : List UInt8} {rest : List (List UInt8)}
    (found : s.running k = some (n, node, .touch (raw :: rest))) :
    Moves c s (.touchNext k) (s.touchNext c k n node raw rest) := by
  obtain ⟨live, here⟩ := running_cases found
  unfold State.touchNext
  split
  · exact ⟨.turned k n _ _ live rfl rfl nofun, fun _ _ => keeps_same rfl⟩
  next store touched =>
    exact ⟨.turned k n _ _ live rfl rfl nofun, fun _ _ => keeps_read inv here rfl fun _ => touchOne_rep touched⟩

theorem Moves.putNext (inv : Inv s) {stored existing : UInt32} (req : CachePutRequest)
    (found : s.running k = some (n, node, .put stored existing)) :
    Moves c s (.putNext k req) (s.putNext c k n node stored existing req) := by
  obtain ⟨live, here⟩ := running_cases found
  obtain ⟨blocks, rep, _⟩ := inv.stores n node here
  -- a put that is admitted keeps everything
  have admitted : ∀ outcome evicted store,
      putOne c.fl (c.intn n) node.epoch req node.store = .ok ⟨outcome, evicted, store⟩ →
      ∀ addrs, smooth c addrs s (.putNext k req) = true → outcome ≠ none ∧
        ∀ id, (node.store.contains c.fl id).1 = true → (store.contains c.fl id).1 = true := by
    intro outcome evicted store put addrs ok
    obtain ⟨b, parsed, whole⟩ := putOne_ok put
    simp only [smooth, found, parsed] at ok
    have survives := ok
    simp only [admits, Bool.and_eq_true, ← whole] at survives
    refine ⟨fun gone => ?_, ?_⟩
    · rw [gone] at survives
      cases survives.1.1
    · have kept := (admits_put rep b ok).2
      rwa [← whole] at kept
  unfold State.putNext
  split
  · exact ⟨.turned k n _ _ live rfl rfl nofun, fun _ _ => keeps_same rfl⟩
  next evicted store put =>
    have rough : ∀ addrs, smooth c addrs s (.putNext k req) = false := by
      intro addrs
      rw [← Bool.not_eq_true]
      exact fun ok => (admitted none evicted store put addrs ok).1 rfl
    refine ⟨.down n rfl rfl rough, fun addrs ok => ?_⟩
    rw [rough addrs] at ok
    cases ok
  next evicted store put =>
    exact ⟨.turned k n _ _ live rfl rfl nofun,
      fun addrs ok => keeps_update here rfl (admitted _ evicted store put addrs ok).2⟩
  next evicted store put =>
    exact ⟨.turned k n _ _ live rfl rfl nofun,
      fun addrs ok => keeps_update here rfl (admitted _ evicted store put addrs ok).2⟩

theorem Moves.warm (inv : Inv s) (cmd : WarmCommand) (here : s.nodes n = some node) :
    Moves c s (.warm n cmd) (s.warm c n node cmd) := by
  have read : ∀ blocks, node.store.Rep blocks → (node.warmer.handle c.fl n cmd s.now node.store).2.1.Rep blocks :=
    fun _ => node.warmer.handle_rep c.fl n cmd s.now
  simp only [State.warm]
  split
  · exact ⟨.opened _ rfl rfl, fun _ _ => keeps_read inv here rfl read⟩
  · exact ⟨.same rfl rfl, fun _ _ => keeps_read inv here rfl read⟩

theorem checkEpoch_zero (epoch : Option Nat) : checkEpoch epoch 0 = .ok () := by
  cases epoch with
  | none => rfl
  | some mine => simp [checkEpoch]

theorem Moves.serve (inv : Inv s) {m source : String} {cmd : WarmCommand} {own : Node F}
    (found : s.running k = some (m, own, .warm cmd none)) (here : s.nodes source = some node) :
    Moves c s (.serve k source) (s.serve c k m cmd source node) := by
  obtain ⟨live, _⟩ := running_cases found
  simp only [State.serve, checkEpoch_zero]
  split
  · exact ⟨.turned k m _ _ live rfl rfl fun _ _ _ => Or.inl ⟨source, rfl⟩, fun _ _ => keeps_same rfl⟩
  next store got =>
    exact ⟨.turned k m _ _ live rfl rfl fun _ _ _ => Or.inl ⟨source, rfl⟩,
      fun _ _ => keeps_read inv here rfl fun _ => getOne_rep got⟩
  next p store got =>
    exact ⟨.turned k m _ _ live rfl rfl fun _ _ _ => Or.inl ⟨source, rfl⟩,
      fun _ _ => keeps_read inv here rfl fun _ => getOne_rep got⟩

theorem Moves.keep (inv : Inv s) {cmd : WarmCommand} {p : WireBlock}
    (found : s.running k = some (n, node, .warm cmd (some p))) : Moves c s (.keep k) (s.keep c k n node p) := by
  obtain ⟨live, here⟩ := running_cases found
  obtain ⟨blocks, rep, _⟩ := inv.stores n node here
  unfold State.keep
  split
  · exact ⟨.turned k n _ _ live rfl rfl fun _ _ _ => Or.inr rfl, fun _ _ => keeps_same rfl⟩
  next b parsed =>
    have admitted : ∀ addrs, smooth c addrs s (.keep k) = true → admits c.fl (c.intn n) b node.store = true := by
      intro addrs ok
      simpa only [smooth, found, parsed] using ok
    dsimp only
    split
    next panics =>
      have rough : ∀ addrs, smooth c addrs s (.keep k) = false := by
        intro addrs
        rw [← Bool.not_eq_true]
        intro ok
        have survives := admitted addrs ok
        simp [admits, panics] at survives
      refine ⟨.down n rfl rfl rough, fun addrs ok => ?_⟩
      rw [rough addrs] at ok
      cases ok
    next =>
      exact ⟨.turned k n _ _ live rfl rfl fun _ _ _ => Or.inr rfl,
        fun addrs ok => keeps_update here rfl (admits_put rep b (admitted addrs ok)).2⟩

end Rounds

theorem moves_of_step (inv : Inv s) (a : Action) (taken : step c s a = some t) : Moves c s a t := by
  cases effect_of_step a taken with
  | boot n store new _ =>
    refine ⟨.same rfl rfl, fun _ _ m id held => ?_⟩
    unfold State.holds at held ⊢
    by_cases same : m = n
    · rw [same, new] at held
      cases held
    · simpa only [State.setNode, Function.update_of_ne same] using held
  | crash n => exact ⟨.down n rfl rfl fun _ => rfl, fun _ ok => by cases ok⟩
  | clock now => exact ⟨.same rfl rfl, fun _ _ => keeps_same rfl⟩
  | ring n epoch node here => exact ⟨.same rfl rfl, fun _ _ => keeps_read inv here rfl fun _ => id⟩
  | startGet n ringEpoch ids _ started => exact Moves.start n ringEpoch _ _ started
  | startContains n ringEpoch ids _ started => exact Moves.start n ringEpoch _ _ started
  | startTouch n ringEpoch ids _ started => exact Moves.start n ringEpoch _ _ started
  | startPut n _ _ => exact ⟨.opened _ rfl rfl, fun _ _ => keeps_same rfl⟩
  | getNext k n node raw rest found => exact Moves.getNext inv found
  | containsNext k n node raw rest present found => exact Moves.containsNext inv found
  | touchNext k n node raw rest found => exact Moves.touchNext inv found
  | putNext k req n node stored existing found => exact Moves.putNext inv req found
  | warm n cmd node here => exact Moves.warm inv cmd here
  | serve k source n own cmd node found here => exact Moves.serve inv found here
  | keep k n node cmd p found => exact Moves.keep inv found
  | finish k => exact ⟨.closed k rfl rfl rfl, fun _ _ => keeps_same rfl⟩

def State.Fresh (s : State F) : Prop := ∀ k, s.begun ≤ k → s.calls k = none

theorem CallsMove.fresh {a : Action} (moves : CallsMove c s a t) (fresh : s.Fresh) : t.Fresh := by
  intro j late
  cases moves with
  | same calls begun =>
    rw [calls]
    exact fresh j (begun ▸ late)
  | opened x calls begun =>
    have different : j ≠ s.begun := by omega
    rw [calls, Function.update_of_ne different]
    exact fresh j (by omega)
  | turned k n call next live calls begun _ =>
    have before := fresh j (begun ▸ late)
    have different : j ≠ k := by
      rintro rfl
      rw [live] at before
      cases before
    rw [calls, Function.update_of_ne different, before]
  | closed k _ calls begun =>
    have before := fresh j (begun ▸ late)
    rw [calls]
    by_cases same : j = k
    · rw [same, Function.update_self]
    · rw [Function.update_of_ne same, before]
  | down n calls begun _ =>
    have before := fresh j (begun ▸ late)
    simp only [calls, before]
    rfl

/-- Without failures, a warm command is dropped by nobody but its own handler. -/
theorem CallsMove.stays {a : Action} (moves : CallsMove c s a t) (fresh : s.Fresh)
    (ok : smooth c addrs s a = true) {k : Nat} {n : String} {cmd : WarmCommand} {fetched : Option WireBlock}
    (live : s.calls k = some (n, .warm cmd fetched)) :
    t.calls k = some (n, .warm cmd fetched) ∨ (∃ source, a = .serve k source) ∨ a = .keep k := by
  cases moves with
  | same calls _ => exact Or.inl (by rw [calls, live])
  | opened x calls _ =>
    have different : k ≠ s.begun := by
      rintro rfl
      rw [fresh _ le_rfl] at live
      cases live
    exact Or.inl (by rw [calls, Function.update_of_ne different, live])
  | turned j m call next other calls _ own =>
    by_cases same : k = j
    · subst same
      rw [live] at other
      cases other
      exact Or.inr (own cmd fetched rfl)
    · exact Or.inl (by rw [calls, Function.update_of_ne same, live])
  | closed j finish calls _ =>
    by_cases same : k = j
    · subst same
      subst finish
      simp [smooth, live] at ok
    · exact Or.inl (by rw [calls, Function.update_of_ne same, live])
  | down m _ _ rough =>
    rw [rough addrs] at ok
    cases ok

theorem inv_reachable (run : Reachable c s) : Inv s ∧ s.Fresh := by
  refine run.invariant (fun u => Inv u ∧ u.Fresh) ⟨inv_init, fun _ _ => rfl⟩ ?_
  rintro u a v ⟨inv, fresh⟩ taken _
  exact ⟨inv_step inv a taken, (moves_of_step inv a taken).calls.fresh fresh⟩

theorem serve_fetches (inv : Inv s) {m source : String} {cmd : WarmCommand} {node : Node F} {id : BlockID} (k : Nat)
    (here : s.nodes source = some node) (named : cmd.blockId = id.1) (held : s.holds c source id = true) :
    ∃ b, b.id = id ∧ (s.serve c k m cmd source node).calls k = some (m, .warm cmd (some (toProto b))) := by
  obtain ⟨blocks, rep, own⟩ := inv.stores source node here
  simp only [State.holds, here, Option.any_some, (rep.contains c.fl id).1, Option.isSome_iff_exists] at held
  obtain ⟨b, found⟩ := held
  have got : getOne c.fl cmd.blockId node.store = .ok (some (toProto b), (node.store.get c.fl id).2) := by
    simp only [getOne, named, toID_val, (rep.get c.fl id).1, found, Option.map_some]
  refine ⟨b, (own id b found).1, ?_⟩
  simp only [State.serve, checkEpoch_zero, got]
  exact Function.update_self ..

theorem keep_holds (inv : Inv s) {k : Nat} {n : String} {node : Node F} {cmd : WarmCommand} {b : Block}
    (found : s.running k = some (n, node, .warm cmd (some (toProto b)))) (ok : smooth c addrs s (.keep k) = true) :
    (s.keep c k n node (toProto b)).holds c n b.id = true := by
  obtain ⟨blocks, rep, _⟩ := inv.stores n node (running_cases found).2
  simp only [smooth, found, fromProto_toProto] at ok
  have stored := (admits_put rep b ok).1
  simp only [State.keep, fromProto_toProto]
  split
  next panics => simp [admits, panics] at ok
  next => simpa only [State.holds, State.finish, State.setNode, Function.update_self, Option.any_some] using stored

def Progress (c : Cluster F) (cmd : WarmCommand) (id : BlockID) (w : Warming F) : Prop :=
  cmd ∈ w.pending ∨
  (∃ k fetched, w.cluster.calls k = some (cmd.targetNode, .warm cmd fetched) ∧
    ∀ p, fetched = some p → ∃ b, b.id = id ∧ p = toProto b) ∨
  w.cluster.holds c cmd.targetNode id = true

section Runs

variable {cmd : WarmCommand} {id : BlockID} {source : String} {w w' : Warming F}

theorem progress_warm (named : cmd.blockId = id.1) (address : cmd.sourceNode ≠ "") {node : Node F}
    (here : s.nodes cmd.targetNode = some node)
    (timely : ¬(cmd.deadlineUnixMs > 0 ∧ ⌊s.now * 1000⌋ > cmd.deadlineUnixMs))
    (budget : (node.warmer.allow s.now).1 = true) :
    s.holds c cmd.targetNode id = true ∨
      (s.warm c cmd.targetNode node cmd).calls s.begun = some (cmd.targetNode, .warm cmd none) := by
  have fetches := node.warmer.handle_fetches c.fl cmd s.now node.store id named address timely budget
  cases present : (node.store.contains c.fl id).1 with
  | true => exact Or.inl (by simp only [State.holds, here, Option.any_some, present])
  | false =>
    rw [present, Bool.not_false] at fetches
    simp only [State.warm, fetches, if_true]
    exact Or.inr (Function.update_self ..)

theorem progress_moves (inv : Inv s) (fresh : s.Fresh) (a : Action) (ok : smooth c addrs s a = true)
    (taken : step c s a = some t) (apart : ∀ n, addrs.lookup n = some cmd.sourceNode → n = source)
    (named : cmd.blockId = id.1) (held : s.holds c source id = true) (pending : List WarmCommand)
    (progress : Progress c cmd id ⟨s, pending⟩) : Progress c cmd id ⟨t, pending⟩ := by
  have moves := moves_of_step inv a taken
  rcases progress with waits | ⟨k, fetched, live, block⟩ | there
  · exact Or.inl waits
  · change s.calls k = some (cmd.targetNode, .warm cmd fetched) at live
    refine Or.inr ?_
    rcases moves.calls.stays fresh ok live with still | ⟨server, rfl⟩ | rfl
    · exact Or.inl ⟨k, fetched, still, block⟩
    · -- the address dialled is the one of the source
      simp only [smooth, live, decide_eq_true_eq] at ok
      obtain rfl := apart server ok
      cases effect_of_step _ taken with
      | serve _ _ n own cmd' node found here =>
        obtain ⟨live', _⟩ := running_cases found
        rw [live] at live'
        cases live'
        obtain ⟨b, own, answered⟩ := serve_fetches inv k here named held
        refine Or.inl ⟨k, _, answered, ?_⟩
        intro p sent
        exact ⟨b, own, (Option.some.inj sent).symm⟩
    · cases effect_of_step _ taken with
      | keep _ n node cmd' p found =>
        obtain ⟨live', _⟩ := running_cases found
        rw [live] at live'
        cases live'
        obtain ⟨b, rfl, rfl⟩ := block p rfl
        exact Or.inr (keep_holds inv found ok)
  · exact Or.inr (Or.inr (moves.keeps addrs ok _ _ there))

theorem progress_step (inv : Inv w.cluster) (fresh : w.cluster.Fresh) (a : WarmingAction)
    (ok : w.smooth c addrs a = true) (taken : w.step c a = some w')
    (apart : ∀ n, addrs.lookup n = some cmd.sourceNode → n = source) (named : cmd.blockId = id.1)
    (address : cmd.sourceNode ≠ "") (held : w.cluster.holds c source id = true) (progress : Progress c cmd id w) :
    Progress c cmd id w' := by
  cases a with
  | other a =>
    obtain ⟨s, stepped, rfl⟩ := Option.map_eq_some_iff.mp taken
    exact progress_moves inv fresh a ok stepped apart named held w.pending progress
  | deliver next =>
    obtain ⟨_, delivered⟩ := Option.ite_none_right_eq_some.mp taken
    obtain ⟨s, stepped, rfl⟩ := Option.map_eq_some_iff.mp delivered
    have onward := progress_moves inv fresh (.warm next.targetNode next) rfl stepped apart named held
      (w.pending.erase next)
    rcases progress with waits | rest
    · by_cases same : cmd = next
      · subst same
        obtain ⟨node, here, rfl⟩ := Option.map_eq_some_iff.mp stepped
        simp only [Warming.smooth, here, Option.any_some, Bool.and_eq_true, Bool.not_eq_true',
          decide_eq_false_iff_not] at ok
        rcases progress_warm named address here ok.1 ok.2 with there | begun
        · exact onward (Or.inr (Or.inr there))
        · exact Or.inr (Or.inl ⟨_, none, begun, nofun⟩)
      · exact Or.inl ((List.mem_erase_of_ne same).mpr waits)
    · exact onward (Or.inr rest)

theorem Warming.cluster_step (a : WarmingAction) (ok : w.smooth c addrs a = true) (taken : w.step c a = some w') :
    ∃ inner, Cachenode.step c w.cluster inner = some w'.cluster ∧ Cachenode.smooth c addrs w.cluster inner = true := by
  cases a with
  | other a =>
    obtain ⟨s, stepped, rfl⟩ := Option.map_eq_some_iff.mp taken
    exact ⟨a, stepped, ok⟩
  | deliver next =>
    obtain ⟨_, delivered⟩ := Option.ite_none_right_eq_some.mp taken
    obtain ⟨s, stepped, rfl⟩ := Option.map_eq_some_iff.mp delivered
    exact ⟨_, stepped, rfl⟩

theorem Warming.Leads.holds (run : Warming.Leads c addrs w w') (reached : Reachable c w.cluster) (n : String)
    (held : w.cluster.holds c n id = true) : Reachable c w'.cluster ∧ w'.cluster.holds c n id = true := by
  refine run.invariant (fun u => Reachable c u.cluster ∧ u.cluster.holds c n id = true) ⟨reached, held⟩ ?_
  rintro u a v ⟨before, there⟩ taken ok
  obtain ⟨inner, stepped, smooth⟩ := Warming.cluster_step a ok taken
  have moves := moves_of_step (inv_reachable before).1 inner stepped
  exact ⟨before.tail stepped trivial, moves.keeps addrs smooth n id there⟩

/-- A command that has been handled to its end, in a run without failures whose source has the block all the time,
has brought the block to its target. -/
theorem Warming.Leads.warmed (run : Warming.Leads c addrs w w') (reached : Reachable c w.cluster)
    (apart : ∀ n, addrs.lookup n = some cmd.sourceNode → n = source) (named : cmd.blockId = id.1)
    (address : cmd.sourceNode ≠ "") (held : w.cluster.holds c source id = true) (issued : cmd ∈ w.pending)
    (drained : w'.pending = []) (idle : w'.cluster.Idle) : w'.cluster.holds c cmd.targetNode id = true := by
  have whole : Warming.Leads c addrs w w' ∧ Progress c cmd id w' := by
    refine run.invariant (fun u => Warming.Leads c addrs w u ∧ Progress c cmd id u) ⟨.refl, Or.inl issued⟩ ?_
    rintro u a v ⟨before, progress⟩ taken ok
    obtain ⟨there, still⟩ := before.holds reached source held
    obtain ⟨inv, fresh⟩ := inv_reachable there
    exact ⟨before.tail taken ok, progress_step inv fresh a ok taken apart named address still progress⟩
  rcases whole.2 with waits | ⟨k, fetched, live, _⟩ | there
  · rw [drained] at waits
    cases waits
  · exact absurd live (idle k _ cmd fetched)
  · exact there

end Runs

end PrefixMesh.Cachenode
