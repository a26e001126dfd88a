import Mathlib.Algebra.Order.BigOperators.Group.List
import PrefixMesh.Cachenode.Calls
import PrefixMesh.Events.Bus
import PrefixMesh.Mesh.Written
import PrefixMesh.Prefetch.Demand

/-! From the requests to the warm commands. The gateway emits an event for a `Match`; the
prefetcher consumes the events, counts the blocks and makes a plan when it gets a ring; the
nodes consume the commands. What goes from one to the next goes over the event plane,
where it may wait, be overtaken or get lost. -/

namespace PrefixMesh.Mesh.Pipeline

open Directory (Bytes)
open Prefetch (Access Cand Counting Floats Prefetcher SortSlice Tallied Wire asked leading newPrefetcher)

/-- The mesh, the prefetcher and what the protobuf runtime does with events and commands. -/
structure Setup (F G : Type) where
  mesh : Mesh.Setup F
  fl : Floats G
  cfg : Prefetch.Config G
  wire : Wire G
  point : String → Nat → Nat
  marshal : AccessEvent → Int → Option Bytes
  unmarshal : Bytes → Option Prefetch.AccessEvent
  decodes : ∀ ev ts raw, marshal ev ts = some raw → unmarshal raw = some ⟨ev.modelId, ev.chain⟩

def topicAccess : String := "prefix.access.v1"

def topicWarm : String := "cache.warm.v1"

/-- `last` is the time of the last access that the prefetcher has handled, `outbox` what `OnRing` is about to produce,
and `consumer` the channel of the warmer of a node. The prefetcher itself has channel 0. -/
structure State (W F G : Type) (m : Setup F G) where
  mesh : Mesh.State W F m.mesh.cfg
  bus : Events.State
  prefetcher : Prefetcher G
  last : Int
  outbox : List (Bytes × Bytes)
  consumer : String → Option Nat

inductive Action (W F G : Type) (m : Setup F G) where
  | mesh (a : Mesh.Action W m.mesh.cfg) (ts : Int)
  | subscribe (topic : String)
  | listen (n : String)
  | send (k : Nat)
  | access (now : Int) (sort : SortSlice (Cand.less m.fl))
  | ring (r : Directory.Ring) (now : Int)
  | issue
  | warm (n : String)

variable {W F G : Type} (m : Setup F G)

def init : State W F G m :=
  ⟨Mesh.init m.mesh.cfg, Events.newBus.subscribe topicAccess, newPrefetcher m.fl m.cfg, 0, [], fun _ => none⟩

def ordinary : Mesh.Action W m.mesh.cfg → Bool
  | .other (.warm _ _) => false
  | _ => true

/-- The end of `emitAccess`. -/
def emit (ts : Int) (bus : Events.State) (ev : AccessEvent) : Events.State :=
  match m.marshal ev ts with
  | some raw => bus.produce topicAccess ⟨ev.chainHead, raw⟩
  | none => bus

def emitted {cfg : Loadgen.Config} (s t : Mesh.State W F cfg) : List AccessEvent :=
  t.events.take (t.events.length - s.events.length)

def step [DecidableEq W] (s : State W F G m) : Action W F G m → Option (State W F G m)
  | .mesh a ts =>
      if ordinary m a then
        (Mesh.step m.mesh s.mesh a).map fun mesh =>
          { s with mesh := mesh, bus := (emitted s.mesh mesh).foldl (emit m ts) s.bus }
      else none
  | .subscribe topic => some { s with bus := s.bus.subscribe topic }
  | .listen n =>
      some { s with bus := s.bus.subscribe topicWarm, consumer := Function.update s.consumer n (some s.bus.made) }
  | .send k => (Events.step s.bus (.send k)).map fun bus => { s with bus := bus }
  | .access now sort =>
      match s.bus.queue 0 with
      | item :: rest =>
          if s.last ≤ now then
            some { s with
              bus := s.bus.handle 0 item rest
              prefetcher := s.prefetcher.handleAccess m.fl m.unmarshal ⟨item.msg.value, now, sort⟩
              last := now }
          else none
      | [] => none
  | .ring r now =>
      if s.last ≤ now then
        let (records, prefetcher) := s.prefetcher.onRing m.fl m.wire m.point r now
        some { s with prefetcher := prefetcher, outbox := s.outbox ++ records }
      else none
  | .issue =>
      match s.outbox with
      | (key, value) :: rest => some { s with bus := s.bus.produce topicWarm ⟨key, value⟩, outbox := rest }
      | [] => none
  | .warm n =>
      match s.consumer n with
      | some ch =>
          match s.bus.queue ch with
          | item :: rest =>
              match m.wire.unmarshal item.msg.value with
              | some cmd => (Cachenode.step m.mesh.nodes s.mesh.nodes (.warm n cmd.read)).map fun nodes =>
                  { s with mesh := { s.mesh with nodes := nodes }, bus := s.bus.handle ch item rest }
              | none => some { s with bus := s.bus.handle ch item rest }
          | [] => none
      | none => none

/-- How often an id stands in the chains of the requests that have got an answer. -/
def total {cfg : Loadgen.Config} (sha : List UInt8 → BlockID) (results : List (Result cfg)) (raw : List UInt8) : Nat :=
  (results.map fun r => (r.req.raw sha).count raw).sum

section Mesh

variable {m' : Mesh.Setup F} {s t : Mesh.State W F m'.cfg} {a : Mesh.Action W m'.cfg}

/-- The requests that a step answers, and the events that it emits for them. -/
structure Answers (m : Mesh.Setup F) (s t : Mesh.State W F m.cfg) (new : List (Result m.cfg)) (evs : List AccessEvent) :
    Prop where
  results : t.results = new ++ s.results
  events : t.events = evs ++ s.events
  chains : (evs.map AccessEvent.chain).Sublist (new.map fun r => r.req.raw m.sha)

theorem respond_events [DecidableEq W] (s : Mesh.State W F m'.cfg) (w : W) (job : Job m'.cfg)
    (resp : Gateway.MatchResponse) : (s.respond m' w job resp).events = s.events := by
  unfold State.respond
  dsimp only
  split <;> rfl

theorem answers_nothing (results : t.results = s.results) (events : t.events = s.events) : Answers m' s t [] [] :=
  ⟨results, events, .slnil⟩

theorem answers_respond [DecidableEq W] (s : Mesh.State W F m'.cfg) (w : W) (job : Job m'.cfg)
    (resp : Gateway.MatchResponse) : Answers m' s (s.respond m' w job resp) [⟨job, resp⟩] [] :=
  ⟨respond_results .., respond_events .., List.nil_sublist _⟩

theorem emitAccess_chain {modelID : String} {chain : List (List UInt8)} {resp : Gateway.MatchResponse}
    {ev : AccessEvent} (made : emitAccess modelID chain resp = some ev) : ev.chain = chain := by
  obtain ⟨_, _, rfl⟩ := Option.map_eq_some_iff.mp made
  rfl

theorem answers_of_step [DecidableEq W] (taken : Mesh.step m' s a = some t) : ∃ new evs, Answers m' s t new evs := by
  have effect := effect_of_step taken
  cases effect with
  | read w shown job attempt =>
    unfold State.read
    split
    · exact ⟨_, _, answers_respond ..⟩
    · split
      · exact ⟨_, _, answers_respond ..⟩
      · exact ⟨_, _, answers_nothing rfl rfl⟩
  | arrive =>
    unfold State.arrive
    split
    · exact ⟨_, _, answers_nothing rfl rfl⟩
    · exact ⟨_, _, answers_nothing rfl rfl⟩
  | conclude w newer job attempt ring resp wrongEpoch =>
    unfold State.conclude
    split
    · exact ⟨_, _, answers_nothing rfl rfl⟩
    · refine ⟨[⟨job, resp⟩], _, respond_results .., respond_events .., ?_⟩
      split
      · cases made : emitAccess m'.cfg.modelID (job.req.raw m'.sha) resp with
        | none => exact List.nil_sublist _
        | some ev =>
          simp only [Option.toList_some, List.map_singleton, emitAccess_chain made]
          exact List.Sublist.refl _
      · exact List.nil_sublist _
  | receive =>
    unfold State.receive
    split
    · exact ⟨_, _, answers_nothing rfl rfl⟩
    · exact ⟨_, _, answers_nothing rfl rfl⟩
  | _ => exact ⟨_, _, answers_nothing rfl rfl⟩

theorem emitted_eq {new : List (Result m'.cfg)} {evs : List AccessEvent} (answers : Answers m' s t new evs) :
    emitted s t = evs := by
  rw [emitted, answers.events, List.length_append, Nat.add_sub_cancel, List.take_left]

theorem warms_of_step [DecidableEq W] {wanted : Cachenode.WarmCommand → Prop} (warms : s.nodes.Warms wanted)
    (plain : ∀ n cmd, a ≠ .other (.warm n cmd)) (taken : Mesh.step m' s a = some t) : t.nodes.Warms wanted := by
  have effect := effect_of_step taken
  cases effect with
  | read =>
    unfold State.read
    split
    · exact warms.of_calls (by rw [respond_nodes])
    · split
      · exact warms.of_calls (by rw [respond_nodes])
      · exact warms
  | arrive =>
    unfold State.arrive
    split
    · exact warms
    · exact warms.begin_ _ (by simp)
  | answer _ _ _ _ _ _ _ _ _ _ k => exact warms.finish k
  | conclude =>
    unfold State.conclude
    split
    · exact warms
    · exact warms.of_calls (by rw [respond_nodes])
  | receive =>
    unfold State.receive
    split
    · exact warms
    · exact warms
  | open_ => exact warms.begin_ _ (by simp)
  | deliver k req rest nodes queued inner => exact warms.step (fun _ _ other => by cases other) inner
  | recv _ _ _ _ _ k => exact warms.finish k
  | other a nodes unrelated inner => exact warms.step (fun n cmd same => absurd (congrArg _ same) (plain n cmd)) inner
  | _ => exact warms

end Mesh

section Counts

variable {unmarshal : Bytes → Option Prefetch.AccessEvent} {id : BlockID}

theorem asked_le_of_subperm {msgs msgs' : List Events.Msg} (sub : msgs.Subperm msgs') :
    asked unmarshal (msgs.map Events.Msg.value) id ≤ asked unmarshal (msgs'.map Events.Msg.value) id := by
  obtain ⟨list, perm, sublist⟩ := sub
  rw [asked, ← ((perm.map _).map _).sum_eq]
  exact ((sublist.map _).map _).sum_le_sum fun _ _ => Nat.zero_le _

theorem asked_append (values values' : List Bytes) :
    asked unmarshal (values ++ values') id = asked unmarshal values id + asked unmarshal values' id := by
  simp [asked]

theorem count_leading_le (chain : List (List UInt8)) (id : BlockID) : (leading chain).count id ≤ chain.count id.1 := by
  induction chain with
  | nil => exact le_rfl
  | cons raw rest ih =>
    rw [leading]
    split
    next sized =>
      rw [List.count_cons, List.count_cons]
      by_cases same : (⟨raw, sized⟩ : BlockID) = id
      · subst same
        simpa using ih
      · rw [if_neg (fun equal => same (eq_of_beq equal))]
        omega
    next => exact Nat.zero_le _

end Counts

section Emit

structure Emits (m : Setup F G) (bus bus' : Events.State) (evs : List AccessEvent) : Prop where
  inv : Events.Inv bus'
  subs : bus'.subs = bus.subs
  handled : bus'.handled = bus.handled
  warm : bus'.produced topicWarm = bus.produced topicWarm
  asked : ∀ id : BlockID, asked m.unmarshal ((bus'.produced topicAccess).map Events.Msg.value) id ≤
    asked m.unmarshal ((bus.produced topicAccess).map Events.Msg.value) id +
      (evs.map fun ev => ev.chain.count id.1).sum

theorem emits_one (ts : Int) {bus : Events.State} (inv : Events.Inv bus) (ev : AccessEvent) :
    Emits m bus (emit m ts bus ev) [ev] := by
  unfold emit
  split
  next raw marshalled =>
    refine ⟨inv.produce _ _, rfl, rfl, ?_, fun id => ?_⟩
    · rw [Events.produced_produce, if_neg (by decide), List.append_nil]
    · rw [Events.produced_produce, if_pos rfl, List.map_append, asked_append]
      refine Nat.add_le_add_left ?_ _
      simp only [asked, List.map_singleton, m.decodes ev ts raw marshalled, Option.map_some, Option.getD_some,
        List.sum_singleton]
      exact count_leading_le ev.chain id
  next => exact ⟨inv, rfl, rfl, rfl, fun id => Nat.le_add_right _ _⟩

theorem emits_all (ts : Int) {bus : Events.State} (inv : Events.Inv bus) (evs : List AccessEvent) :
    Emits m bus (evs.foldl (emit m ts) bus) evs := by
  induction evs generalizing bus with
  | nil => exact ⟨inv, rfl, rfl, rfl, fun id => Nat.le_add_right _ _⟩
  | cons ev rest ih =>
    have first := emits_one m ts inv ev
    have later := ih first.inv
    refine ⟨later.inv, later.subs.trans first.subs, later.handled.trans first.handled, later.warm.trans first.warm,
      fun id => ?_⟩
    have one := first.asked id
    have more := later.asked id
    simp only [List.map_cons, List.map_nil, List.sum_cons, List.sum_nil] at one ⊢
    rw [List.foldl_cons]
    omega

end Emit

section Run

variable {m} {atMost : G → Nat → Prop} {needed : Nat} {s t : State W F G m}

def Wanted (m : Setup F G) (needed : Nat) (results : List (Result m.mesh.cfg)) (raw : List UInt8) : Prop :=
  needed ≤ total m.mesh.sha results raw

theorem total_append (sha : List UInt8 → BlockID) {cfg : Loadgen.Config} (new results : List (Result cfg))
    (raw : List UInt8) : total sha (new ++ results) raw = total sha new raw + total sha results raw := by
  simp [total]

theorem Wanted.grow {results : List (Result m.mesh.cfg)} {raw : List UInt8} (wanted : Wanted m needed results raw)
    (new : List (Result m.mesh.cfg)) : Wanted m needed (new ++ results) raw := by
  rw [Wanted, total_append]
  exact Nat.le_add_left_of_le wanted

structure Inv (m : Setup F G) (atMost : G → Nat → Prop) (needed : Nat) (s : State W F G m) : Prop where
  bus : Events.Inv s.bus
  subscribed : 0 ∈ s.bus.subs topicAccess
  asked : ∀ id : BlockID, asked m.unmarshal ((s.bus.produced topicAccess).map Events.Msg.value) id ≤
    total m.mesh.sha s.mesh.results id.1
  cfg : s.prefetcher.cfg = m.cfg.defaults m.fl
  tallied : Tallied atMost s.last (Prefetch.asked m.unmarshal ((s.bus.handled 0).map fun item => item.msg.value))
    s.prefetcher.blocks
  outbox : ∀ record ∈ s.outbox, ∀ cmd, m.wire.unmarshal record.2 = some cmd →
    Wanted m needed s.mesh.results cmd.blockId
  produced : ∀ msg ∈ s.bus.produced topicWarm, ∀ cmd, m.wire.unmarshal msg.value = some cmd →
    Wanted m needed s.mesh.results cmd.blockId
  consumers : ∀ n ch, s.consumer n = some ch → ch ∈ s.bus.subs topicWarm
  calls : s.mesh.nodes.Warms fun cmd => Wanted m needed s.mesh.results cmd.blockId

theorem inv_init : Inv m atMost needed (init m : State W F G m) where
  bus := Events.inv_init.subscribe topicAccess
  subscribed := List.mem_singleton.mpr rfl
  asked := fun _ => Nat.zero_le _
  cfg := rfl
  tallied := fun _ _ found => by cases found
  outbox := List.forall_mem_nil _
  produced := List.forall_mem_nil _
  consumers := fun _ _ none_ => by cases none_
  calls := fun _ _ _ _ none_ => by cases none_

theorem Inv.mesh [DecidableEq W] (inv : Inv m atMost needed s) {a : Mesh.Action W m.mesh.cfg}
    (plain : ordinary m a = true)
    {mesh : Mesh.State W F m.mesh.cfg} (taken : Mesh.step m.mesh s.mesh a = some mesh) (ts : Int) :
    Inv m atMost needed { s with mesh := mesh, bus := (emitted s.mesh mesh).foldl (emit m ts) s.bus } := by
  obtain ⟨new, evs, answers⟩ := answers_of_step taken
  rw [emitted_eq answers]
  have emits := emits_all m ts inv.bus evs
  have counted : ∀ raw, (evs.map fun ev => ev.chain.count raw).sum ≤ total m.mesh.sha new raw := by
    intro raw
    have sub := (answers.chains.map fun chain => chain.count raw).sum_le_sum fun _ _ => Nat.zero_le _
    simpa only [List.map_map, Function.comp_def, total] using sub
  have plain' : ∀ n cmd, a ≠ .other (.warm n cmd) := by
    rintro n cmd rfl
    cases plain
  refine ⟨emits.inv, ?_, fun id => ?_, inv.cfg, ?_, ?_, ?_, ?_, ?_⟩
  · dsimp only
    rw [emits.subs]
    exact inv.subscribed
  · have before := inv.asked id
    have more := emits.asked id
    have one := counted id.1
    dsimp only
    rw [answers.results, total_append]
    omega
  · dsimp only
    rw [emits.handled]
    exact inv.tallied
  · intro record listed cmd decoded
    dsimp only
    rw [answers.results]
    exact (inv.outbox record listed cmd decoded).grow new
  · dsimp only
    rw [emits.warm, answers.results]
    exact fun msg listed cmd decoded => (inv.produced msg listed cmd decoded).grow new
  · dsimp only
    rw [emits.subs]
    exact inv.consumers
  · have warms := warms_of_step inv.calls plain' taken
    dsimp only
    rw [answers.results]
    exact warms.imp fun cmd wanted => wanted.grow new

theorem Inv.handled (inv : Inv m atMost needed s) (id : BlockID) :
    Prefetch.asked m.unmarshal ((s.bus.handled 0).map fun item => item.msg.value) id ≤
      total m.mesh.sha s.mesh.results id.1 := by
  have part : ((s.bus.handled 0).map Events.Item.msg).Subperm (s.bus.produced topicAccess) :=
    ((List.sublist_append_left _ _).map _).subperm.trans (inv.bus.received_subperm inv.subscribed)
  calc Prefetch.asked m.unmarshal ((s.bus.handled 0).map fun item => item.msg.value) id
      = Prefetch.asked m.unmarshal (((s.bus.handled 0).map Events.Item.msg).map Events.Msg.value) id := by
        rw [List.map_map]
        rfl
    _ ≤ Prefetch.asked m.unmarshal ((s.bus.produced topicAccess).map Events.Msg.value) id := asked_le_of_subperm part
    _ ≤ total m.mesh.sha s.mesh.results id.1 := inv.asked id

theorem Inv.subscribe (inv : Inv m atMost needed s) (topic : String) :
    Inv m atMost needed { s with bus := s.bus.subscribe topic } :=
  { inv with
    bus := inv.bus.subscribe topic
    subscribed := Events.mem_subscribe.mpr (Or.inl inv.subscribed)
    consumers := fun n ch found => Events.mem_subscribe.mpr (Or.inl (inv.consumers n ch found)) }

theorem Inv.listen (inv : Inv m atMost needed s) (n : String) : Inv m atMost needed { s with
    bus := s.bus.subscribe topicWarm, consumer := Function.update s.consumer n (some s.bus.made) } := by
  refine { inv.subscribe topicWarm with consumers := fun n' ch found => ?_ }
  dsimp only at found
  by_cases same : n' = n
  · rw [same, Function.update_self, Option.some.injEq] at found
    exact Events.mem_subscribe.mpr (Or.inr ⟨rfl, found.symm⟩)
  · rw [Function.update_of_ne same] at found
    exact Events.mem_subscribe.mpr (Or.inl (inv.consumers n' ch found))

theorem Inv.send (inv : Inv m atMost needed s) {k : Nat} {c : Events.Call} {ch : Nat} {rest : List Nat}
    (found : s.bus.calls k = some c) (ahead : c.rest = ch :: rest) :
    Inv m atMost needed { s with bus := s.bus.send k c ch rest } := by
  obtain ⟨subs, _, _, handled⟩ := Events.send_same s.bus k c ch rest
  have produced := Events.produced_send found ch rest
  refine { inv with
    bus := inv.bus.send found ahead
    subscribed := ?_
    asked := ?_
    tallied := ?_
    produced := ?_
    consumers := ?_ }
  · dsimp only
    rw [subs]
    exact inv.subscribed
  · dsimp only
    rw [produced]
    exact inv.asked
  · dsimp only
    rw [handled]
    exact inv.tallied
  · dsimp only
    rw [produced]
    exact inv.produced
  · dsimp only
    rw [subs]
    exact inv.consumers

theorem Inv.access (counting : Counting m.fl (m.cfg.defaults m.fl).halfLife atMost) (inv : Inv m atMost needed s)
    {item : Events.Item} {rest : List Events.Item} (front : s.bus.queue 0 = item :: rest) {now : Int}
    (later : s.last ≤ now) (sort : SortSlice (Cand.less m.fl)) : Inv m atMost needed { s with
      bus := s.bus.handle 0 item rest
      prefetcher := s.prefetcher.handleAccess m.fl m.unmarshal ⟨item.msg.value, now, sort⟩
      last := now } := by
  refine { inv with bus := inv.bus.handle front, cfg := Prefetch.handleAccess_cfg.trans inv.cfg, tallied := ?_ }
  have values : ((s.bus.handle 0 item rest).handled 0).map (fun item => item.msg.value) =
      (s.bus.handled 0).map (fun item => item.msg.value) ++ [item.msg.value] := by
    simp [Events.State.handle]
  dsimp only
  rw [values]
  refine Tallied.handleAccess ⟨item.msg.value, now, sort⟩ ?_ (inv.tallied.later later)
  rw [inv.cfg]
  exact counting

theorem Inv.ring (counting : Counting m.fl (m.cfg.defaults m.fl).halfLife atMost)
    (threshold : ∀ x k, atMost x k → m.fl.lt x (m.cfg.defaults m.fl).demandThreshold = false → needed ≤ k)
    (inv : Inv m atMost needed s) (r : Directory.Ring) {now : Int} (later : s.last ≤ now) : Inv m atMost needed { s with
      prefetcher := (s.prefetcher.onRing m.fl m.wire m.point r now).2
      outbox := s.outbox ++ (s.prefetcher.onRing m.fl m.wire m.point r now).1 } := by
  obtain ⟨cfg, blocks⟩ := Prefetch.onRing_same m.fl m.wire m.point s.prefetcher r now
  refine { inv with cfg := cfg.trans inv.cfg, tallied := ?_, outbox := fun record listed cmd decoded => ?_ }
  · dsimp only
    rw [blocks]
    exact inv.tallied
  · rcases List.mem_append.mp listed with before | new
    · exact inv.outbox record before cmd decoded
    · obtain ⟨old, cmd', planned, read⟩ := Prefetch.onRing_records m.wire m.point s.prefetcher r now new
      rw [read, Option.some.injEq] at decoded
      subst decoded
      rw [inv.cfg] at planned
      obtain ⟨id, named, often⟩ := Prefetch.commands_asked counting threshold (inv.tallied.later later) planned
      rw [Wanted, named]
      exact often.trans (inv.handled id)

theorem Inv.issue (inv : Inv m atMost needed s) {key value : Bytes} {rest : List (Bytes × Bytes)}
    (first : s.outbox = (key, value) :: rest) : Inv m atMost needed { s with
      bus := s.bus.produce topicWarm ⟨key, value⟩, outbox := rest } := by
  have listed : ∀ record ∈ (key, value) :: rest, record ∈ s.outbox := fun record inside => first ▸ inside
  refine { inv with bus := inv.bus.produce _ _, asked := ?_, outbox := ?_, produced := ?_ }
  · dsimp only
    rw [Events.produced_produce, if_neg (by decide), List.append_nil]
    exact inv.asked
  · exact fun record inside => inv.outbox record (listed record (List.mem_cons_of_mem _ inside))
  · dsimp only
    rw [Events.produced_produce, if_pos rfl]
    intro msg inside
    rcases List.mem_append.mp inside with before | new
    · exact inv.produced msg before
    · rw [List.mem_singleton.mp new]
      exact inv.outbox (key, value) (listed _ List.mem_cons_self)

theorem Inv.consume (inv : Inv m atMost needed s) {n : String} {ch : Nat} {item : Events.Item}
    {rest : List Events.Item} (mine : s.consumer n = some ch) (front : s.bus.queue ch = item :: rest) :
    Inv m atMost needed { s with bus := s.bus.handle ch item rest } ∧
      ∀ cmd, m.wire.unmarshal item.msg.value = some cmd → Wanted m needed s.mesh.results cmd.blockId := by
  have subscribed := inv.consumers n ch mine
  have other : 0 ≠ ch := by
    rintro rfl
    exact absurd (inv.bus.apart _ _ 0 inv.subscribed subscribed) (by decide)
  refine ⟨{ inv with bus := inv.bus.handle front, tallied := ?_ }, ?_⟩
  · dsimp only
    rw [Events.State.handle]
    dsimp only
    rw [Function.update_of_ne other]
    exact inv.tallied
  · have came : item ∈ s.bus.received ch := List.mem_append_right _ (front ▸ List.mem_cons_self)
    exact inv.produced item.msg ((inv.bus.received_subperm subscribed).subset (List.mem_map_of_mem came))

theorem inv_step [DecidableEq W] (counting : Counting m.fl (m.cfg.defaults m.fl).halfLife atMost)
    (threshold : ∀ x k, atMost x k → m.fl.lt x (m.cfg.defaults m.fl).demandThreshold = false → needed ≤ k)
    (inv : Inv m atMost needed s) (a : Action W F G m) (taken : step m s a = some t) : Inv m atMost needed t := by
  cases a with
  | mesh a ts =>
    simp only [step] at taken
    split at taken
    next plain =>
      obtain ⟨mesh, inner, rfl⟩ := Option.map_eq_some_iff.mp taken
      exact inv.mesh plain inner ts
    next => cases taken
  | subscribe topic =>
    cases taken
    exact inv.subscribe topic
  | listen n =>
    cases taken
    exact inv.listen n
  | send k =>
    simp only [step, Events.step] at taken
    split at taken
    next c found =>
      split at taken
      next ch rest ahead =>
        cases taken
        exact inv.send found ahead
      next => cases taken
    next => cases taken
  | access now sort =>
    simp only [step] at taken
    split at taken
    next item rest front =>
      rw [Option.ite_none_right_eq_some, Option.some.injEq] at taken
      obtain ⟨later, rfl⟩ := taken
      exact inv.access counting front later sort
    next => cases taken
  | ring r now =>
    simp only [step] at taken
    rw [Option.ite_none_right_eq_some, Option.some.injEq] at taken
    obtain ⟨later, rfl⟩ := taken
    exact inv.ring counting threshold r later
  | issue =>
    simp only [step] at taken
    split at taken
    next key value rest first =>
      cases taken
      exact inv.issue first
    next => cases taken
  | warm n =>
    simp only [step] at taken
    split at taken
    next ch mine =>
      split at taken
      next item rest front =>
        obtain ⟨consumed, wanted⟩ := inv.consume mine front
        split at taken
        next cmd decoded =>
          obtain ⟨nodes, inner, rfl⟩ := Option.map_eq_some_iff.mp taken
          refine { consumed with calls := inv.calls.step (fun _ _ same => ?_) inner }
          cases same
          exact wanted cmd decoded
        next =>
          cases taken
          exact consumed
      next => cases taken
    next => cases taken

variable (m)

/-- Whatever waits, is overtaken or gets lost on the event plane, the block of a warm command on its way or under way on
a node stands in the chains of the requests that have got an answer as often as the demand threshold says. -/
theorem warmed_blocks_asked_for [DecidableEq W] (counting : Counting m.fl (m.cfg.defaults m.fl).halfLife atMost)
    (threshold : ∀ x k, atMost x k → m.fl.lt x (m.cfg.defaults m.fl).demandThreshold = false → needed ≤ k)
    (run : Lib.Reaches (step m) (fun _ _ _ => True) (init m : State W F G m) s) :
    (∀ msg ∈ s.bus.produced topicWarm, ∀ cmd, m.wire.unmarshal msg.value = some cmd →
      needed ≤ total m.mesh.sha s.mesh.results cmd.blockId) ∧
    ∀ k n cmd fetched, s.mesh.nodes.calls k = some (n, .warm cmd fetched) →
      needed ≤ total m.mesh.sha s.mesh.results cmd.blockId := by
  have inv := run.invariant (Inv m atMost needed) inv_init fun u a v inv taken _ =>
    inv_step counting threshold inv a taken
  exact ⟨inv.produced, inv.calls⟩

end Run

def sampleEvent : Option AccessEvent := emitAccess "m" ((samplePrompt 7).raw sampleMesh.sha) ⟨0, [], 1⟩

/-- The command for the first block of the prompt, once node `c` has joined. -/
def sampleCommand : Prefetch.WarmCommand ℚ :=
  ⟨((samplePrompt 7).raw sampleMesh.sha).headD [], List.replicate 32 0, "m", "b:1", "c", 3 / 4, 30000⟩

def sampleSetup : Setup Int ℚ where
  mesh := sampleMesh
  fl := Prefetch.sampleFloats
  cfg := ⟨2, 2, 0, 0, 0⟩
  wire := {
    marshal := fun cmd => if cmd = sampleCommand then some [2] else none
    unmarshal := fun raw => if raw = [2] then some sampleCommand else none
    decodes := by
      intro cmd raw encoded
      rw [Option.ite_none_right_eq_some, Option.some.injEq] at encoded
      rw [if_pos encoded.2.symm, encoded.1] }
  point := Hashring.samplePoint
  marshal := fun ev _ => if some ev = sampleEvent then some [1] else none
  unmarshal := fun raw => if raw = [1] then sampleEvent.map fun ev => ⟨ev.modelId, ev.chain⟩ else none
  decodes := by
    intro ev ts raw encoded
    rw [Option.ite_none_right_eq_some, Option.some.injEq] at encoded
    rw [if_pos encoded.2.symm, ← encoded.1, Option.map_some]

/-- A `Match` of a worker, as call `k` on node `b`, up to the event. -/
def sampleAsk (w : Bool) (k : Nat) : List (Action Bool Int ℚ sampleSetup) :=
  ([.begin_ w (samplePrompt 7), .read w (some (Gateway.sampleRing 1 ["b"])), .fanout w [], .arrive w "b",
    .other (.containsNext k), .other (.containsNext k), .answer w "b", .finishRound w, .collect w,
    .conclude w none] : List (Mesh.Action Bool sampleMesh.cfg)).map fun a => .mesh a 0

def sampleNode (id : String) : Directory.NodeInfo := ⟨id, id ++ ":1", 1000⟩

/-- Two workers ask for the same prompt, and then node `c` joins. -/
def sampleFlow : List (Action Bool Int ℚ sampleSetup) :=
  [.mesh (.other (.boot "b")) 0, .mesh (.other (.boot "c")) 0, .listen "c", .ring ⟨1, [sampleNode "b"], 1⟩ 0] ++
    sampleAsk false 0 ++ sampleAsk true 1 ++
    [.send 0, .send 1, .access 0 Prefetch.sampleSort, .access 0 Prefetch.sampleSort,
      .ring ⟨2, [sampleNode "b", sampleNode "c"], 1⟩ 0, .issue, .send 2, .warm "c"]

def warmOf : Cachenode.Call → Option Cachenode.WarmCommand
  | .warm cmd _ => some cmd
  | _ => none

/-- The default threshold takes two requests, which ask for the block that node `c` fetches. -/
theorem warmed_blocks_asked_for_sample : ∃ s : State Bool Int ℚ sampleSetup,
    Lib.Reaches (step sampleSetup) (fun _ _ _ => True) (init sampleSetup) s ∧
    (∃ fetched, s.mesh.nodes.calls 2 = some ("c", .warm sampleCommand.read fetched)) ∧
    2 ≤ total sampleSetup.mesh.sha s.mesh.results sampleCommand.read.blockId := by
  obtain ⟨s, run, found⟩ := Lib.reaches_of_check (step sampleSetup) (fun _ _ _ => True) sampleFlow (init sampleSetup)
    (fun s => (s.mesh.nodes.calls 2).map (fun call => (call.1, warmOf call.2)) =
      some ("c", some sampleCommand.read)) (by decide +kernel)
  obtain ⟨⟨n, call⟩, live, same⟩ := Option.map_eq_some_iff.mp found
  obtain ⟨rfl, warm⟩ := Prod.mk.inj same
  have threshold : ∀ (x : ℚ) (k : Nat), 0 ≤ x ∧ x ≤ k →
      sampleSetup.fl.lt x (sampleSetup.cfg.defaults sampleSetup.fl).demandThreshold = false → 2 ≤ k := by
    intro x k bound enough
    have above : (2 : ℚ) ≤ x := not_lt.mp (of_decide_eq_false enough)
    exact_mod_cast above.trans bound.2
  have asked := (warmed_blocks_asked_for sampleSetup (Prefetch.sampleFloats_counting (by decide)) threshold run).2
  cases call with
  | warm cmd fetched =>
    have same : cmd = sampleCommand.read := Option.some.inj warm
    subst same
    exact ⟨s, run, ⟨fetched, live⟩, asked 2 "c" _ fetched live⟩
  | _ => exact absurd warm (Option.some_ne_none _).symm

end PrefixMesh.Mesh.Pipeline
