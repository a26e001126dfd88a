import PrefixMesh.Mesh.Written

/-! `Match` as the workers of the mesh go through it, step by step and interleaved with
everything else, and `Match` as a function. What a call meets on its way is put together
to a `Source`, for which the function gives the same answer. -/

namespace PrefixMesh.Mesh

open Hashring (Ring)
open Gateway (Batch Exchange Hits MatchResponse Round Source attemptOn exchanges groupLoop matchChain matchOnRing
  probeLoop probeReplica settle)
open Loadgen (Request)

/-- The part of a `Source` that one round of probes meets. -/
structure RoundSource where
  client : Nat → String → Bool
  contains : String → List (List UInt8) → Except Status (List Bool)
  arrival : List (String × Batch) → List (String × Batch)
  perm : ∀ batches, (arrival batches).Perm batches

def assembled (rings : Nat → Option Ring) (rounds : Nat → Nat → RoundSource) : Source where
  ring := rings
  client := fun attempt replica => (rounds attempt replica).client
  contains := fun attempt replica => (rounds attempt replica).contains
  arrival := fun attempt replica => (rounds attempt replica).arrival

section Rounds

variable {real real' : List UInt8 → Prop}

def Honest (real : List UInt8 → Prop) (ids : List (List UInt8)) (answer : Except Status (List Bool)) : Prop :=
  ∀ present, answer = .ok present → ∀ (j : Nat) raw, ids[j]? = some raw → present[j]? = some true → real raw

theorem Honest.imp {ids : List (List UInt8)} {answer : Except Status (List Bool)} (honest : Honest real ids answer)
    (weaker : ∀ raw, real raw → real' raw) : Honest real' ids answer :=
  fun present same j raw asked told => weaker raw (honest present same j raw asked told)

theorem honest_nil (real : List UInt8 → Prop) (ids : List (List UInt8)) : Honest real ids (.ok []) := by
  intro present same j raw _ told
  cases same
  cases told

theorem honest_error (real : List UInt8 → Prop) (ids : List (List UInt8)) (e : Status) :
    Honest real ids (.error e) := by
  intro present same
  cases same

def RoundSource.Honest (real : List UInt8 → Prop) (round : RoundSource) : Prop :=
  ∀ node ids, Mesh.Honest real ids (round.contains node ids)

def RoundSource.silent : RoundSource := ⟨fun _ _ => true, fun _ _ => .ok [], id, fun _ => .refl _⟩

def RoundSource.replay (client : Nat → String → Bool) (order : List Exchange) (batches : List (String × Batch))
    (all : (order.map fun e => (e.node, e.batch)).Perm batches) : RoundSource where
  client := client
  contains := fun node ids => ((order.find? fun e => decide (e.node = node ∧ e.batch.map Prod.snd = ids)).map
    Exchange.answer).getD (.ok [])
  arrival := fun other => if other = batches then order.map fun e => (e.node, e.batch) else other
  perm := by
    intro other
    split
    next same => exact same ▸ all
    next => exact .refl other

variable {client : Nat → String → Bool} {order : List Exchange} {batches : List (String × Batch)}
  {all : (order.map fun e => (e.node, e.batch)).Perm batches}

theorem replay_contains (distinct : (order.map Exchange.node).Nodup) {e : Exchange} (inside : e ∈ order) :
    (RoundSource.replay client order batches all).contains e.node (e.batch.map Prod.snd) = e.answer := by
  have some_ : (order.find? fun x => decide (x.node = e.node ∧ x.batch.map Prod.snd = e.batch.map Prod.snd)).isSome :=
    List.find?_isSome.mpr ⟨e, inside, decide_eq_true ⟨rfl, rfl⟩⟩
  obtain ⟨x, found⟩ := Option.isSome_iff_exists.mp some_
  have named := List.find?_some found
  simp only [decide_eq_true_eq] at named
  have same : x = e := List.inj_on_of_nodup_map distinct (List.mem_of_find?_eq_some found) inside named.1
  simp only [RoundSource.replay, found, Option.map_some, Option.getD_some, same]

theorem replay_honest (honest : ∀ e ∈ order, Honest real (e.batch.map Prod.snd) e.answer) :
    (RoundSource.replay client order batches all).Honest real := by
  intro node ids
  simp only [RoundSource.replay]
  cases found : order.find? fun e => decide (e.node = node ∧ e.batch.map Prod.snd = ids) with
  | none => exact honest_nil real ids
  | some e =>
    have named := List.find?_some found
    simp only [decide_eq_true_eq] at named
    obtain ⟨_, rfl⟩ := named
    exact honest e (List.mem_of_find?_eq_some found)

end Rounds

section Probes

variable {rf attempt replica : Nat} {ring : Ring} {chain : List (List UInt8)} {probe : List Nat} {hits : Hits}
  {wrongEpoch : Bool} {past : Nat → RoundSource}

/-- After the rounds of `past`, the loop of `matchOnRing` is at the given place, whatever comes next. -/
def Played (rf attempt : Nat) (ring : Ring) (chain : List (List UInt8)) (past : Nat → RoundSource) (replica : Nat)
    (probe : List Nat) (hits : Hits) (wrongEpoch : Bool) : Prop :=
  ∀ rings rounds, (∀ r < replica, rounds attempt r = past r) →
    probeLoop (assembled rings rounds) attempt ring chain rf 0 (List.range chain.length)
      ⟨fun _ => false, fun _ => ""⟩ false =
    probeLoop (assembled rings rounds) attempt ring chain (rf - replica) replica probe hits wrongEpoch

/-- The answers of a round so far, and the batches that are still out. -/
structure Answering (ring : Ring) (chain : List (List UInt8)) (replica : Nat) (probe : List Nat) (hits : Hits)
    (client : Nat → String → Bool) (order : List Exchange) (round : Round) (pending : List Probe) : Prop where
  settled : round = order.foldl (fun r e => settle e.answer e.node e.batch r)
    ⟨hits, (groupLoop ring chain replica client probe ∅ []).2, false⟩
  all : ((order.map fun e => (e.node, e.batch)) ++ pending.map fun p => (p.node, p.content)).Perm
    ((groupLoop ring chain replica client probe ∅ []).1.entries.map fun entry => (entry.1, entry.2))
  same : ∀ e ∈ order, e.replica = replica

variable {client : Nat → String → Bool} {order : List Exchange} {round : Round} {pending : List Probe}

theorem Answering.nodup (answering : Answering ring chain replica probe hits client order round pending) :
    (order.map Exchange.node ++ pending.map Outgoing.node).Nodup := by
  have nodes := answering.all.map Prod.fst
  rw [List.map_append, List.map_map, List.map_map, List.map_map] at nodes
  exact nodes.nodup_iff.mpr (groupLoop ring chain replica client probe ∅ []).1.nodupKeys

theorem Answering.single (answering : Answering ring chain replica probe hits client order round pending) :
    Single pending :=
  (List.nodup_append.mp answering.nodup).2.1

theorem perm_without {list : List (Outgoing Batch)} {x : Outgoing Batch} (single : Single list) (inside : x ∈ list) :
    list.Perm (x :: without list x.node) := by
  have only : list.filter (fun y => decide (y.node = x.node)) = [x] := by
    have here : x ∈ list.filter (fun y => decide (y.node = x.node)) := List.mem_filter.mpr ⟨inside, decide_eq_true rfl⟩
    have nodup : (list.filter (fun y => decide (y.node = x.node))).Nodup :=
      (List.Nodup.of_map _ single).filter _
    refine List.perm_singleton.mp ((List.perm_ext_iff_of_nodup nodup (List.nodup_singleton x)).mpr fun y => ?_)
    rw [List.mem_filter, List.mem_singleton, decide_eq_true_eq]
    refine ⟨fun found => single.eq found.1 inside found.2, ?_⟩
    rintro rfl
    exact ⟨inside, rfl⟩
  have split := (List.filter_append_perm (fun y : Outgoing Batch => decide (y.node = x.node)) list).symm
  rw [only] at split
  refine split.trans (.of_eq ?_)
  simp [without]

theorem Answering.answer (answering : Answering ring chain replica probe hits client order round pending) {p : Probe}
    (inside : p ∈ pending) (answer : Except Status (List Bool)) :
    Answering ring chain replica probe hits client (order ++ [⟨replica, p.node, p.content, answer⟩])
      (settle answer p.node p.content round) (without pending p.node) where
  settled := by rw [List.foldl_append, ← answering.settled, List.foldl_cons, List.foldl_nil]
  all := by
    refine List.Perm.trans ?_ answering.all
    rw [List.map_append, List.append_assoc]
    refine List.Perm.append_left _ ?_
    exact ((perm_without answering.single inside).map fun p => (p.node, p.content)).symm
  same := by
    intro e member
    rcases List.mem_append.mp member with old | new
    · exact answering.same e old
    · rw [List.mem_singleton.mp new]

theorem Played.finish (played : Played rf attempt ring chain past replica probe hits wrongEpoch) (more : replica < rf)
    (some_ : probe ≠ []) (answering : Answering ring chain replica probe hits client order round []) :
    ∃ last : RoundSource,
      (∀ real, (∀ e ∈ order, Honest real (e.batch.map Prod.snd) e.answer) → last.Honest real) ∧
      Played rf attempt ring chain (Function.update past replica last) (replica + 1) round.retry round.hits
        (wrongEpoch || round.wrongEpoch) := by
  have all := answering.all
  rw [List.map_nil, List.append_nil] at all
  refine ⟨.replay client order _ all, fun real => replay_honest, fun rings rounds agree => ?_⟩
  have now : rounds attempt replica = .replay client order _ all := by
    rw [agree replica (Nat.lt_succ_self _), Function.update_self]
  have before : ∀ r < replica, rounds attempt r = past r := by
    intro r low
    rw [agree r (by omega), Function.update_of_ne (by omega)]
  rw [played rings rounds before, show rf - replica = rf - (replica + 1) + 1 by omega, probeLoop, if_neg some_]
  have gone : exchanges (assembled rings rounds) attempt ring chain probe replica = order := by
    have client_ : (assembled rings rounds).client attempt replica = client := by
      simp only [assembled, now, RoundSource.replay]
    simp only [exchanges, client_]
    simp only [assembled, now, RoundSource.replay, if_true, List.map_map]
    refine (List.map_congr_left fun e inside => ?_).trans (List.map_id order)
    have distinct : (order.map Exchange.node).Nodup := (List.nodup_append.mp answering.nodup).1
    have answer : (RoundSource.replay client order _ all).contains e.node (e.batch.map Prod.snd) = e.answer :=
      replay_contains distinct inside
    simp only [RoundSource.replay] at answer
    simp only [Function.comp_apply, answer, ← answering.same e inside, id_eq]
  have result : probeReplica (assembled rings rounds) attempt ring chain probe replica hits = round := by
    rw [Gateway.probeReplica_eq, gone, answering.settled]
    simp only [assembled, now, RoundSource.replay]
  rw [result]

theorem Played.collect (played : Played rf attempt ring chain past replica probe hits wrongEpoch)
    (finished : ¬(replica < rf ∧ probe ≠ [])) (rings : Nat → Option Ring) (rounds : Nat → Nat → RoundSource)
    (agree : rounds attempt = past) :
    matchOnRing (assembled rings rounds) rf attempt ring chain = (response chain ring hits, wrongEpoch) := by
  have out : probeLoop (assembled rings rounds) attempt ring chain (rf - replica) replica probe hits wrongEpoch =
      (hits, wrongEpoch) := by
    cases left : rf - replica with
    | zero => rfl
    | succ left =>
      rw [probeLoop, if_pos (Classical.not_not.mp fun some_ => finished ⟨by omega, some_⟩)]
  rw [matchOnRing, played rings rounds fun r _ => by rw [agree], out]
  rfl

end Probes

variable {W F : Type} {m : Setup F} {s t : State W F m.cfg} {shown : Ring → Prop}
  {real real' : List UInt8 → Prop} {chain : List (List UInt8)} {attempt : Nat} {resp : MatchResponse}

/-- The function gives this answer, for a source that shows some of the rings and is honest. -/
def Traced (rf : Nat) (shown : Ring → Prop) (real : List UInt8 → Prop) (chain : List (List UInt8))
    (resp : MatchResponse) : Prop :=
  ∃ src : Source, (∀ attempt replica batches, (src.arrival attempt replica batches).Perm batches) ∧
    (∀ read ring, src.ring read = some ring → shown ring) ∧
    (∀ attempt replica node ids, Honest real ids (src.contains attempt replica node ids)) ∧
    matchChain src rf chain = .ok resp

structure Probed (shown : Ring → Prop) (chain : List (List UInt8)) (ring : Ring) : Prop where
  shown : shown ring
  some_ : ¬(ring.size = 0 ∨ chain = [])

structure Rejected (rf : Nat) (shown : Ring → Prop) (real : List UInt8 → Prop) (chain : List (List UInt8)) (ring : Ring)
    (past : Nat → RoundSource) : Prop where
  probed : Probed shown chain ring
  honest : ∀ r, (past r).Honest real
  gives : ∀ rings rounds, rounds 0 = past → (matchOnRing (assembled rings rounds) rf 0 ring chain).2 = true

/-- The attempt is the first one, or the second one after a rejection and the announcement of a newer ring. -/
def Asked (rf : Nat) (shown : Ring → Prop) (real : List UInt8 → Prop) (chain : List (List UInt8)) (attempt : Nat) :
    Prop :=
  (∀ id ∈ chain, id.length = hashSize) ∧ (attempt = 0 ∨ attempt = 1 ∧ ∃ ring newer past,
    Rejected rf shown real chain ring past ∧ shown newer ∧ ring.epoch < newer.epoch)

theorem Asked.imp {rf : Nat} (asked : Asked rf shown real chain attempt) (weaker : ∀ raw, real raw → real' raw) :
    Asked rf shown real' chain attempt := by
  obtain ⟨sized, first | ⟨second, ring, newer, past, rejected, known, later⟩⟩ := asked
  · exact ⟨sized, Or.inl first⟩
  · refine ⟨sized, Or.inr ⟨second, ring, newer, past, ⟨rejected.probed, fun r node ids => ?_, rejected.gives⟩, known,
      later⟩⟩
    exact (rejected.honest r node ids).imp weaker

theorem Traced.imp {rf : Nat} (traced : Traced rf shown real chain resp) (weaker : ∀ raw, real raw → real' raw) :
    Traced rf shown real' chain resp := by
  obtain ⟨src, perm, rings, honest, gives⟩ := traced
  exact ⟨src, perm, rings, fun attempt replica node ids => (honest attempt replica node ids).imp weaker, gives⟩

theorem Asked.traced {rf : Nat} {past : Nat → RoundSource} (asked : Asked rf shown real chain attempt)
    (last newer : Option Ring) (known : ∀ ring, last = some ring → shown ring)
    (known' : ∀ ring, newer = some ring → shown ring) (honest : ∀ r, (past r).Honest real)
    (gives : ∀ rings rounds, rings (2 * attempt) = last → rounds attempt = past →
      attemptOn (assembled rings rounds) rf attempt (2 * attempt) chain = none ∧ resp = ⟨0, [], 0⟩ ∨
      ∃ ring wrongEpoch, attemptOn (assembled rings rounds) rf attempt (2 * attempt) chain =
        some (ring, resp, wrongEpoch) ∧
        ¬(wrongEpoch && attempt == 0 && newer.any fun r => decide (r.epoch > ring.epoch)) = true) :
    Traced rf shown real chain resp := by
  obtain ⟨sized, order⟩ := asked
  have formed : chain.find? (fun id => decide (id.length ≠ hashSize)) = none := by
    rw [List.find?_eq_none]
    intro id member
    simpa using sized id member
  rcases order with rfl | ⟨rfl, ring, later, before, rejected, announced, greater⟩
  · -- the second read is the one after the first attempt
    refine ⟨assembled (fun read => if read = 0 then last else newer) (fun _ => past), fun _ r => (past r).perm, ?_,
      fun _ r => honest r, ?_⟩
    · intro read ring same
      simp only [assembled] at same
      split at same
      · exact known ring same
      · exact known' ring same
    · have one := gives (fun read => if read = 0 then last else newer) (fun _ => past) rfl rfl
      simp only [matchChain, formed]
      rcases one with ⟨nothing, rfl⟩ | ⟨ring, wrongEpoch, out, once⟩
      · simp only [Nat.mul_zero] at nothing
        simp only [nothing]
      · simp only [Nat.mul_zero] at out
        simp only [beq_self_eq_true, Bool.and_true] at once
        simp only [out]
        rw [if_neg (by simpa only [assembled, Nat.one_ne_zero, if_false] using once)]
  · let rings : Nat → Option Ring := fun read => if read = 0 then some ring else if read = 1 then some later else last
    let rounds : Nat → Nat → RoundSource := fun attempt => if attempt = 0 then before else past
    refine ⟨assembled rings rounds, fun attempt r => (rounds attempt r).perm, ?_, fun attempt r => ?_, ?_⟩
    · intro read ring' same
      simp only [assembled, rings] at same
      split at same
      · exact Option.some.inj same ▸ rejected.probed.shown
      · split at same
        · exact Option.some.inj same ▸ announced
        · exact known ring' same
    · simp only [assembled, rounds]
      split
      · exact rejected.honest r
      · exact honest r
    · have first : attemptOn (assembled rings rounds) rf 0 0 chain =
          some (ring, matchOnRing (assembled rings rounds) rf 0 ring chain) := by
        simp only [attemptOn, assembled, rings, if_true, if_neg rejected.probed.some_]
      have again := rejected.gives rings rounds rfl
      have two := gives rings rounds rfl rfl
      simp only [matchChain, formed, first]
      rw [again, if_pos (by simp [assembled, rings, greater])]
      rcases two with ⟨nothing, rfl⟩ | ⟨ring', wrongEpoch, out, _⟩
      · simp only [Nat.mul_one] at nothing
        simp only [nothing]
      · simp only [Nat.mul_one] at out
        simp only [out]

structure Midround (m : Setup F) (real : List UInt8 → Prop) (attempt : Nat) (ring : Ring) (chain : List (List UInt8))
    (replica : Nat) (round : Round) (wrongEpoch : Bool) (pending : List Probe) (past : Nat → RoundSource)
    (probe : List Nat) (hits : Hits) (client : Nat → String → Bool) (order : List Exchange) : Prop where
  honest : ∀ r, (past r).Honest real
  more : replica < m.rf
  some_ : probe ≠ []
  played : Played m.rf attempt ring chain past replica probe hits wrongEpoch
  truly : ∀ e ∈ order, Honest real (e.batch.map Prod.snd) e.answer
  answering : Answering ring chain replica probe hits client order round pending

theorem Midround.answer {ring : Ring} {replica : Nat} {round : Round} {wrongEpoch : Bool} {pending : List Probe}
    {past : Nat → RoundSource} {probe : List Nat} {hits : Hits} {client : Nat → String → Bool} {order : List Exchange}
    (mid : Midround m real attempt ring chain replica round wrongEpoch pending past probe hits client order) {p : Probe}
    (inside : p ∈ pending) {answer : Except Status (List Bool)}
    (honest : Honest real (p.content.map Prod.snd) answer) :
    Midround m real attempt ring chain replica (settle answer p.node p.content round) wrongEpoch
      (without pending p.node) past probe hits client (order ++ [⟨replica, p.node, p.content, answer⟩]) where
  honest := mid.honest
  more := mid.more
  some_ := mid.some_
  played := mid.played
  truly := by
    intro e member
    rcases List.mem_append.mp member with old | new
    · exact mid.truly e old
    · rw [List.mem_singleton.mp new]
      exact honest
  answering := mid.answering.answer inside answer

/-- The phase of a worker in its `Match`, as a place in the function. -/
def Follows (m : Setup F) (shown : Ring → Prop) (real : List UInt8 → Prop) : Phase m.cfg → Prop
  | .idle | .stopped | .writing _ _ _ | .forwarding _ _ _ => True
  | .asked job attempt => Asked m.rf shown real (job.req.raw m.sha) attempt
  | .rounds job attempt ring replica probe hits wrongEpoch =>
      Asked m.rf shown real (job.req.raw m.sha) attempt ∧ Probed shown (job.req.raw m.sha) ring ∧
      ∃ past, (∀ r, (past r).Honest real) ∧
        Played m.rf attempt ring (job.req.raw m.sha) past replica probe hits wrongEpoch
  | .probing job attempt ring replica round wrongEpoch pending =>
      Asked m.rf shown real (job.req.raw m.sha) attempt ∧ Probed shown (job.req.raw m.sha) ring ∧
      ∃ past probe hits client order, Midround m real attempt ring (job.req.raw m.sha) replica round wrongEpoch pending
        past probe hits client order
  | .matched job attempt ring resp wrongEpoch =>
      Asked m.rf shown real (job.req.raw m.sha) attempt ∧ Probed shown (job.req.raw m.sha) ring ∧
      ∃ past, (∀ r, (past r).Honest real) ∧ ∀ rings rounds, rounds attempt = past →
        matchOnRing (assembled rings rounds) m.rf attempt ring (job.req.raw m.sha) = (resp, wrongEpoch)

theorem Follows.imp {phase : Phase m.cfg} (follows : Follows m shown real phase)
    (weaker : ∀ raw, real raw → real' raw) : Follows m shown real' phase := by
  have rounds : ∀ {past : Nat → RoundSource}, (∀ r, (past r).Honest real) → ∀ r, (past r).Honest real' :=
    fun honest r node ids => (honest r node ids).imp weaker
  cases phase with
  | idle | stopped | writing | forwarding => trivial
  | asked => exact Asked.imp follows weaker
  | rounds =>
    obtain ⟨asked, probed, past, honest, played⟩ := follows
    exact ⟨asked.imp weaker, probed, past, rounds honest, played⟩
  | probing =>
    obtain ⟨asked, probed, past, probe, hits, client, order, mid⟩ := follows
    exact ⟨asked.imp weaker, probed, past, probe, hits, client, order, { mid with
      honest := rounds mid.honest
      truly := fun e inside => (mid.truly e inside).imp weaker }⟩
  | matched =>
    obtain ⟨asked, probed, past, honest, gives⟩ := follows
    exact ⟨asked.imp weaker, probed, past, rounds honest, gives⟩

def Action.Shows (shown : Ring → Prop) : Action W m.cfg → Prop
  | .read _ ring => ∀ r ∈ ring, shown r
  | .conclude _ ring => ∀ r ∈ ring, shown r
  | _ => True

instance [DecidablePred shown] (a : Action W m.cfg) : Decidable (a.Shows shown) := by
  cases a <;> unfold Action.Shows <;> infer_instance

structure Refines (m : Setup F) (shown : Ring → Prop) (s : State W F m.cfg) : Prop where
  written : Inv m s
  phases : ∀ w, Follows m shown (Written m s.results s.nodes.puts) (s.phase w)
  results : ∀ r ∈ s.results, Traced m.rf shown (Written m s.results s.nodes.puts) (r.req.raw m.sha) r.resp

theorem raw_sized (req : Request m.cfg) : ∀ id ∈ req.raw m.sha, id.length = hashSize := by
  intro raw inside
  obtain ⟨id, _, rfl⟩ := List.mem_map.mp inside
  exact id.2

theorem refines_init : Refines m shown (init m.cfg : State W F m.cfg) where
  written := inv_init
  phases := fun _ => trivial
  results := by
    intro r inside
    cases inside

variable [DecidableEq W]

section Steps

variable {a : Action W m.cfg} {w : W} {job : Job m.cfg}

/-- What a step adds; the answers are those of the function for what was real before. -/
structure Advanced (m : Setup F) (shown : Ring → Prop) (s t : State W F m.cfg) : Prop where
  phases : ∀ w, t.phase w = s.phase w ∨ Follows m shown (Written m s.results s.nodes.puts) (t.phase w)
  results : ∀ r ∈ t.results, r ∈ s.results ∨
    Traced m.rf shown (Written m s.results s.nodes.puts) (r.req.raw m.sha) r.resp

theorem Advanced.of_phase {phase : Phase m.cfg} (moved : t.phase = Function.update s.phase w phase)
    (new : Follows m shown (Written m s.results s.nodes.puts) phase) (results : t.results = s.results) :
    Advanced m shown s t := by
  refine ⟨fun w' => ?_, fun _ inside => Or.inl (results ▸ inside)⟩
  rw [moved]
  by_cases same : w' = w
  · rw [same, Function.update_self]
    exact Or.inr new
  · exact Or.inl (Function.update_of_ne same ..)

theorem Advanced.respond {u : State W F m.cfg} (phase : u.phase = s.phase) (results : u.results = s.results)
    (traced : Traced m.rf shown (Written m s.results s.nodes.puts) (job.req.raw m.sha) resp) :
    Advanced m shown s (u.respond m w job resp) := by
  refine ⟨fun w' => ?_, fun r inside => ?_⟩
  · rw [respond_phase, phase]
    by_cases same : w' = w
    · rw [same, Function.update_self, answeredPhase]
      split
      · exact Or.inr trivial
      · exact Or.inr trivial
    · exact Or.inl (Function.update_of_ne same ..)
  · rw [respond_results, results] at inside
    rcases List.mem_cons.mp inside with rfl | old
    · exact Or.inr traced
    · exact Or.inl old

theorem Asked.nothing {rf : Nat} (asked : Asked rf shown real chain attempt) (ring : Option Ring)
    (known : ∀ r, ring = some r → shown r) (empty : ∀ r, ring = some r → r.size = 0 ∨ chain = []) :
    Traced rf shown real chain ⟨0, [], 0⟩ := by
  have honest : ∀ r : Nat, ((fun _ => .silent : Nat → RoundSource) r).Honest real := fun _ _ => honest_nil real
  refine asked.traced ring none known (fun _ same => by cases same) honest fun rings rounds same _ => Or.inl ⟨?_, rfl⟩
  unfold attemptOn
  rw [show (assembled rings rounds).ring (2 * attempt) = ring from same]
  cases ring with
  | none => rfl
  | some r => exact if_pos (empty r rfl)

theorem advanced_of_effect (refines : Refines m shown s) (effect : Effect m s a t) (allowed : a.Shows shown) :
    Advanced m shown s t := by
  have before : ∀ w phase, s.phase w = phase → Follows m shown (Written m s.results s.nodes.puts) phase :=
    fun w _ at_ => at_ ▸ refines.phases w
  cases effect with
  | begin_ w req _ => exact .of_phase rfl ⟨raw_sized req, Or.inl rfl⟩ rfl
  | read w ring job attempt at_ =>
    have asked : Asked m.rf shown (Written m s.results s.nodes.puts) (job.req.raw m.sha) attempt := before w _ at_
    unfold State.read
    split
    next => exact .respond rfl rfl (asked.nothing none (fun _ same => by cases same) fun _ same => by cases same)
    next ring =>
      have known := allowed ring rfl
      split
      next empty =>
        refine .respond rfl rfl (asked.nothing (some ring) (fun r same => ?_) fun r same => ?_)
        · exact Option.some.inj same ▸ known
        · exact Option.some.inj same ▸ empty
      next some_ =>
        exact .of_phase rfl ⟨asked, ⟨known, some_⟩, fun _ => .silent, fun _ _ => honest_nil _, fun _ _ _ => rfl⟩ rfl
  | fanout w missing job attempt ring replica probe hits wrongEpoch at_ more some_ =>
    obtain ⟨asked, probed, past, honest, played⟩ := before w _ at_
    refine .of_phase rfl ⟨asked, probed, past, probe, hits, fun i node => decide ((i, node) ∉ missing), [], honest,
      more, some_, played, List.forall_mem_nil _, rfl, ?_, List.forall_mem_nil _⟩ rfl
    rw [List.map_nil, List.nil_append, List.map_map]
    exact .refl _
  | arrive w job attempt ring replica round wrongEpoch pending node batch own at_ found _ =>
    obtain ⟨asked, probed, past, probe, hits, client, order, mid⟩ := before w _ at_
    unfold State.arrive
    split
    next e _ =>
      exact .of_phase rfl ⟨asked, probed, past, probe, hits, client, _, mid.answer found (honest_error _ _ e)⟩ rfl
    next =>
      have contents : (replaced pending ⟨node, batch, some s.nodes.begun⟩).map (fun p => (p.node, p.content)) =
          pending.map fun p => (p.node, p.content) := by
        rw [replaced, List.map_map]
        refine List.map_congr_left fun p inside => ?_
        simp only [Function.comp_apply]
        split
        next same => rw [mid.answering.single.eq inside found same]
        next => rfl
      refine .of_phase rfl ⟨asked, probed, past, probe, hits, client, order, { mid with answering := ?_ }⟩ rfl
      exact ⟨mid.answering.settled, contents ▸ mid.answering.all, mid.answering.same⟩
  | answer w job attempt ring replica round wrongEpoch pending node batch k n present at_ found finished =>
    obtain ⟨asked, probed, past, probe, hits, client, order, mid⟩ := before w _ at_
    have answered := (((refines.written.probing at_).2 _ found).call k rfl).2
    rw [finished] at answered
    refine .of_phase rfl ⟨asked, probed, past, probe, hits, client, _, mid.answer found ?_⟩ rfl
    intro present' same j raw asked' told
    cases same
    obtain ⟨low, rfl⟩ := List.getElem?_eq_some_iff.mp asked'
    obtain ⟨high, hit⟩ := List.getElem?_eq_some_iff.mp told
    exact answered.all.get low high hit
  | fail w e job attempt ring replica round wrongEpoch pending p at_ found =>
    obtain ⟨asked, probed, past, probe, hits, client, order, mid⟩ := before w _ at_
    exact .of_phase rfl ⟨asked, probed, past, probe, hits, client, _, mid.answer found (honest_error _ _ e)⟩ rfl
  | finishRound w job attempt ring replica round wrongEpoch at_ =>
    obtain ⟨asked, probed, past, probe, hits, client, order, mid⟩ := before w _ at_
    obtain ⟨last, genuine, next⟩ := mid.played.finish mid.more mid.some_ mid.answering
    refine .of_phase rfl ⟨asked, probed, _, fun r => ?_, next⟩ rfl
    by_cases same : r = replica
    · rw [same, Function.update_self]
      exact genuine _ mid.truly
    · rw [Function.update_of_ne same]
      exact mid.honest r
  | collect w job attempt ring replica probe hits wrongEpoch at_ finished =>
    obtain ⟨asked, probed, past, honest, played⟩ := before w _ at_
    exact .of_phase rfl ⟨asked, probed, past, honest, played.collect finished⟩ rfl
  | conclude w newer job attempt ring resp wrongEpoch at_ =>
    obtain ⟨asked, probed, past, honest, gives⟩ := before w _ at_
    unfold State.conclude
    split
    next again =>
      rw [Bool.and_eq_true, Bool.and_eq_true, beq_iff_eq, Option.any_eq_true] at again
      obtain ⟨⟨rejected, rfl⟩, later, same, greater⟩ := again
      refine .of_phase rfl ⟨asked.1, Or.inr ⟨rfl, ring, later, past, ⟨probed, honest, fun rings rounds agree => ?_⟩,
        allowed later same, of_decide_eq_true greater⟩⟩ rfl
      rw [gives rings rounds agree]
      exact rejected
    next once =>
      have traced : Traced m.rf shown (Written m s.results s.nodes.puts) (job.req.raw m.sha) resp := by
        refine asked.traced (some ring) newer (fun r same => ?_) allowed honest fun rings rounds same agree =>
          Or.inr ⟨ring, wrongEpoch, ?_, once⟩
        · exact Option.some.inj same ▸ probed.shown
        · unfold attemptOn
          rw [show (assembled rings rounds).ring (2 * attempt) = some ring from same]
          simp only [if_neg probed.some_, gives rings rounds agree]
      refine Advanced.respond (s := s) ?_ ?_ traced <;> rfl
  | receive w ring res b rest byOwner _ =>
    unfold State.receive
    split
    · exact .of_phase rfl trivial rfl
    · exact .of_phase rfl trivial rfl
  | close | open_ | send | recv | drop | done | abort => exact .of_phase rfl trivial rfl
  | deliver | other => exact ⟨fun _ => Or.inl rfl, fun _ => Or.inl⟩

theorem Refines.step (refines : Refines m shown s) (taken : step m s a = some t) (allowed : a.Shows shown) :
    Refines m shown t := by
  have effect := effect_of_step taken
  have weaker := (refines.written.forward (frame_of_effect effect)).written
  have advanced := advanced_of_effect refines effect allowed
  refine ⟨inv_step refines.written taken, fun w => ?_, fun r inside => ?_⟩
  · rcases advanced.phases w with same | new
    · rw [same]
      exact (refines.phases w).imp weaker
    · exact new.imp weaker
  · rcases advanced.results r inside with old | new
    · exact (refines.results r old).imp weaker
    · exact new.imp weaker

end Steps

/-- Whatever happens in the mesh, each answer that a worker gets to its `Match` is what the function `matchChain`
returns for the same chain and for some source. That source shows rings which were shown in the run, delivers the
answers of each round in some order, and its nodes report only blocks that have been written back by a request. -/
theorem match_refines_matchChain (m : Setup F) (shown : Ring → Prop) (s : State W F m.cfg)
    (run : Lib.Reaches (step m) (fun _ a _ => a.Shows shown) (init m.cfg) s) (r : Result m.cfg)
    (answered : r ∈ s.results) :
    ∃ src : Source, (∀ attempt replica batches, (src.arrival attempt replica batches).Perm batches) ∧
      (∀ read ring, src.ring read = some ring → shown ring) ∧
      (∀ attempt replica node ids present, src.contains attempt replica node ids = .ok present →
        ∀ (j : Nat) raw, ids[j]? = some raw → present[j]? = some true → Written m s.results s.nodes.puts raw) ∧
      matchChain src m.rf (r.req.raw m.sha) = .ok r.resp := by
  have refines : Refines m shown s :=
    run.invariant (Refines m shown) refines_init fun u a v refines taken allowed => refines.step taken allowed
  exact refines.results r answered

theorem match_refines_matchChain_sample : ∃ s : State Unit Int sampleMesh.cfg, ∃ r ∈ s.results, r.depth = 1 ∧
    ∃ src : Source, (∀ read ring, src.ring read = some ring → ring = Gateway.sampleRing 1 ["b"]) ∧
      matchChain src 1 (r.req.raw Chain.sampleSha) = .ok r.resp := by
  obtain ⟨s, run, r, answered, deep⟩ := Lib.reaches_of_check (step sampleMesh)
    (fun _ a _ => a.Shows fun ring => ring = Gateway.sampleRing 1 ["b"]) sampleRun (init sampleMesh.cfg)
    (fun s => ∃ r ∈ s.results, r.depth = 1) (by decide +kernel)
  obtain ⟨src, _, rings, _, same⟩ := match_refines_matchChain sampleMesh _ s run r answered
  exact ⟨s, r, answered, deep, src, rings, same⟩

end PrefixMesh.Mesh
