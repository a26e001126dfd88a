import PrefixMesh.Blockstore.PagedRuns
import PrefixMesh.Cachenode.Server
import PrefixMesh.Gateway.Put
import PrefixMesh.Hashring.Churn

/-! `Match` of the gateway. A `Source` is everything that a call meets: the rings that
the ring source shows at its successive reads, whether there is a client for a node,
what the nodes answer, and the order in which the answers of a round arrive. -/

namespace PrefixMesh.Gateway

open Hashring (Ring)

abbrev Batch := List (Nat × List UInt8)

structure Source where
  ring : Nat → Option Ring
  client : Nat → Nat → Nat → String → Bool
  contains : Nat → Nat → String → List (List UInt8) → Except Status (List Bool)
  arrival : Nat → Nat → List (String × Batch) → List (String × Batch)

structure BlockRef where
  blockId : List UInt8
  nodeAddr : String
  deriving DecidableEq

structure MatchResponse where
  matchedDepth : UInt32
  refs : List BlockRef
  ringEpoch : Nat
  deriving DecidableEq

/-- The slices `present` and `holders` of `matchOnRing`. -/
structure Hits where
  present : Nat → Bool
  holders : Nat → String

def Hits.set (h : Hits) (i : Nat) (node : String) : Hits :=
  ⟨Function.update h.present i true, Function.update h.holders i node⟩

structure Round where
  hits : Hits
  retry : List Nat
  wrongEpoch : Bool

def ownerOf (ring : Ring) (id : List UInt8) (replica : Nat) : Option String :=
  (ring.owners id ((replica + 1 : Nat) : Int))[replica]?

/-- The first loop of `probeReplica`: the batches, and the indices whose node has no client. -/
def groupLoop (ring : Ring) (chain : List (List UInt8)) (replica : Nat) (client : Nat → String → Bool) :
    List Nat → ByOwner (Nat × List UInt8) → List Nat → ByOwner (Nat × List UInt8) × List Nat
  | [], batches, unroutable => (batches, unroutable)
  | i :: rest, batches, unroutable =>
      let id := chain.getD i []
      match ownerOf ring id replica with
      | none => groupLoop ring chain replica client rest batches unroutable
      | some node =>
          if node ∈ batches ∨ client i node = true then
            groupLoop ring chain replica client rest (ByOwner.add batches (i, id) node) unroutable
          else groupLoop ring chain replica client rest batches (unroutable ++ [i])

/-- Going through a batch and the answer to it, which may be too short. -/
def settleLoop (node : String) : Batch → List Bool → Round → Round
  | [], _, r => r
  | (i, _) :: rest, present, r =>
      if present.head? = some true then settleLoop node rest present.tail { r with hits := r.hits.set i node }
      else settleLoop node rest present.tail { r with retry := r.retry ++ [i] }

def settle (answer : Except Status (List Bool)) (node : String) (batch : Batch) (r : Round) : Round :=
  match answer with
  | .error e => { r with
      retry := r.retry ++ batch.map Prod.fst
      wrongEpoch := r.wrongEpoch || decide (e.code = .failedPrecondition) }
  | .ok present => settleLoop node batch present r

def settleAll (answer : String → Batch → Except Status (List Bool)) (batches : List (String × Batch)) (r : Round) :
    Round :=
  batches.foldl (fun r b => settle (answer b.1 b.2) b.1 b.2 r) r

def probeReplica (src : Source) (attempt : Nat) (ring : Ring) (chain : List (List UInt8)) (indices : List Nat)
    (replica : Nat) (hits : Hits) : Round :=
  let (batches, unroutable) := groupLoop ring chain replica (src.client attempt replica) indices ∅ []
  settleAll (fun node batch => src.contains attempt replica node (batch.map Prod.snd))
    (src.arrival attempt replica (batches.entries.map (fun entry => (entry.1, entry.2)))) ⟨hits, unroutable, false⟩

def probeLoop (src : Source) (attempt : Nat) (ring : Ring) (chain : List (List UInt8)) :
    Nat → Nat → List Nat → Hits → Bool → Hits × Bool
  | 0, _, _, hits, wrongEpoch => (hits, wrongEpoch)
  | left + 1, replica, probe, hits, wrongEpoch =>
      if probe = [] then (hits, wrongEpoch)
      else
        let round := probeReplica src attempt ring chain probe replica hits
        probeLoop src attempt ring chain left (replica + 1) round.retry round.hits (wrongEpoch || round.wrongEpoch)

def depthLoop (present : Nat → Bool) : Nat → Nat → Nat
  | 0, depth => depth
  | left + 1, depth => if present depth then depthLoop present left (depth + 1) else depth

def matchOnRing (src : Source) (rf attempt : Nat) (ring : Ring) (chain : List (List UInt8)) :
    MatchResponse × Bool :=
  let (hits, wrongEpoch) := probeLoop src attempt ring chain rf 0 (List.range chain.length)
    ⟨fun _ => false, fun _ => ""⟩ false
  let depth := depthLoop hits.present chain.length 0
  let refs := (List.range depth).map (fun i =>
    (⟨chain.getD i [], (ring.addrs.lookup (hits.holders i)).getD ""⟩ : BlockRef))
  (⟨UInt32.ofNat depth, refs, ring.epoch⟩, wrongEpoch)

/-- One attempt, on the ring of the given read; `none` if there is nothing to probe. -/
def attemptOn (src : Source) (rf attempt read : Nat) (chain : List (List UInt8)) :
    Option (Ring × MatchResponse × Bool) :=
  match src.ring read with
  | none => none
  | some ring =>
      if ring.size = 0 ∨ chain = [] then none
      else some (ring, matchOnRing src rf attempt ring chain)

/-- A rejected attempt is repeated once, if the source shows a newer ring by then. -/
def matchChain (src : Source) (rf : Nat) (chain : List (List UInt8)) : Except Status MatchResponse :=
  match chain.find? (fun id => decide (id.length ≠ hashSize)) with
  | some id =>
      let got := id.length
      .error ⟨.invalidArgument, s!"block id must be {hashSize} bytes, got {got}"⟩
  | none =>
      match attemptOn src rf 0 0 chain with
      | none => .ok ⟨0, [], 0⟩
      | some (ring, resp, wrongEpoch) =>
          if wrongEpoch && (src.ring 1).any (fun newer => decide (newer.epoch > ring.epoch)) then
            match attemptOn src rf 1 2 chain with
            | none => .ok ⟨0, [], 0⟩
            | some (_, resp, _) => .ok resp
          else .ok resp

theorem groupLoop_mono (ring : Ring) (chain : List (List UInt8)) (replica : Nat) (client : Nat → String → Bool)
    (indices : List Nat) (batches : ByOwner (Nat × List UInt8)) (unroutable : List Nat) :
    (∀ n x, x ∈ (batches.lookup n).getD [] →
      x ∈ ((groupLoop ring chain replica client indices batches unroutable).1.lookup n).getD []) ∧
    ∀ i ∈ unroutable, i ∈ (groupLoop ring chain replica client indices batches unroutable).2 := by
  induction indices generalizing batches unroutable with
  | nil => exact ⟨fun _ _ => id, fun _ => id⟩
  | cons i rest ih =>
    simp only [groupLoop]
    split
    · exact ih batches unroutable
    next node _ =>
      split
      · obtain ⟨more, same⟩ := ih (ByOwner.add batches (i, chain.getD i []) node) unroutable
        refine ⟨?_, same⟩
        intro n x member
        exact more n x ((ByOwner.mem_add ..).mpr (Or.inl member))
      · obtain ⟨same, more⟩ := ih batches (unroutable ++ [i])
        exact ⟨same, fun j member => more j (List.mem_append_left _ member)⟩

theorem groupLoop_covers (ring : Ring) (chain : List (List UInt8)) (replica : Nat) (client : Nat → String → Bool)
    (indices : List Nat) (batches : ByOwner (Nat × List UInt8)) (unroutable : List Nat) (i : Nat) (node : String)
    (member : i ∈ indices) (owned : ownerOf ring (chain.getD i []) replica = some node) :
    (i, chain.getD i []) ∈ ((groupLoop ring chain replica client indices batches unroutable).1.lookup node).getD [] ∨
    client i node = false ∧ i ∈ (groupLoop ring chain replica client indices batches unroutable).2 := by
  induction indices generalizing batches unroutable with
  | nil => cases member
  | cons j rest ih =>
    by_cases later : i ∈ rest
    · simp only [groupLoop]
      split
      · exact ih _ _ later
      · split
        · exact ih _ _ later
        · exact ih _ _ later
    · obtain rfl : i = j := by simpa [later] using member
      simp only [groupLoop, owned]
      split
      · exact Or.inl ((groupLoop_mono ..).1 _ _ ((ByOwner.mem_add ..).mpr (Or.inr ⟨rfl, rfl⟩)))
      next apart =>
        rw [not_or, Bool.not_eq_true] at apart
        exact Or.inr ⟨apart.2, (groupLoop_mono ..).2 i (List.mem_append_right _ List.mem_cons_self)⟩

def Formed (ring : Ring) (chain : List (List UInt8)) (replica : Nat) (client : Nat → String → Bool)
    (fine : Nat → Prop) (n : String) (batch : Batch) : Prop :=
  (∃ x ∈ batch, client x.1 n = true) ∧
    ∀ x ∈ batch, fine x.1 ∧ x.2 = chain.getD x.1 [] ∧ ownerOf ring x.2 replica = some n

theorem groupLoop_formed (ring : Ring) (chain : List (List UInt8)) (replica : Nat) (client : Nat → String → Bool)
    (fine : Nat → Prop) (indices : List Nat) (members : ∀ i ∈ indices, fine i)
    (batches : ByOwner (Nat × List UInt8)) (unroutable : List Nat)
    (start : ∀ n batch, batches.lookup n = some batch → Formed ring chain replica client fine n batch) :
    ∀ n batch, (groupLoop ring chain replica client indices batches unroutable).1.lookup n = some batch →
      Formed ring chain replica client fine n batch := by
  induction indices generalizing batches unroutable with
  | nil => exact start
  | cons i rest ih =>
    have others := fun j member => members j (List.mem_cons_of_mem _ member)
    simp only [groupLoop]
    split
    · exact ih others batches unroutable start
    next node owned =>
      split
      next routed =>
        apply ih others
        intro n batch found
        by_cases same : n = node
        · subst same
          rw [ByOwner.add, AList.lookup_insert, Option.some.injEq] at found
          subst found
          have last : fine i ∧ chain.getD i [] = chain.getD i [] ∧ ownerOf ring (chain.getD i []) replica = some n :=
            ⟨members i List.mem_cons_self, rfl, owned⟩
          cases known : batches.lookup n with
          | none =>
            have absent : n ∉ batches := AList.lookup_eq_none.mp known
            refine ⟨⟨(i, chain.getD i []), by simp, routed.resolve_left absent⟩, ?_⟩
            intro x member
            rw [Option.getD_none, List.nil_append] at member
            rw [List.mem_singleton.mp member]
            exact last
          | some before =>
            obtain ⟨⟨x, inside, reachable⟩, formed⟩ := start n before known
            refine ⟨⟨x, List.mem_append_left _ inside, reachable⟩, ?_⟩
            intro y member
            rcases List.mem_append.mp member with old | new
            · exact formed y old
            · rw [List.mem_singleton.mp new]
              exact last
        · rw [ByOwner.add, AList.lookup_insert_ne same] at found
          exact start n batch found
      next => exact ih others batches _ start

theorem groupLoop_unroutable (ring : Ring) (chain : List (List UInt8)) (replica : Nat)
    (client : Nat → String → Bool) (fine : Nat → Prop) (indices : List Nat) (members : ∀ i ∈ indices, fine i)
    (batches : ByOwner (Nat × List UInt8)) (unroutable : List Nat) (start : ∀ i ∈ unroutable, fine i) :
    ∀ i ∈ (groupLoop ring chain replica client indices batches unroutable).2, fine i := by
  induction indices generalizing batches unroutable with
  | nil => exact start
  | cons i rest ih =>
    have others := fun j member => members j (List.mem_cons_of_mem _ member)
    simp only [groupLoop]
    split
    · exact ih others batches unroutable start
    · split
      · exact ih others _ unroutable start
      · apply ih others
        intro j member
        rcases List.mem_append.mp member with old | new
        · exact start j old
        · exact List.mem_singleton.mp new ▸ members i List.mem_cons_self

structure Round.Extends (r r' : Round) : Prop where
  present : ∀ i, r.hits.present i = true → r'.hits.present i = true
  retry : ∀ i ∈ r.retry, i ∈ r'.retry

theorem Round.Extends.refl (r : Round) : r.Extends r := ⟨fun _ => id, fun _ => id⟩

theorem Round.Extends.trans {r r' r'' : Round} (first : r.Extends r') (second : r'.Extends r'') : r.Extends r'' :=
  ⟨fun i here => second.present i (first.present i here), fun i here => second.retry i (first.retry i here)⟩

theorem Round.extends_set (r : Round) (i : Nat) (node : String) :
    r.Extends { r with hits := r.hits.set i node } := by
  refine ⟨?_, fun _ => id⟩
  intro j here
  by_cases same : j = i
  · subst same
    exact Function.update_self ..
  · exact (Function.update_of_ne same ..).trans here

theorem Round.extends_retry (r : Round) (more : List Nat) (wrongEpoch : Bool) :
    r.Extends ⟨r.hits, r.retry ++ more, wrongEpoch⟩ :=
  ⟨fun _ => id, fun _ member => List.mem_append_left _ member⟩

theorem settleLoop_extends (node : String) (batch : Batch) (present : List Bool) (r : Round) :
    r.Extends (settleLoop node batch present r) := by
  induction batch generalizing present r with
  | nil => exact .refl r
  | cons x rest ih =>
    simp only [settleLoop]
    split
    · exact (r.extends_set x.1 node).trans (ih _ _)
    · exact (r.extends_retry [x.1] r.wrongEpoch).trans (ih _ _)

theorem settle_extends (answer : Except Status (List Bool)) (node : String) (batch : Batch) (r : Round) :
    r.Extends (settle answer node batch r) := by
  cases answer with
  | error e => exact r.extends_retry _ _
  | ok present => exact settleLoop_extends node batch present r

theorem settle_covers (answer : Except Status (List Bool)) (node : String) (batch : Batch) (r : Round)
    (x : Nat × List UInt8) (member : x ∈ batch) :
    (settle answer node batch r).hits.present x.1 = true ∨ x.1 ∈ (settle answer node batch r).retry := by
  cases answer with
  | error e => exact Or.inr (List.mem_append_right _ (List.mem_map_of_mem member))
  | ok present =>
    simp only [settle]
    induction batch generalizing present r with
    | nil => cases member
    | cons y rest ih =>
      simp only [settleLoop]
      rcases List.mem_cons.mp member with same | later
      · subst same
        split
        · exact Or.inl ((settleLoop_extends ..).present _ (Function.update_self ..))
        · exact Or.inr ((settleLoop_extends ..).retry _ (List.mem_append_right _ List.mem_cons_self))
      · split
        · exact ih _ later _
        · exact ih _ later _

theorem settle_finds (node : String) (has : List UInt8 → Bool) (batch : Batch) (r : Round)
    (x : Nat × List UInt8) (member : x ∈ batch) (here : has x.2 = true) :
    (settle (.ok (batch.map (fun y => has y.2))) node batch r).hits.present x.1 = true := by
  simp only [settle]
  induction batch generalizing r with
  | nil => cases member
  | cons y rest ih =>
    simp only [settleLoop, List.map_cons, List.head?_cons, List.tail_cons, Option.some.injEq]
    rcases List.mem_cons.mp member with same | later
    · subst same
      rw [if_pos here]
      exact (settleLoop_extends ..).present _ (Function.update_self ..)
    · split
      · exact ih _ later
      · exact ih _ later

def Hits.Good (good : String → Prop) (h : Hits) : Prop := ∀ i, h.present i = true → good (h.holders i)

theorem Hits.Good.set {good : String → Prop} {h : Hits} (holds : h.Good good) (i : Nat) (node : String)
    (new : good node) : (h.set i node).Good good := by
  intro j here
  by_cases same : j = i
  · subst same
    simpa only [Hits.set, Function.update_self] using new
  · simp only [Hits.set, Function.update_of_ne same] at here ⊢
    exact holds j here

theorem settle_good (good : String → Prop) (answer : Except Status (List Bool)) (node : String) (batch : Batch)
    (r : Round) (holds : r.hits.Good good) (new : ∀ present, answer = .ok present → good node) :
    (settle answer node batch r).hits.Good good := by
  cases answer with
  | error e => exact holds
  | ok present =>
    have answering := new present rfl
    simp only [settle]
    clear new
    induction batch generalizing present r with
    | nil => exact holds
    | cons x rest ih =>
      simp only [settleLoop]
      split
      · exact ih _ (holds.set x.1 node answering) _
      · exact ih { r with retry := r.retry ++ [x.1] } holds _

theorem settle_retry (fine : Nat → Prop) (answer : Except Status (List Bool)) (node : String) (batch : Batch)
    (among : ∀ x ∈ batch, fine x.1) (r : Round) (start : ∀ i ∈ r.retry, fine i) :
    ∀ i ∈ (settle answer node batch r).retry, fine i := by
  cases answer with
  | error e =>
    intro i member
    rcases List.mem_append.mp member with old | new
    · exact start i old
    · obtain ⟨x, inside, rfl⟩ := List.mem_map.mp new
      exact among x inside
  | ok present =>
    simp only [settle]
    induction batch generalizing present r with
    | nil => exact start
    | cons x rest ih =>
      have others := fun y member => among y (List.mem_cons_of_mem _ member)
      simp only [settleLoop]
      split
      · exact ih others { r with hits := r.hits.set x.1 node } start _
      · refine ih others { r with retry := r.retry ++ [x.1] } ?_ _
        intro i member
        rcases List.mem_append.mp member with old | new
        · exact start i old
        · exact List.mem_singleton.mp new ▸ among x List.mem_cons_self

theorem settleAll_retry (fine : Nat → Prop) (answer : String → Batch → Except Status (List Bool))
    (batches : List (String × Batch)) (among : ∀ b ∈ batches, ∀ x ∈ b.2, fine x.1) (r : Round)
    (start : ∀ i ∈ r.retry, fine i) : ∀ i ∈ (settleAll answer batches r).retry, fine i := by
  induction batches generalizing r with
  | nil => exact start
  | cons b rest ih =>
    apply ih
    · exact fun c member => among c (List.mem_cons_of_mem _ member)
    · exact settle_retry fine _ b.1 b.2 (among b List.mem_cons_self) r start

theorem settleAll_extends (answer : String → Batch → Except Status (List Bool)) (batches : List (String × Batch))
    (r : Round) : r.Extends (settleAll answer batches r) := by
  induction batches generalizing r with
  | nil => exact .refl r
  | cons b rest ih => exact (settle_extends (answer b.1 b.2) b.1 b.2 r).trans (ih _)

theorem settleAll_turn (answer : String → Batch → Except Status (List Bool)) (batches : List (String × Batch))
    (r : Round) (b : String × Batch) (member : b ∈ batches) :
    ∃ before, (settle (answer b.1 b.2) b.1 b.2 before).Extends (settleAll answer batches r) := by
  obtain ⟨front, back, rfl⟩ := List.append_of_mem member
  refine ⟨settleAll answer front r, ?_⟩
  simp only [settleAll, List.foldl_append, List.foldl_cons]
  exact settleAll_extends answer back _

theorem settleAll_good (good : String → Prop) (answer : String → Batch → Except Status (List Bool))
    (batches : List (String × Batch)) (r : Round) (holds : r.hits.Good good)
    (new : ∀ b ∈ batches, ∀ present, answer b.1 b.2 = .ok present → good b.1) :
    (settleAll answer batches r).hits.Good good := by
  induction batches generalizing r with
  | nil => exact holds
  | cons b rest ih =>
    apply ih
    · exact settle_good good _ b.1 b.2 r holds (new b List.mem_cons_self)
    · exact fun c member => new c (List.mem_cons_of_mem _ member)

/-- The nodes of a ring during a call: those that are live have clients and tell which ids they have, the
others fail. -/
structure Serving (src : Source) (ring : Ring) (live : String → Prop) (has : String → BlockID → Bool) : Prop where
  arrival : ∀ attempt replica batches, (src.arrival attempt replica batches).Perm batches
  client : ∀ attempt replica i n, n ∈ ring.addrs → live n → src.client attempt replica i n = true
  answer : ∀ attempt replica n (ids : List BlockID), n ∈ ring.addrs → live n →
    src.contains attempt replica n (ids.map Subtype.val) = .ok (ids.map (has n))
  fails : ∀ attempt replica n ids, n ∈ ring.addrs → ¬live n →
    ∃ e, src.contains attempt replica n ids = .error e

def hasRaw (has : BlockID → Bool) (raw : List UInt8) : Bool :=
  if sized : raw.length = hashSize then has ⟨raw, sized⟩ else false

section Rounds

variable {src : Source} {ring : Ring} {chain : List BlockID} {live : String → Prop} {has : String → BlockID → Bool}

theorem Serving.batch (serving : Serving src ring live has) (attempt replica : Nat) (n : String)
    (member : n ∈ ring.addrs) (up : live n) (batch : Batch) (sized : ∀ x ∈ batch, x.2.length = hashSize) :
    src.contains attempt replica n (batch.map Prod.snd) = .ok (batch.map (fun x => hasRaw (has n) x.2)) := by
  have answer := serving.answer attempt replica n (batch.pmap (fun x long => ⟨x.2, long⟩) sized) member up
  rw [List.map_pmap, List.map_pmap, List.pmap_eq_map] at answer
  rw [answer]
  congr 1
  conv_rhs => rw [← List.pmap_eq_map (p := fun x : Nat × List UInt8 => x.2.length = hashSize) sized]
  apply List.pmap_congr_left
  intro x _ long _
  rw [hasRaw, dif_pos long]

theorem mem_addrs_of_owner (point : String → Nat → Nat) (epoch : Nat) (nodes : AList (fun _ : String => String))
    (vnodesPerNode : Int) (id : List UInt8) (replica : Nat) (n : String)
    (owned : ownerOf (Hashring.newRing point epoch nodes vnodesPerNode) id replica = some n) : n ∈ nodes.keys := by
  have member := List.mem_of_getElem? owned
  rw [Ring.owners, Hashring.newRing_ownersAt] at member
  exact (Hashring.mem_clockwise_placed point _ (Hashring.vnodeCount_pos _) _ _ n).mp (List.mem_of_mem_take member)

private theorem chain_getD (i : Nat) (inside : i < chain.length) :
    (chain.map Subtype.val).getD i [] = (chain.get ⟨i, inside⟩).1 := by
  rw [List.getD_eq_getElem?_getD, List.getElem?_map, List.getElem?_eq_getElem inside]
  rfl

theorem probeReplica_turn (arrival : ∀ attempt replica batches, (src.arrival attempt replica batches).Perm batches)
    (attempt replica : Nat)
    (ids : List (List UInt8)) (indices : List Nat) (hits : Hits) (n : String) (batch : Batch)
    (found : (groupLoop ring ids replica (src.client attempt replica) indices ∅ []).1.lookup n = some batch) :
    ∃ before, (settle (src.contains attempt replica n (batch.map Prod.snd)) n batch before).Extends
      (probeReplica src attempt ring ids indices replica hits) := by
  have listed := List.mem_map_of_mem (f := fun entry : Sigma (fun _ : String => Batch) => (entry.1, entry.2))
    (AList.mem_lookup_iff.mp found)
  have arrives := (arrival attempt replica _).mem_iff.mpr listed
  exact settleAll_turn (fun node batch => src.contains attempt replica node (batch.map Prod.snd)) _
    ⟨hits, (groupLoop ring ids replica (src.client attempt replica) indices ∅ []).2, false⟩ (n, batch) arrives

theorem probeReplica_present (attempt replica : Nat) (ids : List (List UInt8)) (indices : List Nat) (hits : Hits)
    (i : Nat) (here : hits.present i = true) :
    (probeReplica src attempt ring ids indices replica hits).hits.present i = true :=
  (settleAll_extends _ _ ⟨hits, _, false⟩).present i here

theorem probeReplica_covers (arrival : ∀ attempt replica batches, (src.arrival attempt replica batches).Perm batches)
    (attempt replica : Nat) (ids : List (List UInt8)) (indices : List Nat) (hits : Hits) (i : Nat)
    (member : i ∈ indices) (n : String) (owned : ownerOf ring (ids.getD i []) replica = some n) :
    (probeReplica src attempt ring ids indices replica hits).hits.present i = true ∨
      i ∈ (probeReplica src attempt ring ids indices replica hits).retry := by
  rcases groupLoop_covers ring ids replica (src.client attempt replica) indices ∅ [] i n member owned with
    grouped | ⟨_, unroutable⟩
  · cases found : (groupLoop ring ids replica (src.client attempt replica) indices ∅ []).1.lookup n with
    | none =>
      rw [found] at grouped
      cases grouped
    | some batch =>
      rw [found] at grouped
      obtain ⟨before, turn⟩ := probeReplica_turn arrival attempt replica ids indices hits n batch found
      rcases settle_covers _ n batch before _ grouped with hit | again
      · exact Or.inl (turn.present i hit)
      · exact Or.inr (turn.retry i again)
  · exact Or.inr ((settleAll_extends _ _ ⟨hits, _, false⟩).retry i unroutable)

theorem probeReplica_formed (arrival : ∀ attempt replica batches, (src.arrival attempt replica batches).Perm batches)
    (attempt replica : Nat) (ids : List (List UInt8)) (fine : Nat → Prop) (indices : List Nat)
    (members : ∀ i ∈ indices, fine i) (b : String × Batch)
    (arrives : b ∈ src.arrival attempt replica ((groupLoop ring ids replica (src.client attempt replica) indices ∅
      []).1.entries.map (fun entry => (entry.1, entry.2)))) :
    Formed ring ids replica (src.client attempt replica) fine b.1 b.2 := by
  have listed := (arrival attempt replica _).mem_iff.mp arrives
  obtain ⟨entry, among, rfl⟩ := List.mem_map.mp listed
  exact groupLoop_formed ring ids replica (src.client attempt replica) fine indices members ∅ [] (by simp) entry.1
    entry.2 (AList.mem_lookup_iff.mpr among)

theorem probeReplica_retry (arrival : ∀ attempt replica batches, (src.arrival attempt replica batches).Perm batches)
    (attempt replica : Nat) (ids : List (List UInt8)) (fine : Nat → Prop) (indices : List Nat)
    (members : ∀ i ∈ indices, fine i) (hits : Hits) :
    ∀ i ∈ (probeReplica src attempt ring ids indices replica hits).retry, fine i := by
  apply settleAll_retry
  · intro b arrives x inside
    exact ((probeReplica_formed arrival attempt replica ids fine indices members b arrives).2 x inside).1
  · exact groupLoop_unroutable ring ids replica (src.client attempt replica) fine indices members ∅ [] (by simp)

variable (owners : ∀ id replica n, ownerOf ring id replica = some n → n ∈ ring.addrs)

include owners in
theorem probeReplica_finds (serving : Serving src ring live has) (attempt replica : Nat) (indices : List Nat)
    (inside : ∀ i ∈ indices, i < chain.length) (hits : Hits) (i : Nat) (short : i < chain.length)
    (member : i ∈ indices) (n : String)
    (owned : ownerOf ring (chain.get ⟨i, short⟩).1 replica = some n) (up : live n)
    (here : has n (chain.get ⟨i, short⟩) = true) :
    (probeReplica src attempt ring (chain.map Subtype.val) indices replica hits).hits.present i = true := by
  have known := owners _ _ n owned
  rw [← chain_getD i short] at owned
  rcases groupLoop_covers ring (chain.map Subtype.val) replica (src.client attempt replica) indices ∅ [] i n member
    owned with grouped | ⟨missing, _⟩
  · cases found : (groupLoop ring (chain.map Subtype.val) replica (src.client attempt replica) indices ∅ []).1.lookup
      n with
    | none =>
      rw [found] at grouped
      cases grouped
    | some batch =>
      rw [found] at grouped
      obtain ⟨_, formed⟩ := groupLoop_formed ring (chain.map Subtype.val) replica (src.client attempt replica)
        (· < chain.length) indices inside ∅ [] (by simp) n batch found
      have sized : ∀ x ∈ batch, x.2.length = hashSize := by
        intro x among
        obtain ⟨low, same, _⟩ := formed x among
        rw [same, chain_getD x.1 low]
        exact (chain.get ⟨x.1, low⟩).2
      obtain ⟨before, turn⟩ := probeReplica_turn serving.arrival attempt replica _ indices hits n batch found
      rw [serving.batch attempt replica n known up batch sized] at turn
      apply turn.present
      apply settle_finds n (hasRaw (has n)) batch before (i, (chain.map Subtype.val).getD i []) grouped
      simp only [chain_getD i short]
      rw [hasRaw, dif_pos (chain.get ⟨i, short⟩).2]
      exact here
  · rw [serving.client attempt replica i n known up] at missing
    cases missing

include owners in
theorem probeReplica_good (serving : Serving src ring live has) (attempt replica : Nat)
    (ids : List (List UInt8)) (indices : List Nat) (hits : Hits)
    (good : hits.Good (fun n => n ∈ ring.addrs ∧ live n)) :
    (probeReplica src attempt ring ids indices replica hits).hits.Good (fun n => n ∈ ring.addrs ∧ live n) := by
  apply settleAll_good
  · exact good
  · intro b arrives present answered
    obtain ⟨⟨x, inside, _⟩, formed⟩ :=
      probeReplica_formed serving.arrival attempt replica ids (fun _ => True) indices (fun _ _ => trivial) b arrives
    have known := owners _ _ b.1 (formed x inside).2.2
    refine ⟨known, ?_⟩
    by_contra down
    obtain ⟨e, failed⟩ := serving.fails attempt replica b.1 (b.2.map Prod.snd) known down
    rw [failed] at answered
    cases answered

include owners in
theorem probeLoop_good (serving : Serving src ring live has) (attempt : Nat) (ids : List (List UInt8))
    (left replica : Nat) (probe : List Nat) (hits : Hits) (wrongEpoch : Bool)
    (good : hits.Good (fun n => n ∈ ring.addrs ∧ live n)) :
    (probeLoop src attempt ring ids left replica probe hits wrongEpoch).1.Good
      (fun n => n ∈ ring.addrs ∧ live n) := by
  induction left generalizing replica probe hits wrongEpoch with
  | zero => exact good
  | succ left ih =>
    simp only [probeLoop]
    split
    · exact good
    · exact ih _ _ _ _ (probeReplica_good owners serving attempt replica ids probe hits good)

theorem probeLoop_present (attempt : Nat) (ids : List (List UInt8)) (left replica : Nat) (probe : List Nat)
    (hits : Hits) (wrongEpoch : Bool) (i : Nat) (here : hits.present i = true) :
    (probeLoop src attempt ring ids left replica probe hits wrongEpoch).1.present i = true := by
  induction left generalizing replica probe hits wrongEpoch with
  | zero => exact here
  | succ left ih =>
    simp only [probeLoop]
    split
    · exact here
    · exact ih _ _ _ _ (probeReplica_present attempt replica ids probe hits i here)

include owners in
theorem probeLoop_finds (serving : Serving src ring live has) (attempt left replica : Nat) (probe : List Nat)
    (inside : ∀ i ∈ probe, i < chain.length) (hits : Hits) (wrongEpoch : Bool) (i : Nat) (short : i < chain.length)
    (last : Nat) (low : replica ≤ last) (high : last < replica + left)
    (earlier : ∀ r, r ≤ last → ∃ m, ownerOf ring (chain.get ⟨i, short⟩).1 r = some m) (n : String)
    (owned : ownerOf ring (chain.get ⟨i, short⟩).1 last = some n) (up : live n)
    (here : has n (chain.get ⟨i, short⟩) = true) (todo : hits.present i = true ∨ i ∈ probe) :
    (probeLoop src attempt ring (chain.map Subtype.val) left replica probe hits wrongEpoch).1.present i = true := by
  induction left generalizing replica probe hits wrongEpoch with
  | zero => omega
  | succ left ih =>
    rcases todo with found | member
    · exact probeLoop_present attempt _ _ _ _ _ _ i found
    · have some_ : probe ≠ [] := List.ne_nil_of_mem member
      simp only [probeLoop, if_neg some_]
      rcases Nat.eq_or_lt_of_le low with now | later
      · subst now
        apply probeLoop_present
        exact probeReplica_finds owners serving attempt replica probe inside hits i short member n owned up here
      · obtain ⟨m, current⟩ := earlier replica low
        rw [← chain_getD i short] at current
        refine ih (replica + 1) _ ?_ _ _ later (by omega) ?_
        · exact probeReplica_retry serving.arrival attempt replica _ (· < chain.length) probe inside hits
        · exact probeReplica_covers serving.arrival attempt replica _ probe hits i member m current

theorem depthLoop_full (present : Nat → Bool) (left depth : Nat)
    (all : ∀ i, depth ≤ i → i < depth + left → present i = true) : depthLoop present left depth = depth + left := by
  induction left generalizing depth with
  | zero => rfl
  | succ left ih =>
    rw [depthLoop, if_pos (all depth (Nat.le_refl _) (by omega)), ih (depth + 1) (fun i low high =>
      all i (by omega) (by omega))]
    omega

include owners in
/-- If every id of the chain has a live owner among the first `rf` that has it, the whole chain matches, and the
refs are addresses of live nodes. -/
theorem matchOnRing_full (serving : Serving src ring live has) (rf attempt : Nat)
    (covered : ∀ id ∈ chain, ∃ last < rf, ∃ n, ownerOf ring id.1 last = some n ∧ live n ∧ has n id = true ∧
      ∀ r ≤ last, ∃ m, ownerOf ring id.1 r = some m) :
    (matchOnRing src rf attempt ring (chain.map Subtype.val)).1.matchedDepth = UInt32.ofNat chain.length ∧
    (matchOnRing src rf attempt ring (chain.map Subtype.val)).1.refs.length = chain.length ∧
    ∀ ref ∈ (matchOnRing src rf attempt ring (chain.map Subtype.val)).1.refs,
      ∃ n, live n ∧ ring.addrs.lookup n = some ref.nodeAddr := by
  have inside : ∀ i ∈ List.range (chain.map Subtype.val).length, i < chain.length := by
    intro i member
    simpa using member
  have found : ∀ i, i < chain.length → (probeLoop src attempt ring (chain.map Subtype.val) rf 0
      (List.range (chain.map Subtype.val).length) ⟨fun _ => false, fun _ => ""⟩ false).1.present i = true := by
    intro i short
    obtain ⟨last, high, n, owned, up, here, earlier⟩ := covered _ (List.get_mem chain ⟨i, short⟩)
    exact probeLoop_finds owners serving attempt rf 0 _ inside _ false i short last (Nat.zero_le _) (by omega)
      earlier n owned up here (Or.inr (by simpa using short))
  have good := probeLoop_good owners serving attempt (chain.map Subtype.val) rf 0
    (List.range (chain.map Subtype.val).length) ⟨fun _ => false, fun _ => ""⟩ false nofun
  simp only [matchOnRing]
  generalize probeLoop src attempt ring (chain.map Subtype.val) rf 0 (List.range (chain.map Subtype.val).length)
    ⟨fun _ => false, fun _ => ""⟩ false = out at found good ⊢
  have depth : depthLoop out.1.present (chain.map Subtype.val).length 0 = chain.length := by
    rw [depthLoop_full, List.length_map, Nat.zero_add]
    intro i _ high
    rw [List.length_map, Nat.zero_add] at high
    exact found i high
  rw [depth]
  refine ⟨rfl, by simp, ?_⟩
  intro ref member
  obtain ⟨i, short, rfl⟩ := List.mem_map.mp member
  obtain ⟨known, up⟩ := good i (found i (List.mem_range.mp short))
  obtain ⟨addr, at_⟩ := Finmap.mem_iff.mp known
  exact ⟨out.1.holders i, up, by rw [at_]; rfl⟩

end Rounds

theorem matchChain_fixed (src : Source) (rf : Nat) (chain : List (List UInt8)) (ring : Ring)
    (formed : chain.find? (fun id => decide (id.length ≠ hashSize)) = none)
    (shown : ∀ read, src.ring read = some ring) (some_ : ring.size ≠ 0) (full : chain ≠ []) :
    matchChain src rf chain = .ok (matchOnRing src rf 0 ring chain).1 := by
  have once : attemptOn src rf 0 0 chain = some (ring, matchOnRing src rf 0 ring chain) := by
    simp only [attemptOn, shown, some_, full, or_self, if_false]
  have fixed : (src.ring 1).any (fun newer => decide (newer.epoch > ring.epoch)) = false := by
    simp [shown]
  simp only [matchChain, formed, once, fixed, Bool.and_false, Bool.false_eq_true, if_false]

theorem ownerOf_newRing (point : String → Nat → Nat) (epoch : Nat) (nodes : AList (fun _ : String => String))
    (vnodesPerNode : Int) (id : List UInt8) (replica : Nat) :
    ownerOf (Hashring.newRing point epoch nodes vnodesPerNode) id replica =
      (Hashring.clockwise (Hashring.placed point (Hashring.vnodeCount vnodesPerNode) nodes.keys)
        (Hashring.uint64 id))[replica]? := by
  rw [ownerOf, Ring.owners, Hashring.newRing_ownersAt, List.getElem?_take, if_pos (Nat.lt_succ_self _)]

/-- A ring is changed by joins and removals, and some of its nodes are unreachable, fewer than `rf` changes and
losses in all. If every block of a chain is on all its old owners that can be reached on the new ring, and the
nodes that can be reached have clients and run the `Contains` of a cache node that accepts the epoch, `Match` on
the new ring finds the whole chain and, addresses being distinct, refers to no unreachable node. -/
theorem match_through_churn {F : Type} (fl : Blockstore.Float64 F) (point : String → Nat → Nat) (vnodesPerNode : Int)
    (epoch epoch' rf : Nat) (nodes nodes' : AList (fun _ : String => String)) (large : rf ≤ nodes.keys.length)
    (ops : List Hashring.Churn) (churned : nodes'.toFinmap = Hashring.churn nodes.toFinmap ops)
    (down : Finset String) (few : ops.length + down.card < rf)
    (blocks : String → BlockID → Option Block) (chain : List BlockID)
    (resident : ∀ id ∈ chain, ∀ n ∈ (Hashring.newRing point epoch nodes vnodesPerNode).owners id.1 rf,
      n ∈ nodes' → n ∉ down → (blocks n id).isSome = true)
    (src : Source) (shown : ∀ read, src.ring read = some (Hashring.newRing point epoch' nodes' vnodesPerNode))
    (arrival : ∀ attempt replica batches, (src.arrival attempt replica batches).Perm batches)
    (client : ∀ attempt replica i n, n ∈ nodes' → n ∉ down → src.client attempt replica i n = true)
    (reached : ∀ attempt replica n ids, n ∈ nodes' → n ∉ down → ∃ store : Blockstore.Store F, ∃ seen,
      store.Rep (blocks n) ∧ Cachenode.checkEpoch seen epoch' = .ok () ∧
      src.contains attempt replica n ids = (Cachenode.contains fl seen epoch' ids store).1)
    (unreachable : ∀ attempt replica n ids, n ∈ down → ∃ e, src.contains attempt replica n ids = .error e) :
    ∃ resp, matchChain src rf (chain.map Subtype.val) = .ok resp ∧
      resp.matchedDepth = UInt32.ofNat chain.length ∧ resp.refs.length = chain.length ∧
      ((∀ n m addr, nodes'.lookup n = some addr → nodes'.lookup m = some addr → n = m) →
        ∀ ref ∈ resp.refs, ∀ n ∈ down, nodes'.lookup n ≠ some ref.nodeAddr) := by
  have formed : (chain.map Subtype.val).find? (fun id => decide (id.length ≠ hashSize)) = none := by
    rw [List.find?_eq_none]
    intro raw member
    obtain ⟨id, _, rfl⟩ := List.mem_map.mp member
    simpa using id.2
  by_cases empty : chain = []
  · subst empty
    refine ⟨⟨0, [], 0⟩, ?_, rfl, rfl, fun _ _ member => absurd member List.not_mem_nil⟩
    simp [matchChain, attemptOn, shown]
  · have owners : ∀ id replica n, ownerOf (Hashring.newRing point epoch' nodes' vnodesPerNode) id replica = some n →
        n ∈ (Hashring.newRing point epoch' nodes' vnodesPerNode).addrs :=
      fun id replica n owned => mem_addrs_of_owner point epoch' nodes' vnodesPerNode id replica n owned
    have serving : Serving src (Hashring.newRing point epoch' nodes' vnodesPerNode) (· ∉ down)
        (fun n id => (blocks n id).isSome) := by
      refine ⟨arrival, client, ?_, ?_⟩
      · intro attempt replica n ids member up
        obtain ⟨store, seen, rep, accepts, same⟩ := reached attempt replica n (ids.map Subtype.val) member up
        rw [same, Cachenode.contains, accepts]
        exact Cachenode.containsLoop_eq fl ids [] store rep
      · intro attempt replica n ids _ lost
        exact unreachable attempt replica n ids (not_not.mp lost)
    have covered : ∀ id ∈ chain, ∃ last < rf, ∃ n,
        ownerOf (Hashring.newRing point epoch' nodes' vnodesPerNode) id.1 last = some n ∧ n ∉ down ∧
        (blocks n id).isSome = true ∧
        ∀ r ≤ last, ∃ m, ownerOf (Hashring.newRing point epoch' nodes' vnodesPerNode) id.1 r = some m := by
      intro id member
      obtain ⟨n, old, up, last, high, found⟩ := Hashring.exists_live_owner point vnodesPerNode epoch rf nodes nodes'
        large ops churned down few (Hashring.uint64 id.1)
      have owned := (ownerOf_newRing point epoch' nodes' vnodesPerNode id.1 last).trans found
      refine ⟨last, high, n, owned, up, resident id member n old (owners _ _ n owned) up, ?_⟩
      intro r below
      have inside := (List.getElem?_eq_some_iff.mp found).1
      rw [ownerOf_newRing]
      exact ⟨_, List.getElem?_eq_getElem (by omega)⟩
    obtain ⟨depth, length, live⟩ := matchOnRing_full owners serving rf 0 covered
    have some_ : (Hashring.newRing point epoch' nodes' vnodesPerNode).size ≠ 0 := by
      obtain ⟨id, member⟩ := List.exists_mem_of_ne_nil chain empty
      obtain ⟨last, _, n, owned, _⟩ := covered id member
      rw [Hashring.newRing_size]
      exact Nat.pos_iff_ne_zero.mp (List.length_pos_of_mem (owners _ _ n owned))
    have full : chain.map Subtype.val ≠ [] := fun none_ => empty (List.map_eq_nil_iff.mp none_)
    refine ⟨_, matchChain_fixed src rf _ _ formed shown some_ full, depth, length, ?_⟩
    intro distinct ref member n lost same
    obtain ⟨m, up, at_⟩ := live ref member
    exact up (distinct n m ref.nodeAddr same at_ ▸ lost)

def sampleStored : Block :=
  ⟨⟨List.replicate 32 0, rfl⟩, ⟨List.replicate 32 0, rfl⟩, "m", sampleBlock.payload, 1, 1⟩

def sampleStore : Blockstore.Lru := ((Blockstore.newLRU 1000).put sampleStored).store

theorem sampleStore_rep : sampleStore.Rep (Function.update (fun _ => none) sampleStored.id (some sampleStored)) := by
  rcases (Blockstore.newLRU_rep 1000).put sampleStored with panics | ⟨refused, _⟩ | ⟨_, _, rep⟩
  · exact absurd panics (by decide)
  · exact absurd refused (by decide)
  · exact rep

/-- The nodes `a`, `b` and `c` of which `a` cannot be reached. -/
def sampleSource : Source where
  ring := fun _ => some (sampleRing 2 ["a", "b"])
  client := fun _ _ _ _ => true
  contains := fun _ _ n ids =>
    if n = "a" then .error ⟨.unavailable, "unavailable"⟩
    else (Cachenode.contains Blockstore.sampleFloat none 2 ids (.lru sampleStore)).1
  arrival := fun _ _ batches => batches

/-- With three replicas a block survives the removal of `c` and the loss of `a`. -/
theorem sampleSource_match : ∃ resp, matchChain sampleSource 3 [sampleStored.id.1] = .ok resp ∧
    resp.matchedDepth = 1 ∧ ∀ ref ∈ resp.refs, ref.nodeAddr ≠ "a" := by
  obtain ⟨resp, answered, depth, _, apart⟩ := match_through_churn Blockstore.sampleFloat Hashring.samplePoint 1 1 2 3
    (["a", "b", "c"].map (fun id => ⟨id, id⟩)).toAList (["a", "b"].map (fun id => ⟨id, id⟩)).toAList (by decide)
    [.remove "c"] (by decide) {"a"} (by decide)
    (fun _ => Function.update (fun _ => none) sampleStored.id (some sampleStored)) [sampleStored.id]
    (by
      intro id member n _ _ _
      rw [List.mem_singleton.mp member, Function.update_self]
      rfl)
    sampleSource (fun _ => rfl) (fun _ _ _ => List.Perm.refl _) (fun _ _ _ _ _ _ => rfl)
    (by
      intro attempt replica n ids _ up
      refine ⟨.lru sampleStore, none, sampleStore_rep, rfl, ?_⟩
      exact if_neg (fun same => up (Finset.mem_singleton.mpr same)))
    (by
      intro attempt replica n ids lost
      exact ⟨_, if_pos (Finset.mem_singleton.mp lost)⟩)
  refine ⟨resp, answered, depth, ?_⟩
  intro ref member same
  refine apart ?_ ref member "a" (by decide) (by rw [same]; decide)
  intro n m addr first second
  have own : ∀ k, (["a", "b"].map (fun id => (⟨id, id⟩ : Sigma (fun _ : String => String)))).toAList.lookup k =
      some addr → k = addr := by
    intro k found
    have listed := AList.mem_lookup_iff.mp found
    have entries : (["a", "b"].map (fun id => (⟨id, id⟩ : Sigma (fun _ : String => String)))).toAList.entries =
        [⟨"a", "a"⟩, ⟨"b", "b"⟩] := by decide
    rw [entries] at listed
    rcases List.mem_cons.mp listed with same | rest
    · cases same
      rfl
    · cases List.mem_singleton.mp rest
      rfl
  exact (own n first).trans (own m second).symm

end PrefixMesh.Gateway
