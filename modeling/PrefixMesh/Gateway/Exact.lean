import PrefixMesh.Gateway.Match
import PrefixMesh.Hashring.Owners

/-! What `Match` answers, in terms of what it asked. An `Exchange` is one batch with the
answer to it, and `fanout` lists the exchanges of one call of `matchOnRing`. A block is a
position of the chain: an id that occurs twice is asked for twice, and nothing makes a
node answer both times the same. -/

namespace PrefixMesh.Gateway

open Hashring (Ring)

section Placement

variable (point : String → Nat → Nat) (epoch : Nat) (nodes : AList (fun _ : String => String)) (vnodesPerNode : Int)

/-- Replica `r` of `Match` is number `r` of the owners that `PutBlocks` writes to. -/
theorem ownerOf_owners (id : List UInt8) (r : Nat) (rf : Int) (low : (r : Int) < rf) :
    ownerOf (Hashring.newRing point epoch nodes vnodesPerNode) id r =
      ((Hashring.newRing point epoch nodes vnodesPerNode).owners id rf)[r]? := by
  rw [ownerOf_newRing, Hashring.newRing_owners, List.getElem?_take, if_pos (by omega)]

theorem mem_owners_iff (id : List UInt8) (rf : Int) (node : String) :
    node ∈ (Hashring.newRing point epoch nodes vnodesPerNode).owners id rf ↔ ∃ r : Nat, (r : Int) < rf ∧
      ownerOf (Hashring.newRing point epoch nodes vnodesPerNode) id r = some node := by
  rw [List.mem_iff_getElem?]
  constructor
  · rintro ⟨r, found⟩
    have low : (r : Int) < rf := by
      have inside := (List.getElem?_eq_some_iff.mp found).1
      rw [Hashring.newRing_owners_length] at inside
      omega
    exact ⟨r, low, (ownerOf_owners point epoch nodes vnodesPerNode id r rf low).trans found⟩
  · rintro ⟨r, low, owned⟩
    exact ⟨r, (ownerOf_owners point epoch nodes vnodesPerNode id r rf low).symm.trans owned⟩

/-- The owners of a key, for every map of nodes in every order of iteration: as many as asked for and there are,
all different, in the order in which a walk over the sorted vnodes from the key on meets them, and before all that it
meets later. More owners begin with fewer, so a block goes to the nodes that `Match` asks for it, in their order. -/
theorem owners_clockwise (vnodes : List Hashring.VNode) (sorted : vnodes.Pairwise Hashring.VNode.before)
    (all : vnodes.Perm (nodes.keys.flatMap (Hashring.vnodesOf point (Hashring.vnodeCount vnodesPerNode))))
    (key : List UInt8) (_long : 8 ≤ key.length) (n : Int) :
    let ring := Hashring.newRing point epoch nodes vnodesPerNode
    let walk := Hashring.walkFrom vnodes (Hashring.uint64 key)
    (ring.owners key n).length = min n.toNat nodes.keys.length ∧ (ring.owners key n).Nodup ∧
    (∀ id ∈ ring.owners key n, id ∈ nodes) ∧
    (ring.owners key n).Pairwise (fun a b => walk.idxOf a < walk.idxOf b) ∧
    (∀ a ∈ ring.owners key n, ∀ b ∈ nodes, b ∉ ring.owners key n → walk.idxOf a < walk.idxOf b) ∧
    (∀ nodes' : AList (fun _ : String => String), nodes'.toFinmap = nodes.toFinmap →
      (Hashring.newRing point epoch nodes' vnodesPerNode).owners key n = ring.owners key n) ∧
    (∀ m ≤ n, ring.owners key m <+: ring.owners key n) ∧
    (∀ r : Nat, (r : Int) < n → ownerOf ring key r = (ring.owners key n)[r]?) ∧
    ∀ block : WireBlock, block.blockId = key → block.blockId.length = hashSize → ring.size ≠ 0 →
      ∃ byOwner, routeLoop n [⟨some block, some ring⟩] ∅ = some byOwner ∧ ∀ node,
        block ∈ (byOwner.lookup node).getD [] ↔ ∃ r : Nat, (r : Int) < n ∧ ownerOf ring key r = some node := by
  intro ring walk
  have placed := Hashring.placed_unique point _ nodes.keys vnodes sorted all
  obtain ⟨among, across⟩ := Hashring.newRing_owners_order point epoch nodes vnodesPerNode key n
  rw [← placed] at among across
  refine ⟨Hashring.newRing_owners_length point epoch nodes vnodesPerNode key n,
    Hashring.newRing_owners_nodup point epoch nodes vnodesPerNode key n,
    Hashring.mem_newRing_owners point epoch nodes vnodesPerNode key n, among, across, ?_,
    fun m less => Hashring.newRing_owners_le point epoch nodes vnodesPerNode key m n less,
    fun r low => ownerOf_owners point epoch nodes vnodesPerNode key r n low, ?_⟩
  · intro nodes' same
    rw [Hashring.newRing_congr point epoch vnodesPerNode same]
  · intro block named sized some_
    obtain ⟨byOwner, routed⟩ : ∃ byOwner, routeLoop n [⟨some block, some ring⟩] ∅ = some byOwner := by
      simp [routeLoop, sized, some_]
    refine ⟨byOwner, routed, ?_⟩
    intro node
    rw [routeLoop_mem n _ ∅ byOwner routed node block, ← mem_owners_iff point epoch nodes vnodesPerNode key n node,
      ← named]
    simp [Routed, ring]

end Placement

/-- The walk of a key between `b` and `c` meets `c`, `a` and then `b`. -/
theorem sampleRing_clockwise :
    let ring := Hashring.newRing Hashring.samplePoint 3 (["a", "b", "c"].map fun id => ⟨id, id⟩).toAList 1
    let walk := Hashring.walkFrom [⟨0x0ab14df98e9ade65, "b"⟩, ⟨0x1362ad7ec170f91f, "c"⟩, ⟨0xa090a256cb93456a, "a"⟩]
      (Hashring.uint64 (List.replicate 32 16))
    walk = ["c", "a", "b"] ∧ ring.owners (List.replicate 32 16) 2 = ["c", "a"] ∧
      (ring.owners (List.replicate 32 16) 2).Pairwise (fun a b => walk.idxOf a < walk.idxOf b) := by
  obtain ⟨_, _, _, among, _⟩ := owners_clockwise Hashring.samplePoint 3 (["a", "b", "c"].map fun id => ⟨id, id⟩).toAList
    1 [⟨0x0ab14df98e9ade65, "b"⟩, ⟨0x1362ad7ec170f91f, "c"⟩, ⟨0xa090a256cb93456a, "a"⟩] (by decide) (by decide)
    (List.replicate 32 16) (by decide) 2
  exact ⟨by decide, by decide, among⟩

structure Exchange where
  replica : Nat
  node : String
  batch : Batch
  answer : Except Status (List Bool)

/-- The answer has a true at the place of position `i`. A short answer tells nothing about the rest. -/
def told (batch : Batch) (present : List Bool) (i : Nat) : Bool :=
  (batch.zip present).any fun x => decide (x.1.1 = i) && x.2

def Exchange.reports (e : Exchange) (i : Nat) : Bool :=
  match e.answer with
  | .error _ => false
  | .ok present => told e.batch present i

def Exchange.rejected (e : Exchange) : Bool :=
  match e.answer with
  | .error e => decide (e.code = .failedPrecondition)
  | .ok _ => false

def exchanges (src : Source) (attempt : Nat) (ring : Ring) (chain : List (List UInt8)) (indices : List Nat)
    (replica : Nat) : List Exchange :=
  (src.arrival attempt replica ((groupLoop ring chain replica (src.client attempt replica) indices ∅
    []).1.entries.map (fun entry => (entry.1, entry.2)))).map
      fun b => ⟨replica, b.1, b.2, src.contains attempt replica b.1 (b.2.map Prod.snd)⟩

def fanoutLoop (src : Source) (attempt : Nat) (ring : Ring) (chain : List (List UInt8)) :
    Nat → Nat → List Nat → Hits → List Exchange
  | 0, _, _, _ => []
  | left + 1, replica, probe, hits =>
      if probe = [] then []
      else
        let round := probeReplica src attempt ring chain probe replica hits
        exchanges src attempt ring chain probe replica ++
          fanoutLoop src attempt ring chain left (replica + 1) round.retry round.hits

def fanout (src : Source) (rf attempt : Nat) (ring : Ring) (chain : List (List UInt8)) : List Exchange :=
  fanoutLoop src attempt ring chain rf 0 (List.range chain.length) ⟨fun _ => false, fun _ => ""⟩

def Reported (src : Source) (rf attempt : Nat) (ring : Ring) (chain : List (List UInt8)) (i : Nat) (n : String) :
    Prop :=
  ∃ e ∈ fanout src rf attempt ring chain, e.node = n ∧ e.reports i = true

theorem probeReplica_eq (src : Source) (attempt : Nat) (ring : Ring) (chain : List (List UInt8)) (indices : List Nat)
    (replica : Nat) (hits : Hits) :
    probeReplica src attempt ring chain indices replica hits =
      (exchanges src attempt ring chain indices replica).foldl (fun r e => settle e.answer e.node e.batch r)
        ⟨hits, (groupLoop ring chain replica (src.client attempt replica) indices ∅ []).2, false⟩ := by
  rw [exchanges, List.foldl_map]
  rfl

theorem settleLoop_hits (node : String) (batch : Batch) (present : List Bool) (r : Round) (i : Nat) :
    (settleLoop node batch present r).hits.present i = (r.hits.present i || told batch present i) ∧
    (settleLoop node batch present r).hits.holders i =
      if told batch present i = true then node else r.hits.holders i := by
  induction batch generalizing present r with
  | nil => simp [settleLoop, told]
  | cons x rest ih =>
    cases present with
    | nil => simpa [settleLoop, told] using ih [] { r with retry := r.retry ++ [x.1] }
    | cons b present =>
      have next : told (x :: rest) (b :: present) i = (decide (x.1 = i) && b || told rest present i) := by
        simp [told]
      rw [next]
      cases b with
      | false =>
        rw [Bool.and_false, Bool.false_or]
        exact ih present { r with retry := r.retry ++ [x.1] }
      | true =>
        obtain ⟨there, holder⟩ := ih present { r with hits := r.hits.set x.1 node }
        simp only [settleLoop, List.head?_cons, List.tail_cons, if_true, there, holder, Bool.and_true]
        by_cases same : i = x.1
        · subst same
          simp [Hits.set]
        · simp [Hits.set, Function.update_of_ne same, Ne.symm same]

theorem settleLoop_wrongEpoch (node : String) (batch : Batch) (present : List Bool) (r : Round) :
    (settleLoop node batch present r).wrongEpoch = r.wrongEpoch := by
  induction batch generalizing present r with
  | nil => rfl
  | cons x rest ih =>
    simp only [settleLoop]
    split
    · exact ih _ _
    · exact ih _ _

theorem Exchange.settle_hits (e : Exchange) (r : Round) (i : Nat) :
    (settle e.answer e.node e.batch r).hits.present i = (r.hits.present i || e.reports i) ∧
    (settle e.answer e.node e.batch r).hits.holders i = if e.reports i = true then e.node else r.hits.holders i := by
  cases answered : e.answer with
  | error s => simp [settle, Exchange.reports, answered]
  | ok present => simpa only [settle, Exchange.reports, answered] using settleLoop_hits e.node e.batch present r i

theorem Exchange.settle_wrongEpoch (e : Exchange) (r : Round) :
    (settle e.answer e.node e.batch r).wrongEpoch = (r.wrongEpoch || e.rejected) := by
  cases answered : e.answer with
  | error s => simp [settle, Exchange.rejected, answered]
  | ok present => simpa [settle, Exchange.rejected, answered] using settleLoop_wrongEpoch e.node e.batch present r

structure Hits.Records (hits : Hits) (done : List Exchange) : Prop where
  present : ∀ i, hits.present i = true ↔ ∃ e ∈ done, e.reports i = true
  holders : ∀ i, hits.present i = true → ∃ e ∈ done, e.node = hits.holders i ∧ e.reports i = true

theorem Hits.records_nil : Hits.Records ⟨fun _ => false, fun _ => ""⟩ [] := ⟨by simp, by simp⟩

theorem Hits.Records.settle {r : Round} {done : List Exchange} (records : r.hits.Records done) (e : Exchange) :
    (Gateway.settle e.answer e.node e.batch r).hits.Records (done ++ [e]) := by
  have present : ∀ i, (Gateway.settle e.answer e.node e.batch r).hits.present i = true ↔
      ∃ x ∈ done ++ [e], x.reports i = true := by
    intro i
    rw [(e.settle_hits r i).1, Bool.or_eq_true, records.present i]
    simp only [List.mem_append, List.mem_singleton, or_and_right, exists_or, exists_eq_left]
  refine ⟨present, ?_⟩
  intro i there
  rw [(e.settle_hits r i).2]
  by_cases now : e.reports i = true
  · rw [if_pos now]
    exact ⟨e, by simp, rfl, now⟩
  · have before : r.hits.present i = true := by simpa [(e.settle_hits r i).1, now] using there
    obtain ⟨x, member, holder, reported⟩ := records.holders i before
    rw [if_neg now]
    exact ⟨x, List.mem_append_left _ member, holder, reported⟩

theorem Hits.Records.foldl (more : List Exchange) {r : Round} {done : List Exchange}
    (records : r.hits.Records done) :
    (more.foldl (fun r e => Gateway.settle e.answer e.node e.batch r) r).hits.Records (done ++ more) := by
  induction more generalizing r done with
  | nil => simpa using records
  | cons e rest ih => simpa using ih (records.settle e)

theorem foldl_wrongEpoch (more : List Exchange) (r : Round) :
    (more.foldl (fun r e => settle e.answer e.node e.batch r) r).wrongEpoch =
      (r.wrongEpoch || more.any Exchange.rejected) := by
  induction more generalizing r with
  | nil => simp
  | cons e rest ih => rw [List.foldl_cons, ih, e.settle_wrongEpoch, List.any_cons, Bool.or_assoc]

section Fanout

variable {src : Source} {attempt : Nat} {ring : Ring} {chain : List (List UInt8)}

theorem probeReplica_records (indices : List Nat) (replica : Nat) {hits : Hits} {done : List Exchange}
    (records : hits.Records done) :
    (probeReplica src attempt ring chain indices replica hits).hits.Records
      (done ++ exchanges src attempt ring chain indices replica) := by
  rw [probeReplica_eq]
  exact Hits.Records.foldl _ records

theorem probeLoop_records (left replica : Nat) (probe : List Nat) (hits : Hits) (wrongEpoch : Bool)
    {done : List Exchange} (records : hits.Records done) :
    (probeLoop src attempt ring chain left replica probe hits wrongEpoch).1.Records
      (done ++ fanoutLoop src attempt ring chain left replica probe hits) := by
  induction left generalizing replica probe hits wrongEpoch done with
  | zero => simpa [probeLoop, fanoutLoop] using records
  | succ left ih =>
    by_cases empty : probe = []
    · simpa [probeLoop, fanoutLoop, empty] using records
    · simp only [probeLoop, fanoutLoop, if_neg empty, ← List.append_assoc]
      exact ih _ _ _ _ (probeReplica_records probe replica records)

theorem probeLoop_wrongEpoch (left replica : Nat) (probe : List Nat) (hits : Hits) (wrongEpoch : Bool) :
    (probeLoop src attempt ring chain left replica probe hits wrongEpoch).2 =
      (wrongEpoch || (fanoutLoop src attempt ring chain left replica probe hits).any Exchange.rejected) := by
  induction left generalizing replica probe hits wrongEpoch with
  | zero => simp [probeLoop, fanoutLoop]
  | succ left ih =>
    by_cases empty : probe = []
    · simp [probeLoop, fanoutLoop, empty]
    · simp only [probeLoop, fanoutLoop, if_neg empty]
      rw [ih, probeReplica_eq, foldl_wrongEpoch, Bool.false_or, List.any_append, Bool.or_assoc]

variable (arrival : ∀ attempt replica batches, (src.arrival attempt replica batches).Perm batches)

include arrival in
theorem fanoutLoop_formed (left replica : Nat) (probe : List Nat) (inside : ∀ i ∈ probe, i < chain.length)
    (hits : Hits) (e : Exchange) (asked : e ∈ fanoutLoop src attempt ring chain left replica probe hits) :
    e.replica < replica + left ∧
    Formed ring chain e.replica (src.client attempt e.replica) (· < chain.length) e.node e.batch ∧
    e.answer = src.contains attempt e.replica e.node (e.batch.map Prod.snd) := by
  induction left generalizing replica probe hits with
  | zero => simp [fanoutLoop] at asked
  | succ left ih =>
    by_cases empty : probe = []
    · simp [fanoutLoop, empty] at asked
    · simp only [fanoutLoop, if_neg empty] at asked
      rcases List.mem_append.mp asked with now | later
      · obtain ⟨b, arrives, rfl⟩ := List.mem_map.mp now
        exact ⟨by simp only; omega,
          probeReplica_formed arrival attempt replica chain (· < chain.length) probe inside b arrives, rfl⟩
      · obtain ⟨low, rest⟩ := ih (replica + 1) _
          (probeReplica_retry arrival attempt replica chain (· < chain.length) probe inside hits) _ later
        exact ⟨by omega, rest⟩

include arrival in
theorem exchanges_covers (indices : List Nat) (replica i : Nat) (member : i ∈ indices) (n : String)
    (owned : ownerOf ring (chain.getD i []) replica = some n) (client : src.client attempt replica i n = true) :
    ∃ e ∈ exchanges src attempt ring chain indices replica, e.replica = replica ∧ e.node = n ∧
      (i, chain.getD i []) ∈ e.batch := by
  rcases groupLoop_covers ring chain replica (src.client attempt replica) indices ∅ [] i n member owned with
    grouped | ⟨missing, _⟩
  · cases found : (groupLoop ring chain replica (src.client attempt replica) indices ∅ []).1.lookup n with
    | none =>
      rw [found] at grouped
      cases grouped
    | some batch =>
      rw [found] at grouped
      have listed := List.mem_map_of_mem (f := fun entry : Sigma (fun _ : String => Batch) => (entry.1, entry.2))
        (AList.mem_lookup_iff.mp found)
      have arrives := (arrival attempt replica _).mem_iff.mpr listed
      exact ⟨_, List.mem_map_of_mem arrives, rfl, rfl, grouped⟩
  · rw [client] at missing
    cases missing

include arrival in
theorem fanoutLoop_covers (left replica : Nat) (probe : List Nat) (hits : Hits) {done : List Exchange}
    (records : hits.Records done) (i : Nat) (member : i ∈ probe) (last : Nat) (low : replica ≤ last)
    (high : last < replica + left)
    (earlier : ∀ r, r ≤ last → ∃ m, ownerOf ring (chain.getD i []) r = some m) (n : String)
    (owned : ownerOf ring (chain.getD i []) last = some n) (client : src.client attempt last i n = true)
    (silent : ∀ e ∈ done ++ fanoutLoop src attempt ring chain left replica probe hits, e.reports i = false) :
    ∃ e ∈ fanoutLoop src attempt ring chain left replica probe hits, e.replica = last ∧ e.node = n ∧
      (i, chain.getD i []) ∈ e.batch := by
  induction left generalizing replica probe hits done with
  | zero => omega
  | succ left ih =>
    have some_ : probe ≠ [] := List.ne_nil_of_mem member
    simp only [fanoutLoop, if_neg some_, ← List.append_assoc] at silent ⊢
    rcases Nat.eq_or_lt_of_le low with now | later
    · subst now
      obtain ⟨e, asked, rest⟩ := exchanges_covers arrival probe replica i member n owned client
      exact ⟨e, List.mem_append_left _ asked, rest⟩
    · obtain ⟨m, current⟩ := earlier replica low
      have round : (probeReplica src attempt ring chain probe replica hits).hits.Records
          (done ++ exchanges src attempt ring chain probe replica) := probeReplica_records probe replica records
      have again : i ∈ (probeReplica src attempt ring chain probe replica hits).retry := by
        refine (probeReplica_covers arrival attempt replica chain probe hits i member m current).resolve_left ?_
        intro found
        obtain ⟨e, asked, reported⟩ := (round.present i).mp found
        rw [silent e (List.mem_append_left _ asked)] at reported
        cases reported
      obtain ⟨e, asked, rest⟩ := ih (replica + 1) _ _ round again later (by omega) silent
      exact ⟨e, List.mem_append_right _ asked, rest⟩

end Fanout

theorem depthLoop_spec (present : Nat → Bool) (left depth : Nat) :
    depthLoop present left depth ≤ depth + left ∧
    (∀ i, depth ≤ i → i < depthLoop present left depth → present i = true) ∧
    (depthLoop present left depth < depth + left → present (depthLoop present left depth) = false) := by
  induction left generalizing depth with
  | zero => exact ⟨le_rfl, fun i low high => by simp only [depthLoop] at high; omega,
      fun high => by simp only [depthLoop] at high; omega⟩
  | succ left ih =>
    by_cases here : present depth = true
    · obtain ⟨most, before, after⟩ := ih (depth + 1)
      simp only [depthLoop, if_pos here]
      refine ⟨by omega, ?_, fun high => after (by omega)⟩
      intro i low high
      rcases Nat.eq_or_lt_of_le low with same | above
      · exact same ▸ here
      · exact before i above high
    · simp only [depthLoop, if_neg here]
      exact ⟨by omega, fun i low high => by omega, fun _ => by simpa using here⟩

/-- The answer of a fan-out, as exact as its exchanges: the refs are those of the longest run of reported blocks. -/
structure Exact (src : Source) (rf attempt : Nat) (ring : Ring) (chain : List (List UInt8)) (resp : MatchResponse) :
    Prop where
  asked : ∀ e ∈ fanout src rf attempt ring chain, e.replica < rf ∧
    Formed ring chain e.replica (src.client attempt e.replica) (· < chain.length) e.node e.batch ∧
    e.answer = src.contains attempt e.replica e.node (e.batch.map Prod.snd)
  everywhere : ∀ i id, chain[i]? = some id → (∀ n, ¬Reported src rf attempt ring chain i n) →
    ∀ r n, (ring.owners id rf)[r]? = some n → src.client attempt r i n = true →
      ∃ e ∈ fanout src rf attempt ring chain, e.replica = r ∧ e.node = n ∧ (i, id) ∈ e.batch
  refs : ∀ i ref, resp.refs[i]? = some ref → chain[i]? = some ref.blockId ∧ ∃ n ∈ ring.owners ref.blockId rf,
    Reported src rf attempt ring chain i n ∧ ring.addrs.lookup n = some ref.nodeAddr
  longest : ∀ n, ¬Reported src rf attempt ring chain resp.refs.length n
  matchedDepth : resp.matchedDepth = UInt32.ofNat resp.refs.length
  counted : chain.length < 2 ^ 32 → resp.matchedDepth.toNat = resp.refs.length
  ringEpoch : resp.ringEpoch = ring.epoch

private theorem getD_of_getElem? {chain : List (List UInt8)} {i : Nat} {id : List UInt8} (at_ : chain[i]? = some id) :
    chain.getD i [] = id := by
  rw [List.getD_eq_getElem?_getD, at_, Option.getD_some]

private theorem owner_of_reported {src : Source} {rf attempt : Nat} {chain : List (List UInt8)}
    (point : String → Nat → Nat) (epoch : Nat) (nodes : AList (fun _ : String => String)) (vnodesPerNode : Int)
    (arrival : ∀ attempt replica batches, (src.arrival attempt replica batches).Perm batches) (i : Nat) (n : String)
    (reported : Reported src rf attempt (Hashring.newRing point epoch nodes vnodesPerNode) chain i n) :
    i < chain.length ∧ n ∈ (Hashring.newRing point epoch nodes vnodesPerNode).owners (chain.getD i []) rf := by
  obtain ⟨e, member, rfl, told_⟩ := reported
  obtain ⟨low, ⟨_, formed⟩, _⟩ := fanoutLoop_formed arrival rf 0 _ (fun i => List.mem_range.mp) _ e member
  unfold Exchange.reports at told_
  split at told_
  · cases told_
  next present _ =>
    obtain ⟨⟨x, b⟩, inside, both⟩ := List.any_eq_true.mp told_
    rw [Bool.and_eq_true, decide_eq_true_eq] at both
    obtain ⟨rfl, _⟩ := both
    obtain ⟨within, same, owned⟩ := formed x (List.of_mem_zip inside).1
    rw [same] at owned
    refine ⟨within, ?_⟩
    exact (mem_owners_iff point epoch nodes vnodesPerNode _ rf e.node).mpr ⟨e.replica, by omega, owned⟩

theorem matchOnRing_exact (src : Source) (rf attempt : Nat) (chain : List (List UInt8))
    (point : String → Nat → Nat) (epoch : Nat) (nodes : AList (fun _ : String => String)) (vnodesPerNode : Int)
    (arrival : ∀ attempt replica batches, (src.arrival attempt replica batches).Perm batches) :
    Exact src rf attempt (Hashring.newRing point epoch nodes vnodesPerNode) chain
      (matchOnRing src rf attempt (Hashring.newRing point epoch nodes vnodesPerNode) chain).1 := by
  have records : (probeLoop src attempt (Hashring.newRing point epoch nodes vnodesPerNode) chain rf 0
      (List.range chain.length) ⟨fun _ => false, fun _ => ""⟩ false).1.Records
      (fanout src rf attempt (Hashring.newRing point epoch nodes vnodesPerNode) chain) :=
    probeLoop_records rf 0 _ _ false Hits.records_nil
  simp only [matchOnRing]
  generalize (probeLoop src attempt (Hashring.newRing point epoch nodes vnodesPerNode) chain rf 0
    (List.range chain.length) ⟨fun _ => false, fun _ => ""⟩ false).1 = hits at records ⊢
  obtain ⟨most, before, after⟩ := depthLoop_spec hits.present chain.length 0
  generalize depthLoop hits.present chain.length 0 = depth at most before after ⊢
  have reported : ∀ i, (∃ n, Reported src rf attempt (Hashring.newRing point epoch nodes vnodesPerNode) chain i n) ↔
      hits.present i = true := by
    intro i
    rw [records.present i]
    constructor
    · rintro ⟨_, e, member, _, told_⟩
      exact ⟨e, member, told_⟩
    · rintro ⟨e, member, told_⟩
      exact ⟨_, e, member, rfl, told_⟩
  refine ⟨?_, ?_, ?_, ?_, by simp, ?_, rfl⟩
  · intro e member
    obtain ⟨low, rest⟩ := fanoutLoop_formed arrival rf 0 _ (fun i => List.mem_range.mp) _ e member
    exact ⟨by omega, rest⟩
  · intro i id at_ silent r n owner client
    have inside := (List.getElem?_eq_some_iff.mp at_).1
    have low : r < rf := by
      have short := (List.getElem?_eq_some_iff.mp owner).1
      rw [Hashring.newRing_owners_length] at short
      omega
    have owned := (ownerOf_owners point epoch nodes vnodesPerNode id r rf (by omega)).trans owner
    rw [← getD_of_getElem? at_] at owned ⊢
    refine fanoutLoop_covers arrival rf 0 _ _ Hits.records_nil i (List.mem_range.mpr inside) r
      (Nat.zero_le _) (by omega) ?_ n owned client ?_
    · -- replicas before the `r`-th exist as well
      intro q less
      rw [ownerOf_newRing] at owned ⊢
      have enough := (List.getElem?_eq_some_iff.mp owned).1
      exact ⟨_, List.getElem?_eq_getElem (by omega)⟩
    · intro e member
      rw [← Bool.not_eq_true]
      intro told_
      rw [List.nil_append] at member
      exact silent e.node ⟨e, member, rfl, told_⟩
  · intro i ref found
    rw [List.getElem?_map, Option.map_eq_some_iff] at found
    obtain ⟨k, place, rfl⟩ := found
    obtain ⟨short, same⟩ := List.getElem?_eq_some_iff.mp place
    rw [List.getElem_range] at same
    subst same
    rw [List.length_range] at short
    have there := before i (Nat.zero_le _) short
    obtain ⟨e, member, holder, told_⟩ := records.holders i there
    have saw : Reported src rf attempt (Hashring.newRing point epoch nodes vnodesPerNode) chain i (hits.holders i) :=
      ⟨e, member, holder, told_⟩
    obtain ⟨inside, owner⟩ := owner_of_reported point epoch nodes vnodesPerNode arrival i _ saw
    refine ⟨?_, hits.holders i, owner, saw, ?_⟩
    · rw [List.getD_eq_getElem?_getD, List.getElem?_eq_getElem inside, Option.getD_some]
    · obtain ⟨addr, at_⟩ := Finmap.mem_iff.mp
        (Finmap.mem_toFinmap.mpr (Hashring.mem_newRing_owners point epoch nodes vnodesPerNode _ _ _ owner))
      rw [Hashring.newRing_addrs, at_]
      rfl
  · intro n saw
    rw [List.length_map, List.length_range] at saw
    have inside := (owner_of_reported point epoch nodes vnodesPerNode arrival depth n saw).1
    have absent := after (by omega)
    rw [(reported depth).mp ⟨n, saw⟩] at absent
    cases absent
  · intro small
    rw [List.length_map, List.length_range, UInt32.toNat_ofNat']
    exact Nat.mod_eq_of_lt (by omega)

theorem matchOnRing_rejected (src : Source) (rf attempt : Nat) (ring : Ring) (chain : List (List UInt8)) :
    (matchOnRing src rf attempt ring chain).2 = (fanout src rf attempt ring chain).any Exchange.rejected := by
  simp only [matchOnRing, probeLoop_wrongEpoch, Bool.false_or]
  rfl

/-- What `Match` answers after an attempt: nothing if the ring it reads then is missing or empty. -/
def Answers (src : Source) (rf attempt : Nat) (chain : List (List UInt8)) (resp : MatchResponse) : Prop :=
  match src.ring (2 * attempt) with
  | none => resp = ⟨0, [], 0⟩
  | some ring => if ring.size = 0 ∨ chain = [] then resp = ⟨0, [], 0⟩ else Exact src rf attempt ring chain resp

private theorem attemptOn_answers (src : Source) (rf : Nat) (chain : List (List UInt8))
    (built : ∀ read ring, src.ring read = some ring → ∃ point epoch nodes vnodesPerNode,
      ring = Hashring.newRing point epoch nodes vnodesPerNode)
    (arrival : ∀ attempt replica batches, (src.arrival attempt replica batches).Perm batches) (attempt : Nat) :
    (attemptOn src rf attempt (2 * attempt) chain = none ∧ Answers src rf attempt chain ⟨0, [], 0⟩) ∨
    ∃ ring, src.ring (2 * attempt) = some ring ∧
      attemptOn src rf attempt (2 * attempt) chain = some (ring, matchOnRing src rf attempt ring chain) ∧
      Answers src rf attempt chain (matchOnRing src rf attempt ring chain).1 := by
  unfold attemptOn Answers
  cases shown : src.ring (2 * attempt) with
  | none => exact Or.inl ⟨rfl, rfl⟩
  | some ring =>
    by_cases nothing : ring.size = 0 ∨ chain = []
    · simp only [if_pos nothing]
      exact Or.inl ⟨trivial, trivial⟩
    · obtain ⟨point, epoch, nodes, vnodesPerNode, rfl⟩ := built _ ring shown
      simp only [if_neg nothing]
      exact Or.inr ⟨_, rfl, rfl, matchOnRing_exact src rf attempt chain point epoch nodes vnodesPerNode arrival⟩

/-- Whatever rings the source shows, whatever clients there are, whatever the nodes answer and in whatever order:
`Match` does one or two fan-outs, the second only after a rejection of the first and on the announcement of a newer
ring. Its answer is not an error; it is exact for the last ring it has read, and empty if there is nothing to ask. -/
theorem match_exact (src : Source) (rf : Nat) (chain : List (List UInt8))
    (sized : ∀ id ∈ chain, id.length = hashSize)
    (built : ∀ read ring, src.ring read = some ring → ∃ point epoch nodes vnodesPerNode,
      ring = Hashring.newRing point epoch nodes vnodesPerNode)
    (arrival : ∀ attempt replica batches, (src.arrival attempt replica batches).Perm batches) :
    ∃ resp attempt, matchChain src rf chain = .ok resp ∧ attempt ≤ 1 ∧
      (attempt = 1 → ∃ ring newer, src.ring 0 = some ring ∧ src.ring 1 = some newer ∧ ring.epoch < newer.epoch ∧
        ∃ e ∈ fanout src rf 0 ring chain, e.rejected = true) ∧
      Answers src rf attempt chain resp := by
  have formed : chain.find? (fun id => decide (id.length ≠ hashSize)) = none := by
    rw [List.find?_eq_none]
    intro id member
    simpa using sized id member
  rcases attemptOn_answers src rf chain built arrival 0 with ⟨none_, answers⟩ | ⟨ring, shown, some_, answers⟩
  · refine ⟨_, 0, ?_, by omega, by omega, answers⟩
    rw [Nat.mul_zero] at none_
    simp only [matchChain, formed, none_]
  · rw [Nat.mul_zero] at shown some_
    by_cases again : ((matchOnRing src rf 0 ring chain).2 &&
        (src.ring 1).any (fun newer => decide (newer.epoch > ring.epoch))) = true
    · obtain ⟨rejected, announced⟩ := (Bool.and_eq_true _ _).mp again
      obtain ⟨newer, next, greater⟩ := (Option.any_eq_true _ _).mp announced
      rw [matchOnRing_rejected] at rejected
      have reason := fun _ : (1 : Nat) = 1 =>
        (⟨ring, newer, shown, next, of_decide_eq_true greater, List.any_eq_true.mp rejected⟩ : ∃ ring newer,
          src.ring 0 = some ring ∧ src.ring 1 = some newer ∧ ring.epoch < newer.epoch ∧
          ∃ e ∈ fanout src rf 0 ring chain, e.rejected = true)
      rcases attemptOn_answers src rf chain built arrival 1 with ⟨none_, answers'⟩ | ⟨ring', _, some', answers'⟩
      · refine ⟨_, 1, ?_, le_rfl, reason, answers'⟩
        rw [Nat.mul_one] at none_
        simp only [matchChain, formed, some_, if_pos again, none_]
      · refine ⟨_, 1, ?_, le_rfl, reason, answers'⟩
        rw [Nat.mul_one] at some'
        simp only [matchChain, formed, some_, if_pos again, some']
    · refine ⟨_, 0, ?_, by omega, by omega, answers⟩
      simp only [matchChain, formed, some_, if_neg again]

/-- A chain of which the second block is nowhere, on a ring whose node `a` does not answer. -/
theorem sampleSource_exact :
    ∃ resp, matchChain sampleSource 2 [sampleStored.id.1, List.replicate 32 1] = .ok resp ∧
      Exact sampleSource 2 0 (sampleRing 2 ["a", "b"]) [sampleStored.id.1, List.replicate 32 1] resp := by
  obtain ⟨resp, attempt, answered, most, again, answers⟩ := match_exact sampleSource 2
    [sampleStored.id.1, List.replicate 32 1] (by decide)
    (fun _ ring shown => ⟨Hashring.samplePoint, 2, _, 1, (Option.some.inj shown).symm⟩)
    (fun _ _ _ => List.Perm.refl _)
  have once : attempt = 0 := by
    by_contra other
    obtain ⟨ring, newer, first, second, less, _⟩ := again (by omega)
    rw [show newer = ring from Option.some.inj (second.symm.trans first)] at less
    omega
  subst once
  refine ⟨resp, answered, ?_⟩
  unfold Answers at answers
  simpa only [sampleSource, if_neg (show ¬((sampleRing 2 ["a", "b"]).size = 0 ∨
    [sampleStored.id.1, List.replicate 32 1] = []) by decide)] using answers

end PrefixMesh.Gateway
