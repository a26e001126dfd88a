import Mathlib.Tactic.Ring
import PrefixMesh.Chain

/-! The requests of a worker of the load generator. A prompt is the system prompt of a
tenant, a document and a suffix; the worker asks the gateway for its chain, counts what
was matched and writes back the blocks behind that. -/

namespace PrefixMesh.Loadgen

def costPerTokenUS : UInt64 := 50

/-- The flags that a request depends on. The prompts of tenants and documents come from generators that are seeded by
their numbers; they are whole blocks. -/
structure Config where
  modelID : String
  blockSize : Nat
  positive : 0 < blockSize
  sysBlocks : Nat
  docBlocks : Nat
  payload : Nat
  short : payload < 2 ^ 63
  expensiveEvery : Int
  expensiveMult : UInt64
  tenantTokens : Nat → List UInt32
  docTokens : Nat → List UInt32
  tenantLength : ∀ tenant, (tenantTokens tenant).length = sysBlocks * blockSize
  docLength : ∀ doc, (docTokens doc).length = docBlocks * blockSize

structure Request (cfg : Config) where
  tenant : Nat
  doc : Nat
  suffix : {ts : List UInt32 // ts.length = cfg.blockSize}
  deriving DecidableEq

structure Metrics where
  blocksRequested : UInt64
  blocksHit : UInt64
  costRequestedUS : UInt64
  costSavedUS : UInt64
  fullHits : UInt64
  deriving DecidableEq

variable {cfg : Config}

def Config.docCostMult (cfg : Config) (doc : Nat) : UInt64 :=
  if cfg.expensiveEvery > 0 ∧ (doc : Int) % cfg.expensiveEvery = 0 then cfg.expensiveMult else 1

def Config.model (cfg : Config) : List UInt8 := cfg.modelID.toUTF8.data.toList

def Request.tokens (req : Request cfg) : List UInt32 :=
  cfg.tenantTokens req.tenant ++ cfg.docTokens req.doc ++ req.suffix.1

def Request.blockMult (req : Request cfg) (j : Nat) : UInt64 :=
  if cfg.sysBlocks ≤ j ∧ j < cfg.sysBlocks + cfg.docBlocks then cfg.docCostMult req.doc else 1

def Request.blocks (req : Request cfg) : List (List UInt32) := (Chain.chunk req.tokens cfg.blockSize).getD []

def Request.cost (req : Request cfg) (j : Nat) (blk : List UInt32) : UInt64 :=
  UInt64.ofNat blk.length * costPerTokenUS * req.blockMult j

/-- The loop that adds up the costs of a request, those requested and those saved. -/
def Request.costLoop (req : Request cfg) (depth : Nat) : Nat → List (List UInt32) → Metrics → Metrics
  | _, [], m => m
  | j, blk :: rest, m =>
      let cost := req.cost j blk
      req.costLoop depth (j + 1) rest { m with
        costRequestedUS := m.costRequestedUS + cost
        costSavedUS := if j < depth then m.costSavedUS + cost else m.costSavedUS }

section Chain

variable (sha : List UInt8 → BlockID)

def Request.ids (req : Request cfg) : List BlockID := (Chain.build sha cfg.model cfg.blockSize req.tokens).getD []

def Request.raw (req : Request cfg) : List (List UInt8) := (req.ids sha).map Subtype.val

def Request.count (req : Request cfg) (depth : Nat) (m : Metrics) : Metrics :=
  req.costLoop depth 0 req.blocks { m with
    blocksRequested := m.blocksRequested + UInt64.ofNat (req.ids sha).length
    blocksHit := m.blocksHit + UInt64.ofNat depth
    fullHits := if depth = (req.ids sha).length then m.fullHits + 1 else m.fullHits }

def Request.wireBlock (req : Request cfg) (j : Nat) (parent id : BlockID) (blk : List UInt32) : WireBlock where
  blockId := id.1
  parentId := parent.1
  modelId := cfg.modelID
  payload := ⟨List.replicate cfg.payload 0, by rw [List.length_replicate]; exact cfg.short⟩
  tokenCount := UInt32.ofNat blk.length
  costUs := req.cost j blk

/-- The loop that writes the misses back; the parent of a block is the id before it. -/
def Request.writeLoop (req : Request cfg) (depth : Nat) : Nat → BlockID → List (BlockID × List UInt32) → List WireBlock
  | _, _, [] => []
  | j, parent, (id, blk) :: rest =>
      if depth ≤ j then req.wireBlock j parent id blk :: req.writeLoop depth (j + 1) id rest
      else req.writeLoop depth (j + 1) id rest

def Request.writeBack (req : Request cfg) (depth : Nat) : List WireBlock :=
  req.writeLoop depth 0 (Chain.root sha cfg.model cfg.blockSize) ((req.ids sha).zip req.blocks)

variable {sha}

theorem Request.blocks_eq (req : Request cfg) : req.blocks = Chain.chunks req.tokens cfg.blockSize := by
  have low : (1 : Int) ≤ (cfg.blockSize : Int) := by exact_mod_cast cfg.positive
  rw [Request.blocks, Chain.chunk_eq _ _ low]
  rfl

theorem Request.ids_eq (req : Request cfg) :
    req.ids sha = Lib.chainFrom (Chain.next sha) (Chain.root sha cfg.model cfg.blockSize) req.blocks := by
  have low : (1 : Int) ≤ (cfg.blockSize : Int) := by exact_mod_cast cfg.positive
  rw [Request.ids, Chain.build, Request.blocks, Chain.chunk_eq _ _ low]
  rfl

theorem Request.length_ids (req : Request cfg) : (req.ids sha).length = req.blocks.length := by
  rw [req.ids_eq, Lib.length_chainFrom]

theorem Request.length_blocks (req : Request cfg) : req.blocks.length = cfg.sysBlocks + cfg.docBlocks + 1 := by
  have tokens : req.tokens.length = (cfg.sysBlocks + cfg.docBlocks + 1) * cfg.blockSize := by
    rw [Request.tokens, List.length_append, List.length_append, cfg.tenantLength, cfg.docLength, req.suffix.2]
    ring
  rw [req.blocks_eq, Chain.length_chunks _ _ cfg.positive, tokens]
  have positive := cfg.positive
  rw [show (cfg.sysBlocks + cfg.docBlocks + 1) * cfg.blockSize + cfg.blockSize - 1 =
    cfg.blockSize - 1 + (cfg.sysBlocks + cfg.docBlocks + 1) * cfg.blockSize by omega,
    Nat.add_mul_div_right _ _ positive, Nat.div_eq_of_lt (by omega), Nat.zero_add]

def Request.Shares (req other : Request cfg) (k : Nat) : Prop :=
  req.tokens.take (k * cfg.blockSize) = other.tokens.take (k * cfg.blockSize)

instance (req other : Request cfg) (k : Nat) : Decidable (req.Shares other k) :=
  inferInstanceAs (Decidable (req.tokens.take (k * cfg.blockSize) = other.tokens.take (k * cfg.blockSize)))

theorem Request.shares_iff (req other : Request cfg) (k : Nat) :
    req.Shares other k ↔ req.blocks.take k = other.blocks.take k := by
  rw [req.blocks_eq, other.blocks_eq, Request.Shares, Chain.chunks_take_eq_iff _ cfg.positive]

/-- Requests of one tenant share the system prompt, and those for one document of the tenant share that as well. -/
theorem Request.shares_tenant (req other : Request cfg) (tenant : req.tenant = other.tenant) :
    req.Shares other cfg.sysBlocks := by
  rw [Request.Shares, Request.tokens, Request.tokens, List.append_assoc, List.append_assoc, ← tenant,
    List.take_append_of_le_length (by rw [cfg.tenantLength]), List.take_append_of_le_length (by rw [cfg.tenantLength])]

theorem Request.shares_doc (req other : Request cfg) (tenant : req.tenant = other.tenant) (doc : req.doc = other.doc) :
    req.Shares other (cfg.sysBlocks + cfg.docBlocks) := by
  have length : (cfg.sysBlocks + cfg.docBlocks) * cfg.blockSize ≤
      (cfg.tenantTokens req.tenant ++ cfg.docTokens req.doc).length := by
    rw [List.length_append, cfg.tenantLength, cfg.docLength, Nat.add_mul]
  rw [Request.Shares, Request.tokens, Request.tokens, ← tenant, ← doc, List.take_append_of_le_length length,
    List.take_append_of_le_length length]

theorem Request.Shares.ids {req other : Request cfg} {k j : Nat} (shares : req.Shares other k) (below : j < k)
    {id : BlockID} (at_ : (req.ids sha)[j]? = some id) : (other.ids sha)[j]? = some id := by
  have same := (req.shares_iff other k).mp shares
  have upto : req.blocks.take (j + 1) = other.blocks.take (j + 1) := by
    have cut := congrArg (List.take (j + 1)) same
    rwa [List.take_take, List.take_take, Nat.min_eq_left (by omega)] at cut
  rw [req.ids_eq] at at_
  obtain ⟨inside, rfl⟩ := Lib.chainFrom_eq_some _ at_
  have inside' : j < other.blocks.length := by
    rw [req.length_blocks] at inside
    rwa [other.length_blocks]
  rw [other.ids_eq, Lib.chainFrom_getElem? _ _ _ _ inside', upto]

section WriteBack

variable {req : Request cfg} {depth : Nat} {w : WireBlock}

theorem Request.mem_writeLoop {j : Nat} {parent : BlockID} {pairs : List (BlockID × List UInt32)}
    (member : w ∈ req.writeLoop depth j parent pairs) :
    ∃ i pair, depth ≤ j + i ∧ pairs[i]? = some pair ∧ w.blockId = pair.1.1 ∧ w.parentId.length = hashSize := by
  induction pairs generalizing j parent with
  | nil => cases member
  | cons pair rest ih =>
    have later : w ∈ req.writeLoop depth (j + 1) pair.1 rest →
        ∃ i p, depth ≤ j + i ∧ (pair :: rest)[i]? = some p ∧ w.blockId = p.1.1 ∧ w.parentId.length = hashSize := by
      intro inside
      obtain ⟨i, p, deep, at_, named⟩ := ih inside
      exact ⟨i + 1, p, by omega, at_, named⟩
    rw [Request.writeLoop] at member
    split at member
    next deep =>
      rcases List.mem_cons.mp member with rfl | inside
      · exact ⟨0, pair, deep, rfl, rfl, parent.2⟩
      · exact later inside
    next => exact later member

theorem Request.writeLoop_mem {j i : Nat} {parent : BlockID} {pairs : List (BlockID × List UInt32)}
    {pair : BlockID × List UInt32} (deep : depth ≤ j + i) (at_ : pairs[i]? = some pair) :
    ∃ w ∈ req.writeLoop depth j parent pairs, w.blockId = pair.1.1 := by
  induction pairs generalizing j i parent with
  | nil => cases at_
  | cons first rest ih =>
    rw [Request.writeLoop]
    cases i with
    | zero =>
      cases at_
      rw [if_pos (show depth ≤ j from deep)]
      exact ⟨_, List.mem_cons_self, rfl⟩
    | succ i =>
      obtain ⟨w, inside, named⟩ : ∃ w ∈ req.writeLoop depth (j + 1) first.1 rest, w.blockId = pair.1.1 :=
        ih (by omega) at_
      split
      · exact ⟨w, List.mem_cons_of_mem _ inside, named⟩
      · exact ⟨w, inside, named⟩

theorem Request.mem_writeBack (member : w ∈ req.writeBack sha depth) :
    ∃ j id, depth ≤ j ∧ (req.ids sha)[j]? = some id ∧ w.blockId = id.1 ∧ w.parentId.length = hashSize := by
  obtain ⟨i, pair, deep, at_, named, sized⟩ := Request.mem_writeLoop member
  exact ⟨i, pair.1, by omega, (List.getElem?_zip_eq_some.mp at_).1, named, sized⟩

theorem Request.writeBack_mem {j : Nat} {id : BlockID} (deep : depth ≤ j) (at_ : (req.ids sha)[j]? = some id) :
    ∃ w ∈ req.writeBack sha depth, w.blockId = id.1 := by
  have inside := (List.getElem?_eq_some_iff.mp at_).1
  rw [req.length_ids] at inside
  have pair : ((req.ids sha).zip req.blocks)[j]? = some (id, req.blocks.get ⟨j, inside⟩) :=
    List.getElem?_zip_eq_some.mpr ⟨at_, List.getElem?_eq_getElem inside⟩
  exact Request.writeLoop_mem ((Nat.zero_add j).symm ▸ deep) pair

end WriteBack

def totalCost : List WireBlock → UInt64
  | [] => 0
  | b :: rest => b.costUs + totalCost rest

theorem totalCost_cons (b : WireBlock) (rest : List WireBlock) : totalCost (b :: rest) = b.costUs + totalCost rest :=
  rfl

theorem totalCost_append (first second : List WireBlock) :
    totalCost (first ++ second) = totalCost first + totalCost second := by
  induction first with
  | nil => exact (UInt64.zero_add _).symm
  | cons b rest ih => rw [List.cons_append, totalCost_cons, ih, totalCost_cons, UInt64.add_assoc]

theorem totalCost_perm {first second : List WireBlock} (perm : first.Perm second) :
    totalCost first = totalCost second := by
  induction perm with
  | nil => rfl
  | cons b _ ih => rw [totalCost_cons, totalCost_cons, ih]
  | swap b c rest =>
    simp only [totalCost_cons]
    rw [← UInt64.add_assoc, UInt64.add_comm c.costUs, UInt64.add_assoc]
  | trans _ _ ih ih' => exact ih.trans ih'

section Count

variable (req : Request cfg) (depth : Nat)

theorem Request.length_writeLoop (j : Nat) (parent : BlockID) (pairs : List (BlockID × List UInt32)) :
    (req.writeLoop depth j parent pairs).length = pairs.length - (depth - j) := by
  induction pairs generalizing j parent with
  | nil => exact (Nat.zero_sub _).symm
  | cons pair rest ih =>
    rw [Request.writeLoop, List.length_cons]
    split
    · rw [List.length_cons, ih]
      omega
    · rw [ih]
      omega

theorem Request.length_writeBack : (req.writeBack sha depth).length = (req.ids sha).length - depth := by
  rw [Request.writeBack, req.length_writeLoop, List.length_zip, req.length_ids, Nat.min_self, Nat.sub_zero]

theorem Request.costLoop_owed (j : Nat) (parent : BlockID) (pairs : List (BlockID × List UInt32)) (m : Metrics) :
    (req.costLoop depth j (pairs.map Prod.snd) m).costRequestedUS -
        (req.costLoop depth j (pairs.map Prod.snd) m).costSavedUS =
      m.costRequestedUS - m.costSavedUS + totalCost (req.writeLoop depth j parent pairs) := by
  induction pairs generalizing j parent m with
  | nil => exact (UInt64.add_zero _).symm
  | cons pair rest ih =>
    rw [List.map_cons, Request.costLoop, ih (j + 1) pair.1, Request.writeLoop]
    by_cases deep : depth ≤ j
    · rw [if_pos deep, if_neg (by omega), totalCost_cons]
      simp only [Request.wireBlock]
      grind
    · rw [if_neg deep, if_pos (by omega)]
      grind

theorem Request.costLoop_counts (j : Nat) (blocks : List (List UInt32)) (m : Metrics) :
    (req.costLoop depth j blocks m).blocksRequested = m.blocksRequested ∧
      (req.costLoop depth j blocks m).blocksHit = m.blocksHit ∧
      (req.costLoop depth j blocks m).fullHits = m.fullHits := by
  induction blocks generalizing j m with
  | nil => exact ⟨rfl, rfl, rfl⟩
  | cons blk rest ih => exact ih (j + 1) _

end Count

/-- The counters agree with the blocks that have been written back, and with the number of requests that had nothing
to write. -/
structure Metrics.Balanced (m : Metrics) (written : List WireBlock) (full : Nat) : Prop where
  blocks : m.blocksRequested = m.blocksHit + UInt64.ofNat written.length
  cost : m.costRequestedUS = m.costSavedUS + totalCost written
  fullHits : m.fullHits = UInt64.ofNat full

theorem Metrics.Balanced.count {m : Metrics} {written : List WireBlock} {full : Nat}
    (balanced : m.Balanced written full) (req : Request cfg) {depth : Nat} (short : depth ≤ (req.ids sha).length) :
    (req.count sha depth m).Balanced (req.writeBack sha depth ++ written)
      (if (req.ids sha).length = depth then full + 1 else full) := by
  obtain ⟨blocks, hits, full_⟩ := req.costLoop_counts depth 0 req.blocks { m with
    blocksRequested := m.blocksRequested + UInt64.ofNat (req.ids sha).length
    blocksHit := m.blocksHit + UInt64.ofNat depth
    fullHits := if depth = (req.ids sha).length then m.fullHits + 1 else m.fullHits }
  refine ⟨?_, ?_, ?_⟩
  · have parts : UInt64.ofNat (req.ids sha).length =
        UInt64.ofNat depth + UInt64.ofNat ((req.ids sha).length - depth) := by
      rw [← UInt64.ofNat_add, Nat.add_sub_cancel' short]
    rw [Request.count, blocks, hits, List.length_append, req.length_writeBack, UInt64.ofNat_add, balanced.blocks, parts]
    grind
  · have owed := req.costLoop_owed depth 0 (Chain.root sha cfg.model cfg.blockSize) ((req.ids sha).zip req.blocks)
      { m with
        blocksRequested := m.blocksRequested + UInt64.ofNat (req.ids sha).length
        blocksHit := m.blocksHit + UInt64.ofNat depth
        fullHits := if depth = (req.ids sha).length then m.fullHits + 1 else m.fullHits }
    rw [List.map_snd_zip (by rw [req.length_ids])] at owed
    rw [totalCost_append, Request.count, Request.writeBack]
    have before := balanced.cost
    grind
  · rw [Request.count, full_]
    by_cases all : depth = (req.ids sha).length
    · rw [if_pos all, if_pos all.symm, balanced.fullHits, UInt64.ofNat_add]
      rfl
    · rw [if_neg all, if_neg (Ne.symm all), balanced.fullHits]

def hashed (sha : List UInt8 → BlockID) (reqs : List (Request cfg)) : List (List UInt8) :=
  reqs.flatMap fun req => Chain.hashed sha cfg.model cfg.blockSize req.tokens

/-- Without collisions an id that two prompts have in common is at the same place in both, and they agree up to
there. -/
theorem Request.shares_of_id {reqs : List (Request cfg)} (distinct : Chain.NoCollision sha (hashed sha reqs))
    (model : cfg.model.length < hashSize) {req other : Request cfg} (known : req ∈ reqs) (known' : other ∈ reqs)
    {i j : Nat} {id : BlockID} (at_ : (req.ids sha)[i]? = some id) (at' : (other.ids sha)[j]? = some id) :
    i = j ∧ req.Shares other (i + 1) := by
  have low : (1 : Int) ≤ (cfg.blockSize : Int) := by exact_mod_cast cfg.positive
  have pair : ∀ r ∈ reqs, ∀ r' ∈ reqs, Chain.NoCollision sha (Chain.hashed sha cfg.model cfg.blockSize r.tokens ++
      Chain.hashed sha cfg.model cfg.blockSize r'.tokens) := by
    intro r member r' member' x first y second
    have inside : ∀ z ∈ Chain.hashed sha cfg.model cfg.blockSize r.tokens ++
        Chain.hashed sha cfg.model cfg.blockSize r'.tokens, z ∈ hashed sha reqs := by
      intro z among
      rcases List.mem_append.mp among with own | other
      · exact List.mem_flatMap.mpr ⟨r, member, own⟩
      · exact List.mem_flatMap.mpr ⟨r', member', other⟩
    exact distinct x (inside x first) y (inside y second)
  have initial : ∀ (r : Request cfg) (k : Nat), r.blocks.take k <+: Chain.chunks r.tokens cfg.blockSize :=
    fun r k => r.blocks_eq ▸ List.take_prefix _ _
  rw [req.ids_eq] at at_
  rw [other.ids_eq] at at'
  obtain ⟨inside, rfl⟩ := Lib.chainFrom_eq_some _ at_
  obtain ⟨inside', same⟩ := Lib.chainFrom_eq_some _ at'
  have whole : req.blocks.take (i + 1) = other.blocks.take (j + 1) := by
    rcases Nat.le_total (other.blocks.take (j + 1)).length (req.blocks.take (i + 1)).length with shorter | longer
    · exact (pair req known other known').meet low model (initial req _) (initial other _) shorter same
    · exact ((pair other known' req known).meet low model (initial other _) (initial req _) longer same.symm).symm
  have place : i = j := by
    have lengths := congrArg List.length whole
    rw [List.length_take, List.length_take] at lengths
    omega
  subst place
  exact ⟨rfl, (req.shares_iff other _).mpr whole⟩

end Chain

end PrefixMesh.Loadgen
