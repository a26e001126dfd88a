import PrefixMesh.Prefetch.Replication

/-! The blocks that the prefetcher tracks. `HandleAccess` adds the blocks of a chain up to
the first malformed id, at which it returns, and sweeps once if it got to the end of the
chain. Events are handled one at a time, so the clock does not go back between them. -/

namespace PrefixMesh.Prefetch

open Directory (Bytes)

structure AccessEvent where
  modelId : String
  chain : List (List UInt8)
  deriving DecidableEq

abbrev Blocks (F : Type) := AList (fun _ : BlockID => BlockStat F)

structure Cand (F : Type) where
  id : BlockID
  d : F

/-- What the package `sort` asks of a comparison, on the elements of a list. -/
structure Orders {X : Type} (less : X → X → Bool) (all : List X) : Prop where
  asymm : ∀ a ∈ all, ∀ b ∈ all, less a b = true → less b a = false
  trans : ∀ a ∈ all, ∀ b ∈ all, ∀ c ∈ all, less b a = false → less c b = false → less c a = false

/-- `sort.Slice`, which is not stable, on a slice in the order of a map iteration. -/
structure SortSlice {X : Type} (less : X → X → Bool) where
  run : List X → List X
  perm : ∀ all, (run all).Perm all
  sorted : ∀ all, Orders less all → (run all).Pairwise fun a b => less b a = false

theorem length_zeros : (List.replicate hashSize (0 : UInt8)).length = hashSize := List.length_replicate

def zeroID : BlockID := ⟨List.replicate hashSize 0, length_zeros⟩

variable {F : Type} (fl : Floats F)

def Cand.less (a b : Cand F) : Bool := fl.lt a.d b.d

/-- A call of `HandleAccess`: the value of the record, the time it reads and the sort of its sweep. -/
structure Access where
  value : Bytes
  now : Int
  sort : SortSlice (Cand.less fl)

/-- The loop over the chain; it returns early at an id of another length. -/
def accessLoop (cfg : Config F) (modelID : String) (now : Int) :
    List (List UInt8) → BlockID → Blocks F → Bool × Blocks F
  | [], _, blocks => (true, blocks)
  | raw :: rest, parent, blocks =>
      if sized : raw.length = hashSize then
        let id : BlockID := ⟨raw, sized⟩
        let st := (blocks.lookup id).getD ⟨fl.ofUint64 0, now, parent, modelID⟩
        let demand := fl.add (fl.ofUint64 1) (decayed fl cfg now st)
        accessLoop cfg modelID now rest id (blocks.insert id { st with demand := demand, lastSeen := now })
      else (false, blocks)

def candidates (cfg : Config F) (now : Int) (blocks : Blocks F) : List (Cand F) :=
  blocks.entries.map fun entry => ⟨entry.1, decayed fl cfg now entry.2⟩

def sweepLocked (cfg : Config F) (now : Int) (sort : SortSlice (Cand.less fl)) (blocks : Blocks F) : Blocks F :=
  let all := sort.run (candidates fl cfg now blocks)
  (all.take (all.length / 2)).foldl (fun blocks c => blocks.erase c.id) blocks

/-- The blocks that are tracked when `HandleAccess` comes to the sweep, or returns before it. -/
def Prefetcher.accessed (p : Prefetcher F) (ev : AccessEvent) (now : Int) : Bool × Blocks F :=
  accessLoop fl p.cfg ev.modelId now ev.chain zeroID p.blocks

variable (unmarshal : Bytes → Option AccessEvent)

def Prefetcher.handleAccess (p : Prefetcher F) (call : Access fl) : Prefetcher F :=
  match unmarshal call.value with
  | none => p
  | some ev =>
      let (finished, blocks) := p.accessed fl ev call.now
      if finished then
        if (blocks.keys.length : Int) > p.cfg.maxTracked then
          { p with blocks := sweepLocked fl p.cfg call.now call.sort blocks }
        else { p with blocks := blocks }
      else { p with blocks := blocks }

def leading : List (List UInt8) → List BlockID
  | [] => []
  | raw :: rest => if sized : raw.length = hashSize then ⟨raw, sized⟩ :: leading rest else []

def WellFormed (chain : List (List UInt8)) : Prop := ∀ raw ∈ chain, raw.length = hashSize

instance (chain : List (List UInt8)) : Decidable (WellFormed chain) :=
  inferInstanceAs (Decidable (∀ raw ∈ chain, raw.length = hashSize))

section Loop

variable (cfg : Config F) (modelID : String) (now : Int)

theorem accessLoop_finished (chain : List (List UInt8)) (parent : BlockID) (blocks : Blocks F) :
    (accessLoop fl cfg modelID now chain parent blocks).1 = true ↔ WellFormed chain := by
  induction chain generalizing parent blocks with
  | nil => simp [accessLoop, WellFormed]
  | cons raw rest ih =>
    rw [accessLoop]
    split
    next sized =>
      rw [ih]
      simp [WellFormed, sized]
    next other => simp [WellFormed, other]

theorem mem_accessLoop (chain : List (List UInt8)) (parent : BlockID) (blocks : Blocks F) (id : BlockID) :
    id ∈ (accessLoop fl cfg modelID now chain parent blocks).2 ↔ id ∈ blocks ∨ id ∈ leading chain := by
  induction chain generalizing parent blocks with
  | nil => simp [accessLoop, leading]
  | cons raw rest ih =>
    rw [accessLoop, leading]
    split
    next sized =>
      rw [ih, AList.mem_insert, List.mem_cons]
      tauto
    next other => simp

theorem accessLoop_size (chain : List (List UInt8)) (parent : BlockID) (blocks : Blocks F) :
    (accessLoop fl cfg modelID now chain parent blocks).2.keys.length =
      (blocks.keys ++ leading chain).dedup.length := by
  refine List.Perm.length_eq ?_
  rw [List.perm_ext_iff_of_nodup (AList.keys_nodup _) (List.nodup_dedup _)]
  intro id
  rw [← AList.mem_keys, mem_accessLoop, List.mem_dedup, List.mem_append, AList.mem_keys]

end Loop

section Sweep

variable (cfg : Config F) (now : Int)

theorem mem_foldl_erase (gone : List (Cand F)) (blocks : Blocks F) (id : BlockID) :
    id ∈ gone.foldl (fun blocks c => blocks.erase c.id) blocks ↔ id ∈ blocks ∧ id ∉ gone.map Cand.id := by
  induction gone generalizing blocks with
  | nil => simp
  | cons c rest ih =>
    rw [List.foldl_cons, ih, AList.mem_erase, List.map_cons, List.mem_cons]
    tauto

theorem candidates_ids (blocks : Blocks F) : (candidates fl cfg now blocks).map Cand.id = blocks.keys := by
  rw [candidates, List.map_map]
  rfl

theorem mem_candidates (blocks : Blocks F) (id : BlockID) (st : BlockStat F) (found : blocks.lookup id = some st) :
    ⟨id, decayed fl cfg now st⟩ ∈ candidates fl cfg now blocks :=
  List.mem_map.mpr ⟨⟨id, st⟩, AList.mem_lookup_iff.mp found, rfl⟩

theorem sorted_ids (sort : SortSlice (Cand.less fl)) (blocks : Blocks F) :
    ((sort.run (candidates fl cfg now blocks)).map Cand.id).Perm blocks.keys := by
  rw [← candidates_ids fl cfg now blocks]
  exact (sort.perm _).map Cand.id

theorem sorted_ids_nodup (sort : SortSlice (Cand.less fl)) (blocks : Blocks F) :
    ((sort.run (candidates fl cfg now blocks)).map Cand.id).Nodup :=
  (sorted_ids fl cfg now sort blocks).nodup_iff.mpr blocks.keys_nodup

theorem mem_sweepLocked (sort : SortSlice (Cand.less fl)) (blocks : Blocks F) (id : BlockID) :
    id ∈ sweepLocked fl cfg now sort blocks ↔
      id ∈ ((sort.run (candidates fl cfg now blocks)).drop
        ((sort.run (candidates fl cfg now blocks)).length / 2)).map Cand.id := by
  have distinct := sorted_ids_nodup fl cfg now sort blocks
  rw [sweepLocked, mem_foldl_erase, AList.mem_keys, ← (sorted_ids fl cfg now sort blocks).mem_iff]
  generalize sort.run (candidates fl cfg now blocks) = all at distinct ⊢
  rw [← List.take_append_drop (all.length / 2) all, List.map_append] at distinct
  have apart := List.disjoint_of_nodup_append distinct
  constructor
  · intro ⟨listed, spared⟩
    rw [← List.take_append_drop (all.length / 2) all, List.map_append, List.mem_append] at listed
    exact listed.resolve_left spared
  · intro kept
    refine ⟨?_, fun taken => apart taken kept⟩
    rw [← List.take_append_drop (all.length / 2) all, List.map_append]
    exact List.mem_append_right _ kept

theorem sweepLocked_size (sort : SortSlice (Cand.less fl)) (blocks : Blocks F) :
    (sweepLocked fl cfg now sort blocks).keys.length = blocks.keys.length - blocks.keys.length / 2 := by
  have kept : (sweepLocked fl cfg now sort blocks).keys.Perm
      (((sort.run (candidates fl cfg now blocks)).drop
        ((sort.run (candidates fl cfg now blocks)).length / 2)).map Cand.id) := by
    rw [List.perm_ext_iff_of_nodup (AList.keys_nodup _)]
    · intro id
      rw [← AList.mem_keys, mem_sweepLocked]
    · rw [List.map_drop]
      exact (sorted_ids_nodup fl cfg now sort blocks).sublist (List.drop_sublist _ _)
  rw [kept.length_eq, List.length_map, List.length_drop, ← List.length_map (f := Cand.id),
    (sorted_ids fl cfg now sort blocks).length_eq]

/-- Where the demands can be ordered, no block that is kept has less than one that is dropped. -/
theorem sweepLocked_coldest (sort : SortSlice (Cand.less fl)) (blocks : Blocks F)
    (ordered : Orders (Cand.less fl) (candidates fl cfg now blocks)) {id id' : BlockID} {st st' : BlockStat F}
    (found : blocks.lookup id = some st) (dropped : id ∉ sweepLocked fl cfg now sort blocks)
    (found' : blocks.lookup id' = some st') (kept : id' ∈ sweepLocked fl cfg now sort blocks) :
    fl.lt (decayed fl cfg now st') (decayed fl cfg now st) = false := by
  have sorted := sort.sorted _ ordered
  have perm := sort.perm (candidates fl cfg now blocks)
  have distinct := sorted_ids_nodup fl cfg now sort blocks
  have listed := perm.mem_iff.mpr (mem_candidates fl cfg now blocks id st found)
  have listed' := perm.mem_iff.mpr (mem_candidates fl cfg now blocks id' st' found')
  rw [mem_sweepLocked] at dropped kept
  generalize sort.run (candidates fl cfg now blocks) = all at sorted distinct listed listed' dropped kept
  rw [← List.take_append_drop (all.length / 2) all] at sorted distinct listed listed'
  rw [List.map_append] at distinct
  have cold : ⟨id, decayed fl cfg now st⟩ ∈ all.take (all.length / 2) :=
    (List.mem_append.mp listed).resolve_right fun behind => dropped (List.mem_map_of_mem behind)
  have warm : ⟨id', decayed fl cfg now st'⟩ ∈ all.drop (all.length / 2) :=
    (List.mem_append.mp listed').resolve_left fun before =>
      List.disjoint_of_nodup_append distinct (List.mem_map_of_mem before) kept
  exact (List.pairwise_append.mp sorted).2.2 _ cold _ warm

theorem lookup_foldl_erase (gone : List (Cand F)) (blocks : Blocks F) (id : BlockID) (st : BlockStat F)
    (found : (gone.foldl (fun blocks c => blocks.erase c.id) blocks).lookup id = some st) :
    blocks.lookup id = some st := by
  induction gone generalizing blocks with
  | nil => exact found
  | cons c rest ih =>
    have before := ih (blocks.erase c.id) found
    by_cases same : id = c.id
    · rw [same, AList.lookup_erase] at before
      cases before
    · rwa [AList.lookup_erase_ne same] at before

end Sweep

def faded (halfLife elapsed : Int) : F := fl.exp2 (fl.neg (fl.div (fl.seconds elapsed) (fl.seconds halfLife)))

/-- What the demands rely on of `float64`, for a half-life that is not zero and a clock that does not go back: they
are never NaN, and apart from NaN the comparison is an order. -/
structure Demands (halfLife : Int) (number : F → Prop) : Prop where
  first : number (fl.add (fl.ofUint64 1) (fl.mul (fl.ofUint64 0) (faded fl halfLife 0)))
  again : ∀ x elapsed, number x → 0 ≤ elapsed →
    number (fl.add (fl.ofUint64 1) (fl.mul x (faded fl halfLife elapsed)))
  fades : ∀ x elapsed, number x → 0 ≤ elapsed → number (fl.mul x (faded fl halfLife elapsed))
  asymm : ∀ x y, number x → number y → fl.lt x y = true → fl.lt y x = false
  trans : ∀ x y z, number x → number y → number z → fl.lt y x = false → fl.lt z y = false → fl.lt z x = false

/-- The demands of the tracked blocks are numbers, as of times that are past. -/
def Measured (number : F → Prop) (now : Int) (blocks : Blocks F) : Prop :=
  ∀ id st, blocks.lookup id = some st → number st.demand ∧ st.lastSeen ≤ now

theorem sub_nonneg_of_le {now past : Int} (le : past ≤ now) : 0 ≤ sub now past := by
  unfold sub
  omega

section Measured

variable {fl} {number : F → Prop} {cfg : Config F} {now : Int}

theorem Measured.later {blocks : Blocks F} (measured : Measured number now blocks) {now' : Int} (le : now ≤ now') :
    Measured number now' blocks :=
  fun id st found => ⟨(measured id st found).1, (measured id st found).2.trans le⟩

theorem Measured.accessLoop (demands : Demands fl cfg.halfLife number) {blocks : Blocks F}
    (measured : Measured number now blocks) (modelID : String) (chain : List (List UInt8)) (parent : BlockID) :
    Measured number now (accessLoop fl cfg modelID now chain parent blocks).2 := by
  induction chain generalizing parent blocks with
  | nil => exact measured
  | cons raw rest ih =>
    rw [Prefetch.accessLoop]
    split
    next sized =>
      apply ih
      intro id st found
      by_cases same : id = ⟨raw, sized⟩
      · subst same
        rw [AList.lookup_insert] at found
        cases found
        refine ⟨?_, le_rfl⟩
        cases before : blocks.lookup ⟨raw, sized⟩ with
        | none =>
          have instant : sub now now = 0 := by
            unfold sub
            omega
          simp only [Option.getD_none, decayed, instant]
          exact demands.first
        | some old =>
          obtain ⟨number, past⟩ := measured _ old before
          exact demands.again old.demand _ number (sub_nonneg_of_le past)
      · rw [AList.lookup_insert_ne same] at found
        exact measured id st found
    next other => exact measured

theorem Measured.orders (demands : Demands fl cfg.halfLife number) {blocks : Blocks F}
    (measured : Measured number now blocks) : Orders (Cand.less fl) (candidates fl cfg now blocks) := by
  have numbers : ∀ c ∈ candidates fl cfg now blocks, number c.d := by
    intro c listed
    obtain ⟨⟨id, st⟩, member, rfl⟩ := List.mem_map.mp listed
    obtain ⟨number, past⟩ := measured id st (AList.mem_lookup_iff.mpr member)
    exact demands.fades st.demand _ number (sub_nonneg_of_le past)
  exact ⟨fun a ha b hb => demands.asymm _ _ (numbers a ha) (numbers b hb),
    fun a ha b hb c hc => demands.trans _ _ _ (numbers a ha) (numbers b hb) (numbers c hc)⟩

end Measured

def Access.chain (call : Access fl) : List (List UInt8) :=
  ((unmarshal call.value).map AccessEvent.chain).getD []

/-- What is said of a call: the tracked blocks stay within the limit, and those it drops are the coldest. -/
structure Bounded (maxTracked : Int) (p : Prefetcher F) (call : Access fl) : Prop where
  few : ((p.handleAccess fl unmarshal call).blocks.keys.length : Int) ≤ maxTracked
  coldest : ∀ ev, unmarshal call.value = some ev → ∀ id st id' st',
    (p.accessed fl ev call.now).2.lookup id = some st → id ∉ (p.handleAccess fl unmarshal call).blocks →
    (p.accessed fl ev call.now).2.lookup id' = some st' → id' ∈ (p.handleAccess fl unmarshal call).blocks →
    fl.lt (decayed fl p.cfg call.now st') (decayed fl p.cfg call.now st) = false

/-- The tracked blocks and the new ones of a chain are not more than twice the limit, and not more than the limit if
the chain has a malformed id. -/
def Fits (maxTracked : Int) (p : Prefetcher F) (call : Access fl) : Prop :=
  ((p.blocks.keys ++ leading (call.chain fl unmarshal)).dedup.length : Int) ≤
    if WellFormed (call.chain fl unmarshal) then 2 * maxTracked else maxTracked

section Calls

variable {fl} {unmarshal} {number : F → Prop} {p : Prefetcher F} {call : Access fl}

theorem handleAccess_none (undecoded : unmarshal call.value = none) : p.handleAccess fl unmarshal call = p := by
  rw [Prefetcher.handleAccess, undecoded]

theorem handleAccess_blocks {ev : AccessEvent} (decoded : unmarshal call.value = some ev) :
    (p.handleAccess fl unmarshal call).blocks =
      if WellFormed ev.chain ∧ ((p.accessed fl ev call.now).2.keys.length : Int) > p.cfg.maxTracked then
        sweepLocked fl p.cfg call.now call.sort (p.accessed fl ev call.now).2
      else (p.accessed fl ev call.now).2 := by
  have finished : (p.accessed fl ev call.now).1 = true ↔ WellFormed ev.chain := accessLoop_finished fl _ _ _ _ _ _
  rw [Prefetcher.handleAccess, decoded]
  dsimp only
  by_cases formed : WellFormed ev.chain
  · rw [if_pos (finished.mpr formed)]
    by_cases many : ((p.accessed fl ev call.now).2.keys.length : Int) > p.cfg.maxTracked
    · rw [if_pos many, if_pos ⟨formed, many⟩]
    · rw [if_neg many, if_neg (fun both => many both.2)]
  · rw [if_neg (fun reached => formed (finished.mp reached)), if_neg (fun both => formed both.1)]

theorem handleAccess_cfg : (p.handleAccess fl unmarshal call).cfg = p.cfg := by
  unfold Prefetcher.handleAccess
  split
  · rfl
  · dsimp only
    split
    · split
      · rfl
      · rfl
    · rfl

theorem Measured.handleAccess (demands : Demands fl p.cfg.halfLife number)
    (measured : Measured number call.now p.blocks) :
    Measured number call.now (p.handleAccess fl unmarshal call).blocks := by
  cases decoded : unmarshal call.value with
  | none => rwa [handleAccess_none decoded]
  | some ev =>
    have accessed : Measured number call.now (p.accessed fl ev call.now).2 :=
      measured.accessLoop demands ev.modelId ev.chain zeroID
    rw [handleAccess_blocks decoded]
    split
    · intro id st found
      exact accessed id st (lookup_foldl_erase _ _ id st found)
    · exact accessed

theorem Measured.coldest (demands : Demands fl p.cfg.halfLife number)
    (measured : Measured number call.now p.blocks) {ev : AccessEvent} (decoded : unmarshal call.value = some ev)
    {id id' : BlockID} {st st' : BlockStat F} (found : (p.accessed fl ev call.now).2.lookup id = some st)
    (dropped : id ∉ (p.handleAccess fl unmarshal call).blocks)
    (found' : (p.accessed fl ev call.now).2.lookup id' = some st')
    (kept : id' ∈ (p.handleAccess fl unmarshal call).blocks) :
    fl.lt (decayed fl p.cfg call.now st') (decayed fl p.cfg call.now st) = false := by
  have accessed : Measured number call.now (p.accessed fl ev call.now).2 :=
    measured.accessLoop demands ev.modelId ev.chain zeroID
  rw [handleAccess_blocks decoded] at dropped kept
  split at dropped
  next swept =>
    rw [if_pos swept] at kept
    exact sweepLocked_coldest fl p.cfg call.now call.sort _ (accessed.orders demands) found dropped found' kept
  next =>
    -- nothing was dropped
    have present : id ∈ (p.accessed fl ev call.now).2 := AList.lookup_isSome.mp (by rw [found]; rfl)
    exact absurd present dropped

theorem bounded_iff_fits {maxTracked : Int} (limit : p.cfg.maxTracked = maxTracked)
    (demands : Demands fl p.cfg.halfLife number) (measured : Measured number call.now p.blocks)
    (before : (p.blocks.keys.length : Int) ≤ maxTracked) :
    Bounded fl unmarshal maxTracked p call ↔ Fits fl unmarshal maxTracked p call := by
  subst limit
  have few : ((p.handleAccess fl unmarshal call).blocks.keys.length : Int) ≤ p.cfg.maxTracked ↔
      Fits fl unmarshal p.cfg.maxTracked p call := by
    unfold Fits Access.chain
    cases decoded : unmarshal call.value with
    | none =>
      rw [handleAccess_none decoded]
      simp only [Option.map_none, Option.getD_none, leading, List.append_nil]
      rw [if_pos (by intro raw member; cases member), List.Nodup.dedup p.blocks.keys_nodup]
      omega
    | some ev =>
      have size : (p.accessed fl ev call.now).2.keys.length = (p.blocks.keys ++ leading ev.chain).dedup.length :=
        accessLoop_size fl _ _ _ _ _ _
      simp only [Option.map_some, Option.getD_some]
      rw [handleAccess_blocks decoded, ← size]
      by_cases formed : WellFormed ev.chain
      · rw [if_pos formed]
        split
        next swept =>
          rw [sweepLocked_size]
          omega
        next stayed =>
          have within : ¬((p.accessed fl ev call.now).2.keys.length : Int) > p.cfg.maxTracked :=
            fun many => stayed ⟨formed, many⟩
          omega
      · rw [if_neg formed, if_neg (fun both => formed both.1)]
  constructor
  · intro bounded
    exact few.mp bounded.few
  · intro fits
    exact ⟨few.mpr fits, fun ev decoded id st id' st' found dropped found' kept =>
      measured.coldest demands decoded found dropped found' kept⟩

end Calls

def EachAccess (holds : Prefetcher F → Access fl → Prop) : Prefetcher F → List (Access fl) → Prop
  | _, [] => True
  | p, call :: later => holds p call ∧ EachAccess holds (p.handleAccess fl unmarshal call) later

theorem eachAccess_bounded_iff {number : F → Prop} {maxTracked : Int} {p : Prefetcher F} {calls : List (Access fl)}
    (limit : p.cfg.maxTracked = maxTracked) (demands : Demands fl p.cfg.halfLife number)
    (ordered : (calls.map Access.now).Pairwise (· ≤ ·))
    (measured : ∀ call ∈ calls, Measured number call.now p.blocks)
    (within : (p.blocks.keys.length : Int) ≤ maxTracked) :
    EachAccess fl unmarshal (Bounded fl unmarshal maxTracked) p calls ↔
      EachAccess fl unmarshal (Fits fl unmarshal maxTracked) p calls := by
  induction calls generalizing p with
  | nil => exact Iff.rfl
  | cons call later ih =>
    obtain ⟨first, rest⟩ := List.pairwise_cons.mp ordered
    have here := measured call List.mem_cons_self
    have equivalent : Bounded fl unmarshal maxTracked p call ↔ Fits fl unmarshal maxTracked p call :=
      bounded_iff_fits limit demands here within
    have next : Bounded fl unmarshal maxTracked p call →
        (EachAccess fl unmarshal (Bounded fl unmarshal maxTracked) (p.handleAccess fl unmarshal call) later ↔
          EachAccess fl unmarshal (Fits fl unmarshal maxTracked) (p.handleAccess fl unmarshal call) later) := by
      intro bounded
      refine ih ?_ ?_ rest ?_ bounded.few
      · rw [handleAccess_cfg, limit]
      · rwa [handleAccess_cfg]
      · intro other member
        exact (here.handleAccess demands).later (first other.now (List.mem_map_of_mem member))
    constructor
    · intro ⟨bounded, others⟩
      exact ⟨equivalent.mp bounded, (next bounded).mp others⟩
    · intro ⟨fits, others⟩
      exact ⟨equivalent.mpr fits, (next (equivalent.mpr fits)).mpr others⟩

/-- Every call stays within the limit exactly in the sequences whose events all fit. -/
theorem tracked_bounded_iff {number : F → Prop} (cfg : Config F) (limited : 1 ≤ cfg.maxTracked)
    (demands : Demands fl (cfg.defaults fl).halfLife number) (calls : List (Access fl))
    (ordered : (calls.map Access.now).Pairwise (· ≤ ·)) :
    EachAccess fl unmarshal (Bounded fl unmarshal cfg.maxTracked) (newPrefetcher fl cfg) calls ↔
      EachAccess fl unmarshal (Fits fl unmarshal cfg.maxTracked) (newPrefetcher fl cfg) calls := by
  refine eachAccess_bounded_iff fl unmarshal ?_ demands ordered ?_ ?_
  · change (if cfg.maxTracked = 0 then 100000 else cfg.maxTracked) = cfg.maxTracked
    rw [if_neg (by omega)]
  · intro call _ id st found
    cases found
  · change (0 : Int) ≤ cfg.maxTracked
    omega

def encodeAccess (chain : List (List UInt8)) : Bytes :=
  [0x12, 0x01, 0x6d] ++ chain.flatMap fun raw => 0x42 :: UInt8.ofNat raw.length :: raw

/-- Chains of blocks 1 and 2, of 1 and 3, of four blocks, of two blocks with an empty id behind them, and of block 1. -/
def sampleChains : List (List (List UInt8)) :=
  [[(Blockstore.sampleID 1).1, (Blockstore.sampleID 2).1], [(Blockstore.sampleID 1).1, (Blockstore.sampleID 3).1],
   [(Blockstore.sampleID 1).1, (Blockstore.sampleID 2).1, (Blockstore.sampleID 3).1, (Blockstore.sampleID 4).1],
   [(Blockstore.sampleID 1).1, (Blockstore.sampleID 2).1, []], [(Blockstore.sampleID 1).1]]

def unmarshalAccess (raw : Bytes) : Option AccessEvent :=
  (sampleChains.find? fun chain => encodeAccess chain == raw).map fun chain => ⟨"m", chain⟩

theorem sampleFloats_faded (halfLife elapsed : Int) : 0 ≤ faded sampleFloats halfLife elapsed := by
  unfold faded
  simp only [sampleFloats]
  split
  · exact Rat.mkRat_nonneg (Int.pow_nonneg (by decide)) 1
  · exact Rat.mkRat_nonneg (by decide) _

theorem sampleFloats_demands (halfLife : Int) : Demands sampleFloats halfLife (fun x => 0 ≤ x) where
  first := add_nonneg (by decide) (mul_nonneg (by decide) (sampleFloats_faded halfLife 0))
  again := fun _ elapsed number _ =>
    add_nonneg (by decide) (mul_nonneg number (sampleFloats_faded halfLife elapsed))
  fades := fun _ elapsed number _ => mul_nonneg number (sampleFloats_faded halfLife elapsed)
  asymm := by
    intro x y _ _ less
    exact decide_eq_false (not_lt.mpr (of_decide_eq_true less).le)
  trans := by
    intro x y z _ _ _ above above'
    have lower : x ≤ y := not_lt.mp (of_decide_eq_false above)
    exact decide_eq_false (not_lt.mpr (lower.trans (not_lt.mp (of_decide_eq_false above'))))

def sampleSort : SortSlice (Cand.less sampleFloats) where
  run := List.insertionSort fun a b => a.d ≤ b.d
  perm := List.perm_insertionSort _
  sorted := by
    intro all _
    refine (List.pairwise_insertionSort _ all).imp ?_
    intro a b lower
    exact decide_eq_false (not_lt.mpr lower)

def sampleAccess (second : Int) (chain : List (List UInt8)) : Access sampleFloats :=
  ⟨encodeAccess chain, second * 1000000000, sampleSort⟩

/-- With room for two blocks: a third one comes in and the coldest one goes. -/
theorem tracked_bounded_two :
    EachAccess sampleFloats unmarshalAccess (Bounded sampleFloats unmarshalAccess 2)
      (newPrefetcher sampleFloats ⟨2, 2, 0, 2, 0⟩)
      [sampleAccess 1 [(Blockstore.sampleID 1).1, (Blockstore.sampleID 2).1],
       sampleAccess 2 [(Blockstore.sampleID 1).1, (Blockstore.sampleID 3).1]] := by
  refine (tracked_bounded_iff sampleFloats unmarshalAccess ⟨2, 2, 0, 2, 0⟩ (by decide) (sampleFloats_demands _) _
    (by decide)).mpr ⟨?_, ?_, trivial⟩
  · unfold Fits
    decide +kernel
  · unfold Fits
    decide +kernel

/-- With room for one block: a chain of four leaves two of them, and so does one of two with a malformed id. -/
theorem tracked_overflows :
    ¬EachAccess sampleFloats unmarshalAccess (Bounded sampleFloats unmarshalAccess 1)
      (newPrefetcher sampleFloats ⟨2, 2, 0, 1, 0⟩)
      [sampleAccess 1 [(Blockstore.sampleID 1).1, (Blockstore.sampleID 2).1, (Blockstore.sampleID 3).1,
        (Blockstore.sampleID 4).1]] ∧
    ¬EachAccess sampleFloats unmarshalAccess (Bounded sampleFloats unmarshalAccess 1)
      (newPrefetcher sampleFloats ⟨2, 2, 0, 1, 0⟩)
      [sampleAccess 1 [(Blockstore.sampleID 1).1, (Blockstore.sampleID 2).1, []]] := by
  refine ⟨fun bounded => absurd bounded.1.few ?_, fun bounded => absurd bounded.1.few ?_⟩
  · decide +kernel
  · decide +kernel

end PrefixMesh.Prefetch
