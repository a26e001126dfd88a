import PrefixMesh.Blockstore.Paged
import PrefixMesh.Cachenode.Warmer
import PrefixMesh.Hashring.Owners
import PrefixMesh.Ringwatch.Watcher

/-! The warm plan of the prefetcher. Times are nanoseconds, `float64` is a parameter, and
the tracked blocks come in the order of a map iteration. -/

namespace PrefixMesh.Prefetch

open Directory (Bytes NodeInfo)
open Ringwatch (nodeMap ringOf)

/-- `float64` with the conversions that the prefetcher needs: `Seconds` of a duration, and rounding to `float32`. -/
structure Floats (F : Type) extends Blockstore.Float64 F where
  eq : F → F → Bool
  seconds : Int → F
  float32 : F → F

structure BlockStat (F : Type) where
  demand : F
  lastSeen : Int
  parent : BlockID
  modelID : String

structure Config (F : Type) where
  rf : Int
  demandThreshold : F
  halfLife : Int
  maxTracked : Int
  warmDeadline : Int

structure Prefetcher (F : Type) where
  cfg : Config F
  blocks : AList (fun _ : BlockID => BlockStat F)
  ring : Option Hashring.Ring
  warmsIssued : UInt64

structure WarmCommand (F : Type) where
  blockId : List UInt8
  parentId : List UInt8
  modelId : String
  sourceNode : String
  targetNode : String
  confidence : F
  deadlineUnixMs : Int
  deriving DecidableEq

def WarmCommand.read {F : Type} (cmd : WarmCommand F) : Cachenode.WarmCommand :=
  ⟨cmd.blockId, cmd.sourceNode, cmd.deadlineUnixMs, cmd.targetNode⟩

structure Wire (F : Type) where
  marshal : WarmCommand F → Option Bytes
  unmarshal : Bytes → Option (WarmCommand F)
  decodes : ∀ cmd raw, marshal cmd = some raw → unmarshal raw = some cmd

structure Warm (F : Type) where
  id : BlockID
  st : BlockStat F
  targets : List String
  source : String
  conf : F

/-- `Sub` of two times, which saturates. -/
def sub (t u : Int) : Int := max (-2 ^ 63) (min (2 ^ 63 - 1) (t - u))

variable {F : Type} (fl : Floats F)

def Config.defaults (c : Config F) : Config F where
  rf := if c.rf = 0 then 2 else c.rf
  demandThreshold := if fl.eq c.demandThreshold (fl.ofUint64 0) then fl.ofUint64 2 else c.demandThreshold
  halfLife := if c.halfLife = 0 then 60000000000 else c.halfLife
  maxTracked := if c.maxTracked = 0 then 100000 else c.maxTracked
  warmDeadline := if c.warmDeadline = 0 then 30000000000 else c.warmDeadline

def newPrefetcher (cfg : Config F) : Prefetcher F := ⟨cfg.defaults fl, ∅, none, 0⟩

def decayed (cfg : Config F) (now : Int) (st : BlockStat F) : F :=
  let dt := fl.div (fl.seconds (sub now st.lastSeen)) (fl.seconds cfg.halfLife)
  fl.mul st.demand (fl.exp2 (fl.neg dt))

/-- The loop over the old owners. An address that is empty is taken for none. -/
def sourceLoop (newNodes : Finmap fun _ : String => String) : List String → String → String
  | [], source => source
  | o :: rest, source =>
      match newNodes.lookup o with
      | some addr => sourceLoop newNodes rest (if source = "" then addr else source)
      | none => sourceLoop newNodes rest source

section Plan

variable (cfg : Config F) (now : Int) (oldRing newRing : Hashring.Ring)

def planOne (id : BlockID) (st : BlockStat F) : Option (Warm F) :=
  let demand := decayed fl cfg now st
  if fl.lt demand cfg.demandThreshold then none
  else
    let oldOwners := oldRing.owners id.1 cfg.rf
    let newOwners := newRing.owners id.1 cfg.rf
    let source := sourceLoop newRing.addrs oldOwners ""
    if source = "" then none
    else
      let targets := newOwners.filter fun o => decide (o ∉ oldOwners)
      if targets.length = 0 then none
      else some ⟨id, st, targets, source, fl.add (fl.ofUint64 1) (fl.neg (fl.exp2 (fl.neg demand)))⟩

def plan (blocks : AList fun _ : BlockID => BlockStat F) : List (Warm F) :=
  blocks.entries.filterMap fun entry => planOne fl cfg now oldRing newRing entry.1 entry.2

def command (w : Warm F) (target : String) : WarmCommand F where
  blockId := w.id.1
  parentId := w.st.parent.1
  modelId := w.st.modelID
  sourceNode := w.source
  targetNode := target
  confidence := fl.float32 w.conf
  deadlineUnixMs := (now + cfg.warmDeadline) / 1000000

def commands (blocks : AList fun _ : BlockID => BlockStat F) : List (WarmCommand F) :=
  (plan fl cfg now oldRing newRing blocks).flatMap fun w => w.targets.map (command fl cfg now w)

end Plan

/-- `OnRing`: what it produces on the topic of warm commands, key and value, and the prefetcher after it. A
command that cannot be marshalled is skipped. -/
def Prefetcher.onRing (wire : Wire F) (point : String → Nat → Nat) (p : Prefetcher F) (r : Directory.Ring)
    (now : Int) : List (Bytes × Bytes) × Prefetcher F :=
  let newRing := ringOf point r
  let p' := { p with ring := some newRing }
  match p.ring with
  | none => ([], p')
  | some oldRing =>
      if newRing.epoch ≤ oldRing.epoch then ([], p')
      else
        let records := (commands fl p.cfg now oldRing newRing p.blocks).filterMap fun cmd =>
          (wire.marshal cmd).map fun raw => (cmd.blockId, raw)
        (records, { p' with warmsIssued := p.warmsIssued + UInt64.ofNat records.length })

def received (wire : Wire F) (records : List (Bytes × Bytes)) : List (WarmCommand F) :=
  records.filterMap fun record => wire.unmarshal record.2

theorem received_marshalled (wire : Wire F) (cmds : List (WarmCommand F))
    (marshals : ∀ cmd ∈ cmds, (wire.marshal cmd).isSome = true) :
    received wire (cmds.filterMap fun cmd => (wire.marshal cmd).map fun raw => (cmd.blockId, raw)) = cmds := by
  unfold received
  rw [List.filterMap_filterMap]
  refine (List.filterMap_congr fun cmd member => ?_).trans List.filterMap_some
  obtain ⟨raw, encoded⟩ := Option.isSome_iff_exists.mp (marshals cmd member)
  simp only [encoded, Option.map_some, Option.bind_some, wire.decodes cmd raw encoded]

theorem onRing_received (wire : Wire F) (point : String → Nat → Nat) (p : Prefetcher F) (old : Hashring.Ring)
    (previous : p.ring = some old) (r : Directory.Ring) (newer : old.epoch < r.epoch) (now : Int)
    (marshals : ∀ cmd ∈ commands fl p.cfg now old (ringOf point r) p.blocks, (wire.marshal cmd).isSome = true) :
    received wire (p.onRing fl wire point r now).1 = commands fl p.cfg now old (ringOf point r) p.blocks := by
  have later : ¬(ringOf point r).epoch ≤ old.epoch := Nat.not_le.mpr newer
  simp only [Prefetcher.onRing, previous, if_neg later]
  exact received_marshalled wire _ marshals

section Source

variable (addrs : Finmap fun _ : String => String)

theorem sourceLoop_known (owners : List String) (source : String) (known : source ≠ "") :
    sourceLoop addrs owners source = source := by
  induction owners with
  | nil => rfl
  | cons o rest ih =>
    simp only [sourceLoop, if_neg known]
    split
    · exact ih
    · exact ih

/-- The source is the address of an old owner that is still there with one, if there is any. -/
theorem sourceLoop_spec (owners : List String) :
    (sourceLoop addrs owners "" = "" ∧ ∀ o ∈ owners, ∀ addr, addrs.lookup o = some addr → addr = "") ∨
    sourceLoop addrs owners "" ≠ "" ∧ ∃ o ∈ owners, addrs.lookup o = some (sourceLoop addrs owners "") := by
  induction owners with
  | nil => exact Or.inl ⟨rfl, List.forall_mem_nil _⟩
  | cons o rest ih =>
    -- an owner that is gone and one without an address are passed over alike
    have passed : (∀ addr, addrs.lookup o = some addr → addr = "") →
        sourceLoop addrs (o :: rest) "" = sourceLoop addrs rest "" := by
      intro none_
      simp only [sourceLoop, if_true]
      split
      next addr found => rw [none_ addr found]
      next => rfl
    by_cases none_ : ∀ addr, addrs.lookup o = some addr → addr = ""
    · rw [passed none_]
      rcases ih with ⟨nothing, others⟩ | ⟨known, o', member, address⟩
      · exact Or.inl ⟨nothing, List.forall_mem_cons.mpr ⟨none_, others⟩⟩
      · exact Or.inr ⟨known, o', List.mem_cons_of_mem _ member, address⟩
    · push Not at none_
      obtain ⟨addr, found, known⟩ := none_
      have first : sourceLoop addrs (o :: rest) "" = addr := by
        simp only [sourceLoop, found, if_true, sourceLoop_known addrs rest addr known]
      rw [first]
      exact Or.inr ⟨known, o, List.mem_cons_self, found⟩

end Source

/-- A block in demand of which an old owner is left. -/
def Due (p : Prefetcher F) (now : Int) (old new : Hashring.Ring) (id : BlockID) : Prop :=
  ∃ st, p.blocks.lookup id = some st ∧ fl.lt (decayed fl p.cfg now st) p.cfg.demandThreshold = false ∧
    ∃ o ∈ old.owners id.1 p.cfg.rf, o ∈ new.addrs

/-- A block that a plan is for: one of the old owners that are left has an address to copy it from. -/
def Sourced (p : Prefetcher F) (now : Int) (old new : Hashring.Ring) (id : BlockID) : Prop :=
  Due fl p now old new id ∧ ∃ o ∈ old.owners id.1 p.cfg.rf, ∃ addr, new.addrs.lookup o = some addr ∧ addr ≠ ""

/-- The commands ask for what is missing, once and nothing else. -/
structure Complete (p : Prefetcher F) (now : Int) (old new : Hashring.Ring) (cmds : List (WarmCommand F)) : Prop where
  once : ∀ id, Sourced fl p now old new id → ∀ n ∈ new.owners id.1 p.cfg.rf, n ∉ old.owners id.1 p.cfg.rf →
    (cmds.map fun cmd => (cmd.blockId, cmd.targetNode)).count (id.1, n) = 1
  only : ∀ cmd ∈ cmds, ∃ id, Sourced fl p now old new id ∧ cmd.blockId = id.1 ∧
    cmd.targetNode ∈ new.owners id.1 p.cfg.rf ∧ cmd.targetNode ∉ old.owners id.1 p.cfg.rf ∧
    cmd.sourceNode ≠ "" ∧ ∃ o ∈ old.owners id.1 p.cfg.rf, new.addrs.lookup o = some cmd.sourceNode

section Commands

variable {fl} {cfg : Config F} {now : Int} {old new : Hashring.Ring}

theorem planOne_some {id : BlockID} {st : BlockStat F} {w : Warm F}
    (planned : planOne fl cfg now old new id st = some w) :
    fl.lt (decayed fl cfg now st) cfg.demandThreshold = false ∧ w.id = id ∧
    w.source = sourceLoop new.addrs (old.owners id.1 cfg.rf) "" ∧ w.source ≠ "" ∧
    w.targets = (new.owners id.1 cfg.rf).filter fun o => decide (o ∉ old.owners id.1 cfg.rf) := by
  simp only [planOne] at planned
  split at planned
  · cases planned
  next wanted =>
    split at planned
    · cases planned
    next source =>
      split at planned
      · cases planned
      · cases planned
        exact ⟨Bool.eq_false_of_not_eq_true wanted, rfl, rfl, source, rfl⟩

theorem planOne_of_sourced {id : BlockID} {st : BlockStat F} {o addr n : String}
    (demand : fl.lt (decayed fl cfg now st) cfg.demandThreshold = false) (owner : o ∈ old.owners id.1 cfg.rf)
    (found : new.addrs.lookup o = some addr) (known : addr ≠ "") (next : n ∈ new.owners id.1 cfg.rf)
    (lacks : n ∉ old.owners id.1 cfg.rf) : ∃ w, planOne fl cfg now old new id st = some w := by
  have source : sourceLoop new.addrs (old.owners id.1 cfg.rf) "" ≠ "" := by
    rcases sourceLoop_spec new.addrs (old.owners id.1 cfg.rf) with ⟨_, none_⟩ | ⟨known, _⟩
    · exact absurd (none_ o owner addr found) known
    · exact known
  have target : n ∈ (new.owners id.1 cfg.rf).filter fun o => decide (o ∉ old.owners id.1 cfg.rf) :=
    List.mem_filter.mpr ⟨next, decide_eq_true lacks⟩
  have some_ : ((new.owners id.1 cfg.rf).filter fun o => decide (o ∉ old.owners id.1 cfg.rf)).length ≠ 0 :=
    fun zero => List.ne_nil_of_mem target (List.length_eq_zero_iff.mp zero)
  simp only [planOne, demand, if_neg source, if_neg some_]
  exact ⟨_, rfl⟩

theorem commands_nodup (owners : ∀ id, (new.owners id cfg.rf).Nodup) (blocks : AList fun _ : BlockID => BlockStat F) :
    ((commands fl cfg now old new blocks).map fun cmd => (cmd.blockId, cmd.targetNode)).Nodup := by
  have pairs : (commands fl cfg now old new blocks).map (fun cmd => (cmd.blockId, cmd.targetNode)) =
      (plan fl cfg now old new blocks).flatMap fun w => w.targets.map fun target => (w.id.1, target) := by
    simp only [commands, List.map_flatMap, List.map_map]
    rfl
  rw [pairs, List.nodup_flatMap]
  constructor
  · intro w member
    obtain ⟨entry, _, planned⟩ := List.mem_filterMap.mp member
    obtain ⟨_, _, _, _, targets⟩ := planOne_some planned
    rw [targets]
    exact ((owners entry.1.1).filter _).map fun _ _ same => congrArg Prod.snd same
  · -- entries of different blocks
    refine List.Pairwise.filterMap _ ?_ (List.pairwise_map.mp blocks.keys_nodup)
    intro e e' different w planned w' planned' x left right
    obtain ⟨_, _, rfl⟩ := List.mem_map.mp left
    obtain ⟨_, _, same⟩ := List.mem_map.mp right
    refine different ?_
    rw [← (planOne_some planned).2.1, ← (planOne_some planned').2.1]
    exact (Subtype.ext (congrArg Prod.fst same)).symm

end Commands

theorem commands_complete (p : Prefetcher F) (now : Int) (old new : Hashring.Ring)
    (owners : ∀ id, (new.owners id p.cfg.rf).Nodup) :
    Complete fl p now old new (commands fl p.cfg now old new p.blocks) where
  once := by
    rintro id ⟨⟨st, tracked, demand, _⟩, o, owner, addr, found, known⟩ n next lacks
    refine List.count_eq_one_of_mem (commands_nodup owners p.blocks) ?_
    obtain ⟨w, planned⟩ := planOne_of_sourced demand owner found known next lacks
    obtain ⟨_, named, _, _, targets⟩ := planOne_some planned
    refine List.mem_map.mpr ⟨command fl p.cfg now w n, List.mem_flatMap.mpr ⟨w, ?_, ?_⟩, ?_⟩
    · exact List.mem_filterMap.mpr ⟨⟨id, st⟩, AList.mem_lookup_iff.mp tracked, planned⟩
    · rw [targets]
      exact List.mem_map_of_mem (List.mem_filter.mpr ⟨next, decide_eq_true lacks⟩)
    · exact congrArg (fun id : BlockID => (id.1, n)) named
  only := by
    intro cmd member
    obtain ⟨w, entry, made⟩ := List.mem_flatMap.mp member
    obtain ⟨n, target, rfl⟩ := List.mem_map.mp made
    obtain ⟨⟨id, st⟩, tracked, planned⟩ := List.mem_filterMap.mp entry
    obtain ⟨demand, named, source, nonempty, targets⟩ := planOne_some planned
    rw [targets] at target
    obtain ⟨next, lacks⟩ := List.mem_filter.mp target
    rcases sourceLoop_spec new.addrs (old.owners id.1 p.cfg.rf) with ⟨nothing, _⟩ | ⟨_, o, owner, address⟩
    · exact absurd (source.trans nothing) nonempty
    · rw [← source] at address
      have alive : o ∈ new.addrs := Finmap.lookup_isSome.mp (by rw [address]; rfl)
      have due : Due fl p now old new id := ⟨st, AList.mem_lookup_iff.mpr tracked, demand, o, owner, alive⟩
      exact ⟨id, ⟨due, o, owner, _, address, nonempty⟩, congrArg Subtype.val named, next, of_decide_eq_true lacks,
        nonempty, o, owner, address⟩

end PrefixMesh.Prefetch
