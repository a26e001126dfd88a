import PrefixMesh.Cachenode.Warming
import PrefixMesh.Prefetch.Plan

/-! From the plan to the nodes. The commands of `OnRing` go to their targets, and once all
of them have been handled every owner on the new ring has the blocks that the plan was
for. -/

namespace PrefixMesh.Prefetch

open Cachenode (Warming)
open Ringwatch (nodeMap ringOf)

variable {F G : Type}

/-- The owners on the new ring, after the commands of a complete plan have been executed: a node that owned the
block before has it, and any other one has been sent a command. -/
theorem Complete.restores {fl : Floats F} {p : Prefetcher F} {now : Int} {old new : Hashring.Ring}
    {cmds : List (WarmCommand F)} (complete : Complete fl p now old new cmds)
    (members : ∀ id, ∀ n ∈ new.owners id p.cfg.rf, n ∈ new.addrs)
    (apart : ∀ a b addr, new.addrs.lookup a = some addr → new.addrs.lookup b = some addr → a = b)
    (c : Cachenode.Cluster G) (w w' : Warming G) (reached : Cachenode.Reachable c w.cluster)
    (issued : w.pending.Perm (cmds.map WarmCommand.read))
    (held : ∀ id, Sourced fl p now old new id → ∀ o ∈ old.owners id.1 p.cfg.rf, o ∈ new.addrs →
      w.cluster.holds c o id = true)
    (run : Warming.Leads c new.addrs w w') (drained : w'.pending = []) (idle : w'.cluster.Idle)
    (id : BlockID) (due : Sourced fl p now old new id) (n : String) (owner : n ∈ new.owners id.1 p.cfg.rf) :
    w'.cluster.holds c n id = true := by
  by_cases before : n ∈ old.owners id.1 p.cfg.rf
  · exact (run.holds reached n (held id due n before (members id.1 n owner))).2
  · have one := complete.once id due n owner before
    obtain ⟨cmd, member, same⟩ := List.mem_map.mp (List.count_pos_iff.mp (one ▸ Nat.one_pos))
    obtain ⟨id', _, named', _, _, known, o, source, address⟩ := complete.only cmd member
    have named : cmd.blockId = id.1 := congrArg Prod.fst same
    have target : cmd.targetNode = n := congrArg Prod.snd same
    obtain rfl : id' = id := Subtype.ext (named'.symm.trans named)
    have alive : o ∈ new.addrs := Finmap.lookup_isSome.mp (by rw [address]; rfl)
    rw [← target]
    exact run.warmed reached (fun m there => apart m o _ there address) named known
      (held id' due o source alive) (issued.mem_iff.mpr (List.mem_map_of_mem member)) drained idle

/-- `OnRing` issues one command for every new owner of a block in demand that has an old owner left with an address,
which it names as the source, and no others; and in a run without failures the commands bring the blocks to all
owners on the new ring. -/
theorem warm_plan_restores (fl : Floats F) (wire : Wire F) (point : String → Nat → Nat) (p : Prefetcher F)
    (oldEpoch : Nat) (oldNodes : AList fun _ : String => String) (oldVnodes : Int)
    (previous : p.ring = some (Hashring.newRing point oldEpoch oldNodes oldVnodes)) (r : Directory.Ring)
    (newer : oldEpoch < r.epoch) (now : Int)
    (marshals : ∀ cmd ∈ commands fl p.cfg now (Hashring.newRing point oldEpoch oldNodes oldVnodes) (ringOf point r)
      p.blocks, (wire.marshal cmd).isSome = true) :
    let old := Hashring.newRing point oldEpoch oldNodes oldVnodes
    let new := ringOf point r
    let cmds := received wire (p.onRing fl wire point r now).1
    Complete fl p now old new cmds ∧
    ∀ (c : Cachenode.Cluster G) (w w' : Warming G), Cachenode.Reachable c w.cluster →
      w.pending.Perm (cmds.map WarmCommand.read) →
      (∀ a b addr, new.addrs.lookup a = some addr → new.addrs.lookup b = some addr → a = b) →
      (∀ id, Sourced fl p now old new id → ∀ o ∈ old.owners id.1 p.cfg.rf, o ∈ new.addrs →
        w.cluster.holds c o id = true) →
      Warming.Leads c new.addrs w w' → w'.pending = [] → w'.cluster.Idle →
      ∀ id, Sourced fl p now old new id → ∀ n ∈ new.owners id.1 p.cfg.rf, w'.cluster.holds c n id = true := by
  intro old new cmds
  have all : cmds = commands fl p.cfg now old new p.blocks :=
    onRing_received fl wire point p old previous r newer now marshals
  have complete : Complete fl p now old new cmds := by
    rw [all]
    exact commands_complete fl p now old new fun id => Hashring.newRing_owners_nodup point _ _ _ id _
  refine ⟨complete, fun c w w' reached issued apart held run drained idle => ?_⟩
  refine complete.restores (fun id n owner => ?_) apart c w w' reached issued held run drained idle
  exact Finmap.mem_toFinmap.mpr (Hashring.mem_newRing_owners point _ _ _ id _ n owner)

/-- Exact arithmetic, with powers of two at whole exponents. -/
def sampleFloats : Floats ℚ where
  ofUint64 n := n.toNat
  add := (· + ·)
  mul := (· * ·)
  div := (· / ·)
  neg q := -q
  exp2 q := if 0 ≤ q.num then mkRat (2 ^ q.num.toNat) 1 else mkRat 1 (2 ^ (-q.num).toNat)
  lt q r := decide (q < r)
  eq q r := decide (q = r)
  seconds d := mkRat d 1000000000
  float32 q := q

def sampleBlock : BlockID := Blockstore.sampleID 1

/-- Two accesses to the block just now, with nodes `a` and `c` on the ring. -/
def samplePrefetcher : Prefetcher ℚ :=
  { newPrefetcher sampleFloats ⟨2, 2, 0, 0, 0⟩ with
    blocks := AList.singleton sampleBlock ⟨2, 1000000000, Blockstore.sampleID 0, "m"⟩
    ring := some (Hashring.newRing Hashring.samplePoint 1 (["a", "c"].map fun id => ⟨id, id ++ ":1"⟩).toAList 1) }

def joinedRing : Directory.Ring := ⟨2, ["a", "b", "c"].map fun id => ⟨id, id ++ ":1", 1000⟩, 1⟩

def sampleCommand : WarmCommand ℚ :=
  ⟨List.replicate 32 1, List.replicate 32 0, "m", "c:1", "b", 3 / 4, 31000⟩

def sampleRaw : List UInt8 :=
  [0x0a, 0x20] ++ List.replicate 32 1 ++ [0x12, 0x20] ++ List.replicate 32 0 ++
    [0x1a, 0x01, 0x6d, 0x22, 0x03, 0x63, 0x3a, 0x31, 0x2d, 0x00, 0x00, 0x40, 0x3f, 0x30, 0x98, 0xf2, 0x01,
      0x3a, 0x01, 0x62]

def commandWire : Wire ℚ where
  marshal cmd := if cmd = sampleCommand then some sampleRaw else none
  unmarshal raw := if raw = sampleRaw then some sampleCommand else none
  decodes := by
    intro cmd raw encoded
    obtain ⟨named, same⟩ := Option.ite_none_right_eq_some.mp encoded
    rw [named, ← Option.some.inj same, if_pos rfl]

def sampleMesh : Cachenode.Cluster Int where
  fl := Blockstore.sampleFloat
  intn := fun _ => id
  config := fun _ => .lru 1000
  static := fun _ => false
  rate := 1

def heldWire : WireBlock := ⟨List.replicate 32 1, List.replicate 32 0, "m", ⟨[8, 9], by decide⟩, 2, 5⟩

/-- The block is put on `a` and `c`, and the command makes `b` fetch it from `c`. -/
theorem sampleCommand_restores : ∃ w w' : Warming Int, Cachenode.Reachable sampleMesh w.cluster ∧
    w.pending = [sampleCommand.read] ∧ w.cluster.holds sampleMesh "b" sampleBlock = false ∧
    Warming.Leads sampleMesh (ringOf Hashring.samplePoint joinedRing).addrs w w' ∧
    (ringOf Hashring.samplePoint joinedRing).owners sampleBlock.1 2 = ["b", "c"] ∧
    ∀ n ∈ (ringOf Hashring.samplePoint joinedRing).owners sampleBlock.1 2,
      w'.cluster.holds sampleMesh n sampleBlock = true := by
  obtain ⟨s, reached, atA, atC, atB, rest⟩ := Lib.reaches_of_check (Cachenode.step sampleMesh) (fun _ _ _ => True)
    [.clock 1, .boot "a", .boot "b", .boot "c", .startPut "a", .putNext 0 ⟨0, some heldWire⟩, .finish 0,
      .startPut "c", .putNext 1 ⟨0, some heldWire⟩, .finish 1] Cachenode.State.init
    (fun s => s.holds sampleMesh "a" sampleBlock = true ∧ s.holds sampleMesh "c" sampleBlock = true ∧
      s.holds sampleMesh "b" sampleBlock = false ∧
      ((Lib.runActions (Warming.step sampleMesh)
        (fun u a _ => u.smooth sampleMesh (ringOf Hashring.samplePoint joinedRing).addrs a = true)
        ⟨s, [sampleCommand.read]⟩ [.deliver sampleCommand.read, .other (.serve 2 "c"), .other (.keep 2)]).any fun w' =>
          decide (w'.pending = [] ∧ ∀ k < w'.cluster.begun, (w'.cluster.calls k).isNone = true)) = true)
    (by decide +kernel)
  obtain ⟨w', executed, facts⟩ := (Option.any_eq_true _ _).mp rest
  obtain ⟨drained, ended⟩ := of_decide_eq_true facts
  have run : Warming.Leads sampleMesh (ringOf Hashring.samplePoint joinedRing).addrs ⟨s, [sampleCommand.read]⟩ w' :=
    Lib.reaches_of_runActions _ _ _ executed
  have idle : w'.cluster.Idle := by
    intro k n cmd fetched live
    have fresh := (Cachenode.inv_reachable (run.holds reached "a" atA).1).2
    by_cases begun : k < w'.cluster.begun
    · have gone := ended k begun
      rw [live] at gone
      cases gone
    · rw [fresh k (not_lt.mp begun)] at live
      cases live
  have planned : commands sampleFloats samplePrefetcher.cfg 1000000000
      (Hashring.newRing Hashring.samplePoint 1 (["a", "c"].map fun id => ⟨id, id ++ ":1"⟩).toAList 1)
      (ringOf Hashring.samplePoint joinedRing) samplePrefetcher.blocks = [sampleCommand] := by
    decide +kernel
  have only : ∀ id st, samplePrefetcher.blocks.lookup id = some st → id = sampleBlock := by
    intro id st tracked
    exact congrArg Sigma.fst (List.mem_singleton.mp (AList.mem_lookup_iff.mp tracked))
  have restored := warm_plan_restores (G := Int) sampleFloats commandWire Hashring.samplePoint samplePrefetcher 1
    (["a", "c"].map fun id => ⟨id, id ++ ":1"⟩).toAList 1 rfl joinedRing (by decide) 1000000000
    (by
      intro cmd member
      rw [planned] at member
      rw [List.mem_singleton.mp member]
      decide +kernel)
  have due : Sourced sampleFloats samplePrefetcher 1000000000
      (Hashring.newRing Hashring.samplePoint 1 (["a", "c"].map fun id => ⟨id, id ++ ":1"⟩).toAList 1)
      (ringOf Hashring.samplePoint joinedRing) sampleBlock :=
    ⟨⟨_, rfl, by decide +kernel, "c", by decide +kernel, by decide +kernel⟩, "c", by decide +kernel, "c:1",
      by decide +kernel, by decide⟩
  refine ⟨⟨s, [sampleCommand.read]⟩, w', reached, rfl, atB, run, by decide +kernel, ?_⟩
  refine restored.2 sampleMesh ⟨s, [sampleCommand.read]⟩ w' reached ?_ ?_ ?_ run drained idle sampleBlock due
  · have issued : received commandWire
        (samplePrefetcher.onRing sampleFloats commandWire Hashring.samplePoint joinedRing 1000000000).1 =
          [sampleCommand] := by decide +kernel
    rw [issued]
    exact List.Perm.refl _
  · intro a b addr first second
    have entries : ∀ x ∈ (nodeMap joinedRing.nodes).entries, ∀ y ∈ (nodeMap joinedRing.nodes).entries,
        x.2 = y.2 → x.1 = y.1 := by decide
    exact entries ⟨a, addr⟩ (AList.mem_lookup_iff.mp first) ⟨b, addr⟩ (AList.mem_lookup_iff.mp second) rfl
  · rintro id ⟨⟨st, tracked, _⟩, _⟩ o owner _
    obtain rfl := only id st tracked
    have owners : (Hashring.newRing Hashring.samplePoint 1 (["a", "c"].map fun id => ⟨id, id ++ ":1"⟩).toAList 1).owners
        sampleBlock.1 2 = ["c", "a"] := by decide +kernel
    have which : o ∈ ["c", "a"] := owners ▸ owner
    rcases List.mem_cons.mp which with rfl | second
    · exact atC
    · rw [List.mem_singleton.mp second]
      exact atA

/-- Node `b` comes in the place of `a`, and `c` is left without an address. -/
def unaddressedRing : Directory.Ring := ⟨2, [⟨"b", "b:1", 1000⟩, ⟨"c", "", 1000⟩], 1⟩

/-- The block is in demand and `c`, which owned it, is still a member; but its empty address is taken for that of no
node at all, and nothing is sent to the new owner `b`. -/
theorem unaddressedRing_not_warmed :
    let old := Hashring.newRing Hashring.samplePoint 1 (["a", "c"].map fun id => ⟨id, id ++ ":1"⟩).toAList 1
    let new := ringOf Hashring.samplePoint unaddressedRing
    samplePrefetcher.ring = some old ∧ old.epoch < new.epoch ∧
    Due sampleFloats samplePrefetcher 1000000000 old new sampleBlock ∧
    "b" ∈ new.owners sampleBlock.1 2 ∧ "b" ∉ old.owners sampleBlock.1 2 ∧
    (samplePrefetcher.onRing sampleFloats commandWire Hashring.samplePoint unaddressedRing 1000000000).1 = [] ∧
    commands sampleFloats samplePrefetcher.cfg 1000000000 old new samplePrefetcher.blocks = [] := by
  refine ⟨rfl, by decide, ⟨_, rfl, by decide +kernel, "c", by decide +kernel, by decide +kernel⟩, ?_⟩
  decide +kernel

end PrefixMesh.Prefetch
