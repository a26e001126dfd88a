import Mathlib.Data.List.Chain
import PrefixMesh.Prefetch.Replication

/-! Sequences of rings. `OnRing` keeps the ring of every message before it looks at the
epoch, so a stale ring is what the next plan is made against. -/

namespace PrefixMesh.Prefetch

open Directory (Bytes)
open Ringwatch (ringOf)

structure Call (F : Type) where
  blocks : AList (fun _ : BlockID => BlockStat F)
  ring : Directory.Ring
  now : Int

variable {F : Type} (fl : Floats F) (wire : Wire F) (point : String → Nat → Nat)

def Prefetcher.call (p : Prefetcher F) (c : Call F) : List (Bytes × Bytes) × Prefetcher F :=
  { p with blocks := c.blocks }.onRing fl wire point c.ring c.now

def Prefetcher.after (p : Prefetcher F) (calls : List (Call F)) : Prefetcher F :=
  calls.foldl (fun p c => (p.call fl wire point c).2) p

/-- The rings whose owners a call compares, old and new. -/
def Prefetcher.compares (p : Prefetcher F) (r : Directory.Ring) : Option (Hashring.Ring × Hashring.Ring) :=
  p.ring.bind fun old => if (ringOf point r).epoch ≤ old.epoch then none else some (old, ringOf point r)

theorem call_records (p : Prefetcher F) (c : Call F) :
    (p.call fl wire point c).1 = (p.compares point c.ring).elim [] fun rings =>
      (commands fl p.cfg c.now rings.1 rings.2 c.blocks).filterMap fun cmd =>
        (wire.marshal cmd).map fun raw => (cmd.blockId, raw) := by
  cases previous : p.ring with
  | none => simp [Prefetcher.call, Prefetcher.onRing, Prefetcher.compares, previous]
  | some old =>
    simp only [Prefetcher.call, Prefetcher.onRing, Prefetcher.compares, previous, Option.bind_some]
    split
    · rfl
    · rfl

theorem call_ring (p : Prefetcher F) (c : Call F) :
    (p.call fl wire point c).2.ring = some (ringOf point c.ring) := by
  unfold Prefetcher.call Prefetcher.onRing
  dsimp only
  split
  · rfl
  · split
    · rfl
    · rfl

theorem after_concat (p : Prefetcher F) (calls : List (Call F)) (c : Call F) :
    p.after fl wire point (calls ++ [c]) = ((p.after fl wire point calls).call fl wire point c).2 :=
  List.foldl_concat ..

/-- A call, after others, plans only against the newest ring so far. -/
structure Newest (p : Prefetcher F) (before : List (Call F)) (c : Call F) : Prop where
  issues : ((p.after fl wire point before).call fl wire point c).1 ≠ [] →
    ∀ b ∈ before, b.ring.epoch < c.ring.epoch
  compares : ∀ old new, (p.after fl wire point before).compares point c.ring = some (old, new) →
    new = ringOf point c.ring ∧
      ∃ b ∈ before, old = ringOf point b.ring ∧ ∀ other ∈ before, other.ring.epoch ≤ b.ring.epoch
  keeps : (∃ b ∈ before, c.ring.epoch ≤ b.ring.epoch) →
    ((p.after fl wire point before).call fl wire point c).2.ring = (p.after fl wire point before).ring

/-- The next message is newer, or describes the same ring again. -/
def Follows (c d : Call F) : Prop := c.ring.epoch < d.ring.epoch ∨ ringOf point d.ring = ringOf point c.ring

theorem Follows.epoch {c d : Call F} (follows : Follows point c d) : c.ring.epoch ≤ d.ring.epoch := by
  rcases follows with newer | same
  · exact newer.le
  · exact (congrArg Hashring.Ring.epoch same).ge

theorem epoch_le_last {calls : List (Call F)} {last : Call F} (ordered : (calls ++ [last]).IsChain (Follows point)) :
    ∀ c ∈ calls ++ [last], c.ring.epoch ≤ last.ring.epoch := by
  have rising : (calls ++ [last]).IsChain (fun c d => c.ring.epoch ≤ d.ring.epoch) :=
    ordered.imp fun _ _ follows => follows.epoch
  have sorted := (List.isChain_iff_pairwise.mp rising)
  intro c member
  rcases List.mem_append.mp member with inside | own
  · exact (List.pairwise_append.mp sorted).2.2 c inside last List.mem_cons_self
  · rw [List.mem_singleton.mp own]

theorem newest_of_follows (p : Prefetcher F) (unset : p.ring = none) (before : List (Call F)) (c : Call F)
    (ordered : (before ++ [c]).IsChain (Follows point)) : Newest fl wire point p before c := by
  induction before using List.reverseRecOn with
  | nil =>
    refine ⟨fun _ => nofun, fun old new compared => ?_, fun stale => ?_⟩
    · simp [Prefetcher.compares, Prefetcher.after, unset] at compared
    · obtain ⟨b, member, _⟩ := stale
      cases member
  | append_singleton earlier last =>
    rw [List.append_assoc, List.singleton_append, List.isChain_append_cons_cons] at ordered
    have highest := epoch_le_last point ordered.1
    have stored : (p.after fl wire point (earlier ++ [last])).ring = some (ringOf point last.ring) := by
      rw [after_concat, call_ring]
    have compared (old new)
        (rings : (p.after fl wire point (earlier ++ [last])).compares point c.ring = some (old, new)) :
        last.ring.epoch < c.ring.epoch ∧ ringOf point last.ring = old ∧ ringOf point c.ring = new := by
      rw [Prefetcher.compares, stored, Option.bind_some, Option.ite_none_left_eq_some, Option.some.injEq,
        Prod.mk.injEq] at rings
      exact ⟨Nat.not_le.mp rings.1, rings.2⟩
    refine ⟨fun issued b member => ?_, fun old new rings => ?_, fun stale => ?_⟩
    · rw [call_records] at issued
      cases rings : (p.after fl wire point (earlier ++ [last])).compares point c.ring with
      | none =>
        rw [rings] at issued
        exact absurd rfl issued
      | some pair => exact (highest b member).trans_lt (compared pair.1 pair.2 rings).1
    · obtain ⟨_, rfl, rfl⟩ := compared old new rings
      exact ⟨rfl, last, List.mem_append_right _ List.mem_cons_self, rfl, highest⟩
    · obtain ⟨b, member, le⟩ := stale
      rw [call_ring, stored]
      refine congrArg some (ordered.2.1.resolve_left (Nat.not_lt.mpr ?_))
      exact le.trans (highest b member)

/-- All calls plan against the newest ring only, exactly if each message is newer than the one before or describes the
same ring again. -/
theorem plans_newest_iff (cfg : Config F) (calls : List (Call F)) :
    (∀ before c rest, calls = before ++ c :: rest → Newest fl wire point (newPrefetcher fl cfg) before c) ↔
      calls.IsChain (Follows point) := by
  constructor
  · intro newest
    rw [List.isChain_iff_forall_rel_of_append_cons_cons]
    intro c d before rest split
    rw [Follows, or_iff_not_imp_left]
    intro stale
    have kept := (newest (before ++ [c]) d rest (by rw [split, List.append_assoc]; rfl)).keeps
      ⟨c, List.mem_append_right _ List.mem_cons_self, Nat.not_lt.mp stale⟩
    rw [call_ring, after_concat, call_ring] at kept
    exact Option.some.inj kept
  · rintro ordered before c rest rfl
    refine newest_of_follows fl wire point _ rfl before c ?_
    rw [List.append_cons] at ordered
    exact (List.isChain_append.mp ordered).1

def callAt (r : Directory.Ring) : Call ℚ := ⟨samplePrefetcher.blocks, r, 1000000000⟩

def formerRing (epoch : Nat) : Directory.Ring := ⟨epoch, ["a", "c"].map fun id => ⟨id, id ++ ":1", 1000⟩, 1⟩

/-- A stale ring makes the next one be planned for again, and an empty ring of epoch 0 makes a plan be left out. -/
theorem staleRing_replanned :
    let p := newPrefetcher sampleFloats ⟨2, 2, 0, 0, 0⟩
    ((p.after sampleFloats commandWire Hashring.samplePoint [callAt joinedRing, callAt (formerRing 1)]).call
      sampleFloats commandWire Hashring.samplePoint (callAt joinedRing)).1 = [(sampleBlock.1, sampleRaw)] ∧
    ((p.after sampleFloats commandWire Hashring.samplePoint [callAt (formerRing 1)]).call
      sampleFloats commandWire Hashring.samplePoint (callAt joinedRing)).1 = [(sampleBlock.1, sampleRaw)] ∧
    ((p.after sampleFloats commandWire Hashring.samplePoint [callAt (formerRing 1), callAt ⟨0, [], 1⟩]).call
      sampleFloats commandWire Hashring.samplePoint (callAt joinedRing)).1 = [] := by
  refine ⟨?_, ?_, ?_⟩
  · decide +kernel
  · decide +kernel
  · decide +kernel

end PrefixMesh.Prefetch
