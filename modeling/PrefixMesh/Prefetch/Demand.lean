import PrefixMesh.Prefetch.Access

/-! What the demand of a block says of the traffic: a block is not more in demand than it has
been asked for, so a plan is never made for a block that has been seen less often than the
threshold says. -/

namespace PrefixMesh.Prefetch

open Directory (Bytes)
open Ringwatch (ringOf)

variable {F : Type} (fl : Floats F)

/-- What the bound relies on of `float64`, for a half-life that is positive and a clock that does not go back: counting
adds at most one, and fading adds nothing. -/
structure Counting (halfLife : Int) (atMost : F → Nat → Prop) : Prop where
  unseen : atMost (fl.ofUint64 0) 0
  seen : ∀ x k elapsed, 0 ≤ elapsed → atMost x k →
    atMost (fl.add (fl.ofUint64 1) (fl.mul x (faded fl halfLife elapsed))) (k + 1)
  fades : ∀ x k elapsed, 0 ≤ elapsed → atMost x k → atMost (fl.mul x (faded fl halfLife elapsed)) k
  more : ∀ x k k', k ≤ k' → atMost x k → atMost x k'

/-- How often an id stands in the events of these values, in front of the first malformed one of its chain. -/
def asked (unmarshal : Bytes → Option AccessEvent) (values : List Bytes) (id : BlockID) : Nat :=
  (values.map fun value => (leading (((unmarshal value).map AccessEvent.chain).getD [])).count id).sum

/-- The demands of the tracked blocks are at most these counts, as of times that are past. -/
def Tallied (atMost : F → Nat → Prop) (now : Int) (counts : BlockID → Nat) (blocks : Blocks F) : Prop :=
  ∀ id st, blocks.lookup id = some st → atMost st.demand (counts id) ∧ st.lastSeen ≤ now

variable {fl} {atMost : F → Nat → Prop} {cfg : Config F} {now : Int} {counts : BlockID → Nat} {blocks : Blocks F}

theorem Tallied.later {now' : Int} (tallied : Tallied atMost now counts blocks) (le : now ≤ now') :
    Tallied atMost now' counts blocks :=
  fun id st found => ⟨(tallied id st found).1, (tallied id st found).2.trans le⟩

theorem Tallied.accessLoop (counting : Counting fl cfg.halfLife atMost) (tallied : Tallied atMost now counts blocks)
    (modelID : String) (chain : List (List UInt8)) (parent : BlockID) :
    Tallied atMost now (fun id => counts id + (leading chain).count id)
      (accessLoop fl cfg modelID now chain parent blocks).2 := by
  induction chain generalizing parent blocks counts with
  | nil => exact tallied
  | cons raw rest ih =>
    rw [Prefetch.accessLoop, leading]
    split
    next sized =>
      -- the block of this round has been asked for once more
      have counted : (fun id => counts id + (⟨raw, sized⟩ :: leading rest).count id) =
          fun id => (counts id + if id = ⟨raw, sized⟩ then 1 else 0) + (leading rest).count id := by
        funext id
        by_cases same : id = ⟨raw, sized⟩
        · rw [if_pos same, same, List.count_cons_self]
          omega
        · rw [if_neg same, List.count_cons_of_ne (Ne.symm same), Nat.add_zero]
      rw [counted]
      apply ih
      intro id st found
      by_cases same : id = ⟨raw, sized⟩
      · subst same
        rw [AList.lookup_insert] at found
        cases found
        dsimp only
        rw [if_pos rfl]
        refine ⟨?_, le_rfl⟩
        cases before : blocks.lookup ⟨raw, sized⟩ with
        | none =>
          refine counting.more _ 1 _ (Nat.le_add_left 1 _) ?_
          exact counting.seen _ 0 _ (sub_nonneg_of_le le_rfl) counting.unseen
        | some old =>
          obtain ⟨bound, past⟩ := tallied _ old before
          exact counting.seen old.demand _ _ (sub_nonneg_of_le past) bound
      · rw [AList.lookup_insert_ne same] at found
        dsimp only
        rw [if_neg same, Nat.add_zero]
        exact tallied id st found
    next => exact tallied

theorem Tallied.handleAccess {unmarshal : Bytes → Option AccessEvent} {p : Prefetcher F} (call : Access fl)
    {values : List Bytes} (counting : Counting fl p.cfg.halfLife atMost)
    (tallied : Tallied atMost call.now (asked unmarshal values) p.blocks) :
    Tallied atMost call.now (asked unmarshal (values ++ [call.value])) (p.handleAccess fl unmarshal call).blocks := by
  have counted : asked unmarshal (values ++ [call.value]) = fun id => asked unmarshal values id +
      (leading (((unmarshal call.value).map AccessEvent.chain).getD [])).count id := by
    funext id
    simp [asked]
  rw [counted]
  cases decoded : unmarshal call.value with
  | none =>
    rw [handleAccess_none decoded]
    exact tallied
  | some ev =>
    have accessed := tallied.accessLoop counting ev.modelId ev.chain zeroID
    rw [handleAccess_blocks decoded]
    split
    · exact fun id st found => accessed id st (lookup_foldl_erase _ _ id st found)
    · exact accessed

theorem commands_asked {needed : Nat} {old new : Hashring.Ring} (counting : Counting fl cfg.halfLife atMost)
    (threshold : ∀ x k, atMost x k → fl.lt x cfg.demandThreshold = false → needed ≤ k)
    (tallied : Tallied atMost now counts blocks) {cmd : WarmCommand F}
    (listed : cmd ∈ commands fl cfg now old new blocks) : ∃ id : BlockID, cmd.blockId = id.1 ∧ needed ≤ counts id := by
  obtain ⟨w, entry, made⟩ := List.mem_flatMap.mp listed
  obtain ⟨n, _, rfl⟩ := List.mem_map.mp made
  obtain ⟨⟨id, st⟩, tracked, planned⟩ := List.mem_filterMap.mp entry
  obtain ⟨demand, named, _⟩ := planOne_some planned
  obtain ⟨bound, past⟩ := tallied id st (AList.mem_lookup_iff.mpr tracked)
  exact ⟨id, congrArg Subtype.val named,
    threshold _ _ (counting.fades st.demand _ _ (sub_nonneg_of_le past) bound) demand⟩

variable (fl) in
theorem onRing_same (wire : Wire F) (point : String → Nat → Nat) (p : Prefetcher F) (r : Directory.Ring) (now : Int) :
    (p.onRing fl wire point r now).2.cfg = p.cfg ∧ (p.onRing fl wire point r now).2.blocks = p.blocks := by
  unfold Prefetcher.onRing
  dsimp only
  split
  · exact ⟨rfl, rfl⟩
  · split
    · exact ⟨rfl, rfl⟩
    · exact ⟨rfl, rfl⟩

theorem onRing_records (wire : Wire F) (point : String → Nat → Nat) (p : Prefetcher F) (r : Directory.Ring) (now : Int)
    {record : Bytes × Bytes} (produced : record ∈ (p.onRing fl wire point r now).1) :
    ∃ old cmd, cmd ∈ commands fl p.cfg now old (ringOf point r) p.blocks ∧ wire.unmarshal record.2 = some cmd := by
  unfold Prefetcher.onRing at produced
  dsimp only at produced
  split at produced
  · cases produced
  next old _ =>
    split at produced
    · cases produced
    · obtain ⟨cmd, listed, encoded⟩ := List.mem_filterMap.mp produced
      obtain ⟨raw, marshalled, rfl⟩ := Option.map_eq_some_iff.mp encoded
      exact ⟨old, cmd, listed, wire.decodes cmd raw marshalled⟩

theorem sampleFloats_fading {halfLife elapsed : Int} (positive : 0 < halfLife) (ahead : 0 ≤ elapsed) :
    faded sampleFloats halfLife elapsed ≤ 1 := by
  have exponent : (-(mkRat elapsed 1000000000 / mkRat halfLife 1000000000)).num ≤ 0 := by
    refine Rat.num_nonpos.mpr (neg_nonpos.mpr (div_nonneg ?_ ?_))
    · exact Rat.mkRat_nonneg ahead _
    · exact Rat.mkRat_nonneg positive.le _
  simp only [faded, sampleFloats]
  generalize (-(mkRat elapsed 1000000000 / mkRat halfLife 1000000000)).num = n at exponent
  split
  next above =>
    obtain rfl : n = 0 := le_antisymm exponent above
    decide
  next =>
    rw [Rat.mkRat_eq_div]
    push_cast
    exact div_le_one_of_le₀ (one_le_pow₀ (by norm_num)) (by positivity)

theorem sampleFloats_counting {halfLife : Int} (positive : 0 < halfLife) :
    Counting sampleFloats halfLife (fun x k => 0 ≤ x ∧ x ≤ k) := by
  have fades : ∀ (x : ℚ) (k : Nat) elapsed, 0 ≤ elapsed → 0 ≤ x ∧ x ≤ k →
      0 ≤ x * faded sampleFloats halfLife elapsed ∧ x * faded sampleFloats halfLife elapsed ≤ k := by
    intro x k elapsed ahead bound
    have low := sampleFloats_faded halfLife elapsed
    exact ⟨mul_nonneg bound.1 low,
      (mul_le_of_le_one_right bound.1 (sampleFloats_fading positive ahead)).trans bound.2⟩
  refine ⟨by decide, fun x k elapsed ahead bound => ?_, fades, fun x k k' le bound => ?_⟩
  · obtain ⟨low, high⟩ := fades x k elapsed ahead bound
    change 0 ≤ (1 : ℚ) + x * _ ∧ (1 : ℚ) + x * _ ≤ _
    push_cast
    constructor
    · linarith
    · linarith
  · exact ⟨bound.1, bound.2.trans (Nat.cast_le.mpr le)⟩

end PrefixMesh.Prefetch
