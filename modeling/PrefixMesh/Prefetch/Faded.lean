import PrefixMesh.Blockstore.Frecency
import PrefixMesh.Prefetch.Access

/-! The demand of a block on exact numbers: how often it has been asked for since it is
tracked, every time faded by the half-life. Plans go by this count, and a sweep drops the
blocks with the lower counts; as the order of two counts never changes, they are the
blocks in less demand at any time, not only at the time of the sweep. -/

namespace PrefixMesh.Prefetch

open Directory (Bytes)
open Lib

/-- `float64` without rounding. -/
noncomputable def reals : Floats ℝ where
  toFloat64 := Blockstore.reals
  eq x y := decide (x = y)
  seconds ns := ns / 1000000000
  float32 x := x

/-- The times at which `Sub` does not saturate. -/
def Shown (now : Int) : Prop := 0 ≤ now ∧ now < 2 ^ 63

theorem decayed_reals (cfg : Config ℝ) {now : Int} (shown : Shown now) {st : BlockStat ℝ} (past : Shown st.lastSeen) :
    decayed reals cfg now st = st.demand * fading cfg.halfLife (now - st.lastSeen) := by
  have elapsed : sub now st.lastSeen = now - st.lastSeen := by
    unfold Shown at shown past
    unfold sub
    omega
  have units : ((now : ℝ) - st.lastSeen) / 1000000000 / ((cfg.halfLife : ℝ) / 1000000000) =
      ((now : ℝ) - st.lastSeen) / cfg.halfLife :=
    div_div_div_cancel_right₀ (by norm_num) _ _
  simp only [decayed, reals, Blockstore.reals, Nat.cast_ofNat, elapsed, Int.cast_sub, units, fading, neg_div]

theorem reals_orders (all : List (Cand ℝ)) : Orders (Cand.less reals) all := by
  have less_iff : ∀ a b : Cand ℝ, Cand.less reals a b = true ↔ a.d < b.d := fun a b => decide_eq_true_iff
  have less_false : ∀ a b : Cand ℝ, Cand.less reals a b = false ↔ b.d ≤ a.d := by
    intro a b
    rw [← Bool.not_eq_true, less_iff, not_lt]
  refine ⟨?_, ?_⟩
  · intro a _ b _ less
    rw [less_false]
    exact ((less_iff a b).mp less).le
  · intro a _ b _ c _ first second
    rw [less_false] at first second ⊢
    exact first.trans second

variable (unmarshal : Bytes → Option AccessEvent)

/-- The times at which the blocks have been asked for since they are tracked, with those of one more call. -/
def Prefetcher.times {F : Type} {fl : Floats F} (p : Prefetcher F) (call : Access fl)
    (times : BlockID → List Int) (id : BlockID) : List Int :=
  List.replicate ((leading (call.chain fl unmarshal)).count id) call.now ++ if id ∈ p.blocks then times id else []

def Prefetcher.asked {F : Type} {fl : Floats F} (p : Prefetcher F) (times : BlockID → List Int) :
    List (Access fl) → Prefetcher F × (BlockID → List Int)
  | [] => (p, times)
  | call :: rest => (p.handleAccess fl unmarshal call).asked (p.times unmarshal call times) rest

noncomputable def count (cfg : Config ℝ) (times : List Int) (now : ℝ) : ℝ :=
  fadedCount cfg.halfLife (times.map (Int.cast : Int → ℝ)) now

/-- The demands are the counts of the times, as of the last of them. -/
def Counts (cfg : Config ℝ) (times : BlockID → List Int) (blocks : Blocks ℝ) : Prop :=
  ∀ id st, blocks.lookup id = some st → Shown st.lastSeen ∧ st.demand = count cfg (times id) st.lastSeen

variable {cfg : Config ℝ} {times : BlockID → List Int} {blocks : Blocks ℝ} {now : Int}

theorem Counts.decayed (counts : Counts cfg times blocks) (shown : Shown now) {id : BlockID} {st : BlockStat ℝ}
    (found : blocks.lookup id = some st) : decayed reals cfg now st = count cfg (times id) now := by
  obtain ⟨past, demand⟩ := counts id st found
  rw [decayed_reals cfg shown past, demand]
  exact fadedCount_later _ _ _

theorem count_cons (cfg : Config ℝ) (times : List Int) (now : Int) :
    count cfg (now :: times) now = 1 + count cfg times now := by
  rw [count, List.map_cons, fadedCount_cons]
  rfl

theorem Counts.congr {times' : BlockID → List Int} (counts : Counts cfg times blocks)
    (same : ∀ id ∈ blocks, times' id = times id) : Counts cfg times' blocks := by
  intro id st found
  rw [same id (AList.lookup_isSome.mp (by rw [found]; rfl))]
  exact counts id st found

theorem Counts.round (counts : Counts cfg times blocks) (shown : Shown now) (id parent : BlockID) (modelID : String) :
    Counts cfg (Function.update times id (now :: if id ∈ blocks then times id else []))
      (blocks.insert id { (blocks.lookup id).getD ⟨reals.ofUint64 0, now, parent, modelID⟩ with
        demand := reals.add (reals.ofUint64 1)
          (Prefetch.decayed reals cfg now ((blocks.lookup id).getD ⟨reals.ofUint64 0, now, parent, modelID⟩))
        lastSeen := now }) := by
  intro other st found
  by_cases same : other = id
  · subst same
    rw [AList.lookup_insert, Option.some.injEq] at found
    subst found
    rw [Function.update_self, count_cons]
    refine ⟨shown, ?_⟩
    cases before : blocks.lookup other with
    | none =>
      have absent : other ∉ blocks := AList.lookup_eq_none.mp before
      have nothing : Prefetch.decayed reals cfg now ⟨reals.ofUint64 0, now, parent, modelID⟩ = 0 := by
        rw [decayed_reals cfg shown shown]
        simp [reals, Blockstore.reals]
      simp only [Option.getD_none, if_neg absent, nothing]
      simp [reals, Blockstore.reals, count]
    | some old =>
      have present : other ∈ blocks := AList.lookup_isSome.mp (by rw [before]; rfl)
      simp only [Option.getD_some, if_pos present, counts.decayed shown before]
      simp [reals, Blockstore.reals]
  · rw [AList.lookup_insert_ne same] at found
    rw [Function.update_of_ne same]
    exact counts other st found

theorem Counts.accessLoop (counts : Counts cfg times blocks) (shown : Shown now) (modelID : String)
    (chain : List (List UInt8)) (parent : BlockID) :
    Counts cfg (fun id => List.replicate ((leading chain).count id) now ++ if id ∈ blocks then times id else [])
      (accessLoop reals cfg modelID now chain parent blocks).2 := by
  induction chain generalizing parent blocks times with
  | nil => exact counts.congr fun id tracked => by simp [leading, tracked]
  | cons raw rest ih =>
    rw [Prefetch.accessLoop, leading]
    split
    next sized =>
      refine (ih (counts.round shown ⟨raw, sized⟩ parent modelID) ⟨raw, sized⟩).congr ?_
      intro id _
      by_cases same : id = ⟨raw, sized⟩
      · subst same
        simp [List.replicate_succ']
      · simp [same, AList.mem_insert, List.count_cons_of_ne (Ne.symm same)]
    next => exact counts.congr fun id tracked => by simp [tracked]

theorem Counts.accessed {p : Prefetcher ℝ} {call : Access reals} (counts : Counts p.cfg times p.blocks)
    (shown : Shown call.now) {ev : AccessEvent} (decoded : unmarshal call.value = some ev) :
    Counts p.cfg (p.times unmarshal call times) (p.accessed reals ev call.now).2 := by
  have same : p.times unmarshal call times = fun id =>
      List.replicate ((leading ev.chain).count id) call.now ++ if id ∈ p.blocks then times id else [] := by
    funext id
    simp only [Prefetcher.times, Access.chain, decoded, Option.map_some, Option.getD_some]
  rw [same]
  exact counts.accessLoop shown ev.modelId ev.chain zeroID

theorem Counts.handleAccess {p : Prefetcher ℝ} (call : Access reals) (counts : Counts p.cfg times p.blocks)
    (shown : Shown call.now) :
    Counts p.cfg (p.times unmarshal call times) (p.handleAccess reals unmarshal call).blocks := by
  cases decoded : unmarshal call.value with
  | none =>
    rw [handleAccess_none decoded]
    refine counts.congr fun id tracked => ?_
    simp [Prefetcher.times, Access.chain, decoded, leading, tracked]
  | some ev =>
    have accessed := counts.accessed unmarshal shown decoded
    rw [handleAccess_blocks decoded]
    split
    · exact fun id st found => accessed id st (lookup_foldl_erase _ _ id st found)
    · exact accessed

theorem asked_cfg {F : Type} {fl : Floats F} (p : Prefetcher F) (times : BlockID → List Int)
    (calls : List (Access fl)) : (p.asked unmarshal times calls).1.cfg = p.cfg := by
  induction calls generalizing p times with
  | nil => rfl
  | cons call rest ih => rw [Prefetcher.asked, ih, handleAccess_cfg]

theorem Counts.asked {p : Prefetcher ℝ} (counts : Counts p.cfg times p.blocks) (calls : List (Access reals))
    (shown : ∀ call ∈ calls, Shown call.now) :
    Counts p.cfg (p.asked unmarshal times calls).2 (p.asked unmarshal times calls).1.blocks := by
  induction calls generalizing p times with
  | nil => exact counts
  | cons call rest ih =>
    have next := counts.handleAccess unmarshal call (shown call List.mem_cons_self)
    have same : (p.handleAccess reals unmarshal call).cfg = p.cfg := handleAccess_cfg
    rw [← same] at next ⊢
    exact ih next fun other inside => shown other (List.mem_cons_of_mem _ inside)

theorem newPrefetcher_counts (cfg : Config ℝ) (calls : List (Access reals)) (shown : ∀ call ∈ calls, Shown call.now)
    {p : Prefetcher ℝ} {times : BlockID → List Int}
    (after : (newPrefetcher reals cfg).asked unmarshal (fun _ => []) calls = (p, times)) :
    Counts p.cfg times p.blocks := by
  have start : Counts (newPrefetcher reals cfg).cfg (fun _ => []) (newPrefetcher reals cfg).blocks := by
    intro other st found
    cases found
  have counts := start.asked unmarshal calls shown
  rw [← asked_cfg unmarshal (newPrefetcher reals cfg) (fun _ => []) calls, after] at counts
  exact counts

/-- On exact numbers a plan is for the blocks whose accesses since they are tracked, each faded by the half-life, count
for at least the threshold. -/
theorem due_iff_faded_count (cfg : Config ℝ) (calls : List (Access reals)) (shown : ∀ call ∈ calls, Shown call.now)
    (now : Int) (present : Shown now) (p : Prefetcher ℝ) (times : BlockID → List Int)
    (after : (newPrefetcher reals cfg).asked unmarshal (fun _ => []) calls = (p, times)) (old new : Hashring.Ring)
    (id : BlockID) :
    Due reals p now old new id ↔ id ∈ p.blocks ∧ p.cfg.demandThreshold ≤ count p.cfg (times id) now ∧
      ∃ o ∈ old.owners id.1 p.cfg.rf, o ∈ new.addrs := by
  have counts := newPrefetcher_counts unmarshal cfg calls shown after
  constructor
  · rintro ⟨st, found, demand, owner⟩
    rw [counts.decayed present found] at demand
    exact ⟨AList.lookup_isSome.mp (by rw [found]; rfl), not_lt.mp (of_decide_eq_false demand), owner⟩
  · rintro ⟨tracked, demand, owner⟩
    obtain ⟨st, found⟩ := Option.isSome_iff_exists.mp (AList.lookup_isSome.mpr tracked)
    refine ⟨st, found, ?_, owner⟩
    rw [counts.decayed present found]
    exact decide_eq_false (not_lt.mpr demand)

noncomputable def realSort : SortSlice (Cand.less reals) where
  run := List.insertionSort fun a b => a.d ≤ b.d
  perm := List.perm_insertionSort _
  sorted := by
    intro all _
    refine (List.pairwise_insertionSort _ all).imp ?_
    intro a b lower
    exact decide_eq_false (not_lt.mpr lower)

noncomputable def realAccess (blocks : List UInt8) (second : Int) : Access reals :=
  ⟨encodeAccess (blocks.map fun n => (Blockstore.sampleID n).1), second * 1000000000, realSort⟩

/-- Two requests for blocks 1 and 2 in the first second. -/
theorem due_iff_faded_count_sample : ∃ (p : Prefetcher ℝ) (times : BlockID → List Int),
    (newPrefetcher reals ⟨2, 2, 0, 0, 0⟩).asked unmarshalAccess (fun _ => [])
      [realAccess [1, 2] 1, realAccess [1, 2] 1] = (p, times) ∧
    ∀ old new id, Due reals p 2000000000 old new id ↔ id ∈ p.blocks ∧
      p.cfg.demandThreshold ≤ count p.cfg (times id) (2000000000 : Int) ∧
      ∃ o ∈ old.owners id.1 p.cfg.rf, o ∈ new.addrs := by
  refine ⟨_, _, rfl, fun old new id => due_iff_faded_count unmarshalAccess ⟨2, 2, 0, 0, 0⟩
    [realAccess [1, 2] 1, realAccess [1, 2] 1] ?_ 2000000000 ⟨by decide, by decide⟩ _ _ rfl old new id⟩
  intro call inside
  simp only [List.mem_cons, List.not_mem_nil, or_false, or_self] at inside
  subst inside
  exact ⟨by decide, by decide⟩

/-- On exact numbers a sweep drops no block that counts for more than one it keeps, at whatever time one compares. -/
theorem sweep_keeps_most_asked (cfg : Config ℝ) (calls : List (Access reals)) (shown : ∀ call ∈ calls, Shown call.now)
    (p : Prefetcher ℝ) (times : BlockID → List Int)
    (after : (newPrefetcher reals cfg).asked unmarshal (fun _ => []) calls = (p, times)) (call : Access reals)
    (present : Shown call.now) (id id' : BlockID)
    (tracked : id ∈ p.blocks ∨ id ∈ leading (call.chain reals unmarshal))
    (dropped : id ∉ (p.handleAccess reals unmarshal call).blocks)
    (kept : id' ∈ (p.handleAccess reals unmarshal call).blocks) (time : ℝ) :
    count p.cfg (p.times unmarshal call times id) time ≤ count p.cfg (p.times unmarshal call times id') time := by
  have counts := newPrefetcher_counts unmarshal cfg calls shown after
  cases decoded : unmarshal call.value with
  | none =>
    rw [handleAccess_none decoded] at dropped
    simp [Access.chain, decoded, leading, dropped] at tracked
  | some ev =>
    have accessed := counts.accessed unmarshal present decoded
    have seen : id ∈ (p.accessed reals ev call.now).2 := by
      refine (mem_accessLoop reals p.cfg ev.modelId call.now ev.chain zeroID p.blocks id).mpr ?_
      simpa only [Access.chain, decoded, Option.map_some, Option.getD_some] using tracked
    rw [handleAccess_blocks decoded] at dropped kept
    split at dropped
    next swept =>
      rw [if_pos swept] at kept
      have seen' : id' ∈ (p.accessed reals ev call.now).2 := ((mem_foldl_erase _ _ id').mp kept).1
      obtain ⟨st, found⟩ := Option.isSome_iff_exists.mp (AList.lookup_isSome.mpr seen)
      obtain ⟨st', found'⟩ := Option.isSome_iff_exists.mp (AList.lookup_isSome.mpr seen')
      have colder := sweepLocked_coldest reals p.cfg call.now call.sort _ (reals_orders _) found dropped found' kept
      rw [accessed.decayed present found, accessed.decayed present found'] at colder
      exact (fadedCount_le_iff _ _ _ _).mp (not_lt.mp (of_decide_eq_false colder))
    next => exact absurd seen dropped

theorem sweepLocked_splits {F : Type} (fl : Floats F) (cfg : Config F) (now : Int) (sort : SortSlice (Cand.less fl))
    (blocks : Blocks F) (two : 2 ≤ blocks.keys.length) :
    (∃ id ∈ blocks, id ∉ sweepLocked fl cfg now sort blocks) ∧ ∃ id, id ∈ sweepLocked fl cfg now sort blocks := by
  have size := sweepLocked_size fl cfg now sort blocks
  constructor
  · by_contra all
    have inside : blocks.keys ⊆ (sweepLocked fl cfg now sort blocks).keys := by
      intro id tracked
      by_contra out
      exact all ⟨id, AList.mem_keys.mpr tracked, fun kept => out (AList.mem_keys.mp kept)⟩
    have length := (blocks.keys_nodup.subperm inside).length_le
    omega
  · obtain ⟨id, kept⟩ := List.exists_mem_of_length_pos (l := (sweepLocked fl cfg now sort blocks).keys) (by omega)
    exact ⟨id, AList.mem_keys.mpr kept⟩

/-- A prefetcher with room for one block, after a request for block 1. -/
noncomputable def askedOnce : Prefetcher ℝ × (BlockID → List Int) :=
  (newPrefetcher reals ⟨2, 1, 0, 1, 0⟩).asked unmarshalAccess (fun _ => []) [realAccess [1] 1]

/-- A second later both blocks are asked for: block 2 goes, and at no time it counts for more than block 1. -/
theorem sweep_keeps_most_asked_sample :
    Blockstore.sampleID 2 ∉ (askedOnce.1.handleAccess reals unmarshalAccess (realAccess [1, 2] 2)).blocks ∧
    Blockstore.sampleID 1 ∈ (askedOnce.1.handleAccess reals unmarshalAccess (realAccess [1, 2] 2)).blocks ∧
    ∀ time, count askedOnce.1.cfg [2000000000] time ≤ count askedOnce.1.cfg [2000000000, 1000000000] time := by
  have decoded : unmarshalAccess (realAccess [1, 2] 2).value =
      some ⟨"m", [(Blockstore.sampleID 1).1, (Blockstore.sampleID 2).1]⟩ := by decide +kernel
  have keys : (askedOnce.1.accessed reals ⟨"m", [(Blockstore.sampleID 1).1, (Blockstore.sampleID 2).1]⟩
      (realAccess [1, 2] 2).now).2.keys = [Blockstore.sampleID 2, Blockstore.sampleID 1] := by decide +kernel
  have limit : askedOnce.1.cfg.maxTracked = 1 := by decide +kernel
  have once : askedOnce.1.times unmarshalAccess (realAccess [1, 2] 2) askedOnce.2 (Blockstore.sampleID 2) =
      [2000000000] := by decide +kernel
  have twice : askedOnce.1.times unmarshalAccess (realAccess [1, 2] 2) askedOnce.2 (Blockstore.sampleID 1) =
      [2000000000, 1000000000] := by decide +kernel
  have more : count askedOnce.1.cfg [2000000000] (2000000000 : Int) <
      count askedOnce.1.cfg [2000000000, 1000000000] (2000000000 : Int) := by
    rw [count, count, List.map_cons, List.map_cons, fadedCount_cons, fadedCount_cons]
    have left := fading_pos askedOnce.1.cfg.halfLife ((2000000000 : Int) - (1000000000 : Int))
    simpa [fadedCount] using left
  have blocks := handleAccess_blocks (p := askedOnce.1) decoded
  rw [if_pos ⟨by decide, by rw [keys, limit]; decide⟩] at blocks
  obtain ⟨⟨id, seen, dropped⟩, id', kept⟩ := sweepLocked_splits reals askedOnce.1.cfg (realAccess [1, 2] 2).now
    (realAccess [1, 2] 2).sort _ (by rw [keys]; decide)
  have tracked := (mem_accessLoop reals _ _ _ _ _ _ id).mp seen
  have seen' := ((mem_foldl_erase _ _ id').mp kept).1
  rw [AList.mem_keys, keys, List.mem_pair] at seen seen'
  rw [← blocks] at dropped kept
  have fewer := sweep_keeps_most_asked unmarshalAccess ⟨2, 1, 0, 1, 0⟩ [realAccess [1] 1]
    (List.forall_mem_singleton.mpr ⟨by decide, by decide⟩) askedOnce.1 askedOnce.2 rfl (realAccess [1, 2] 2)
    ⟨by decide, by decide⟩ id id' (by rwa [Access.chain, decoded]) dropped kept
  rcases seen with rfl | rfl
  · rcases seen' with rfl | rfl
    · exact absurd kept dropped
    · rw [once, twice] at fewer
      exact ⟨dropped, kept, fewer⟩
  · rcases seen' with rfl | rfl
    · rw [once, twice] at fewer
      exact absurd (fewer _) (not_le.mpr more)
    · exact absurd kept dropped

end PrefixMesh.Prefetch
