import PrefixMesh.Blockstore.LastUse

/-! The bytes of the plain LRU store. Capacities are below `2 ^ 63`, so that no sum of
`Put` wraps around; the loop of `Put` then ends with room before the list is empty. -/

namespace PrefixMesh.Blockstore

open Lib

def bytesFor (b : Block) : Nat := b.payload.1.length + perBlockOverhead.toNat

theorem blockSize_toNat (b : Block) : (blockSize b).toNat = bytesFor b := by
  have short := b.payload.2
  have overhead : perBlockOverhead.toNat = 128 := rfl
  rw [blockSize, UInt64.toNat_add, UInt64.toNat_ofNat_of_lt' (lt_trans short (by decide)), bytesFor]
  exact Nat.mod_eq_of_lt (by omega)

def Lru.total (s : Lru) : Nat := (s.entries.map fun e => e.size.toNat).sum

structure Lru.Sums (s : Lru) : Prop where
  sizes : ∀ e ∈ s.entries, e.size = blockSize e.block
  used : s.used.toNat = s.total
  bounded : s.used.toNat ≤ s.cap.toNat
  small : s.cap.toNat < 2 ^ 63

variable {s s' : Lru} {blocks : BlockID → Option Block} {size : UInt64} {gone : List LruEntry}

theorem Lru.Sums.sum_toNat (sums : s.Sums) (fits : ¬size > s.cap) :
    (s.used + size).toNat = s.used.toNat + size.toNat := by
  have bounded := sums.bounded
  have small := sums.small
  have fits : size.toNat ≤ s.cap.toNat := UInt64.le_iff_toNat_le.mp (UInt64.not_lt.mp fits)
  rw [UInt64.toNat_add]
  exact Nat.mod_eq_of_lt (by omega)

theorem Lru.Sums.full_iff (sums : s.Sums) (fits : ¬size > s.cap) :
    s.used + size > s.cap ↔ s.cap.toNat < s.used.toNat + size.toNat := by
  rw [← sums.sum_toNat fits]
  exact UInt64.lt_iff_toNat_lt

theorem Lru.Sums.reorder (sums : s.Sums) (perm : s'.entries.Perm s.entries) (used : s'.used = s.used)
    (cap : s'.cap = s.cap) : s'.Sums where
  sizes := fun e listed => sums.sizes e (perm.mem_iff.mp listed)
  used := by
    rw [used, sums.used]
    exact (perm.map _).sum_nat.symm
  bounded := by
    rw [used, cap]
    exact sums.bounded
  small := cap ▸ sums.small

theorem Lru.Sums.discard (sums : s.Sums) (rep : s.Rep blocks) {r : Ref} {e : LruEntry}
    (last : s.ll.getLast? = some r) (value : s.values r = some e) :
    (s.discard r e).Sums ∧ (s.discard r e).used.toNat + e.size.toNat = s.used.toNat := by
  have split := rep.discard_entries r e last value
  have total : s.total = (s.discard r e).total + e.size.toNat := by
    rw [Lru.total, split, List.map_append, List.sum_append, List.map_singleton, List.sum_singleton]
    rfl
  have whole := sums.used
  have bounded := sums.bounded
  have less : e.size.toNat ≤ s.used.toNat := by omega
  have used : (s.discard r e).used.toNat + e.size.toNat = s.used.toNat := by
    have shrunk : (s.discard r e).used.toNat = s.used.toNat - e.size.toNat :=
      UInt64.toNat_sub_of_le _ _ (UInt64.le_iff_toNat_le.mpr less)
    omega
  refine ⟨⟨?_, ?_, ?_, sums.small⟩, used⟩
  · intro x inside
    apply sums.sizes
    rw [split]
    exact List.mem_append_left _ inside
  · omega
  · have cap : (s.discard r e).cap = s.cap := rfl
    rw [cap]
    omega

theorem Lru.Sums.evicts (sums : s.Sums) (rep : s.Rep blocks) (evicts : Lru.Evicts size s gone s') : s'.Sums := by
  induction evicts generalizing blocks with
  | done => exact sums
  | more _ last value _ ih =>
    exact ih (sums.discard rep last value).1 (rep.discard _ _ (List.mem_of_getLast? last) value)

theorem Lru.Sums.evicts_used (sums : s.Sums) (rep : s.Rep blocks) (evicts : Lru.Evicts size s gone s') :
    s'.used.toNat + (gone.map fun e => e.size.toNat).sum = s.used.toNat := by
  induction evicts generalizing blocks with
  | done => rfl
  | more _ last value _ ih =>
    obtain ⟨sums', used⟩ := sums.discard rep last value
    have rest := ih sums' (rep.discard _ _ (List.mem_of_getLast? last) value)
    rw [List.map_cons, List.sum_cons]
    omega

theorem Lru.Sums.oldest (sums : s.Sums) (rep : s.Rep blocks) (fits : ¬size > s.cap) (full : s.used + size > s.cap) :
    ∃ r e, s.ll.getLast? = some r ∧ s.values r = some e := by
  cases last : s.ll.getLast? with
  | none =>
    have empty : s.total = 0 := by
      rw [Lru.total, Lru.entries, List.getLast?_eq_none_iff.mp last]
      rfl
    have used := sums.used
    rw [sums.full_iff fits] at full
    have fits : size.toNat ≤ s.cap.toNat := UInt64.le_iff_toNat_le.mp (UInt64.not_lt.mp fits)
    omega
  | some r =>
    obtain ⟨e, value, _⟩ := rep.held r (List.mem_of_getLast? last)
    exact ⟨r, e, rfl, value⟩

theorem Lru.Sums.evictLoop_done (fuel : Nat) (sums : s.Sums) (rep : s.Rep blocks) (fits : ¬size > s.cap)
    (enough : s.ll.length < fuel) (evicted : List BlockID) : (Lru.evictLoop size fuel s evicted).1 = true := by
  induction fuel generalizing s blocks evicted with
  | zero => exact absurd enough (Nat.not_lt_zero _)
  | succ fuel ih =>
    by_cases full : s.used + size > s.cap
    · obtain ⟨r, e, last, value⟩ := sums.oldest rep fits full
      have member := List.mem_of_getLast? last
      have shorter : (s.discard r e).ll.length < fuel := by
        have length := List.length_erase_of_mem member
        have nonempty := List.length_pos_of_mem member
        simp only [Lru.discard]
        omega
      simp only [Lru.evictLoop, if_pos full, Lru.evictOldest, last, value]
      exact ih (sums.discard rep last value).1 (rep.discard r e member value) fits shorter _
    · simp only [Lru.evictLoop, if_neg full]

theorem Lru.Sums.pushFront (sums : s.Sums) (rep : s.Rep blocks) (b : Block) (fits : ¬blockSize b > s.cap)
    (room : ¬s.used + blockSize b > s.cap) : (s.pushFront b (blockSize b)).Sums := by
  have entries := rep.pushFront_entries b (blockSize b)
  have sum := sums.sum_toNat fits
  rw [sums.full_iff fits] at room
  have used : (s.pushFront b (blockSize b)).used.toNat = s.used.toNat + (blockSize b).toNat := sum
  refine ⟨?_, ?_, ?_, sums.small⟩
  · intro e listed
    rw [entries] at listed
    rcases List.mem_cons.mp listed with rfl | old
    · rfl
    · exact sums.sizes e old
  · rw [used, Lru.total, entries, List.map_cons, List.sum_cons, sums.used, Nat.add_comm]
    rfl
  · rw [used]
    exact not_lt.mp room

theorem Lru.Sums.evicts_least (sums : s.Sums) (rep : s.Rep blocks) (fits : ¬size > s.cap)
    (evicts : Lru.Evicts size s gone s') (fewer : List LruEntry) (before : fewer <+: gone)
    (different : fewer ≠ gone) :
    s.cap.toNat + (fewer.map fun e => e.size.toNat).sum < s.used.toNat + size.toNat := by
  induction evicts generalizing blocks fewer with
  | done => exact absurd (List.prefix_nil.mp before) different
  | @more s s' r e gone full last value _ ih =>
    cases fewer with
    | nil => simpa using (sums.full_iff fits).mp full
    | cons first fewer =>
      obtain ⟨rfl, inside⟩ := List.cons_prefix_cons.mp before
      obtain ⟨sums', used⟩ := sums.discard rep last value
      have rest := ih sums' (rep.discard _ _ (List.mem_of_getLast? last) value) fits fewer inside
        (fun same => different (by rw [same]))
      have cap : (s.discard r first).cap = s.cap := rfl
      rw [cap] at rest
      rw [List.map_cons, List.sum_cons]
      omega

theorem Lru.Sums.shortestRun (sums : s.Sums) (rep : s.Rep blocks) (fits : ¬size > s.cap)
    (evicts : Lru.Evicts size s gone s') (room : ¬s'.used + size > s'.cap) :
    ShortestRun (fun e => e.size.toNat) (s.used.toNat + size.toNat - s.cap.toNat) s.entries.reverse gone
      s'.entries.reverse := by
  have cap := evicts.same.1
  refine ⟨?_, ?_, ?_⟩
  · have reversed := congrArg List.reverse (rep.evicts_entries evicts)
    rwa [List.reverse_append, List.reverse_reverse] at reversed
  · have used := sums.evicts_used rep evicts
    rw [(sums.evicts rep evicts).full_iff (cap ▸ fits), cap] at room
    omega
  · intro fewer before different
    have least := sums.evicts_least rep fits evicts fewer before different
    omega

theorem Lru.Sums.put (sums : s.Sums) (rep : s.Rep blocks) (b : Block) :
    (s.put b).stored ≠ none ∧ (s.put b).store.Sums ∧ (s.put b).store.cap = s.cap := by
  have ways := s.putCase b
  generalize s.put b = result at ways ⊢
  cases ways with
  | present r found =>
    obtain ⟨member, e, value, _⟩ := rep.items b.id r found
    refine ⟨by simp, sums.reorder ?_ rfl rfl, rfl⟩
    exact (List.perm_cons_erase member).symm.filterMap s.values
  | refused absent large => exact ⟨by simp, sums, rfl⟩
  | panics absent fits failed gone s' evicts =>
    rw [sums.evictLoop_done _ rep fits (Nat.lt_succ_self _) []] at failed
    cases failed
  | placed absent fits gone s' evicts room =>
    have cap := evicts.same.1
    exact ⟨by simp, (sums.evicts rep evicts).pushFront (rep.evicts evicts) b (cap ▸ fits) room, cap⟩

theorem Lru.Sums.moved (sums : s.Sums) (rep : s.Rep blocks) {id : BlockID} {r : Ref} (found : s.items id = some r)
    (stats : Stats) : ({ s with stats := stats }.moveToFront r).Sums :=
  sums.reorder ((List.perm_cons_erase (rep.items id r found).1).symm.filterMap s.values) rfl rfl

theorem Lru.Sums.stats (sums : s.Sums) (stats : Stats) : { s with stats := stats }.Sums :=
  sums.reorder (List.Perm.refl _) rfl rfl

variable {F : Type} (fl : Float64 F) (intn : Nat → Nat)

theorem Lru.Sums.perform (sums : s.Sums) (rep : s.Rep blocks) (op : Op) :
    ∃ s' blocks', ((Store.lru s : Store F).perform fl intn op).2 = .lru s' ∧ s'.Rep blocks' ∧ s'.Sums ∧
      s'.cap = s.cap := by
  cases op with
  | put b =>
    obtain ⟨returns, sums', cap⟩ := sums.put rep b
    rcases rep.put b with panics | ⟨_, _, rep'⟩ | ⟨_, _, rep'⟩
    · exact absurd panics returns
    · exact ⟨_, _, rfl, rep', sums', cap⟩
    · exact ⟨_, _, rfl, rep', sums', cap⟩
  | get id =>
    refine ⟨_, _, rfl, (rep.get id).2, ?_⟩
    cases found : s.items id with
    | none =>
      simp only [Lru.get, found]
      exact ⟨sums.stats _, rfl⟩
    | some r =>
      simp only [Lru.get, found]
      exact ⟨sums.moved rep found _, rfl⟩
  | contains id =>
    refine ⟨_, _, rfl, (rep.contains id).2, ?_⟩
    cases found : s.items id with
    | none =>
      simp only [Lru.contains, found]
      exact ⟨sums.stats _, rfl⟩
    | some r =>
      simp only [Lru.contains, found]
      exact ⟨sums.moved rep found _, rfl⟩
  | touch id =>
    refine ⟨_, _, rfl, rep.touch id, ?_⟩
    cases found : s.items id with
    | none =>
      simp only [Lru.touch, found]
      exact ⟨sums, trivial⟩
    | some r =>
      simp only [Lru.touch, found]
      exact ⟨sums.moved rep found s.stats, rfl⟩

theorem Lru.Sums.run (sums : s.Sums) (rep : s.Rep blocks) (ops : List Op) :
    ∃ s' blocks', ((Store.lru s : Store F).run fl intn ops).2 = .lru s' ∧ s'.Rep blocks' ∧ s'.Sums ∧
      s'.cap = s.cap := by
  induction ops generalizing s blocks with
  | nil => exact ⟨s, blocks, rfl, rep, sums, rfl⟩
  | cons op rest ih =>
    obtain ⟨s', blocks', step, rep', sums', cap⟩ := sums.perform fl intn rep op
    obtain ⟨s'', blocks'', run, rep'', sums'', cap'⟩ := ih sums' rep'
    refine ⟨s'', blocks'', ?_, rep'', sums'', cap'.trans cap⟩
    rw [Store.run, step]
    exact run

theorem newLRU_sums (capacityBytes : UInt64) (small : capacityBytes.toNat < 2 ^ 63) : (newLRU capacityBytes).Sums where
  sizes := by simp [newLRU, Lru.entries]
  used := rfl
  bounded := Nat.zero_le _
  small := small

structure Lru.Accounted (s : Lru) : Prop where
  distinct : (s.entries.map fun e => e.block.id).Nodup
  whole : s.entries.length = s.ll.length
  same : ∀ id, (s.get id).1 = (s.entries.find? fun e => e.block.id = id).map LruEntry.block
  used : s.used.toNat = (s.entries.map fun e => bytesFor e.block).sum
  bounded : s.used ≤ s.cap

def Lru.bytesOf (s : Lru) (id : BlockID) : Nat :=
  match (s.get id).1 with
  | some b => bytesFor b
  | none => 0

/-- After `ops`, which led to `s`, `Put` of the block returns without wrapping around in any round of its loop; it
evicts nothing if the block is there or can never fit, and otherwise the shortest run of the least recently used
blocks that makes room. -/
structure Lru.PutAccounted (capacityBytes : UInt64) (ops : List Op) (s : Lru) (b : Block) : Prop where
  returns : (s.put b).stored ≠ none
  size : (blockSize b).toNat = bytesFor b
  rounds : ¬blockSize b > s.cap → ∀ gone s', Lru.Evicts (blockSize b) s gone s' →
    (s'.used + blockSize b).toNat = s'.used.toNat + (blockSize b).toNat ∧
    (s'.used + blockSize b > s'.cap →
      ∃ r e, s'.ll.getLast? = some r ∧ s'.values r = some e ∧ e.size ≤ s'.used)
  none_evicted : s.items b.id ≠ none ∨ blockSize b > s.cap → (s.put b).evicted = []
  evicted : s.items b.id = none → ¬blockSize b > s.cap → ∃ gone kept,
    ShortestRun s.bytesOf (s.used.toNat + bytesFor b - s.cap.toNat)
      ((Store.lru (newLRU capacityBytes) : Store F).byLastUse fl intn ops) gone kept ∧
    (s.put b).stored = some true ∧ (s.put b).evicted = gone ∧
    (Store.lru (newLRU capacityBytes) : Store F).byLastUse fl intn (ops ++ [.put b]) = kept ++ [b.id]

theorem Lru.Sums.accounted (sums : s.Sums) (rep : s.Rep blocks) : s.Accounted where
  distinct := rep.ids_nodup
  whole := by
    rw [Lru.entries, List.length_filterMap_eq_countP, List.countP_eq_length]
    intro r member
    obtain ⟨e, value, _⟩ := rep.held r member
    rw [value]
    rfl
  same := by
    intro id
    cases found : s.entries.find? fun e => e.block.id = id with
    | none =>
      have absent : s.items id = none := by
        rw [← Option.isNone_iff_eq_none, ← Option.not_isSome, Bool.not_eq_true', ← Bool.not_eq_true,
          rep.items_isSome id]
        rintro ⟨e, listed, named⟩
        simpa [named] using List.find?_eq_none.mp found e listed
      rw [Lru.get, absent]
      rfl
    | some e =>
      have named : e.block.id = id := by simpa using List.find?_some found
      rw [← named, rep.get_listed (List.mem_of_find?_eq_some found)]
      rfl
  used := by
    rw [sums.used, Lru.total]
    refine congrArg List.sum (List.map_congr_left ?_)
    intro e listed
    rw [sums.sizes e listed, blockSize_toNat]
  bounded := UInt64.le_iff_toNat_le.mpr sums.bounded

theorem Lru.Sums.shortestRun_ids (sums : s.Sums) (rep : s.Rep blocks) (b : Block) (fits : ¬blockSize b > s.cap)
    (evicts : Lru.Evicts (blockSize b) s gone s') (room : ¬s'.used + blockSize b > s'.cap) :
    ShortestRun s.bytesOf (s.used.toNat + bytesFor b - s.cap.toNat)
      (s.entries.map fun e => e.block.id).reverse (gone.map fun e => e.block.id)
      (s'.entries.map fun e => e.block.id).reverse := by
  have run := sums.shortestRun rep fits evicts room
  rw [blockSize_toNat] at run
  have weights : ∀ e ∈ s.entries.reverse, e.size.toNat = s.bytesOf e.block.id := by
    intro e listed
    rw [List.mem_reverse] at listed
    rw [Lru.bytesOf, rep.get_listed listed, sums.sizes e listed, blockSize_toNat]
  have named := (run.congr weights).map fun e : LruEntry => e.block.id
  rwa [List.map_reverse, List.map_reverse] at named

/-- With a capacity below `2 ^ 63` the plain store keeps its accounts through any operations. -/
theorem lru_accounting (capacityBytes : UInt64) (small : capacityBytes.toNat < 2 ^ 63) (ops : List Op) (s : Lru)
    (ran : ((Store.lru (newLRU capacityBytes) : Store F).run fl intn ops).2 = .lru s) :
    s.cap = capacityBytes ∧ s.Accounted ∧ ∀ b, s.PutAccounted fl intn capacityBytes ops b := by
  obtain ⟨s', blocks, run, rep, sums, cap⟩ := (newLRU_sums capacityBytes small).run fl intn
    (newLRU_rep capacityBytes) ops
  rw [ran, Store.lru.injEq] at run
  subst run
  have before := byLastUse_eq fl intn (.lru capacityBytes) rfl ops (ran ▸ ⟨⟨blocks, rep⟩, rfl⟩ :
    ((Store.lru (newLRU capacityBytes) : Store F).run fl intn ops).2.Shows (s.entries.map LruEntry.resident))
  rw [List.map_map] at before
  refine ⟨cap, sums.accounted rep, ?_⟩
  intro b
  refine ⟨(sums.put rep b).1, blockSize_toNat b, ?_, ?_, ?_⟩
  · intro fits gone s' evicts
    have sums' := sums.evicts rep evicts
    have fits' : ¬blockSize b > s'.cap := evicts.same.1 ▸ fits
    refine ⟨sums'.sum_toNat fits', ?_⟩
    intro full
    obtain ⟨r, e, last, value⟩ := sums'.oldest (rep.evicts evicts) fits' full
    have used := (sums'.discard (rep.evicts evicts) last value).2
    exact ⟨r, e, last, value, UInt64.le_iff_toNat_le.mpr (by omega)⟩
  · intro either
    have ways := s.putCase b
    generalize s.put b = result at ways ⊢
    cases ways with
    | present r found => rfl
    | refused absent large => rfl
    | panics absent fits _ _ _ _ => exact absurd either (not_or.mpr ⟨not_not.mpr absent, fits⟩)
    | placed absent fits _ _ _ _ => exact absurd either (not_or.mpr ⟨not_not.mpr absent, fits⟩)
  · intro absent fits
    have returns := (sums.put rep b).1
    have ways := s.putCase b
    generalize put : s.put b = result at ways returns ⊢
    cases ways with
    | present r found =>
      rw [absent] at found
      cases found
    | refused _ large => exact absurd large fits
    | panics _ _ _ _ _ _ => exact absurd rfl returns
    | placed _ _ gone s' evicts room =>
      have rep' := rep.evicts evicts
      have new := rep'.absent b.id (without_none blocks _ b.id (rep.nothing b.id absent))
      have after : ((Store.lru (newLRU capacityBytes) : Store F).run fl intn (ops ++ [.put b])).2.Shows
          ((s'.pushFront b (blockSize b)).entries.map LruEntry.resident) := by
        rw [Store.run_concat, ran]
        simp only [Store.perform, Store.put, put]
        exact ⟨⟨_, rep'.pushFront b _ new⟩, rfl⟩
      refine ⟨_, (s'.entries.map fun e => e.block.id).reverse, ?_, rfl, rfl, ?_⟩
      · rw [before]
        exact sums.shortestRun_ids rep b fits evicts room
      · rw [byLastUse_eq fl intn (.lru capacityBytes) rfl _ after, rep'.pushFront_entries, List.map_map,
          List.map_cons, List.reverse_cons]
        rfl

def lruOps : List Op := [.put (sampleBlock 1 1), .put (sampleBlock 2 1), .touch (sampleID 1)]

/-- Room for two blocks of one byte: the block that was stored first has been used since. -/
theorem lruOps_accounted : ∃ s : Lru, ((Store.lru (newLRU 258) : Store Int).run sampleFloat id lruOps).2 = .lru s ∧
    s.used = 258 ∧ (s.put (sampleBlock 3 1)).evicted = [sampleID 2] ∧ s.Accounted ∧
    s.PutAccounted sampleFloat id 258 lruOps (sampleBlock 3 1) := by
  refine ⟨_, rfl, by decide, by decide, ?_⟩
  obtain ⟨_, accounted, puts⟩ := lru_accounting sampleFloat id 258 (by decide) lruOps _ rfl
  exact ⟨accounted, puts (sampleBlock 3 1)⟩

end PrefixMesh.Blockstore
