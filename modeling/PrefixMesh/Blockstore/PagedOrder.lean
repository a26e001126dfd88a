import PrefixMesh.Blockstore.Admission
import PrefixMesh.Blockstore.LastUse

/-! Plain LRU on pages: which blocks a `Put` evicts, in the order of last use. -/

namespace PrefixMesh.Blockstore

open Lib

variable {F : Type} (fl : Float64 F) (intn : Nat → Nat)

def Paged.pagesOf (p : Paged F) (id : BlockID) : Nat :=
  match p.items id with
  | some r => (p.entries r).pages.length
  | none => 0

/-- After `ops`, which led to `p`, `Put` of the block evicts `gone`, the shortest run of the least recently used
blocks that leaves enough pages; `kept` stay in their order and the new block is the most recently used. -/
structure Paged.PutsInOrder (start : Paged F) (ops : List Op) (p : Paged F) (b : Block)
    (gone kept : List BlockID) : Prop where
  evicts : ShortestRun p.pagesOf (pagesFor p.pageSize b.payload.1.length - p.free.length)
    ((Store.paged start).byLastUse fl intn ops) gone kept
  stored : (p.put fl intn b).stored = some true
  evicted : (p.put fl intn b).evicted = gone
  order : (Store.paged start).byLastUse fl intn (ops ++ [.put b]) = kept ++ [b.id]

variable {p p' : Paged F} {lru gone : List Ref} {need : Nat}

theorem Paged.Linked.pagesOf (linked : p.Linked lru) {r : Ref} (member : r ∈ lru) :
    p.pagesOf (p.entries r).id = (p.entries r).pages.length := by
  rw [Paged.pagesOf, (linked.items _ r).mpr ⟨member, rfl⟩]

theorem Paged.Linked.shortestRun {fl intn} (linked : p.Linked lru) (policy : p.pol = .lru)
    (evicts : Paged.Evicts fl intn need p gone p') (room : need ≤ p'.free.length) :
    ShortestRun (fun r => (p.entries r).pages.length) (need - p.free.length) lru.reverse gone
      (lru.diff gone).reverse := by
  refine ⟨?_, ?_, ?_⟩
  · have reversed := congrArg List.reverse ((linked.evicts evicts).2.2 policy)
    rwa [List.reverse_append, List.reverse_reverse] at reversed
  · rw [evicts.free, List.length_append, List.length_flatMap] at room
    omega
  · intro fewer before different
    have least := evicts.least fewer before different
    omega

theorem Paged.Linked.shortestRun_ids {fl intn} (linked : p.Linked lru) (policy : p.pol = .lru)
    (evicts : Paged.Evicts fl intn need p gone p') (room : need ≤ p'.free.length) :
    ShortestRun p.pagesOf (need - p.free.length) (p.ids lru).reverse (p.ids gone) (p.ids (lru.diff gone)).reverse := by
  have weights : ∀ r ∈ lru.reverse, (p.entries r).pages.length = p.pagesOf (p.entries r).id :=
    fun r member => (linked.pagesOf (List.mem_reverse.mp member)).symm
  have named := ((linked.shortestRun policy evicts room).congr weights).map fun r => (p.entries r).id
  rwa [List.map_reverse, List.map_reverse] at named

theorem Paged.Linked.putsInOrder {fl intn} {start : Paged F} {ops : List Op} {b : Block} {c : Config}
    (linked : p.Linked lru) (policy : p.pol = .lru) (new : c.newStore fl = some (.paged start))
    (ran : ((Store.paged start).run fl intn ops).2 = .paged p) (absent : p.items b.id = none)
    (evicts : Paged.Evicts fl intn (pagesFor p.pageSize b.payload.1.length) p gone p')
    (room : pagesFor p.pageSize b.payload.1.length ≤ p'.free.length)
    (put : p.put fl intn b = p'.place fl b (pagesFor p.pageSize b.payload.1.length) (p.ids gone))
    (stored : (p.put fl intn b).stored = some true) :
    start.PutsInOrder fl intn ops p b (p.ids gone) (p.ids (lru.diff gone)).reverse := by
  obtain ⟨p'', placed⟩ : ∃ p'', p.put fl intn b = ⟨some true, p.ids gone, p''⟩ := by
    rcases p'.place_cases fl b (pagesFor p.pageSize b.payload.1.length) (p.ids gone) with
      ⟨_, _, panics⟩ | ⟨free, arena, pages, places⟩
    · rw [put, panics] at stored
      cases stored
    · exact ⟨_, put.trans places⟩
  have before := byLastUse_eq fl intn _ new ops (ran ▸ ⟨lru, linked, rfl⟩ :
    ((Store.paged start).run fl intn ops).2.Shows (lru.map p.resident))
  rw [List.map_map] at before
  have after : ((Store.paged start).run fl intn (ops ++ [.put b])).2.Shows
      (⟨b.id, b.costUS⟩ :: (lru.diff gone).map p.resident) := by
    rw [Store.run_concat, ran]
    simp only [Store.perform, Store.put, placed]
    exact (linked.placed evicts b absent (put.symm.trans placed)).1
  refine ⟨?_, stored, by rw [placed], ?_⟩
  · rw [before]
    exact linked.shortestRun_ids policy evicts room
  · rw [byLastUse_eq fl intn _ new _ after, List.map_cons, List.reverse_cons, List.map_map]
    rfl

/-- With plain LRU, `Put` of an absent block that fits keeps to the order of last use exactly if the dividend of
`pagesNeeded` does not overflow and there are pages for the block, as there always are in a store of at most `2 ^ 31`
pages. -/
theorem put_evicts_least_recent_iff (capacityBytes : UInt64) (pageSize : Int64) (start : Paged F)
    (made : newPaged fl capacityBytes pageSize .lru = some start) (ops : List Op) (p : Paged F)
    (ran : ((Store.paged start).run fl intn ops).2 = .paged p) (b : Block) (absent : p.items b.id = none)
    (fits : Fits p.pageSize (nPages capacityBytes pageSize).toNat b) :
    ((∃ gone kept, start.PutsInOrder fl intn ops p b gone kept) ↔
      b.payload.1.length + p.pageSize ≤ 2 ^ 63 ∧ p.Supplies fl intn (pagesFor p.pageSize b.payload.1.length)) ∧
    (nPages capacityBytes pageSize ≤ 2 ^ 31 → p.Supplies fl intn (pagesFor p.pageSize b.payload.1.length)) := by
  have same := ran
  rw [Store.run_paged fl intn start ops [], Store.paged.injEq] at same
  obtain ⟨⟨lru, linked⟩, _, positive, bounded, pages, policy⟩ :=
    newPaged_run fl intn capacityBytes pageSize .lru start made ops same
  have possible := fits.2
  have filled : pagesFor p.pageSize b.payload.1.length ≠ 0 := by
    rw [ne_eq, pagesFor_eq_zero positive, List.length_eq_zero_iff]
    exact fits.1
  refine ⟨⟨?_, ?_⟩, fun few => ?_⟩
  · rintro ⟨gone, kept, puts⟩
    have stored := puts.stored
    by_cases sum : b.payload.1.length + p.pageSize ≤ 2 ^ 63
    · refine ⟨sum, (linked.put_stored_iff fl intn b absent (pagesNeeded_small p positive _ sum) ?_ ?_).mp stored⟩
      · exact Nat.pos_of_ne_zero filled
      · exact pages ▸ possible
    · rw [p.put_overflow fl intn bounded b absent (not_le.mp sum)] at stored
      split at stored
      · cases stored
      · cases stored
  · rintro ⟨sum, supplies⟩
    have need_eq := pagesNeeded_small p positive _ sum
    rcases linked.put_absent fl intn b absent with ⟨misfit, _⟩ | ⟨negative, _⟩ | ⟨need, exact_, some_, _, ways⟩
    · omega
    · omega
    · obtain rfl : need = pagesFor p.pageSize b.payload.1.length := by omega
      rcases ways with ⟨few, _⟩ | ⟨_, gone, p', evicts, room, _, put⟩
      · exact absurd supplies.enough (not_le.mpr few)
      · have new : (Config.paged capacityBytes pageSize .lru).newStore fl = some (.paged start) := by
          rw [Config.newStore, made]
          rfl
        have stored := (linked.put_stored_iff fl intn b absent exact_ some_ (pages ▸ possible)).mpr supplies
        exact ⟨_, _, linked.putsInOrder policy new ran absent evicts room put stored⟩
  · obtain ⟨_, rep⟩ := (newPaged_small fl capacityBytes pageSize .lru made few).run fl intn ops
    rw [same] at rep
    exact rep.supplies fl intn _ possible

theorem Paged.place_negative (p : Paged F) (b : Block) (evicted : List BlockID) {pg : Int32}
    (last : p.free.getLast? = some pg) (negative : pg.toInt < 0) (some_ : 0 < need) :
    (p.place fl b need evicted).stored = none := by
  obtain ⟨left, rfl⟩ := Nat.exists_eq_add_of_lt some_
  simp only [Paged.place, Nat.zero_add, placeLoop, last, if_pos negative]

/-- One page too many for an `int32`: the last page has a negative index, the first `Put` takes it and panics. -/
theorem manyPages_panic : ∃ start : Paged Int, newPaged sampleFloat 2147483649 1 .lru = some start ∧
    nPages 2147483649 1 = 2 ^ 31 + 1 ∧ ((Store.paged start).run sampleFloat id []).2 = .paged start ∧
    start.items (sampleBlock 1 1).id = none ∧ Fits start.pageSize (2 ^ 31 + 1) (sampleBlock 1 1) ∧
    ¬∃ gone kept, start.PutsInOrder sampleFloat id [] start (sampleBlock 1 1) gone kept := by
  have pages : (nPages 2147483649 1).toNat = 2147483648 + 1 := by decide
  refine ⟨_, rfl, by decide, rfl, rfl, by decide, ?_⟩
  rintro ⟨gone, kept, puts⟩
  have stored := puts.stored
  generalize first : Paged.mk .. = start at stored
  have free : start.free = (List.range (2147483648 + 1)).map Int32.ofNat := by rw [← first, ← pages]
  have last : start.free.getLast? = some (Int32.ofNat 2147483648) := by
    rw [free, List.range_succ, List.map_append, List.map_singleton, List.getLast?_concat]
  have needed : start.pagesNeeded (sampleBlock 1 1).payload.1.length = 1 := by
    rw [← first]
    decide
  have ways := start.putCase sampleFloat id (sampleBlock 1 1)
  generalize start.put sampleFloat id (sampleBlock 1 1) = result at ways stored
  cases ways with
  | present r found => cases stored
  | refused absent misfit => cases stored
  | overflow absent negative => cases stored
  | stuck absent need possible failed gone p' evicts => cases stored
  | placed absent need exact_ some_ possible gone p' evicts room =>
    have one : need = 1 := by omega
    cases evicts with
    | done =>
      rw [Paged.place_negative sampleFloat start _ _ last (by decide) some_] at stored
      cases stored
    | more short picked rest =>
      rw [free, List.length_map, List.length_range, one] at short
      omega

def orderOps : List Op := [.put (sampleBlock 1 1), .put (sampleBlock 2 1), .put (sampleBlock 3 1), .get (sampleID 1)]

/-- Three pages of one byte: the block that was stored first has been used since, so the two after it go. -/
theorem orderOps_evict : ∃ start p : Paged Int, newPaged sampleFloat 3 1 .lru = some start ∧
    ((Store.paged start).run sampleFloat id orderOps).2 = .paged p ∧
    (Store.paged start).byLastUse sampleFloat id orderOps = [sampleID 2, sampleID 3, sampleID 1] ∧
    ∃ gone kept, start.PutsInOrder sampleFloat id orderOps p (sampleBlock 4 2) gone kept := by
  refine ⟨_, _, rfl, rfl, by decide, ?_⟩
  have both := put_evicts_least_recent_iff sampleFloat id 3 1 _ rfl orderOps _ rfl (sampleBlock 4 2) (by decide)
    (by decide)
  exact both.1.mpr ⟨by decide, both.2 (by decide)⟩

end PrefixMesh.Blockstore
