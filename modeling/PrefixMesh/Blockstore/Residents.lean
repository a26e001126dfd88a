import PrefixMesh.Blockstore.LruEntries
import PrefixMesh.Blockstore.PagedRuns
import PrefixMesh.Blockstore.Store
import PrefixMesh.Lib.Recency

/-! What either store is about, without pages and bytes: a list of residents, most
recently used first, and four counters. `Change` is all that one operation can do to
them. -/

namespace PrefixMesh.Blockstore

open Lib

/-- What an operation returns; a `Put` that panics returns nothing. -/
inductive Answer where
  | put (stored : Option Bool)
  | get (b : Option Block)
  | contains (present : Bool)
  | touch
  deriving DecidableEq

def Op.id : Op → BlockID
  | .put b => b.id
  | .get id => id
  | .contains id => id
  | .touch id => id

def Op.looksUp : Op → Bool
  | .put _ => false
  | .get _ => true
  | .contains _ => true
  | .touch _ => false

variable {F : Type} (fl : Float64 F) (intn : Nat → Nat)

def Store.perform (s : Store F) : Op → Answer × Store F
  | .put b => (.put (s.put fl intn b).stored, (s.put fl intn b).store)
  | .get id => (.get (s.get fl id).1, (s.get fl id).2)
  | .contains id => (.contains (s.contains fl id).1, (s.contains fl id).2)
  | .touch id => (.touch, s.touch fl id)

def Store.run (s : Store F) : List Op → List Answer × Store F
  | [] => ([], s)
  | op :: rest =>
      let after := (s.perform fl intn op).2.run rest
      ((s.perform fl intn op).1 :: after.1, after.2)

def Store.stats : Store F → Stats
  | .lru s => s.stats
  | .paged p => p.stats

def Store.holds (s : Store F) (id : BlockID) : Bool :=
  match s with
  | .lru s => (s.items id).isSome
  | .paged p => (p.items id).isSome

/-- A block in a store, as far as the counters and the order of use go. -/
structure Resident where
  id : BlockID
  costUS : UInt64
  deriving DecidableEq

def LruEntry.resident (e : LruEntry) : Resident := ⟨e.block.id, e.block.costUS⟩

def Paged.resident (p : Paged F) (r : Ref) : Resident := ⟨(p.entries r).id, (p.entries r).costUS⟩

/-- The residents of the store, most recently used first. -/
def Store.Shows (residents : List Resident) : Store F → Prop
  | .lru s => (∃ blocks, s.Rep blocks) ∧ s.entries.map LruEntry.resident = residents
  | .paged p => ∃ lru, p.Linked lru ∧ lru.map p.resident = residents

structure Stats.Adds (before after : Stats) (hits misses : UInt64) (gone : List Resident) : Prop where
  hits : after.hits = before.hits + hits
  misses : after.misses = before.misses + misses
  evictions : after.evictions = before.evictions + UInt64.ofNat gone.length
  cost : after.evictedCostUS = before.evictedCostUS + UInt64.ofNat (gone.map fun r => r.costUS.toNat).sum

theorem Stats.Adds.refl (t : Stats) : t.Adds t 0 0 [] := by
  constructor <;> simp

theorem Stats.Adds.hit (t : Stats) : t.Adds { t with hits := t.hits + 1 } 1 0 [] := by
  constructor <;> simp

theorem Stats.Adds.miss (t : Stats) : t.Adds { t with misses := t.misses + 1 } 0 1 [] := by
  constructor <;> simp

inductive Change (op : Op) (answer : Answer) (residents : List Resident) (before after : Stats) :
    List Resident → Prop where
  | used (r : Resident) (member : r ∈ residents) (named : r.id = op.id) (old : answer ≠ .put (some true))
      (adds : before.Adds after op.looksUp.toUInt64 0 []) : Change op answer residents before after
        (r :: residents.erase r)
  | missed (absent : ∀ r ∈ residents, r.id ≠ op.id) (old : answer ≠ .put (some true))
      (adds : before.Adds after 0 op.looksUp.toUInt64 []) : Change op answer residents before after residents
  | failed (b : Block) (put : op = .put b) (absent : ∀ r ∈ residents, r.id ≠ op.id)
      (old : answer ≠ .put (some true)) (gone kept : List Resident) (split : (gone ++ kept).Perm residents)
      (order : kept.Sublist residents) (adds : before.Adds after 0 0 gone) :
      Change op answer residents before after kept
  | stored (b : Block) (put : op = .put b) (absent : ∀ r ∈ residents, r.id ≠ op.id)
      (new : answer = .put (some true)) (gone kept : List Resident) (split : (gone ++ kept).Perm residents)
      (order : kept.Sublist residents) (adds : before.Adds after 0 0 gone) :
      Change op answer residents before after (⟨b.id, b.costUS⟩ :: kept)

section Paged

variable {fl intn} {p p' : Paged F} {lru gone : List Ref} {need : Nat}

theorem Paged.Linked.residents_nodup (linked : p.Linked lru) : ((lru.map p.resident).map Resident.id).Nodup := by
  rw [List.map_map]
  exact linked.ids_nodup

theorem Paged.Linked.absent (linked : p.Linked lru) (id : BlockID) (absent : p.items id = none) :
    ∀ x ∈ lru.map p.resident, x.id ≠ id := by
  intro x listed named
  obtain ⟨r, member, rfl⟩ := List.mem_map.mp listed
  rw [(linked.items id r).mpr ⟨member, named⟩] at absent
  cases absent

theorem Paged.Linked.touch_residents (linked : p.Linked lru) {r : Ref} (member : r ∈ lru) (stats : Stats) :
    (r :: lru.erase r).map ({ p with stats := stats }.touch fl r).resident =
      p.resident r :: (lru.map p.resident).erase (p.resident r) := by
  have same : (r :: lru.erase r).map ({ p with stats := stats }.touch fl r).resident =
      (r :: lru.erase r).map p.resident := by
    apply List.map_congr_left
    intro k _
    obtain ⟨freq, last, entry⟩ := { p with stats := stats }.touch_entries fl r k
    simp only [Paged.resident, entry]
  rw [same, List.map_cons, map_erase (List.Nodup.of_map _ linked.residents_nodup) member]

theorem Paged.Linked.used (linked : p.Linked lru) {op : Op} {answer : Answer} {r : Ref} (after : Stats)
    (found : p.items op.id = some r) (old : answer ≠ .put (some true))
    (adds : p.stats.Adds after op.looksUp.toUInt64 0 []) :
    ∃ residents, (Store.paged ({ p with stats := after }.touch fl r)).Shows residents ∧
      Change op answer (lru.map p.resident) p.stats after residents := by
  obtain ⟨member, named⟩ := (linked.items op.id r).mp found
  refine ⟨_, ⟨_, (linked.stats after).touch fl r member, linked.touch_residents member after⟩, ?_⟩
  exact .used _ (List.mem_map_of_mem member) named old adds

theorem Paged.Evicts.adds (evicts : Paged.Evicts fl intn need p gone p') :
    p.stats.Adds p'.stats 0 0 (gone.map p.resident) := by
  obtain ⟨_, _, _, _, hits, misses⟩ := evicts.same
  obtain ⟨count, cost⟩ := evicts.counted
  refine ⟨?_, ?_, ?_, ?_⟩
  · rw [hits, UInt64.add_zero]
  · rw [misses, UInt64.add_zero]
  · rw [count, List.length_map]
  · rw [cost, List.map_map]
    rfl

theorem Paged.Evicts.resident (evicts : Paged.Evicts fl intn need p gone p') : p'.resident = p.resident := by
  funext r
  simp only [Paged.resident, evicts.same.1]

theorem Paged.Linked.kept (linked : p.Linked lru) (evicts : Paged.Evicts fl intn need p gone p') :
    (gone.map p.resident ++ (lru.diff gone).map p.resident).Perm (lru.map p.resident) ∧
    ((lru.diff gone).map p.resident).Sublist (lru.map p.resident) := by
  rw [← List.map_append]
  exact ⟨(linked.evicts evicts).2.1.map _, (List.diff_sublist _ _).map _⟩

theorem Paged.Linked.absent_evicts (linked : p.Linked lru) (evicts : Paged.Evicts fl intn need p gone p')
    (id : BlockID) (absent : p.items id = none) : p'.items id = none := by
  cases found : p'.items id with
  | none => rfl
  | some r =>
    obtain ⟨member, named⟩ := ((linked.evicts evicts).1.items id r).mp found
    rw [evicts.same.1] at named
    rw [(linked.items id r).mpr ⟨(List.diff_sublist _ _).subset member, named⟩] at absent
    cases absent

theorem Paged.Linked.linked_residents (linked : p.Linked lru) (b : Block) (new : p.items b.id = none)
    (free : List Int32) (arena : List UInt8) (pages : List Int32) (need : Nat) :
    (Store.paged (((p.link fl b free arena pages).touch fl p.fresh).occupy need)).Shows
      (⟨b.id, b.costUS⟩ :: lru.map p.resident) := by
  have linked' := ((linked.link fl b new free arena pages).touch fl p.fresh List.mem_cons_self).stats
    (((p.link fl b free arena pages).touch fl p.fresh).occupy need).stats
  rw [List.erase_cons_head] at linked'
  refine ⟨_, linked', ?_⟩
  have entries : ∀ r, (((p.link fl b free arena pages).touch fl p.fresh).occupy need).resident r =
      (p.link fl b free arena pages).resident r := by
    intro r
    obtain ⟨freq, last, entry⟩ := (p.link fl b free arena pages).touch_entries fl p.fresh r
    simp only [Paged.resident, Paged.occupy, entry]
  rw [List.map_cons]
  refine congrArg₂ List.cons ?_ (List.map_congr_left ?_)
  · refine (entries p.fresh).trans ?_
    simp only [Paged.resident, Paged.link, Function.update_self]
  · intro r member
    refine (entries r).trans ?_
    simp only [Paged.resident, linked.link_entries fl b free arena pages member]

theorem Paged.Linked.placed (linked : p.Linked lru) {need : Nat} {gone : List Ref} {p' p'' : Paged F}
    (evicts : Paged.Evicts fl intn need p gone p') (b : Block) (absent : p.items b.id = none)
    {evicted evicted' : List BlockID} (placing : p'.place fl b need evicted = ⟨some true, evicted', p''⟩) :
    (Store.paged p'').Shows (⟨b.id, b.costUS⟩ :: (lru.diff gone).map p.resident) ∧
    p.stats.Adds p''.stats 0 0 (gone.map p.resident) := by
  rcases p'.place_cases fl b need evicted with ⟨free, arena, placed⟩ | ⟨free, arena, pages, placed⟩
  · rw [placed] at placing
    cases placing
  · rw [placed, PutResult.mk.injEq] at placing
    rw [← placing.2.2]
    refine ⟨?_, ?_⟩
    · rw [← evicts.resident]
      exact (linked.evicts evicts).1.linked_residents b (linked.absent_evicts evicts b.id absent) free arena pages need
    · -- the occupancy changes, the four counters do not
      have adds := evicts.adds
      exact ⟨adds.hits, adds.misses, adds.evictions, adds.cost⟩

theorem Paged.Linked.put (linked : p.Linked lru) (b : Block) :
    ∃ residents, (Store.paged (p.put fl intn b).store).Shows residents ∧
      Change (.put b) (.put (p.put fl intn b).stored) (lru.map p.resident) p.stats (p.put fl intn b).store.stats
        residents := by
  have ways := p.putCase fl intn b
  generalize p.put fl intn b = result at ways ⊢
  cases ways with
  | present r found => exact linked.used p.stats found (by simp) (Stats.Adds.refl _)
  | refused absent _ =>
    exact ⟨_, ⟨lru, linked, rfl⟩, .missed (linked.absent b.id absent) (by simp) (Stats.Adds.refl _)⟩
  | overflow absent _ =>
    exact ⟨_, ⟨lru, linked, rfl⟩, .missed (linked.absent b.id absent) (by simp) (Stats.Adds.refl _)⟩
  | stuck absent need _ _ gone p' evicts =>
    refine ⟨_, ⟨_, (linked.evicts evicts).1, rfl⟩, ?_⟩
    rw [evicts.resident]
    exact .failed b rfl (linked.absent b.id absent) (by simp) _ _ (linked.kept evicts).1 (linked.kept evicts).2
      evicts.adds
  | placed absent need _ _ _ gone p' evicts _ =>
    rcases p'.place_cases fl b need (gone.map fun r => (p.entries r).id) with
      ⟨free, arena, placed⟩ | ⟨free, arena, pages, placed⟩
    · rw [placed]
      refine ⟨(lru.diff gone).map p.resident, ⟨_, (linked.evicts evicts).1.reorder (linked.evicts evicts).1.links
        (List.Perm.refl _) rfl rfl rfl (fun _ => rfl), ?_⟩, ?_⟩
      · rw [← evicts.resident]
        rfl
      · exact .failed b rfl (linked.absent b.id absent) (by simp) _ _ (linked.kept evicts).1 (linked.kept evicts).2
          evicts.adds
    · obtain ⟨shows, adds⟩ := linked.placed evicts b absent placed
      rw [placed]
      exact ⟨_, shows, .stored b rfl (linked.absent b.id absent) rfl _ _ (linked.kept evicts).1
        (linked.kept evicts).2 adds⟩

theorem newPaged_counters (capacityBytes : UInt64) (pageSize : Int64) (pol : EvictionPolicy)
    (made : newPaged fl capacityBytes pageSize pol = some p) :
    p.stats.hits = 0 ∧ p.stats.misses = 0 ∧ p.stats.evictions = 0 ∧ p.stats.evictedCostUS = 0 := by
  simp only [newPaged, Option.ite_none_left_eq_some, Option.some.injEq] at made
  obtain ⟨_, rfl⟩ := made
  exact ⟨rfl, rfl, rfl, rfl⟩

end Paged

section Lru

variable {s s' : Lru} {blocks : BlockID → Option Block} {gone : List LruEntry} {size : UInt64}

theorem Lru.Rep.residents_nodup (rep : s.Rep blocks) :
    ((s.entries.map LruEntry.resident).map Resident.id).Nodup := by
  rw [List.map_map]
  exact rep.ids_nodup

theorem Lru.Rep.absent_residents (rep : s.Rep blocks) (id : BlockID) (absent : s.items id = none) :
    ∀ x ∈ s.entries.map LruEntry.resident, x.id ≠ id := by
  intro x listed named
  obtain ⟨e, member, rfl⟩ := List.mem_map.mp listed
  have found := (rep.items_isSome id).mpr ⟨e, member, named⟩
  rw [absent] at found
  cases found

theorem Lru.Rep.moveToFront_residents (rep : s.Rep blocks) {r : Ref} {e : LruEntry} (member : r ∈ s.ll)
    (value : s.values r = some e) : (s.moveToFront r).entries.map LruEntry.resident =
      e.resident :: (s.entries.map LruEntry.resident).erase e.resident := by
  have listed : e ∈ s.entries := Lru.mem_entries.mpr ⟨r, member, value⟩
  rw [rep.moveToFront_entries member value, List.map_cons,
    map_erase (List.Nodup.of_map _ rep.residents_nodup) listed]

theorem Lru.Rep.used (rep : s.Rep blocks) {op : Op} {answer : Answer} {r : Ref} (after : Stats)
    (found : s.items op.id = some r) (old : answer ≠ .put (some true))
    (adds : s.stats.Adds after op.looksUp.toUInt64 0 []) :
    ∃ residents, (Store.lru ({ s with stats := after }.moveToFront r) : Store F).Shows residents ∧
      Change op answer (s.entries.map LruEntry.resident) s.stats after residents := by
  obtain ⟨member, e, value, named⟩ := rep.items op.id r found
  have rep' := rep.stats after
  refine ⟨_, ⟨⟨blocks, rep'.moveToFront r member⟩, rep'.moveToFront_residents member value⟩, ?_⟩
  exact .used _ (List.mem_map_of_mem (Lru.mem_entries.mpr ⟨r, member, value⟩)) named old adds

theorem Lru.Evicts.adds (evicts : Lru.Evicts size s gone s') :
    s.stats.Adds s'.stats 0 0 (gone.map LruEntry.resident) := by
  obtain ⟨_, hits, misses⟩ := evicts.same
  obtain ⟨count, cost⟩ := evicts.counted
  refine ⟨?_, ?_, ?_, ?_⟩
  · rw [hits, UInt64.add_zero]
  · rw [misses, UInt64.add_zero]
  · rw [count, List.length_map]
  · rw [cost, List.map_map]
    rfl

theorem Lru.Rep.kept (rep : s.Rep blocks) (evicts : Lru.Evicts size s gone s') :
    (gone.map LruEntry.resident ++ s'.entries.map LruEntry.resident).Perm (s.entries.map LruEntry.resident) ∧
    (s'.entries.map LruEntry.resident).Sublist (s.entries.map LruEntry.resident) := by
  have split := rep.evicts_entries evicts
  rw [← List.map_append]
  refine ⟨List.Perm.map _ ?_, List.Sublist.map _ ?_⟩
  · rw [split]
    exact List.perm_append_comm.trans ((List.reverse_perm gone).symm.append_left _)
  · rw [split]
    exact List.sublist_append_left ..

theorem Lru.Rep.put_change (rep : s.Rep blocks) (b : Block) :
    ∃ residents, (Store.lru (s.put b).store : Store F).Shows residents ∧
      Change (.put b) (.put (s.put b).stored) (s.entries.map LruEntry.resident) s.stats (s.put b).store.stats
        residents := by
  have ways := s.putCase b
  generalize s.put b = result at ways ⊢
  cases ways with
  | present r found => exact rep.used s.stats found (by simp) (Stats.Adds.refl _)
  | refused absent _ =>
    exact ⟨_, ⟨⟨blocks, rep⟩, rfl⟩, .missed (rep.absent_residents b.id absent) (by simp) (Stats.Adds.refl _)⟩
  | panics absent _ _ gone s' evicts =>
    exact ⟨_, ⟨⟨_, rep.evicts evicts⟩, rfl⟩, .failed b rfl (rep.absent_residents b.id absent) (by simp) _ _
      (rep.kept evicts).1 (rep.kept evicts).2 evicts.adds⟩
  | placed absent _ gone s' evicts _ =>
    have rep' := rep.evicts evicts
    have new := rep'.absent b.id (without_none blocks _ b.id (rep.nothing b.id absent))
    refine ⟨_, ⟨⟨_, rep'.pushFront b _ new⟩, rfl⟩, ?_⟩
    rw [rep'.pushFront_entries, List.map_cons]
    exact .stored b rfl (rep.absent_residents b.id absent) rfl _ _ (rep.kept evicts).1 (rep.kept evicts).2
      evicts.adds

end Lru

section Store

variable {s : Store F} {residents : List Resident}

theorem Store.Shows.ids_nodup (shows : s.Shows residents) : (residents.map Resident.id).Nodup := by
  cases s with
  | lru s =>
    obtain ⟨⟨blocks, rep⟩, rfl⟩ := shows
    exact rep.residents_nodup
  | paged p =>
    obtain ⟨lru, linked, rfl⟩ := shows
    exact linked.residents_nodup

theorem Store.Shows.holds (shows : s.Shows residents) (id : BlockID) :
    s.holds id = true ↔ id ∈ residents.map Resident.id := by
  cases s with
  | lru s =>
    obtain ⟨⟨blocks, rep⟩, rfl⟩ := shows
    rw [List.map_map]
    exact (rep.items_isSome id).trans List.mem_map.symm
  | paged p =>
    obtain ⟨lru, linked, rfl⟩ := shows
    rw [List.map_map, List.mem_map]
    exact Option.isSome_iff_exists.trans (exists_congr (linked.items id))

theorem Store.Shows.unique {others : List Resident} (shows : s.Shows residents) (shows' : s.Shows others) :
    residents = others := by
  cases s with
  | lru s => exact shows.2.symm.trans shows'.2
  | paged p =>
    obtain ⟨lru, linked, rfl⟩ := shows
    obtain ⟨lru', linked', rfl⟩ := shows'
    rw [linked.links.unique linked'.links]

theorem Store.Shows.perform (shows : s.Shows residents) (op : Op) :
    ∃ residents', (s.perform fl intn op).2.Shows residents' ∧
      Change op (s.perform fl intn op).1 residents s.stats (s.perform fl intn op).2.stats residents' := by
  cases s with
  | lru s =>
    obtain ⟨⟨blocks, rep⟩, rfl⟩ := shows
    cases op with
    | put b => exact rep.put_change b
    | get id =>
      simp only [Store.perform, Store.get, Lru.get]
      cases found : s.items id with
      | none =>
        exact ⟨_, ⟨⟨blocks, rep.stats _⟩, rfl⟩,
          .missed (rep.absent_residents id found) (by simp) (Stats.Adds.miss _)⟩
      | some r => exact rep.used _ found (by simp) (Stats.Adds.hit _)
    | contains id =>
      simp only [Store.perform, Store.contains, Lru.contains]
      cases found : s.items id with
      | none =>
        exact ⟨_, ⟨⟨blocks, rep.stats _⟩, rfl⟩,
          .missed (rep.absent_residents id found) (by simp) (Stats.Adds.miss _)⟩
      | some r => exact rep.used _ found (by simp) (Stats.Adds.hit _)
    | touch id =>
      simp only [Store.perform, Store.touch, Lru.touch]
      cases found : s.items id with
      | none => exact ⟨_, ⟨⟨blocks, rep⟩, rfl⟩, .missed (rep.absent_residents id found) (by simp) (Stats.Adds.refl _)⟩
      | some r => exact rep.used s.stats found (by simp) (Stats.Adds.refl _)
  | paged p =>
    obtain ⟨lru, linked, rfl⟩ := shows
    cases op with
    | put b => exact linked.put b
    | get id =>
      simp only [Store.perform, Store.get, Paged.get]
      cases found : p.items id with
      | none =>
        exact ⟨_, ⟨lru, linked.stats _, rfl⟩, .missed (linked.absent id found) (by simp) (Stats.Adds.miss _)⟩
      | some r => exact linked.used _ found (by simp) (Stats.Adds.hit _)
    | contains id =>
      simp only [Store.perform, Store.contains, Paged.contains]
      cases found : p.items id with
      | none =>
        exact ⟨_, ⟨lru, linked.stats _, rfl⟩, .missed (linked.absent id found) (by simp) (Stats.Adds.miss _)⟩
      | some r => exact linked.used _ found (by simp) (Stats.Adds.hit _)
    | touch id =>
      simp only [Store.perform, Store.touch, Paged.touchID]
      cases found : p.items id with
      | none => exact ⟨_, ⟨lru, linked, rfl⟩, .missed (linked.absent id found) (by simp) (Stats.Adds.refl _)⟩
      | some r => exact linked.used p.stats found (by simp) (Stats.Adds.refl _)

end Store

end PrefixMesh.Blockstore
