import Mathlib.Algebra.Ring.Nat
import PrefixMesh.Blockstore.Lru

/-! The plain LRU store as the list of its entries, most recently used first. -/

namespace PrefixMesh.Blockstore

deriving instance DecidableEq for LruEntry

def Lru.entries (s : Lru) : List LruEntry := s.ll.filterMap s.values

variable {s s' : Lru} {blocks : BlockID → Option Block} {size : UInt64} {gone : List LruEntry}

theorem Lru.mem_entries {e : LruEntry} : e ∈ s.entries ↔ ∃ r ∈ s.ll, s.values r = some e :=
  List.mem_filterMap

theorem Lru.Rep.own (rep : s.Rep blocks) {r : Ref} {e : LruEntry} (member : r ∈ s.ll) (value : s.values r = some e) :
    s.items e.block.id = some r ∧ blocks e.block.id = some e.block := by
  obtain ⟨e', value', own⟩ := rep.held r member
  rw [value, Option.some.injEq] at value'
  exact value' ▸ own

theorem Lru.Rep.get_listed (rep : s.Rep blocks) {e : LruEntry} (listed : e ∈ s.entries) :
    (s.get e.block.id).1 = some e.block := by
  obtain ⟨r, member, value⟩ := Lru.mem_entries.mp listed
  exact (rep.get _).1.trans (rep.own member value).2

theorem Lru.Rep.ids_nodup (rep : s.Rep blocks) : (s.entries.map fun e => e.block.id).Nodup := by
  rw [List.Nodup, List.pairwise_map, Lru.entries, List.pairwise_filterMap]
  refine rep.distinct.imp_of_mem ?_
  intro r k first second different x xValue y yValue same
  have xOwn := (rep.own first xValue).1
  rw [same, (rep.own second yValue).1, Option.some.injEq] at xOwn
  exact different xOwn.symm

theorem Lru.Rep.items_isSome (rep : s.Rep blocks) (id : BlockID) :
    (s.items id).isSome = true ↔ ∃ e ∈ s.entries, e.block.id = id := by
  constructor
  · intro found
    obtain ⟨r, found⟩ := Option.isSome_iff_exists.mp found
    obtain ⟨member, e, value, named⟩ := rep.items id r found
    exact ⟨e, Lru.mem_entries.mpr ⟨r, member, value⟩, named⟩
  · rintro ⟨e, listed, rfl⟩
    obtain ⟨r, member, value⟩ := Lru.mem_entries.mp listed
    rw [(rep.own member value).1]
    rfl

theorem Lru.Rep.moveToFront_entries (rep : s.Rep blocks) {r : Ref} {e : LruEntry} (member : r ∈ s.ll)
    (value : s.values r = some e) : (s.moveToFront r).entries = e :: s.entries.erase e := by
  obtain ⟨before, after, whole⟩ := List.append_of_mem member
  have distinct := rep.distinct
  rw [whole, List.nodup_append] at distinct
  have early : r ∉ before := fun inside => distinct.2.2 r inside r List.mem_cons_self rfl
  have unseen : e ∉ before.filterMap s.values := by
    intro listed
    obtain ⟨k, inside, again⟩ := List.mem_filterMap.mp listed
    have other : k ∈ s.ll := whole ▸ List.mem_append_left _ inside
    have same := (rep.own other again).1
    rw [(rep.own member value).1, Option.some.injEq] at same
    exact early (same ▸ inside)
  simp only [Lru.entries, Lru.moveToFront, whole]
  rw [List.filterMap_cons_some value, List.erase_append_right _ early, List.erase_cons_head,
    List.filterMap_append, List.filterMap_append, List.filterMap_cons_some value,
    List.erase_append_right _ unseen, List.erase_cons_head]

theorem Lru.Rep.pushFront_entries (rep : s.Rep blocks) (b : Block) (size : UInt64) :
    (s.pushFront b size).entries = ⟨b, size⟩ :: s.entries := by
  have others : s.ll.filterMap (Function.update s.values s.fresh (some ⟨b, size⟩)) = s.ll.filterMap s.values := by
    apply List.filterMap_congr
    intro r member
    exact Function.update_of_ne (Nat.ne_of_lt (rep.older r member)) ..
  simp only [Lru.entries, Lru.pushFront]
  rw [List.filterMap_cons_some (Function.update_self ..), others]

theorem Lru.Rep.discard_entries (rep : s.Rep blocks) (r : Ref) (e : LruEntry) (last : s.ll.getLast? = some r)
    (value : s.values r = some e) : s.entries = (s.discard r e).entries ++ [e] := by
  obtain ⟨init, whole⟩ := List.getLast?_eq_some_iff.mp last
  have distinct := rep.distinct
  rw [whole, List.nodup_append] at distinct
  have out : r ∉ init := fun inside => distinct.2.2 r inside r (by simp) rfl
  simp only [Lru.entries, Lru.discard, whole]
  rw [List.erase_append_right _ out, List.erase_cons_head, List.append_nil, List.filterMap_append,
    List.filterMap_cons_some value, List.filterMap_nil]

theorem Lru.Rep.evicts_entries (rep : s.Rep blocks) (evicts : Lru.Evicts size s gone s') :
    s.entries = s'.entries ++ gone.reverse := by
  induction evicts generalizing blocks with
  | done => exact (List.append_nil _).symm
  | @more s s' r e gone full last value rest ih =>
    rw [rep.discard_entries r e last value, ih (rep.discard r e (List.mem_of_getLast? last) value),
      List.reverse_cons, List.append_assoc]

theorem Lru.Evicts.same (evicts : Lru.Evicts size s gone s') :
    s'.cap = s.cap ∧ s'.stats.hits = s.stats.hits ∧ s'.stats.misses = s.stats.misses := by
  induction evicts with
  | done => exact ⟨rfl, rfl, rfl⟩
  | more _ _ _ _ ih => exact ih

theorem Lru.Evicts.counted (evicts : Lru.Evicts size s gone s') :
    s'.stats.evictions = s.stats.evictions + UInt64.ofNat gone.length ∧
    s'.stats.evictedCostUS = s.stats.evictedCostUS + UInt64.ofNat (gone.map fun e => e.block.costUS.toNat).sum := by
  induction evicts with
  | done => simp
  | more _ _ _ _ ih =>
    obtain ⟨count, cost⟩ := ih
    refine ⟨?_, ?_⟩
    · rw [count, List.length_cons, UInt64.ofNat_add, UInt64.add_comm (UInt64.ofNat _), ← UInt64.add_assoc]
      rfl
    · rw [cost, List.map_cons, List.sum_cons, UInt64.ofNat_add, UInt64.ofNat_toNat, ← UInt64.add_assoc]
      rfl

end PrefixMesh.Blockstore
