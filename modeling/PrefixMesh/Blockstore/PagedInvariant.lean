import PrefixMesh.Blockstore.PagedRuns

/-! The representation invariant of the paged store, in its own terms. `Rep` of `PagedMap`
has the structure; what it leaves out is the accounting of occupied bytes, which is
carried along here. -/

namespace PrefixMesh.Blockstore

open Lib

variable {F : Type} (fl : Float64 F) (intn : Nat → Nat)

structure Paged.Accounts (p : Paged F) : Prop where
  occupied : p.stats.occupancyBytes.toNat + p.free.length * p.pageSize = p.arena.length
  capacity : p.stats.capacityBytes.toNat = p.arena.length
  some_ : ∀ id r, p.items id = some r → (p.entries r).pages ≠ []

variable {p p' : Paged F} {count : Nat} {lru : List Ref} {blocks : BlockID → Option Block}

theorem Paged.Accounts.kept (accounts : p.Accounts) (pageSize : p'.pageSize = p.pageSize)
    (arena : p'.arena.length = p.arena.length) (free : p'.free = p.free) (items : p'.items = p.items)
    (occupancy : p'.stats.occupancyBytes = p.stats.occupancyBytes)
    (capacity : p'.stats.capacityBytes = p.stats.capacityBytes)
    (pages : ∀ r, (p'.entries r).pages = (p.entries r).pages) : p'.Accounts where
  occupied := by rw [occupancy, free, pageSize, arena, accounts.occupied]
  capacity := by rw [capacity, arena, accounts.capacity]
  some_ := by
    intro id r found
    rw [pages]
    exact accounts.some_ id r (items ▸ found)

theorem Paged.Accounts.touch (accounts : p.Accounts) (r : Ref) : (p.touch fl r).Accounts := by
  refine accounts.kept rfl rfl rfl rfl rfl rfl ?_
  intro k
  by_cases same : k = r
  · subst same
    simp [Paged.touch]
  · simp [Paged.touch, Function.update_of_ne same]

theorem Paged.Accounts.missed (accounts : p.Accounts) : p.missed.Accounts :=
  accounts.kept rfl rfl rfl rfl rfl rfl (fun _ => rfl)

theorem Paged.Accounts.hit (accounts : p.Accounts) (r : Ref) : (p.hit fl r).Accounts := by
  apply Paged.Accounts.touch
  exact accounts.kept rfl rfl rfl rfl rfl rfl (fun _ => rfl)

private theorem Paged.Rep.occupies (rep : p.Rep [] count lru blocks) (accounts : p.Accounts) (r : Ref)
    (member : r ∈ lru) : (p.entries r).pages.length * p.pageSize ≤ p.stats.occupancyBytes.toNat := by
  obtain ⟨top, free, all⟩ := rep.pages
  rw [List.nil_append] at free
  have total := all.length_eq
  have part : (p.entries r).pages.length ≤ (lru.flatMap fun r => (p.entries r).pages).length := by
    obtain ⟨before, after, rfl⟩ := List.append_of_mem member
    rw [List.flatMap_append, List.flatMap_cons, List.length_append, List.length_append]
    omega
  have bytes := accounts.occupied
  rw [List.length_append, List.length_map, List.length_range] at total
  rw [rep.arena, List.length_nil, Nat.zero_add, ← total, free, Nat.add_mul] at bytes
  have := Nat.mul_le_mul_right p.pageSize part
  omega

theorem Paged.Accounts.discard (accounts : p.Accounts) (rep : p.Rep [] count lru blocks) (r : Ref) (member : r ∈ lru)
    (drawn : Nat) : (p.discard r drawn).Accounts := by
  have held := rep.occupies accounts r member
  have small := p.stats.occupancyBytes.toNat_lt
  have size : (UInt64.ofNat ((p.entries r).pages.length * p.pageSize)).toNat =
      (p.entries r).pages.length * p.pageSize := UInt64.toNat_ofNat_of_lt' (by simp only [UInt64.size]; omega)
  refine ⟨?_, accounts.capacity, ?_⟩
  · have before := accounts.occupied
    simp only [Paged.discard, List.length_append, Nat.add_mul]
    rw [UInt64.toNat_sub_of_le _ _ (by rw [UInt64.le_iff_toNat_le, size]; exact held), size]
    omega
  · intro id k found
    by_cases gone : id = (p.entries r).id
    · simp [Paged.discard, gone] at found
    · simp only [Paged.discard, Function.update_of_ne gone] at found
      exact accounts.some_ id k found

theorem Paged.Accounts.evicts {need : Nat} {gone : List Ref} (accounts : p.Accounts)
    (rep : p.Rep [] count lru blocks) (evicts : Paged.Evicts fl intn need p gone p') : p'.Accounts := by
  induction evicts generalizing lru blocks with
  | done => exact accounts
  | @more p p' r gone short picked rest ih =>
    have member : r ∈ lru := (rep.linked.evicts (.more short picked rest)).2.1.subset (by simp)
    exact ih (accounts.discard rep r member _) (rep.discard r member _)

theorem placeLoop_sizes (pageSize : Nat) (payload : List UInt8) (left i : Nat) (free pages : List Int32)
    (arena : List UInt8) (free' pages' : List Int32) (arena' : List UInt8)
    (placed : placeLoop pageSize payload left i free arena pages = (free', arena', some pages')) :
    free'.length + left = free.length ∧ arena'.length = arena.length ∧ pages'.length = pages.length + left := by
  induction left generalizing i free arena pages with
  | zero =>
    cases placed
    exact ⟨rfl, rfl, rfl⟩
  | succ left ih =>
    simp only [placeLoop] at placed
    split at placed
    · cases placed
    next pg last =>
      split at placed
      · cases placed
      · obtain ⟨used, same, more⟩ := ih _ _ _ _ placed
        have some_ : 0 < free.length := by
          rw [List.length_pos_iff]
          rintro rfl
          cases last
        rw [List.length_dropLast] at used
        rw [length_copyAt] at same
        rw [List.length_append, List.length_singleton] at more
        exact ⟨by omega, same, by omega⟩

theorem Paged.Accounts.place (accounts : p.Accounts) (rep : p.Rep [] count lru blocks) (b : Block) (need : Nat)
    (some_ : 0 < need) (evicted : List BlockID) (stored : (p.place fl b need evicted).stored ≠ none) :
    (p.place fl b need evicted).store.Accounts := by
  unfold Paged.place at stored ⊢
  split at stored
  · exact absurd rfl stored
  next free arena pages placed =>
    obtain ⟨used, same, length⟩ := placeLoop_sizes _ _ _ _ _ _ _ _ _ _ placed
    have before := accounts.occupied
    have small := p.stats.capacityBytes.toNat_lt
    rw [accounts.capacity] at small
    rw [← used, Nat.add_mul] at before
    have size : (UInt64.ofNat (need * p.pageSize)).toNat = need * p.pageSize :=
      UInt64.toNat_ofNat_of_lt' (by simp only [UInt64.size]; omega)
    simp only
    have linked : ∀ id r, (p.link fl b free arena pages).items id = some r →
        ((p.link fl b free arena pages).entries r).pages ≠ [] := by
      intro id r found
      by_cases new : id = b.id
      · subst new
        simp only [Paged.link, Function.update_self, Option.some.injEq] at found
        subst found
        simp only [Paged.link, Function.update_self]
        exact List.ne_nil_of_length_pos (by omega)
      · simp only [Paged.link, Function.update_of_ne new] at found ⊢
        have older := rep.older r ((rep.items id r).mp found).1
        rw [Function.update_of_ne (Nat.ne_of_lt older)]
        exact accounts.some_ id r found
    refine ⟨?_, ?_, ?_⟩
    · simp only [Paged.occupy, Paged.touch, Paged.link, UInt64.toNat_add, size, same]
      rw [Nat.mod_eq_of_lt (by omega)]
      omega
    · simp only [Paged.occupy, Paged.touch, Paged.link, same, accounts.capacity]
    · intro id r found
      have first := linked id r found
      by_cases fresh : r = p.fresh
      · subst fresh
        simpa [Paged.occupy, Paged.touch] using first
      · simpa [Paged.occupy, Paged.touch, Function.update_of_ne fresh] using first

theorem Paged.Accounts.put (accounts : p.Accounts) (rep : p.Rep [] count lru blocks) (b : Block) :
    (p.put fl intn b).store.Accounts := by
  have ways := p.putCase fl intn b
  generalize p.put fl intn b = result at ways ⊢
  cases ways with
  | present r found => exact accounts.touch fl r
  | refused absent misfit => exact accounts
  | overflow absent negative => exact accounts
  | stuck absent need possible failed gone p' evicts => exact accounts.evicts fl intn rep evicts
  | placed absent need exact_ some_ possible gone p' evicts room =>
    apply (accounts.evicts fl intn rep evicts).place fl (rep.evicts fl intn evicts) b need some_
    rcases rep.placed fl intn b absent exact_ some_ evicts _ with ⟨_, short⟩ | ⟨p'', placed, _⟩
    · rw [List.length_nil] at short
      omega
    · rw [placed]
      simp

theorem Paged.Accounts.perform (accounts : p.Accounts) (rep : p.Rep [] count lru blocks) (op : Op) :
    (p.perform fl intn op).2.Accounts := by
  cases op with
  | put b => exact accounts.put fl intn rep b
  | get id =>
    simp only [Paged.perform, Paged.get]
    split
    · exact accounts.missed
    · exact accounts.hit fl _
  | contains id =>
    simp only [Paged.perform, Paged.contains]
    split
    · exact accounts.missed
    · exact accounts.hit fl _
  | touch id =>
    simp only [Paged.perform, Paged.touchID]
    split
    · exact accounts
    · exact accounts.touch fl _

theorem Paged.Accounts.run {events : List Event} (accounts : p.Accounts) (rep : p.Rep [] count lru (blocksOf events))
    (ops : List Op) : (p.run fl intn ops events).2.Accounts := by
  induction ops generalizing p lru events with
  | nil => exact accounts
  | cons op rest ih =>
    obtain ⟨lru', rep'⟩ := rep.perform fl intn op
    exact ih (accounts.perform fl intn rep op) rep'

/-- The four structures of a store of `nPages` pages are in step, and so is the counter. -/
structure Paged.Invariant (p : Paged F) (nPages : Nat) : Prop where
  pages : ((p.free ++ p.order.order.flatMap fun r => (p.entries r).pages).map fun pg => pg.toInt).Perm
    ((List.range nPages).map Int.ofNat)
  items : ∀ id r, p.items id = some r ↔ r ∈ p.order.order ∧ (p.entries r).id = id
  order : p.order.order.Nodup ∧ ∀ r ∈ p.order.order, p.order.order[p.order.idx r]? = some r
  lists : ∃ lru, p.links.Lists lru ∧ lru.Perm p.order.order
  inverse : ∀ r ∈ p.order.order, ∀ s, p.links.next r = some s ↔ s ∈ p.order.order ∧ p.links.prev s = some r
  sizes : ∀ r ∈ p.order.order,
    (p.entries r).pages.length = ((p.entries r).size.1 + p.pageSize - 1) / p.pageSize ∧
      1 ≤ (p.entries r).pages.length
  occupancy : p.stats.occupancyBytes.toNat =
    p.pageSize * (p.order.order.flatMap fun r => (p.entries r).pages).length
  capacity : p.stats.occupancyBytes ≤ p.stats.capacityBytes

private theorem ceil_pages {pageSize size pages : Nat} (positive : 0 < pageSize) (some_ : 0 < pages)
    (needed : ∀ t, t < pages → t * pageSize < size) (enough : size ≤ pages * pageSize) :
    pages = (size + pageSize - 1) / pageSize := by
  have last := needed (pages - 1) (by omega)
  rw [Nat.sub_mul, Nat.one_mul] at last
  have least := Nat.le_mul_of_pos_left pageSize some_
  refine (Nat.div_eq_of_lt_le ?_ ?_).symm
  · omega
  · rw [Nat.succ_mul]
    omega

theorem Paged.Rep.invariant (rep : p.Rep [] count lru blocks) (accounts : p.Accounts) : p.Invariant count := by
  obtain ⟨top, free, all⟩ := rep.pages
  rw [List.nil_append] at free
  subst free
  have perm : (p.free ++ p.order.order.flatMap fun r => (p.entries r).pages).Perm
      ((List.range count).map Int32.ofNat) := ((rep.same.flatMap_right _).append_left _).trans all
  have occupied : p.stats.occupancyBytes.toNat =
      p.pageSize * (p.order.order.flatMap fun r => (p.entries r).pages).length := by
    have total := perm.length_eq
    have bytes := accounts.occupied
    rw [List.length_append, List.length_map, List.length_range] at total
    rw [rep.arena, List.length_nil, Nat.zero_add, ← total, Nat.add_mul] at bytes
    rw [Nat.mul_comm]
    omega
  refine {
    pages := ?_
    items := fun id r => by rw [rep.items, rep.same.mem_iff]
    order := ⟨rep.order.distinct, ?_⟩
    lists := ⟨lru, rep.links, rep.same.symm⟩
    inverse := ?_
    sizes := ?_
    occupancy := occupied
    capacity := ?_ }
  · have signed : (List.range count).map ((fun pg : Int32 => pg.toInt) ∘ Int32.ofNat) =
        (List.range count).map Int.ofNat := by
      apply List.map_congr_left
      intro i member
      exact Int32.toInt_ofNat_of_lt ((List.mem_range.mp member).trans_le rep.few)
    have mapped := perm.map fun pg : Int32 => pg.toInt
    rwa [List.map_map, signed] at mapped
  · intro r member
    obtain ⟨i, found⟩ := List.mem_iff_getElem?.mp member
    rw [rep.order.place i r found, found]
  · intro r member s
    rw [rep.links.next_iff (rep.same.mem_iff.mp member), rep.same.mem_iff]
  · intro r member
    have listed := rep.same.mem_iff.mp member
    obtain ⟨b, _, stores⟩ := rep.held r listed
    have held := stores.payload
    have some_ : 0 < (p.entries r).pages.length :=
      List.length_pos_iff.mpr (accounts.some_ _ r ((rep.items _ r).mpr ⟨listed, rfl⟩))
    have needed := held.needed
    have enough := held.enough
    rw [List.length_map, ← stores.size] at needed enough
    exact ⟨ceil_pages rep.positive some_ needed enough, some_⟩
  · rw [UInt64.le_iff_toNat_le, accounts.capacity, ← accounts.occupied]
    exact Nat.le_add_right _ _

theorem newPaged_accounts (capacityBytes : UInt64) (pageSize : Int64) (pol : EvictionPolicy)
    (made : newPaged fl capacityBytes pageSize pol = some p) :
    p.Accounts ∧ p.arena.length = (nPages capacityBytes pageSize).toNat * p.pageSize := by
  simp only [newPaged, Option.ite_none_left_eq_some, not_or, not_le, not_lt, Option.some.injEq] at made
  obtain ⟨⟨positive, nonneg⟩, rfl⟩ := made
  have small := capacityBytes.toInt64.toInt_lt
  have bound : pageSize.toInt * nPages capacityBytes pageSize < 2 ^ 63 := by
    rcases lt_or_ge capacityBytes.toInt64.toInt 0 with negative | above
    · have quotient := Int.tdiv_nonneg (neg_nonneg.mpr negative.le) positive.le
      rw [Int.neg_tdiv] at quotient
      have zero : nPages capacityBytes pageSize = 0 := by
        unfold nPages at nonneg ⊢
        omega
      rw [zero, mul_zero]
      decide
    · exact (Int.mul_tdiv_self_le above).trans_lt small
  have size : (nPages capacityBytes pageSize).toNat * pageSize.toInt.toNat < 2 ^ 64 := by
    have product : (((nPages capacityBytes pageSize).toNat * pageSize.toInt.toNat : Nat) : Int) =
        pageSize.toInt * nPages capacityBytes pageSize := by
      rw [Nat.cast_mul, Int.toNat_of_nonneg nonneg, Int.toNat_of_nonneg (by omega), mul_comm]
    omega
  refine ⟨⟨?_, ?_, by simp⟩, List.length_replicate⟩
  · simp
  · simp only [List.length_replicate]
    exact UInt64.toNat_ofNat_of_lt' size

theorem newPaged_small (capacityBytes : UInt64) (pageSize : Int64) (pol : EvictionPolicy)
    (made : newPaged fl capacityBytes pageSize pol = some p) (few : nPages capacityBytes pageSize ≤ 2 ^ 31) :
    p.Rep [] (nPages capacityBytes pageSize).toNat [] (blocksOf []) := by
  obtain ⟨bottom, count, rep, small⟩ := newPaged_rep fl capacityBytes pageSize pol p made
  have arena := (newPaged_accounts fl capacityBytes pageSize pol made).2
  rw [small few] at rep
  have bytes := rep.arena
  rw [List.length_nil, Nat.zero_add, arena] at bytes
  rw [Nat.eq_of_mul_eq_mul_right rep.positive bytes]
  exact rep

/-- After any operations on a new store of at most `2 ^ 31` pages, under either policy and whatever the scores and
the random source are, every page is free or in one entry; the map, the array and the list have the same entries;
every entry has as many pages as its payload takes; and the counter tells the bytes of the occupied pages. -/
theorem paged_invariant (capacityBytes : UInt64) (pageSize : Int64) (pol : EvictionPolicy) (start : Paged F)
    (made : newPaged fl capacityBytes pageSize pol = some start) (few : nPages capacityBytes pageSize ≤ 2 ^ 31)
    (ops : List Op) : (start.run fl intn ops []).2.Invariant (nPages capacityBytes pageSize).toNat := by
  have empty := newPaged_small fl capacityBytes pageSize pol made few
  have accounts := (newPaged_accounts fl capacityBytes pageSize pol made).1
  obtain ⟨lru, rep⟩ := empty.run fl intn ops
  exact rep.invariant (accounts.run fl intn empty ops)

/-- Two pages of two bytes, both in the hands of the second block after the first has been evicted for it. -/
theorem sampleOps_invariant : newPaged sampleFloat 4 2 .lru = some samplePaged ∧
    (samplePaged.run sampleFloat id (sampleOps ++ sampleOps) []).2.Invariant 2 := by
  have made : newPaged sampleFloat 4 2 .lru = some samplePaged := (Option.some_get _).symm
  exact ⟨made, paged_invariant sampleFloat id 4 2 .lru samplePaged made (by decide) (sampleOps ++ sampleOps)⟩

end PrefixMesh.Blockstore
