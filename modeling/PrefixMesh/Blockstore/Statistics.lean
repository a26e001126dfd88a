import PrefixMesh.Blockstore.LastUse

/-! The counters of either store over whole runs. They are `uint64` and wrap around, so
each is the truncation of a number that balances exactly. -/

namespace PrefixMesh.Blockstore

variable {F : Type} (fl : Float64 F) (intn : Nat → Nat)

def lookups (ops : List Op) : Nat := ops.countP Op.looksUp

def storedBlock : Op × Answer → Option Block
  | (.put b, .put (some true)) => some b
  | _ => none

def storedBlocks (ops : List Op) (answers : List Answer) : List Block := (ops.zip answers).filterMap storedBlock

def costs (blocks : List Block) : Nat := (blocks.map fun b => b.costUS.toNat).sum

def residentCosts (residents : List Resident) : Nat := (residents.map fun r => r.costUS.toNat).sum

/-- The counters are truncations of numbers that balance. -/
structure Balanced (t : Stats) (residents : List Resident) (looked : Nat) (stored : List Block)
    (hits misses evictions cost : Nat) : Prop where
  hits_eq : t.hits = UInt64.ofNat hits
  misses_eq : t.misses = UInt64.ofNat misses
  evictions_eq : t.evictions = UInt64.ofNat evictions
  cost_eq : t.evictedCostUS = UInt64.ofNat cost
  looked_eq : hits + misses = looked
  stored_eq : evictions + residents.length = stored.length
  costs_eq : cost + residentCosts residents = costs stored

variable {s : Store F} {residents residents' : List Resident} {before after : Stats} {looked : Nat}
  {stored : List Block}

theorem residentCosts_perm (perm : residents.Perm residents') : residentCosts residents = residentCosts residents' :=
  (perm.map _).sum_nat

theorem residentCosts_append (residents others : List Resident) :
    residentCosts (residents ++ others) = residentCosts residents + residentCosts others := by
  rw [residentCosts, List.map_append, List.sum_append]
  rfl

theorem costs_append (blocks others : List Block) : costs (blocks ++ others) = costs blocks + costs others := by
  rw [costs, List.map_append, List.sum_append]
  rfl

theorem storedBlock_old (op : Op) (answer : Answer) (old : answer ≠ .put (some true)) :
    storedBlock (op, answer) = none := by
  unfold storedBlock
  split
  next b answer same =>
    rw [Prod.mk.injEq] at same
    exact absurd same.2 old
  next => rfl

theorem looksUp_toNat (op : Op) : op.looksUp.toUInt64 = UInt64.ofNat (lookups [op]) := by
  cases op <;> rfl

theorem Balanced.adds {hits misses evictions cost : Nat}
    (balanced : Balanced before residents looked stored hits misses evictions cost) {gone kept : List Resident}
    (moreHits moreMisses : Nat) (new : List Resident) (blocks : List Block)
    (adds : before.Adds after (UInt64.ofNat moreHits) (UInt64.ofNat moreMisses) gone)
    (split : (gone ++ kept).Perm residents) (count : new.length = blocks.length)
    (costs_ : residentCosts new = costs blocks) :
    Balanced after (new ++ kept) (looked + (moreHits + moreMisses)) (stored ++ blocks) (hits + moreHits)
      (misses + moreMisses) (evictions + gone.length) (cost + residentCosts gone) := by
  have balance := split.length_eq
  rw [List.length_append] at balance
  have costs_split : residentCosts gone + residentCosts kept = residentCosts residents := by
    rw [← residentCosts_perm split, residentCosts_append]
  refine ⟨?_, ?_, ?_, ?_, ?_, ?_, ?_⟩
  · rw [adds.hits, balanced.hits_eq, UInt64.ofNat_add]
  · rw [adds.misses, balanced.misses_eq, UInt64.ofNat_add]
  · rw [adds.evictions, balanced.evictions_eq, UInt64.ofNat_add]
  · rw [adds.cost, balanced.cost_eq, UInt64.ofNat_add]
    rfl
  · have looked_eq := balanced.looked_eq
    omega
  · have stored_eq := balanced.stored_eq
    rw [List.length_append, List.length_append]
    omega
  · have costs_eq := balanced.costs_eq
    rw [residentCosts_append, costs_append]
    omega

theorem Balanced.change {hits misses evictions cost : Nat}
    (balanced : Balanced before residents looked stored hits misses evictions cost) {op : Op} {answer : Answer}
    (change : Change op answer residents before after residents') :
    ∃ hits misses evictions cost, Balanced after residents' (looked + lookups [op])
      (stored ++ (storedBlock (op, answer)).toList) hits misses evictions cost := by
  cases change with
  | used r member _ old adds =>
    rw [looksUp_toNat] at adds
    rw [storedBlock_old op answer old]
    exact ⟨_, _, _, _, balanced.adds (lookups [op]) 0 [] [] adds (List.perm_cons_erase member).symm rfl rfl⟩
  | missed _ old adds =>
    rw [looksUp_toNat] at adds
    rw [storedBlock_old op answer old, ← Nat.zero_add (lookups [op])]
    exact ⟨_, _, _, _, balanced.adds 0 (lookups [op]) [] [] adds (List.Perm.refl _) rfl rfl⟩
  | failed b put _ old gone kept split _ adds =>
    rw [storedBlock_old op answer old, put]
    exact ⟨_, _, _, _, balanced.adds 0 0 [] [] adds split rfl rfl⟩
  | stored b put _ new gone kept split _ adds =>
    rw [put, new]
    exact ⟨_, _, _, _, balanced.adds 0 0 [⟨b.id, b.costUS⟩] [b] adds split rfl rfl⟩

theorem Store.Shows.balanced {hits misses evictions cost : Nat} (shows : s.Shows residents)
    (balanced : Balanced s.stats residents looked stored hits misses evictions cost) (ops : List Op) :
    ∃ residents' hits misses evictions cost, (s.run fl intn ops).2.Shows residents' ∧
      Balanced (s.run fl intn ops).2.stats residents' (looked + lookups ops)
        (stored ++ storedBlocks ops (s.run fl intn ops).1) hits misses evictions cost := by
  induction ops generalizing s residents looked stored hits misses evictions cost with
  | nil =>
    refine ⟨residents, hits, misses, evictions, cost, shows, ?_⟩
    simpa [lookups, storedBlocks, Store.run] using balanced
  | cons op rest ih =>
    obtain ⟨middle, shows', change⟩ := shows.perform fl intn op
    obtain ⟨_, _, _, _, step⟩ := balanced.change change
    obtain ⟨final, hits, misses, evictions, cost, shows'', run⟩ := ih shows' step
    refine ⟨final, hits, misses, evictions, cost, shows'', ?_⟩
    have counted : lookups (op :: rest) = lookups [op] + lookups rest := by
      rw [lookups, ← List.singleton_append, List.countP_append]
      rfl
    have listed : storedBlocks (op :: rest) (s.run fl intn (op :: rest)).1 =
        (storedBlock (op, (s.perform fl intn op).1)).toList ++
          storedBlocks rest ((s.perform fl intn op).2.run fl intn rest).1 := by
      rw [storedBlocks, Store.run, List.zip_cons_cons, List.filterMap_cons]
      cases storedBlock (op, (s.perform fl intn op).1) with
      | none => rfl
      | some b => rfl
    rw [counted, listed, ← Nat.add_assoc, ← List.append_assoc]
    exact run

theorem Store.Shows.get_cost (shows : s.Shows residents) (id : BlockID) :
    (s.get fl id).1.map Block.costUS = (residents.find? fun r => r.id = id).map Resident.costUS := by
  cases found : residents.find? fun r => r.id = id with
  | none =>
    have absent : s.holds id = false := by
      rw [← Bool.not_eq_true, shows.holds, List.mem_map]
      rintro ⟨r, member, named⟩
      simpa [named] using List.find?_eq_none.mp found r member
    cases s with
    | lru s =>
      have none_ : s.items id = none := by simpa [Store.holds] using absent
      simp only [Store.get, Lru.get, none_, Option.map_none]
    | paged p =>
      have none_ : p.items id = none := by simpa [Store.holds] using absent
      simp only [Store.get, Paged.get, none_, Option.map_none]
  | some x =>
    have named : x.id = id := by simpa using List.find?_some found
    have listed := List.mem_of_find?_eq_some found
    cases s with
    | lru s =>
      obtain ⟨⟨blocks, rep⟩, rfl⟩ := shows
      obtain ⟨e, member, rfl⟩ := List.mem_map.mp listed
      rw [← named]
      simp only [Store.get, LruEntry.resident, rep.get_listed member, Option.map_some]
    | paged p =>
      obtain ⟨lru, linked, rfl⟩ := shows
      obtain ⟨r, member, rfl⟩ := List.mem_map.mp listed
      have here := (linked.items id r).mpr ⟨member, named⟩
      obtain ⟨freq, last, entry⟩ := { p with stats := { p.stats with hits := p.stats.hits + 1 } }.touch_entries fl r r
      simp only [Store.get, Paged.get, here, Option.map_some, Paged.read, Paged.hit, entry, Paged.resident]

theorem Config.newStore_balanced (c : Config) (made : c.newStore fl = some s) :
    Balanced s.stats [] 0 [] 0 0 0 0 := by
  have zero : s.stats.hits = 0 ∧ s.stats.misses = 0 ∧ s.stats.evictions = 0 ∧ s.stats.evictedCostUS = 0 := by
    cases c with
    | lru capacityBytes =>
      cases made
      exact ⟨rfl, rfl, rfl, rfl⟩
    | paged capacityBytes pageSize pol =>
      obtain ⟨p, new, rfl⟩ := Option.map_eq_some_iff.mp made
      exact newPaged_counters capacityBytes pageSize pol new
  exact ⟨zero.1, zero.2.1, zero.2.2.1, zero.2.2.2, rfl, rfl, rfl⟩

structure Store.Conserved (s : Store F) (ops : List Op) (answers : List Answer) (residents : List Resident) :
    Prop where
  distinct : (residents.map Resident.id).Nodup
  resident : ∀ id, (s.get fl id).1.map Block.costUS = (residents.find? fun r => r.id = id).map Resident.costUS
  lookups_eq : s.stats.hits + s.stats.misses = UInt64.ofNat (lookups ops)
  evictions_eq : s.stats.evictions =
    UInt64.ofNat (storedBlocks ops answers).length - UInt64.ofNat residents.length
  cost_eq : s.stats.evictedCostUS =
    UInt64.ofNat (costs (storedBlocks ops answers)) - UInt64.ofNat (residentCosts residents)
  exact_ : ops.length < 2 ^ 64 → s.stats.hits.toNat + s.stats.misses.toNat = lookups ops ∧
    s.stats.evictions.toNat + residents.length = (storedBlocks ops answers).length

/-- Either store, of any configuration, whatever the scores and the random source are. -/
theorem stats_conserved (c : Config) (start : Store F) (made : c.newStore fl = some start) (ops : List Op) :
    ∃ residents, (start.run fl intn ops).2.Conserved fl ops (start.run fl intn ops).1 residents := by
  obtain ⟨residents, hits, misses, evictions, cost, shows, balanced⟩ :=
    (c.newStore_shows fl made).balanced fl intn (c.newStore_balanced fl made) ops
  rw [Nat.zero_add, List.nil_append] at balanced
  have looked_eq := balanced.looked_eq
  have stored_eq := balanced.stored_eq
  refine ⟨residents, shows.ids_nodup, shows.get_cost fl, ?_, ?_, ?_, ?_⟩
  · rw [balanced.hits_eq, balanced.misses_eq, ← UInt64.ofNat_add, looked_eq]
  · rw [balanced.evictions_eq, ← stored_eq, UInt64.ofNat_add, UInt64.add_sub_cancel]
  · rw [balanced.cost_eq, ← balanced.costs_eq, UInt64.ofNat_add, UInt64.add_sub_cancel]
  · intro short
    have few : lookups ops ≤ ops.length := List.countP_le_length
    have fewer : (storedBlocks ops (start.run fl intn ops).1).length ≤ ops.length := by
      refine (List.length_filterMap_le _ _).trans ?_
      rw [List.length_zip]
      exact Nat.min_le_left _ _
    have whole : ∀ n, n ≤ ops.length → (UInt64.ofNat n).toNat = n :=
      fun n few => UInt64.toNat_ofNat_of_lt' (lt_of_le_of_lt few short)
    rw [balanced.hits_eq, balanced.misses_eq, balanced.evictions_eq, whole hits (by omega), whole misses (by omega),
      whole evictions (by omega)]
    exact ⟨looked_eq, stored_eq⟩

def countedOps : List Op :=
  [.put (sampleBlock 1 1), .put (sampleBlock 2 1), .get (sampleID 2), .put (sampleBlock 3 1), .contains (sampleID 9)]

/-- Two pages, three blocks of one page each, a hit and a miss: one block has gone. -/
theorem countedOps_conserved : ∃ start : Store Int, (Config.paged 2 1 .cost).newStore sampleFloat = some start ∧
    (start.run sampleFloat id countedOps).2.stats.evictions = 1 ∧
    ∃ residents, (start.run sampleFloat id countedOps).2.Conserved sampleFloat countedOps
      (start.run sampleFloat id countedOps).1 residents := by
  refine ⟨_, rfl, by decide, ?_⟩
  exact stats_conserved sampleFloat id (.paged 2 1 .cost) _ rfl countedOps

end PrefixMesh.Blockstore
