import PrefixMesh.Lib.Inclusion
import PrefixMesh.Blockstore.LruInvariant
import PrefixMesh.Blockstore.PagedOrder

/-! What more capacity buys under plain LRU. A node looks a block up and puts it after a
miss, as the warmer does; over any run of such fetches the larger of two stores has every
hit of the smaller one. The plain store weighs a block in bytes and the paged store in
pages. -/

namespace PrefixMesh.Blockstore

open Lib

theorem sizes_stored {weight : Block → Nat} {size : BlockID → Nat} {blocks : BlockID → Option Block}
    (sizes : ∀ id b, blocks id = some b → weight b = size id) (gone : List BlockID) {b : Block}
    (named : weight b = size b.id) (id : BlockID) (x : Block)
    (found : Function.update (without blocks gone) b.id (some b) id = some x) : weight x = size id := by
  by_cases same : id = b.id
  · rw [same, Function.update_self, Option.some.injEq] at found
    rw [← found, named, same]
  · rw [Function.update_of_ne same] at found
    exact sizes id x (of_without _ _ _ _ found)

section Plain

/-- The plain store keeps the blocks of `order`, least recently used first, and an id determines the bytes. -/
structure Lru.Keeps (s : Lru) (size : BlockID → Nat) (capacity : Nat) (order : List BlockID)
    (blocks : BlockID → Option Block) : Prop where
  rep : s.Rep blocks
  sums : s.Sums
  cap : s.cap.toNat = capacity
  order : (s.entries.map fun e => e.block.id).reverse = order
  sizes : ∀ id b, blocks id = some b → bytesFor b = size id

variable {s : Lru} {size : BlockID → Nat} {capacity : Nat} {order : List BlockID} {blocks : BlockID → Option Block}

theorem Lru.Keeps.missed (keeps : s.Keeps size capacity order blocks) : s.missed.Keeps size capacity order blocks :=
  ⟨keeps.rep.stats _, keeps.sums.stats _, keeps.cap, keeps.order, keeps.sizes⟩

theorem Lru.Keeps.mem_iff (keeps : s.Keeps size capacity order blocks) (id : BlockID) :
    id ∈ order ↔ (s.items id).isSome = true := by
  rw [← keeps.order, List.mem_reverse, List.mem_map, keeps.rep.items_isSome id]

theorem Lru.Keeps.hit (keeps : s.Keeps size capacity order blocks) {id : BlockID} {r : Ref}
    (found : s.items id = some r) : (s.hit r).Keeps size capacity (order.erase id ++ [id]) blocks := by
  obtain ⟨member, e, value, rfl⟩ := keeps.rep.items id r found
  have rep := keeps.rep.stats { s.stats with hits := s.stats.hits + 1 }
  have listed : e ∈ s.entries := Lru.mem_entries.mpr ⟨r, member, value⟩
  refine ⟨rep.moveToFront r member, keeps.sums.moved keeps.rep found _, keeps.cap, ?_, keeps.sizes⟩
  rw [Lru.hit, rep.moveToFront_entries member value, List.map_cons, List.reverse_cons, ← keeps.order,
    ← reverse_erase keeps.rep.ids_nodup, ← map_erase keeps.rep.ids_nodup listed]
  rfl

theorem Lru.Keeps.bytes (keeps : s.Keeps size capacity order blocks) {e : LruEntry} (listed : e ∈ s.entries) :
    e.size.toNat = size e.block.id := by
  obtain ⟨r, member, value⟩ := Lru.mem_entries.mp listed
  rw [keeps.sums.sizes e listed, blockSize_toNat, keeps.sizes _ _ (keeps.rep.own member value).2]

theorem Lru.Keeps.used (keeps : s.Keeps size capacity order blocks) : (order.map size).sum = s.used.toNat := by
  rw [keeps.sums.used, Lru.total, ← keeps.order, List.map_reverse, List.sum_reverse, List.map_map]
  exact congrArg List.sum (List.map_congr_left fun e listed => (keeps.bytes listed).symm)

theorem Lru.Keeps.miss (keeps : s.Keeps size capacity order blocks) (b : Block) (absent : s.items b.id = none)
    (fits : bytesFor b ≤ capacity) (named : bytesFor b = size b.id) :
    (s.put b).stored = some true ∧ ∃ gone kept blocks',
      ShortestRun size ((order.map size).sum + size b.id - capacity) order gone kept ∧
      (s.put b).store.Keeps size capacity (kept ++ [b.id]) blocks' := by
  have small : ¬blockSize b > s.cap := by
    rw [gt_iff_lt, UInt64.lt_iff_toNat_lt, blockSize_toNat, keeps.cap]
    exact not_lt.mpr fits
  obtain ⟨returns, sums', cap'⟩ := keeps.sums.put keeps.rep b
  have ways := s.putCase b
  generalize s.put b = result at ways returns sums' cap' ⊢
  cases ways with
  | present r found =>
    rw [absent] at found
    cases found
  | refused _ large => exact absurd large small
  | panics _ _ _ _ _ _ => exact absurd rfl returns
  | placed _ _ gone s' evicts room =>
    have rep' := keeps.rep.evicts evicts
    have run := keeps.sums.shortestRun keeps.rep small evicts room
    rw [← keeps.used, blockSize_toNat, named, keeps.cap] at run
    have named_run := (run.congr fun e listed => keeps.bytes (List.mem_reverse.mp listed)).map
      fun e : LruEntry => e.block.id
    rw [List.map_reverse, List.map_reverse, keeps.order] at named_run
    have new := rep'.absent b.id (without_none blocks _ b.id (keeps.rep.nothing b.id absent))
    refine ⟨rfl, _, _, Function.update (without blocks _) b.id (some b), named_run, rep'.pushFront b _ new, sums',
      by rw [cap', keeps.cap], ?_, sizes_stored keeps.sizes _ named⟩
    rw [rep'.pushFront_entries, List.map_cons, List.reverse_cons]

end Plain

section Pages

variable {F : Type} (fl : Float64 F) (intn : Nat → Nat)

/-- The paged store under plain LRU keeps the blocks of `order`, and an id determines the pages. -/
structure Paged.Keeps (p : Paged F) (size : BlockID → Nat) (pageSize capacity : Nat) (order : List BlockID)
    (lru : List Ref) (blocks : BlockID → Option Block) : Prop where
  rep : p.Rep [] capacity lru blocks
  accounts : p.Accounts
  policy : p.pol = .lru
  order : (p.ids lru).reverse = order
  sizes : ∀ id b, blocks id = some b → pagesFor pageSize b.payload.1.length = size id
  own : p.pageSize = pageSize

variable {p : Paged F} {size : BlockID → Nat} {pageSize capacity : Nat} {order : List BlockID} {lru : List Ref}
  {blocks : BlockID → Option Block}

theorem Paged.Keeps.missed (keeps : p.Keeps size pageSize capacity order lru blocks) :
    p.missed.Keeps size pageSize capacity order lru blocks :=
  ⟨keeps.rep.stats _, keeps.accounts.missed, keeps.policy, keeps.order, keeps.sizes, keeps.own⟩

theorem Paged.Keeps.mem_iff (keeps : p.Keeps size pageSize capacity order lru blocks) (id : BlockID) :
    id ∈ order ↔ (p.items id).isSome = true := by
  rw [← keeps.order, List.mem_reverse, Paged.ids, List.mem_map, Option.isSome_iff_exists]
  exact exists_congr fun r => (keeps.rep.items id r).symm

theorem Paged.ids_eq_residents (p : Paged F) (refs : List Ref) :
    p.ids refs = (refs.map p.resident).map Resident.id := by
  rw [List.map_map]
  rfl

theorem Paged.Keeps.hit (keeps : p.Keeps size pageSize capacity order lru blocks) {id : BlockID} {r : Ref}
    (found : p.items id = some r) :
    ∃ lru', (p.hit fl r).Keeps size pageSize capacity (order.erase id ++ [id]) lru' blocks := by
  obtain ⟨member, rfl⟩ := (keeps.rep.items id r).mp found
  have linked := keeps.rep.linked
  have front : (p.hit fl r).ids (r :: lru.erase r) = (p.entries r).id :: (p.ids lru).erase (p.entries r).id :=
    calc (p.hit fl r).ids (r :: lru.erase r)
      _ = ((r :: lru.erase r).map (p.hit fl r).resident).map Resident.id := ids_eq_residents ..
      _ = (p.resident r :: (lru.map p.resident).erase (p.resident r)).map Resident.id :=
          congrArg _ (linked.touch_residents member _)
      _ = (p.entries r).id :: (p.ids lru).erase (p.entries r).id := by
          rw [List.map_cons, map_erase linked.residents_nodup (List.mem_map_of_mem member), ← p.ids_eq_residents]
          rfl
  refine ⟨r :: lru.erase r, (keeps.rep.stats _).touch fl r member, keeps.accounts.hit fl r, keeps.policy, ?_,
    keeps.sizes, keeps.own⟩
  rw [front, List.reverse_cons, reverse_erase linked.ids_nodup, keeps.order]

theorem Paged.Keeps.pages (keeps : p.Keeps size pageSize capacity order lru blocks) {r : Ref} (member : r ∈ lru) :
    (p.entries r).pages.length = size (p.entries r).id := by
  have sizes := ((keeps.rep.invariant keeps.accounts).sizes r (keeps.rep.same.mem_iff.mpr member)).1
  obtain ⟨b, known, stores⟩ := keeps.rep.held r member
  rw [stores.size, keeps.own] at sizes
  rw [sizes, stores.id]
  exact keeps.sizes b.id b known

theorem Paged.Keeps.used (keeps : p.Keeps size pageSize capacity order lru blocks) :
    (order.map size).sum + p.free.length = capacity := by
  have pages : (lru.map fun r => (p.entries r).pages.length) = lru.map fun r => size (p.entries r).id :=
    List.map_congr_left fun r member => keeps.pages member
  have all := keeps.rep.free_length
  rw [List.length_flatMap, pages, List.length_nil, Nat.zero_add, Nat.add_comm] at all
  rw [← keeps.order, List.map_reverse, List.sum_reverse, Paged.ids, List.map_map]
  exact all

theorem Paged.Keeps.miss (keeps : p.Keeps size pageSize capacity order lru blocks) (b : Block)
    (absent : p.items b.id = none) (fits : Fits pageSize capacity b) (sum : b.payload.1.length + pageSize ≤ 2 ^ 63)
    (named : pagesFor pageSize b.payload.1.length = size b.id) :
    (p.put fl intn b).stored = some true ∧ ∃ gone kept lru' blocks',
      ShortestRun size ((order.map size).sum + size b.id - capacity) order gone kept ∧
      (p.put fl intn b).store.Keeps size pageSize capacity (kept ++ [b.id]) lru' blocks' := by
  have need_eq := pagesNeeded_small p keeps.rep.positive _ (keeps.own ▸ sum)
  rw [keeps.own] at need_eq
  have filled : pagesFor pageSize b.payload.1.length ≠ 0 := by
    rw [ne_eq, pagesFor_eq_zero (keeps.own ▸ keeps.rep.positive), List.length_eq_zero_iff]
    exact fits.1
  have possible := fits.2
  have accounts' := keeps.accounts.put fl intn keeps.rep b
  have config := p.put_config fl intn b
  rcases keeps.rep.put_absent fl intn b absent with ⟨misfit, _⟩ | ⟨negative, _⟩ |
    ⟨need, exact_, _, _, gone, p', p'', evicts, room, placing, put, rep''⟩
  · omega
  · omega
  · have count : need = size b.id := by omega
    have used := keeps.used
    have lack : need - p.free.length = (order.map size).sum + size b.id - capacity := by omega
    have run := keeps.rep.linked.shortestRun keeps.policy evicts room
    have named_run := (run.congr fun r member => keeps.pages (List.mem_reverse.mp member)).map
      fun r => (p.entries r).id
    rw [lack, List.map_reverse, List.map_reverse] at named_run
    obtain ⟨lru', linked'', residents⟩ := (keeps.rep.linked.placed evicts b absent (placing.symm.trans put)).1
    rw [put] at accounts' config ⊢
    refine ⟨rfl, _, _, _, _, keeps.order ▸ named_run, rep'', accounts', config.2.1.trans keeps.policy, ?_,
      sizes_stored keeps.sizes _ named, config.1.trans keeps.own⟩
    rw [← rep''.linked.links.unique linked''.links] at residents
    have front : p''.ids (p.fresh :: lru.diff gone) = b.id :: p.ids (lru.diff gone) :=
      calc p''.ids (p.fresh :: lru.diff gone)
        _ = ((p.fresh :: lru.diff gone).map p''.resident).map Resident.id := ids_eq_residents ..
        _ = b.id :: p.ids (lru.diff gone) := by
            rw [residents, List.map_cons, ← p.ids_eq_residents]
    rw [front, List.reverse_cons]
    rfl

end Pages

variable {F : Type} (fl : Float64 F) (intn : Nat → Nat)

/-- A block is looked up, and put after a miss; with it whether it was a hit. `none` stands for a panic of `Put`. -/
def Store.fetch (b : Block) (s : Store F) : Option (Bool × Store F) :=
  let looked := s.contains fl b.id
  if looked.1 then some (true, looked.2)
  else
    let r := looked.2.put fl intn b
    match r.stored with
    | none => none
    | some _ => some (false, r.store)

def Store.fetches : List Block → Store F → Option (List Bool × Store F)
  | [], s => some ([], s)
  | b :: rest, s =>
      (s.fetch fl intn b).bind fun one => (one.2.fetches rest).map fun more => (one.1 :: more.1, more.2)

/-- What a block counts for: bytes in the plain store and pages in the paged one. -/
def Config.weight (b : Block) : Config → Nat
  | .lru _ => bytesFor b
  | .paged _ pageSize _ => pagesFor pageSize.toInt.toNat b.payload.1.length

def Config.capacity : Config → Nat
  | .lru capacityBytes => capacityBytes.toNat
  | .paged capacityBytes pageSize _ => (nPages capacityBytes pageSize).toNat

/-- A store of the configuration can hold the block, and computes what the block counts for without an overflow. -/
def Config.Fits (b : Block) : Config → Prop
  | .lru capacityBytes => bytesFor b ≤ capacityBytes.toNat
  | .paged capacityBytes pageSize _ =>
      Blockstore.Fits pageSize.toInt.toNat (nPages capacityBytes pageSize).toNat b ∧
        b.payload.1.length + pageSize.toInt.toNat ≤ 2 ^ 63

instance (b : Block) (c : Config) : Decidable (c.Fits b) :=
  match c with
  | .lru capacityBytes => inferInstanceAs (Decidable (bytesFor b ≤ capacityBytes.toNat))
  | .paged capacityBytes pageSize _ =>
      inferInstanceAs (Decidable (Blockstore.Fits pageSize.toInt.toNat (nPages capacityBytes pageSize).toNat b ∧
        b.payload.1.length + pageSize.toInt.toNat ≤ 2 ^ 63))

inductive Config.Within : Config → Config → Prop where
  | lru {capacityBytes capacityBytes' : UInt64} (le : capacityBytes ≤ capacityBytes')
      (small : capacityBytes'.toNat < 2 ^ 63) : Within (.lru capacityBytes) (.lru capacityBytes')
  | paged {capacityBytes capacityBytes' : UInt64} {pageSize : Int64}
      (le : nPages capacityBytes pageSize ≤ nPages capacityBytes' pageSize)
      (few : nPages capacityBytes' pageSize ≤ 2 ^ 31) :
      Within (.paged capacityBytes pageSize .lru) (.paged capacityBytes' pageSize .lru)

def Store.Keeps (c : Config) (size : BlockID → Nat) (order : List BlockID) (s : Store F) : Prop :=
  match c, s with
  | .lru capacityBytes, .lru s => ∃ blocks, s.Keeps size capacityBytes.toNat order blocks
  | .paged capacityBytes pageSize _, .paged p =>
      ∃ lru blocks, p.Keeps size pageSize.toInt.toNat (nPages capacityBytes pageSize).toNat order lru blocks
  | _, _ => False

variable {c c' : Config} {size : BlockID → Nat} {order : List BlockID} {s : Store F}

theorem Store.Keeps.holds (keeps : s.Keeps c size order) (id : BlockID) : s.holds id = true ↔ id ∈ order := by
  match c, s with
  | .lru _, .lru s =>
    obtain ⟨blocks, keeps⟩ := keeps
    exact (keeps.mem_iff id).symm
  | .paged _ _ _, .paged p =>
    obtain ⟨lru, blocks, keeps⟩ := keeps
    exact (keeps.mem_iff id).symm

theorem Store.fetch_hit (b : Block) (s : Store F) (present : (s.contains fl b.id).1 = true) :
    s.fetch fl intn b = some (true, (s.contains fl b.id).2) := by
  rw [Store.fetch, if_pos present]

theorem Store.fetch_stored (b : Block) (s : Store F) (absent : (s.contains fl b.id).1 = false)
    (stored : ((s.contains fl b.id).2.put fl intn b).stored = some true) :
    s.fetch fl intn b = some (false, ((s.contains fl b.id).2.put fl intn b).store) := by
  rw [Store.fetch, if_neg (by rw [absent]; exact Bool.false_ne_true)]
  simp only [stored]

theorem Store.Keeps.fetch (keeps : s.Keeps c size order) (b : Block) (fits : c.Fits b)
    (named : c.weight b = size b.id) : ∃ hit s' next, s.fetch fl intn b = some (hit, s') ∧
      Use size c.capacity order b.id hit next ∧ s'.Keeps c size next := by
  match c, s with
  | .lru capacityBytes, .lru s =>
    obtain ⟨blocks, keeps⟩ := keeps
    have inside := keeps.mem_iff b.id
    cases found : s.items b.id with
    | some r =>
      have looked : (Store.lru s : Store F).contains fl b.id = (true, .lru (s.hit r)) := by
        simp only [Store.contains, Lru.contains, found]
      refine ⟨true, .lru (s.hit r), _, ?_, .hit (inside.mpr (by rw [found]; rfl)), blocks, keeps.hit found⟩
      rw [Store.fetch_hit fl intn b _ (by rw [looked]), looked]
    | none =>
      have looked : (Store.lru s : Store F).contains fl b.id = (false, .lru s.missed) := by
        simp only [Store.contains, Lru.contains, found]
      obtain ⟨stored, gone, kept, blocks', run, keeps'⟩ := keeps.missed.miss b found fits named
      have absent : b.id ∉ order := fun member => by
        rw [inside, found] at member
        cases member
      refine ⟨false, .lru (s.missed.put b).store, _, ?_, .miss absent gone kept run, blocks', keeps'⟩
      rw [Store.fetch_stored fl intn b _ (by rw [looked]) (by rw [looked]; exact stored), looked]
      rfl
  | .paged capacityBytes pageSize _, .paged p =>
    obtain ⟨lru, blocks, keeps⟩ := keeps
    have inside := keeps.mem_iff b.id
    cases found : p.items b.id with
    | some r =>
      have looked : (Store.paged p).contains fl b.id = (true, .paged (p.hit fl r)) := by
        simp only [Store.contains, Paged.contains, found]
      obtain ⟨lru', keeps'⟩ := keeps.hit fl found
      refine ⟨true, .paged (p.hit fl r), _, ?_, .hit (inside.mpr (by rw [found]; rfl)), lru', blocks, keeps'⟩
      rw [Store.fetch_hit fl intn b _ (by rw [looked]), looked]
    | none =>
      have looked : (Store.paged p).contains fl b.id = (false, .paged p.missed) := by
        simp only [Store.contains, Paged.contains, found]
      obtain ⟨stored, gone, kept, lru', blocks', run, keeps'⟩ :=
        keeps.missed.miss fl intn b found fits.1 fits.2 named
      have absent : b.id ∉ order := fun member => by
        rw [inside, found] at member
        cases member
      refine ⟨false, .paged (p.missed.put fl intn b).store, _, ?_, .miss absent gone kept run, lru', blocks', keeps'⟩
      rw [Store.fetch_stored fl intn b _ (by rw [looked]) (by rw [looked]; exact stored), looked]
      rfl

theorem Store.Keeps.fetches (keeps : s.Keeps c size order) (blocks : List Block) (fits : ∀ b ∈ blocks, c.Fits b)
    (named : ∀ b ∈ blocks, c.weight b = size b.id) : ∃ hits s' final, s.fetches fl intn blocks = some (hits, s') ∧
      Uses size c.capacity order (blocks.map Block.id) hits final ∧ s'.Keeps c size final := by
  induction blocks generalizing s order with
  | nil => exact ⟨[], s, order, rfl, .nil order, keeps⟩
  | cons b rest ih =>
    obtain ⟨hit, s', next, fetched, use, keeps'⟩ :=
      keeps.fetch fl intn b (fits b List.mem_cons_self) (named b List.mem_cons_self)
    obtain ⟨hits, s'', final, more, uses, keeps''⟩ := ih keeps' (fun x inside => fits x (List.mem_cons_of_mem _ inside))
      (fun x inside => named x (List.mem_cons_of_mem _ inside))
    refine ⟨hit :: hits, s'', final, ?_, .cons use uses, keeps''⟩
    rw [Store.fetches, fetched, Option.bind_some, more]
    rfl

theorem Config.Within.weight (within : c.Within c') (b : Block) : c'.weight b = c.weight b := by
  cases within with
  | lru le small => rfl
  | paged le few => rfl

theorem Config.Within.capacity (within : c.Within c') : c.capacity ≤ c'.capacity := by
  cases within with
  | lru le small => exact UInt64.le_iff_toNat_le.mp le
  | paged le few => exact Int.toNat_le_toNat le

theorem Config.Within.fits (within : c.Within c') {b : Block} (fits : c.Fits b) : c'.Fits b := by
  cases within with
  | lru le small => exact le_trans fits (UInt64.le_iff_toNat_le.mp le)
  | paged le few => exact ⟨⟨fits.1.1, le_trans fits.1.2 (Int.toNat_le_toNat le)⟩, fits.2⟩

theorem newLRU_keeps (capacityBytes : UInt64) (small : capacityBytes.toNat < 2 ^ 63) (size : BlockID → Nat) :
    (newLRU capacityBytes).Keeps size capacityBytes.toNat [] fun _ => none :=
  ⟨newLRU_rep capacityBytes, newLRU_sums capacityBytes small, rfl, rfl, fun _ _ found => by cases found⟩

theorem newPaged_keeps (capacityBytes : UInt64) (pageSize : Int64) {p : Paged F}
    (made : newPaged fl capacityBytes pageSize .lru = some p) (few : nPages capacityBytes pageSize ≤ 2 ^ 31)
    (size : BlockID → Nat) :
    p.Keeps size pageSize.toInt.toNat (nPages capacityBytes pageSize).toNat [] [] (blocksOf []) :=
  have config := newPaged_config fl capacityBytes pageSize .lru made
  ⟨newPaged_small fl capacityBytes pageSize .lru made few, (newPaged_accounts fl capacityBytes pageSize .lru made).1,
    config.2.1, rfl, fun _ _ found => (by cases found), config.1⟩

theorem Config.Within.newStore (within : c.Within c') {s s' : Store F} (made : c.newStore fl = some s)
    (made' : c'.newStore fl = some s') (size : BlockID → Nat) : s.Keeps c size [] ∧ s'.Keeps c' size [] := by
  cases within with
  | lru le small =>
    cases made
    cases made'
    exact ⟨⟨_, newLRU_keeps _ (lt_of_le_of_lt (UInt64.le_iff_toNat_le.mp le) small) size⟩, _, newLRU_keeps _ small size⟩
  | paged le few =>
    obtain ⟨p, new, rfl⟩ := Option.map_eq_some_iff.mp made
    obtain ⟨p', new', rfl⟩ := Option.map_eq_some_iff.mp made'
    exact ⟨⟨_, _, newPaged_keeps fl _ _ new (le_trans le few) size⟩, _, _, newPaged_keeps fl _ _ new' few size⟩

/-- What an id counts for, by the first block that has it. -/
def Config.sizeOf (c : Config) (blocks : List Block) (id : BlockID) : Nat :=
  match blocks.find? fun b => b.id = id with
  | some b => c.weight b
  | none => 0

theorem Config.weight_of_length (c : Config) {b x : Block} (same : b.payload.1.length = x.payload.1.length) :
    c.weight b = c.weight x := by
  cases c with
  | lru capacityBytes => rw [Config.weight, Config.weight, bytesFor, bytesFor, same]
  | paged capacityBytes pageSize pol => rw [Config.weight, Config.weight, same]

theorem Config.sizeOf_eq (c : Config) {blocks : List Block} {b : Block} (inside : b ∈ blocks)
    (same : ∀ x ∈ blocks, b.id = x.id → b.payload.1.length = x.payload.1.length) :
    c.weight b = c.sizeOf blocks b.id := by
  unfold Config.sizeOf
  split
  next x found =>
    have named : x.id = b.id := by simpa using List.find?_some found
    exact c.weight_of_length (same x (List.mem_of_find?_eq_some found) named.symm)
  next missing => simpa using List.find?_eq_none.mp missing b inside

/-- Under plain LRU a larger store, plain or paged, has at least the hits of a smaller one, fetch by fetch, and holds
whatever the smaller one holds. The blocks fit the smaller store, and an id determines the length of the payload; no
`Put` panics. -/
theorem larger_store_hits_more (intn' : Nat → Nat) (c c' : Config) (within : c.Within c') (s s' : Store F)
    (made : c.newStore fl = some s) (made' : c'.newStore fl = some s') (blocks : List Block)
    (fits : ∀ b ∈ blocks, c.Fits b)
    (same : ∀ b ∈ blocks, ∀ x ∈ blocks, b.id = x.id → b.payload.1.length = x.payload.1.length) :
    ∃ hits t hits' t', s.fetches fl intn blocks = some (hits, t) ∧ s'.fetches fl intn' blocks = some (hits', t') ∧
      hits.Forall₂ (fun hit hit' => hit = true → hit' = true) hits' ∧
      ∀ id, t.holds id = true → t'.holds id = true := by
  have named : ∀ b ∈ blocks, c.weight b = c.sizeOf blocks b.id := fun b inside => c.sizeOf_eq inside (same b inside)
  obtain ⟨keeps, keeps'⟩ := within.newStore fl made made' (c.sizeOf blocks)
  obtain ⟨hits, t, final, run, uses, kept⟩ := keeps.fetches fl intn blocks fits named
  obtain ⟨hits', t', final', run', uses', kept'⟩ := keeps'.fetches fl intn' blocks
    (fun b inside => within.fits (fits b inside)) (fun b inside => (within.weight b).trans (named b inside))
  obtain ⟨more, suffix⟩ := uses.inclusion uses' within.capacity (List.suffix_refl []) List.nodup_nil
  refine ⟨hits, t, hits', t', run, run', more, ?_⟩
  intro id
  rw [kept.holds, kept'.holds]
  exact fun inside => suffix.subset inside

/-- Three blocks and the first one again: with room for three it is still there, with room for two it is not. -/
def sampleFetches : List Block := [sampleBlock 1 1, sampleBlock 2 1, sampleBlock 3 1, sampleBlock 1 1]

theorem larger_store_hits_more_sample :
    ((Store.lru (newLRU 258) : Store Int).fetches sampleFloat id sampleFetches).map Prod.fst =
      some [false, false, false, false] ∧
    ((Store.lru (newLRU 387) : Store Int).fetches sampleFloat id sampleFetches).map Prod.fst =
      some [false, false, false, true] ∧
    ∃ hits t hits' t',
      (Store.lru (newLRU 258) : Store Int).fetches sampleFloat id sampleFetches = some (hits, t) ∧
      (Store.lru (newLRU 387) : Store Int).fetches sampleFloat id sampleFetches = some (hits', t') ∧
      hits.Forall₂ (fun hit hit' => hit = true → hit' = true) hits' ∧
      ∀ id, t.holds id = true → t'.holds id = true :=
  ⟨by decide, by decide, larger_store_hits_more sampleFloat id id (.lru 258) (.lru 387) (.lru (by decide) (by decide))
    _ _ rfl rfl sampleFetches (by decide) (by decide)⟩

end PrefixMesh.Blockstore
