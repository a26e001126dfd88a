import PrefixMesh.Blockstore.LruInvariant
import PrefixMesh.Blockstore.PagedOrder

/-! The two LRU stores side by side. With payloads of one length and room for the same
number of blocks they hold the same blocks in the same order, so that they answer every
operation alike. -/

namespace PrefixMesh.Blockstore

open Lib

/-- Room for `blocks` blocks of `payload` bytes, in `count` pages and in `cap` bytes. -/
structure SameRoom where
  payload : Nat
  pageSize : Nat
  count : Nat
  cap : Nat
  blocks : Nat
  filled : 0 < payload
  pages_low : blocks * pagesFor pageSize payload ≤ count
  pages_high : count < (blocks + 1) * pagesFor pageSize payload
  bytes_low : blocks * (payload + 128) ≤ cap
  bytes_high : cap < (blocks + 1) * (payload + 128)
  -- the number of pages does not overflow, or overflows to none where none is right
  sound : payload + pageSize ≤ 2 ^ 63 ∨ 2 ^ 64 + 1 < payload + 2 * pageSize ∧ blocks = 0

def SameCounters (t u : Stats) : Prop :=
  t.hits = u.hits ∧ t.misses = u.misses ∧ t.evictions = u.evictions ∧ t.evictedCostUS = u.evictedCostUS

theorem SameCounters.adds {t t' u u' : Stats} {hits misses : UInt64} {gone : List Resident} (same : SameCounters t u)
    (adds : t.Adds t' hits misses gone) (adds' : u.Adds u' hits misses gone) : SameCounters t' u' := by
  obtain ⟨hits_eq, misses_eq, evictions_eq, cost_eq⟩ := same
  refine ⟨?_, ?_, ?_, ?_⟩
  · rw [adds.hits, adds'.hits, hits_eq]
  · rw [adds.misses, adds'.misses, misses_eq]
  · rw [adds.evictions, adds'.evictions, evictions_eq]
  · rw [adds.cost, adds'.cost, cost_eq]

variable {F : Type} (fl : Float64 F) (intn : Nat → Nat)

structure Alike (room : SameRoom) (p : Paged F) (l : Lru) (lru : List Ref) (blocks : BlockID → Option Block) :
    Prop where
  paged : p.Rep [] room.count lru blocks
  accounts : p.Accounts
  pageSize : p.pageSize = room.pageSize
  policy : p.pol = .lru
  plain : l.Rep blocks
  sums : l.Sums
  cap : l.cap.toNat = room.cap
  residents : lru.map p.resident = l.entries.map LruEntry.resident
  lengths : ∀ id b, blocks id = some b → b.payload.1.length = room.payload
  counters : SameCounters p.stats l.stats

variable {room : SameRoom} {p : Paged F} {l : Lru} {lru : List Ref} {blocks : BlockID → Option Block}

theorem Alike.absent_iff (alike : Alike room p l lru blocks) (id : BlockID) : p.items id = none ↔ l.items id = none :=
  (alike.paged.absent id).trans ⟨alike.plain.absent id, alike.plain.nothing id⟩

theorem Alike.found (alike : Alike room p l lru blocks) {id : BlockID} {r : Ref} (found : p.items id = some r) :
    ∃ k, l.items id = some k := by
  cases missing : l.items id with
  | none =>
    rw [(alike.absent_iff id).mpr missing] at found
    cases found
  | some k => exact ⟨k, rfl⟩

theorem Alike.hit (alike : Alike room p l lru blocks) {id : BlockID} {r k : Ref} (found : p.items id = some r)
    (found' : l.items id = some k) {t u : Stats} (same : SameCounters t u)
    (occupancy : t.occupancyBytes = p.stats.occupancyBytes) (capacity : t.capacityBytes = p.stats.capacityBytes) :
    Alike room ({ p with stats := t }.touch fl r) ({ l with stats := u }.moveToFront k) (r :: lru.erase r) blocks := by
  obtain ⟨member, named⟩ := (alike.paged.items id r).mp found
  obtain ⟨member', e, value, named'⟩ := alike.plain.items id k found'
  have linked := alike.paged.linked
  have listed : e.resident ∈ lru.map p.resident := by
    rw [alike.residents]
    exact List.mem_map_of_mem (Lru.mem_entries.mpr ⟨k, member', value⟩)
  have one : p.resident r = e.resident :=
    List.inj_on_of_nodup_map linked.residents_nodup (List.mem_map_of_mem member) listed (named.trans named'.symm)
  have plain := alike.plain.stats u
  have accounts : { p with stats := t }.Accounts :=
    alike.accounts.kept rfl rfl rfl rfl occupancy capacity (fun _ => rfl)
  refine {
    paged := (alike.paged.stats t).touch fl r member
    accounts := accounts.touch fl r
    pageSize := alike.pageSize
    policy := alike.policy
    plain := plain.moveToFront k member'
    sums := alike.sums.moved alike.plain found' u
    cap := alike.cap
    residents := ?_
    lengths := alike.lengths
    counters := same }
  rw [linked.touch_residents member t, plain.moveToFront_residents member' value, one, alike.residents]
  rfl

theorem Alike.miss (alike : Alike room p l lru blocks) {t u : Stats} (same : SameCounters t u)
    (occupancy : t.occupancyBytes = p.stats.occupancyBytes) (capacity : t.capacityBytes = p.stats.capacityBytes) :
    Alike room { p with stats := t } { l with stats := u } lru blocks where
  paged := alike.paged.stats t
  accounts := alike.accounts.kept rfl rfl rfl rfl occupancy capacity (fun _ => rfl)
  pageSize := alike.pageSize
  policy := alike.policy
  plain := alike.plain.stats u
  sums := alike.sums.stats u
  cap := alike.cap
  residents := alike.residents
  lengths := alike.lengths
  counters := same

theorem Alike.pages (alike : Alike room p l lru blocks) (r : Ref) (member : r ∈ lru) :
    (p.entries r).pages.length = pagesFor room.pageSize room.payload := by
  have sizes := ((alike.paged.invariant alike.accounts).sizes r (alike.paged.same.mem_iff.mpr member)).1
  obtain ⟨b, known, stores⟩ := alike.paged.held r member
  rw [stores.size, alike.lengths b.id b known, alike.pageSize] at sizes
  exact sizes

theorem Alike.bytes (alike : Alike room p l lru blocks) (e : LruEntry) (listed : e ∈ l.entries) :
    e.size.toNat = room.payload + 128 := by
  obtain ⟨r, member, value⟩ := Lru.mem_entries.mp listed
  rw [alike.sums.sizes e listed, blockSize_toNat, bytesFor, alike.lengths _ _ (alike.plain.own member value).2]
  rfl

theorem Alike.pages_pos (alike : Alike room p l lru blocks) : 0 < pagesFor room.pageSize room.payload := by
  rw [Nat.pos_iff_ne_zero, ne_eq, pagesFor_eq_zero (alike.pageSize ▸ alike.paged.positive)]
  exact Nat.ne_of_gt room.filled

theorem Alike.length_eq (alike : Alike room p l lru blocks) : l.entries.length = lru.length := by
  have lengths := congrArg List.length alike.residents
  rw [List.length_map, List.length_map] at lengths
  exact lengths.symm

theorem Alike.free (alike : Alike room p l lru blocks) :
    p.free.length + lru.length * pagesFor room.pageSize room.payload = room.count := by
  have all := alike.paged.free_length
  have each : (lru.map fun r => (p.entries r).pages.length) = lru.map fun _ => pagesFor room.pageSize room.payload :=
    List.map_congr_left alike.pages
  rw [List.length_flatMap, each, List.map_const', List.sum_replicate_nat, List.length_nil, Nat.zero_add] at all
  exact all

theorem Alike.used (alike : Alike room p l lru blocks) : l.used.toNat = lru.length * (room.payload + 128) := by
  have each : (l.entries.map fun e => e.size.toNat) = l.entries.map fun _ => room.payload + 128 :=
    List.map_congr_left alike.bytes
  rw [alike.sums.used, Lru.total, each, List.map_const', List.sum_replicate_nat, alike.length_eq]

theorem rounds_eq {w limit n m : Nat} (positive : 0 < w) (low : n * w ≤ limit) (high : limit < (n + 1) * w)
    (inside : m * w ≤ limit) : (m * w + w - limit + w - 1) / w = if m < n then 0 else 1 := by
  have most : m ≤ n := by
    have below : m * w < (n + 1) * w := lt_of_le_of_lt inside high
    exact Nat.le_of_lt_succ (Nat.lt_of_mul_lt_mul_right below)
  split
  next less =>
    have left : (m + 1) * w ≤ n * w := Nat.mul_le_mul_right w less
    rw [Nat.succ_mul] at left
    exact Nat.div_eq_of_lt (by omega)
  next all =>
    obtain rfl : m = n := by omega
    rw [Nat.succ_mul] at high
    exact Nat.div_eq_of_lt_le (by omega) (by omega)

theorem Alike.evicts (alike : Alike room p l lru blocks) {gone : List Ref} {gone' : List LruEntry} {p' : Paged F}
    {l' : Lru} {size : UInt64} (fits : ¬size > l.cap) (size_eq : size.toNat = room.payload + 128)
    (evicts : Paged.Evicts fl intn (pagesFor room.pageSize room.payload) p gone p')
    (pages : pagesFor room.pageSize room.payload ≤ p'.free.length)
    (evicts' : Lru.Evicts size l gone' l') (bytes : ¬l'.used + size > l'.cap) :
    gone.map p.resident = gone'.map LruEntry.resident ∧
    (lru.diff gone).map p.resident = l'.entries.map LruEntry.resident := by
  have run := alike.paged.linked.shortestRun alike.policy evicts pages
  have run' := alike.sums.shortestRun alike.plain fits evicts' bytes
  have positive := alike.pages_pos
  have length := run.length_eq (fun r member => alike.pages r (List.mem_reverse.mp member)) positive
  have length' := run'.length_eq (fun e listed => alike.bytes e (List.mem_reverse.mp listed)) (Nat.succ_pos _)
  have free := alike.free
  have used := alike.used
  have bounded := alike.sums.bounded
  have lack : pagesFor room.pageSize room.payload - p.free.length =
      lru.length * pagesFor room.pageSize room.payload + pagesFor room.pageSize room.payload - room.count := by
    omega
  rw [lack, rounds_eq positive room.pages_low room.pages_high (by omega)] at length
  rw [used, size_eq, alike.cap, rounds_eq (Nat.succ_pos _) room.bytes_low room.bytes_high
    (by rw [used, alike.cap] at bounded; exact bounded)] at length'
  have split := congrArg (List.map p.resident) run.split
  have split' := congrArg (List.map LruEntry.resident) run'.split
  rw [List.map_reverse, List.map_append] at split split'
  rw [alike.residents, split'] at split
  obtain ⟨same, rest⟩ := List.append_inj split (by rw [List.length_map, List.length_map, length, length'])
  rw [List.map_reverse, List.map_reverse] at rest
  exact ⟨same.symm, (List.reverse_injective rest).symm⟩

theorem Alike.size_eq {b : Block} (length : b.payload.1.length = room.payload) :
    (blockSize b).toNat = room.payload + 128 := by
  rw [blockSize_toNat, bytesFor, length]
  rfl

theorem Alike.fits (alike : Alike room p l lru blocks) {b : Block} (length : b.payload.1.length = room.payload)
    (some_ : 0 < room.blocks) : ¬blockSize b > l.cap := by
  have least := (Nat.le_mul_of_pos_left (room.payload + 128) some_).trans room.bytes_low
  rw [gt_iff_lt, UInt64.lt_iff_toNat_lt, Alike.size_eq length, alike.cap]
  exact not_lt.mpr least

theorem Alike.needs (alike : Alike room p l lru blocks) (some_ : 0 < room.blocks) :
    p.pagesNeeded room.payload = pagesFor room.pageSize room.payload ∧
    0 < pagesFor room.pageSize room.payload ∧ pagesFor room.pageSize room.payload ≤ room.count := by
  have sum : room.payload + room.pageSize ≤ 2 ^ 63 := by
    rcases room.sound with sum | ⟨_, none_⟩
    · exact sum
    · omega
  have need_eq := pagesNeeded_small p alike.paged.positive room.payload (alike.pageSize ▸ sum)
  rw [alike.pageSize] at need_eq
  exact ⟨need_eq, alike.pages_pos, (Nat.le_mul_of_pos_left _ some_).trans room.pages_low⟩

theorem Alike.store (alike : Alike room p l lru blocks) (b : Block) (length : b.payload.1.length = room.payload)
    (absent : p.items b.id = none) (some_ : 0 < room.blocks) :
    (p.put fl intn b).stored = some true ∧ (l.put b).stored = some true ∧
    ∃ lru' blocks', Alike room (p.put fl intn b).store (l.put b).store lru' blocks' := by
  obtain ⟨need_eq, positive, possible⟩ := alike.needs some_
  have fits := alike.fits length some_
  rcases alike.paged.put_absent fl intn b absent with ⟨misfit, _⟩ | ⟨negative, _⟩ |
    ⟨need, exact_, _, _, gone, p', p'', evicts, pages, placing, put, rep''⟩
  · rw [length] at misfit
    omega
  · rw [length] at negative
    omega
  · rw [length, need_eq, Int.ofNat_inj] at exact_
    subst exact_
    obtain ⟨shows, adds⟩ := alike.paged.linked.placed evicts b absent (placing.symm.trans put)
    have returns := (alike.sums.put alike.plain b).1
    have sums'' := (alike.sums.put alike.plain b).2
    have accounts'' := alike.accounts.put fl intn alike.paged b
    have config := p.put_config fl intn b
    have ways := l.putCase b
    generalize l.put b = result at ways returns sums'' ⊢
    cases ways with
    | present r found =>
      rw [(alike.absent_iff b.id).mp absent] at found
      cases found
    | refused _ large => exact absurd large fits
    | panics _ _ _ _ _ _ => exact absurd rfl returns
    | placed absent' _ gone' l' evicts' bytes =>
      obtain ⟨same, kept⟩ := alike.evicts fl intn fits (Alike.size_eq length) evicts pages evicts' bytes
      have ids : (gone.map fun r => (p.entries r).id) = gone'.map fun e => e.block.id := by
        have named := congrArg (List.map Resident.id) same
        rwa [List.map_map, List.map_map] at named
      have plain' := alike.plain.evicts evicts'
      have new := plain'.absent b.id (without_none blocks _ b.id (alike.plain.nothing b.id absent'))
      rw [put] at accounts'' config ⊢
      refine ⟨rfl, rfl, _, _, {
        paged := rep''
        accounts := accounts''
        pageSize := config.1.trans alike.pageSize
        policy := config.2.1.trans alike.policy
        plain := ?_
        sums := sums''.1
        cap := by rw [sums''.2, alike.cap]
        residents := ?_
        lengths := ?_
        counters := alike.counters.adds (same ▸ adds) evicts'.adds }⟩
      · rw [ids]
        exact plain'.pushFront b _ new
      · obtain ⟨lru', linked'', residents⟩ := shows
        rw [rep''.linked.links.unique linked''.links, residents, kept, plain'.pushFront_entries]
        rfl
      · intro id x found
        by_cases named : id = b.id
        · rw [named, Function.update_self, Option.some.injEq] at found
          rw [← found, length]
        · rw [Function.update_of_ne named] at found
          exact alike.lengths id x (of_without _ _ _ _ found)

theorem Alike.refuse (alike : Alike room p l lru blocks) (b : Block) (length : b.payload.1.length = room.payload)
    (absent : p.items b.id = none) (none_ : room.blocks = 0) :
    p.put fl intn b = ⟨some false, [], p⟩ ∧ l.put b = ⟨some false, [], l⟩ := by
  have few := room.pages_high
  have short := room.bytes_high
  rw [none_, Nat.zero_add, Nat.one_mul] at few short
  have large : blockSize b > l.cap := by
    rw [gt_iff_lt, UInt64.lt_iff_toNat_lt, blockSize_toNat, bytesFor, length, alike.cap]
    exact short
  refine ⟨?_, by simp only [Lru.put, (alike.absent_iff b.id).mp absent, if_pos large]⟩
  have needed : p.pagesNeeded room.payload = 0 ∨ (room.count : Int) < p.pagesNeeded room.payload := by
    by_cases sum : room.payload + room.pageSize ≤ 2 ^ 63
    · rw [pagesNeeded_small p alike.paged.positive _ (alike.pageSize ▸ sum), alike.pageSize]
      omega
    · have wrapped := (room.sound.resolve_left sum).1
      have overflow := pagesNeeded_large p alike.paged.bounded _ (length ▸ b.payload.2)
        (by rw [alike.pageSize]; exact not_le.mp sum)
      rw [alike.pageSize, if_pos wrapped] at overflow
      exact Or.inl overflow
  rcases alike.paged.put_absent fl intn b absent with ⟨_, put⟩ | ⟨negative, _⟩ | ⟨need, exact_, _, possible, _⟩
  · exact put
  · rw [length] at negative
    omega
  · rw [length] at exact_
    omega

theorem Alike.put (alike : Alike room p l lru blocks) (b : Block) (length : b.payload.1.length = room.payload) :
    (p.put fl intn b).stored = (l.put b).stored ∧
    ∃ lru' blocks', Alike room (p.put fl intn b).store (l.put b).store lru' blocks' := by
  cases found : p.items b.id with
  | none =>
    rcases Nat.eq_zero_or_pos room.blocks with none_ | some_
    · obtain ⟨put, put'⟩ := alike.refuse fl intn b length found none_
      rw [put, put']
      exact ⟨rfl, lru, blocks, alike⟩
    · obtain ⟨stored, stored', next⟩ := alike.store fl intn b length found some_
      exact ⟨stored.trans stored'.symm, next⟩
  | some r =>
    obtain ⟨k, found'⟩ := alike.found found
    simp only [Paged.put, Lru.put, found, found', true_and]
    exact ⟨_, _, alike.hit fl found found' alike.counters rfl rfl⟩

theorem Alike.get (alike : Alike room p l lru blocks) (id : BlockID) :
    (p.get fl id).1 = (l.get id).1 ∧ ∃ lru', Alike room (p.get fl id).2 (l.get id).2 lru' blocks := by
  refine ⟨(alike.paged.get fl id).1.trans (alike.plain.get id).1.symm, ?_⟩
  cases found : p.items id with
  | none =>
    simp only [Paged.get, Lru.get, found, (alike.absent_iff id).mp found]
    exact ⟨lru, alike.miss (alike.counters.adds (Stats.Adds.miss _) (Stats.Adds.miss _)) rfl rfl⟩
  | some r =>
    obtain ⟨k, found'⟩ := alike.found found
    simp only [Paged.get, Lru.get, found, found']
    exact ⟨_, alike.hit fl found found' (alike.counters.adds (Stats.Adds.hit _) (Stats.Adds.hit _)) rfl rfl⟩

theorem Alike.contains (alike : Alike room p l lru blocks) (id : BlockID) :
    (p.contains fl id).1 = (l.contains id).1 ∧
    ∃ lru', Alike room (p.contains fl id).2 (l.contains id).2 lru' blocks := by
  refine ⟨(alike.paged.contains fl id).1.trans (alike.plain.contains id).1.symm, ?_⟩
  cases found : p.items id with
  | none =>
    simp only [Paged.contains, Lru.contains, found, (alike.absent_iff id).mp found]
    exact ⟨lru, alike.miss (alike.counters.adds (Stats.Adds.miss _) (Stats.Adds.miss _)) rfl rfl⟩
  | some r =>
    obtain ⟨k, found'⟩ := alike.found found
    simp only [Paged.contains, Lru.contains, found, found']
    exact ⟨_, alike.hit fl found found' (alike.counters.adds (Stats.Adds.hit _) (Stats.Adds.hit _)) rfl rfl⟩

theorem Alike.touch (alike : Alike room p l lru blocks) (id : BlockID) :
    ∃ lru', Alike room (p.touchID fl id) (l.touch id) lru' blocks := by
  cases found : p.items id with
  | none =>
    simp only [Paged.touchID, Lru.touch, found, (alike.absent_iff id).mp found]
    exact ⟨lru, alike⟩
  | some r =>
    obtain ⟨k, found'⟩ := alike.found found
    simp only [Paged.touchID, Lru.touch, found, found']
    exact ⟨_, alike.hit fl found found' alike.counters rfl rfl⟩

theorem Alike.run (alike : Alike room p l lru blocks) (ops : List Op)
    (lengths : ∀ b, .put b ∈ ops → b.payload.1.length = room.payload) :
    ((Store.paged p).run fl intn ops).1 = ((Store.lru l : Store F).run fl intn ops).1 ∧
    SameCounters ((Store.paged p).run fl intn ops).2.stats ((Store.lru l : Store F).run fl intn ops).2.stats := by
  induction ops generalizing p l lru blocks with
  | nil => exact ⟨rfl, alike.counters⟩
  | cons op rest ih =>
    have later : ∀ b, .put b ∈ rest → b.payload.1.length = room.payload :=
      fun b member => lengths b (List.mem_cons_of_mem _ member)
    cases op with
    | put b =>
      obtain ⟨same, lru', blocks', next⟩ := alike.put fl intn b (lengths b List.mem_cons_self)
      obtain ⟨answers, counters⟩ := ih next later
      exact ⟨congrArg₂ List.cons (congrArg Answer.put same) answers, counters⟩
    | get id =>
      obtain ⟨same, lru', next⟩ := alike.get fl id
      obtain ⟨answers, counters⟩ := ih next later
      exact ⟨congrArg₂ List.cons (congrArg Answer.get same) answers, counters⟩
    | contains id =>
      obtain ⟨same, lru', next⟩ := alike.contains fl id
      obtain ⟨answers, counters⟩ := ih next later
      exact ⟨congrArg₂ List.cons (congrArg Answer.contains same) answers, counters⟩
    | touch id =>
      obtain ⟨lru', next⟩ := alike.touch fl id
      obtain ⟨answers, counters⟩ := ih next later
      exact ⟨congrArg (List.cons Answer.touch) answers, counters⟩

/-- On payloads of `payload` bytes both stores return the same from every operation, and count the same. -/
def Agree (start : Paged F) (capacityBytes : UInt64) (payload : Nat) : Prop :=
  ∀ ops : List Op, (∀ b, .put b ∈ ops → b.payload.1.length = payload) →
    ((Store.paged start).run fl intn ops).1 = ((Store.lru (newLRU capacityBytes) : Store F).run fl intn ops).1 ∧
    SameCounters ((Store.paged start).run fl intn ops).2.stats
      ((Store.lru (newLRU capacityBytes) : Store F).run fl intn ops).2.stats

def zeroBlock (payload : Nat) (short : payload < 2 ^ 63) : Block where
  id := sampleID 0
  parentID := sampleID 0
  modelID := ""
  payload := ⟨List.replicate payload 0, List.length_replicate.trans_lt short⟩
  tokenCount := 0
  costUS := 0

theorem newLRU_put (capacityBytes : UInt64) (b : Block) (fits : bytesFor b ≤ capacityBytes.toNat)
    (returns : ((newLRU capacityBytes).put b).stored ≠ none) :
    ((newLRU capacityBytes).put b).stored = some true := by
  have ways := (newLRU capacityBytes).putCase b
  generalize (newLRU capacityBytes).put b = result at ways returns ⊢
  cases ways with
  | present r found => cases found
  | refused _ large =>
    rw [gt_iff_lt, UInt64.lt_iff_toNat_lt, blockSize_toNat] at large
    exact absurd large (not_lt.mpr fits)
  | panics _ _ _ _ _ _ => exact absurd rfl returns
  | placed _ _ _ _ _ _ => rfl

/-- A paged LRU store of at most `2 ^ 31` pages and a plain one of less than `2 ^ 63` bytes, both with room for `n`
blocks of one length and not for one more, agree exactly if the number of pages of such a block does not overflow, or
overflows to none while there is no room for one. -/
theorem baselines_agree_iff (pagedBytes capacityBytes : UInt64) (pageSize : Int64) (start : Paged F)
    (made : newPaged fl pagedBytes pageSize .lru = some start) (few : nPages pagedBytes pageSize ≤ 2 ^ 31)
    (payload n : Nat) (filled : 1 ≤ payload) (short : payload < 2 ^ 63)
    (pages_low : n * pagesFor pageSize.toInt.toNat payload ≤ (nPages pagedBytes pageSize).toNat)
    (pages_high : (nPages pagedBytes pageSize).toNat < (n + 1) * pagesFor pageSize.toInt.toNat payload)
    (small : capacityBytes.toNat < 2 ^ 63) (bytes_low : n * (payload + 128) ≤ capacityBytes.toNat)
    (bytes_high : capacityBytes.toNat < (n + 1) * (payload + 128)) :
    Agree fl intn start capacityBytes payload ↔ payload + pageSize.toInt.toNat ≤ 2 ^ 63 ∨
      2 ^ 64 + 1 < payload + 2 * pageSize.toInt.toNat ∧ n = 0 := by
  have rep := newPaged_small fl pagedBytes pageSize .lru made few
  have config := newPaged_config fl pagedBytes pageSize .lru made
  have sums := newLRU_sums capacityBytes small
  constructor
  · intro agree
    by_contra unsound
    rw [not_or, not_le] at unsound
    -- one `Put` into both new stores
    have stored := (agree [.put (zeroBlock payload short)] (by simp [zeroBlock])).1
    simp only [Store.run, Store.perform, Store.put, List.cons.injEq, Answer.put.injEq, and_true] at stored
    have length : (zeroBlock payload short).payload.1.length = payload := List.length_replicate
    have returns := (sums.put (newLRU_rep capacityBytes) (zeroBlock payload short)).1
    rw [start.put_overflow fl intn rep.bounded (zeroBlock payload short) ((rep.absent _).mpr rfl)
      (by rw [length, config.1]; exact unsound.1), length, config.1] at stored
    split at stored
    next wrapped =>
      -- the paged store refuses a block that the plain one has room for
      have room : 0 < n := Nat.pos_of_ne_zero fun none_ => unsound.2 ⟨wrapped, none_⟩
      have least := (Nat.le_mul_of_pos_left (payload + 128) room).trans bytes_low
      rw [newLRU_put capacityBytes (zeroBlock payload short) (by rw [bytesFor, length]; exact least) returns] at stored
      cases stored
    next => exact absurd stored.symm returns
  · intro sound
    let room : SameRoom := ⟨payload, pageSize.toInt.toNat, (nPages pagedBytes pageSize).toNat, capacityBytes.toNat, n,
      filled, pages_low, pages_high, bytes_low, bytes_high, sound⟩
    have none_ : blocksOf [] = fun _ => none := funext fun _ => rfl
    have alike : Alike room start (newLRU capacityBytes) [] (fun _ => none) := {
      paged := none_ ▸ rep
      accounts := (newPaged_accounts fl pagedBytes pageSize .lru made).1
      pageSize := config.1
      policy := config.2.1
      plain := newLRU_rep capacityBytes
      sums := sums
      cap := rfl
      residents := rfl
      lengths := by simp
      counters := newPaged_counters pagedBytes pageSize .lru made }
    exact fun ops lengths => alike.run fl intn ops lengths

/-- A page of `2 ^ 63 - 1` bytes, of which there is none, and two bytes: the plain store refuses the block and the
paged one panics. -/
theorem hugePage_disagree : ∃ start : Paged Int, newPaged sampleFloat 4096 9223372036854775807 .lru = some start ∧
    nPages 4096 9223372036854775807 = 0 ∧ pagesFor 9223372036854775807 2 = 1 ∧
    ¬Agree sampleFloat id start 100 2 := by
  refine ⟨_, rfl, by decide, by decide, ?_⟩
  intro agree
  have lengths : ∀ b, .put b ∈ [Op.put (sampleBlock 1 2)] → b.payload.1.length = 2 := by
    intro b member
    rw [List.mem_singleton, Op.put.injEq] at member
    rw [member]
    decide
  exact absurd (agree [.put (sampleBlock 1 2)] lengths).1 (by decide)

/-- Five pages of two bytes and 300 bytes both have room for two blocks of three bytes. -/
theorem smallBaselines_agree : ∃ start : Paged Int, newPaged sampleFloat 10 2 .lru = some start ∧
    Agree sampleFloat id start 300 3 := by
  refine ⟨_, rfl, ?_⟩
  exact (baselines_agree_iff sampleFloat id 10 300 2 _ rfl (by decide) 3 2 (by decide) (by decide) (by decide)
    (by decide) (by decide) (by decide) (by decide)).mpr (Or.inl (by decide))

end PrefixMesh.Blockstore
