import PrefixMesh.Blockstore.PagedLinked
import Mathlib.Data.List.Range

/-! The paged store as a map of blocks. `Rep` ties a store to the list of its entries,
most recently used first, and to the map that it stands for. Every page is free or in
exactly one entry, so filling free pages leaves the payloads of all entries alone.

With more than `2 ^ 31` pages the indices wrap around. The free list then has a part
`bottom` that ends in a negative index, and a `Put` that gets there panics; the
`count` pages above it behave as in a small store. -/

namespace PrefixMesh.Blockstore

open Lib

variable {F : Type} (fl : Float64 F) (intn : Nat → Nat)

structure Paged.Stores (p : Paged F) (r : Ref) (b : Block) : Prop where
  id : (p.entries r).id = b.id
  parentID : (p.entries r).parentID = b.parentID
  modelID : (p.entries r).modelID = b.modelID
  tokenCount : (p.entries r).tokenCount = b.tokenCount
  costUS : (p.entries r).costUS = b.costUS
  size : (p.entries r).size.1 = b.payload.1.length
  payload : Holds p.pageSize p.arena ((p.entries r).pages.map page) b.payload.1

structure Paged.Rep (p : Paged F) (bottom : List Int32) (count : Nat) (lru : List Ref)
    (blocks : BlockID → Option Block) : Prop extends linked : p.Linked lru where
  few : count ≤ 2 ^ 31
  stuck : ∀ pg, bottom.getLast? = some pg → pg.toInt < 0
  positive : 0 < p.pageSize
  bounded : p.pageSize < 2 ^ 63
  arena : p.arena.length = (bottom.length + count) * p.pageSize
  pages : ∃ top, p.free = bottom ++ top ∧
    (top ++ lru.flatMap fun r => (p.entries r).pages).Perm ((List.range count).map Int32.ofNat)
  held : ∀ r ∈ lru, ∃ b, blocks b.id = some b ∧ p.Stores r b
  nothing : ∀ id, p.items id = none → blocks id = none

variable {p p' : Paged F} {bottom : List Int32} {count : Nat} {lru lru' : List Ref} {blocks : BlockID → Option Block}

theorem Paged.Stores.read {r : Ref} {b : Block} (stores : p.Stores r b) : p.read r = b := by
  have payload : p.payload (p.entries r) = b.payload := by
    apply Subtype.ext
    change gather _ _ (p.entries r).size.1 _ _ _ = _
    rw [stores.size]
    exact stores.payload.gather _ List.length_replicate
  simp only [Paged.read, payload, stores.id, stores.parentID, stores.modelID, stores.tokenCount, stores.costUS]

theorem Paged.Stores.kept {r : Ref} {b : Block} (stores : p.Stores r b)
    (entry : ∃ freq last, p'.entries r = { p.entries r with freq := freq, lastAccess := last })
    (payload : Holds p'.pageSize p'.arena ((p.entries r).pages.map page) b.payload.1) : p'.Stores r b := by
  obtain ⟨freq, last, entry⟩ := entry
  constructor
  · rw [entry]; exact stores.id
  · rw [entry]; exact stores.parentID
  · rw [entry]; exact stores.modelID
  · rw [entry]; exact stores.tokenCount
  · rw [entry]; exact stores.costUS
  · rw [entry]; exact stores.size
  · rw [entry]; exact payload

theorem page_ofNat {i : Nat} (small : i < 2 ^ 31) : page (Int32.ofNat i) = i := by
  rw [page, Int32.toInt_ofNat_of_lt small, Int.toNat_natCast]

/-- The pages above `bottom`, free or not, are the numbers below `count`. -/
private theorem Paged.Rep.numbers (rep : p.Rep bottom count lru blocks) {top : List Int32}
    (perm : (top ++ lru.flatMap fun r => (p.entries r).pages).Perm ((List.range count).map Int32.ofNat)) :
    ((top ++ lru.flatMap fun r => (p.entries r).pages).map page).Perm (List.range count) := by
  have mapped := perm.map page
  rw [List.map_map] at mapped
  have plain : (List.range count).map (page ∘ Int32.ofNat) = List.range count := by
    conv_rhs => rw [← List.map_id (List.range count)]
    apply List.map_congr_left
    intro i member
    exact page_ofNat ((List.mem_range.mp member).trans_le rep.few)
  rwa [plain] at mapped

theorem Paged.Rep.nonneg (rep : p.Rep bottom count lru blocks) {refs : List Ref} {entries : Ref → PagedEntry F}
    {top : List Int32}
    (perm : (top ++ refs.flatMap fun r => (entries r).pages).Perm ((List.range count).map Int32.ofNat)) :
    ∀ pg ∈ top, 0 ≤ pg.toInt := by
  intro pg member
  obtain ⟨i, small, rfl⟩ := List.mem_map.mp (perm.mem_iff.mp (List.mem_append_left _ member))
  rw [Int32.toInt_ofNat_of_lt ((List.mem_range.mp small).trans_le rep.few)]
  exact Int.natCast_nonneg i

theorem Paged.Rep.absent (rep : p.Rep bottom count lru blocks) (id : BlockID) :
    p.items id = none ↔ blocks id = none := by
  constructor
  · exact rep.nothing id
  · intro missing
    cases found : p.items id with
    | none => rfl
    | some r =>
      obtain ⟨member, named⟩ := (rep.items id r).mp found
      obtain ⟨b, known, stores⟩ := rep.held r member
      rw [← stores.id, named, missing] at known
      cases known

theorem Paged.Rep.read (rep : p.Rep bottom count lru blocks) (id : BlockID) (r : Ref)
    (found : p.items id = some r) : blocks id = some (p.read r) := by
  obtain ⟨member, named⟩ := (rep.items id r).mp found
  obtain ⟨b, known, stores⟩ := rep.held r member
  rw [stores.read, ← named, stores.id, known]

theorem Paged.Rep.reorder (rep : p.Rep bottom count lru blocks) (links : p'.links.Lists lru') (perm : lru.Perm lru')
    (pageSize : p'.pageSize = p.pageSize) (arena : p'.arena = p.arena) (free : p'.free = p.free)
    (items : p'.items = p.items) (order : p'.order = p.order) (fresh : p'.fresh = p.fresh)
    (entries : ∀ r, ∃ freq last, p'.entries r = { p.entries r with freq := freq, lastAccess := last }) :
    p'.Rep bottom count lru' blocks := by
  have pagesOf : ∀ r, (p'.entries r).pages = (p.entries r).pages := by
    intro r
    obtain ⟨freq, last, entry⟩ := entries r
    rw [entry]
  have idOf : ∀ r, (p'.entries r).id = (p.entries r).id := by
    intro r
    obtain ⟨freq, last, entry⟩ := entries r
    rw [entry]
  refine {
    linked := rep.linked.reorder links perm items order fresh idOf
    few := rep.few
    stuck := rep.stuck
    positive := pageSize ▸ rep.positive
    bounded := pageSize ▸ rep.bounded
    arena := by rw [arena, pageSize, rep.arena]
    pages := ?_
    held := ?_
    nothing := items ▸ rep.nothing }
  · obtain ⟨top, split_, all⟩ := rep.pages
    simp only [pagesOf, free]
    exact ⟨top, split_, ((perm.flatMap_right _).symm.append_left _).trans all⟩
  · intro r member
    obtain ⟨b, known, stores⟩ := rep.held r (perm.mem_iff.mpr member)
    exact ⟨b, known, stores.kept (entries r) (by rw [pageSize, arena]; exact stores.payload)⟩

theorem Paged.Rep.touch (rep : p.Rep bottom count lru blocks) (r : Ref) (member : r ∈ lru) :
    (p.touch fl r).Rep bottom count (r :: lru.erase r) blocks := by
  exact rep.reorder (rep.links.moveFront r member) (List.perm_cons_erase member) rfl rfl rfl rfl rfl rfl
    (p.touch_entries fl r)

theorem Paged.Rep.stats (rep : p.Rep bottom count lru blocks) (stats : Stats) :
    { p with stats := stats }.Rep bottom count lru blocks :=
  rep.reorder rep.links (List.Perm.refl lru) rfl rfl rfl rfl rfl rfl (fun _ => ⟨_, _, rfl⟩)

theorem Paged.Rep.occupy (rep : p.Rep bottom count lru blocks) (need : Nat) :
    (p.occupy need).Rep bottom count lru blocks :=
  rep.stats _

theorem Paged.Rep.discard (rep : p.Rep bottom count lru blocks) (r : Ref) (member : r ∈ lru) (drawn : Nat) :
    (p.discard r drawn).Rep bottom count (lru.erase r) (Function.update blocks (p.entries r).id none) := by
  refine {
    linked := rep.linked.discard r member drawn
    few := rep.few
    stuck := rep.stuck
    positive := rep.positive
    bounded := rep.bounded
    arena := rep.arena
    pages := ?_
    held := ?_
    nothing := ?_ }
  · obtain ⟨top, split_, all⟩ := rep.pages
    refine ⟨top ++ (p.entries r).pages, by simp only [Paged.discard, split_, List.append_assoc], ?_⟩
    refine List.Perm.trans ?_ all
    simp only [Paged.discard, List.append_assoc]
    apply List.Perm.append_left
    have moved := (List.perm_cons_erase member).symm.flatMap_right fun r => (p.entries r).pages
    rwa [List.flatMap_cons] at moved
  · intro k inside
    obtain ⟨b, known, stores⟩ := rep.held k (List.mem_of_mem_erase inside)
    have different : b.id ≠ (p.entries r).id := by
      intro same
      have again := rep.linked.id_injective (List.mem_of_mem_erase inside) member (stores.id.trans same)
      exact List.Nodup.not_mem_erase rep.links.distinct (again ▸ inside)
    exact ⟨b, by rw [Function.update_of_ne different, known], stores.kept ⟨_, _, rfl⟩ stores.payload⟩
  · intro id missing
    by_cases gone : id = (p.entries r).id
    · rw [gone, Function.update_self]
    · rw [Function.update_of_ne gone]
      apply rep.nothing
      simpa only [Paged.discard, Function.update_of_ne gone] using missing

theorem Paged.Rep.evicts {need : Nat} {gone : List Ref} (rep : p.Rep bottom count lru blocks)
    (evicts : Paged.Evicts fl intn need p gone p') :
    p'.Rep bottom count (lru.diff gone) (without blocks (gone.map fun r => (p.entries r).id)) := by
  induction evicts generalizing lru blocks with
  | done => exact rep
  | @more p p' r gone short picked rest ih =>
    have perm := (rep.linked.evicts (.more short picked rest)).2.1
    rw [List.diff_cons]
    exact ih (rep.discard r (perm.subset (by simp)) _)

theorem Paged.Rep.free_length (rep : p.Rep bottom count lru blocks) :
    p.free.length + (lru.flatMap fun r => (p.entries r).pages).length = bottom.length + count := by
  obtain ⟨top, split_, all⟩ := rep.pages
  have size := all.length_eq
  rw [List.length_append, List.length_map, List.length_range] at size
  rw [split_, List.length_append]
  omega

theorem Paged.Rep.available (rep : p.Rep bottom count lru blocks) : p.available = bottom.length + count := by
  rw [rep.linked.available_eq, ← List.length_flatMap, rep.free_length]

theorem placeLoop_eq (pageSize : Nat) (payload : List UInt8) (taken rest pages : List Int32) (i more : Nat)
    (arena : List UInt8) (nonneg : ∀ pg ∈ taken, 0 ≤ pg.toInt) :
    placeLoop pageSize payload (taken.length + more) i (rest ++ taken.reverse) arena pages =
      placeLoop pageSize payload more (i + taken.length) rest
        (scatter pageSize payload (taken.map page) i arena) (pages ++ taken) := by
  induction taken generalizing i arena pages with
  | nil => simp [scatter]
  | cons pg taken ih =>
    have first : ¬pg.toInt < 0 := not_lt.mpr (nonneg pg List.mem_cons_self)
    have rest_ := ih (pages ++ [pg]) (i + 1)
      (copyAt arena (page pg * pageSize) ((payload.drop (i * pageSize)).take pageSize))
      (fun x member => nonneg x (List.mem_cons_of_mem _ member))
    rw [List.append_assoc, List.singleton_append] at rest_
    have left : (pg :: taken).length + more = taken.length + more + 1 := by rw [List.length_cons]; omega
    have next : i + (pg :: taken).length = i + 1 + taken.length := by rw [List.length_cons]; omega
    rw [List.reverse_cons, ← List.append_assoc, left, next]
    simp only [placeLoop, List.getLast?_concat, List.dropLast_concat, if_neg first, rest_, scatter, List.map_cons]

theorem placeLoop_stuck (pageSize : Nat) (payload : List UInt8) (bottom pages : List Int32) (i more : Nat)
    (arena : List UInt8) (stuck : ∀ pg, bottom.getLast? = some pg → pg.toInt < 0) :
    (placeLoop pageSize payload (more + 1) i bottom arena pages).2.2 = none := by
  cases last : bottom.getLast? with
  | none => simp only [placeLoop, last]
  | some pg => simp only [placeLoop, last, if_pos (stuck pg last)]

/-- A positive need is the number of pages that the payload fills, the last one possibly in part. -/
theorem pagesNeeded_spec (p : Paged F) (positive : 0 < p.pageSize) (bounded : p.pageSize < 2 ^ 63) (size : Nat)
    (small : size < 2 ^ 63) (need : Nat) (exact_ : p.pagesNeeded size = need) (some_ : 0 < need) :
    (∀ t, t < need → t * p.pageSize < size) ∧ size ≤ need * p.pageSize := by
  have sum : ((size : Int) + p.pageSize - 1) = ((size + p.pageSize - 1 : Nat) : Int) := by omega
  have division : need = (size + p.pageSize - 1) / p.pageSize := by
    unfold Paged.pagesNeeded at exact_
    rw [sum] at exact_
    by_cases low : size + p.pageSize - 1 < 2 ^ 63
    · rw [Int.bmod_eq_of_le (by omega) (by omega), ← Int.ofNat_tdiv] at exact_
      omega
    · -- the sum overflows, and the quotient is not positive
      have wrapped : 0 ≤ -Int.bmod ((size + p.pageSize - 1 : Nat) : Int) (2 ^ 64) := by
        rw [Int.bmod_def]
        omega
      have negative := Int.tdiv_nonneg wrapped (Int.natCast_nonneg p.pageSize)
      rw [Int.neg_tdiv, exact_] at negative
      omega
  have upper := Nat.div_mul_le_self (size + p.pageSize - 1) p.pageSize
  have lower := Nat.lt_div_mul_add (a := size + p.pageSize - 1) positive
  rw [← division] at upper lower
  refine ⟨?_, by omega⟩
  intro t below
  have next : (t + 1) * p.pageSize ≤ need * p.pageSize := Nat.mul_le_mul_right _ below
  rw [Nat.add_mul, Nat.one_mul] at next
  omega

/-- Pages that are taken from the free list lie in the arena, no two are the same and none is in an entry. -/
private theorem Paged.Rep.taken (rep : p.Rep bottom count lru blocks) {rest taken : List Int32}
    (perm : (rest ++ taken.reverse ++ lru.flatMap fun r => (p.entries r).pages).Perm
      ((List.range count).map Int32.ofNat)) :
    (∀ k ∈ taken.map page, (k + 1) * p.pageSize ≤ p.arena.length) ∧ (taken.map page).Nodup ∧
    ∀ r ∈ lru, ∀ pg ∈ (p.entries r).pages, page pg ∉ taken.map page := by
  have numbers := rep.numbers perm
  have distinct := numbers.nodup_iff.mpr List.nodup_range
  rw [List.map_append, List.nodup_append, List.map_append, List.nodup_append] at distinct
  obtain ⟨⟨_, once, _⟩, _, apart⟩ := distinct
  rw [List.map_reverse, List.nodup_reverse] at once
  have free : ∀ k ∈ taken.map page, k ∈ rest.map page ++ taken.reverse.map page := by
    intro k member
    rw [List.map_reverse]
    exact List.mem_append_right _ (List.mem_reverse.mpr member)
  refine ⟨?_, once, ?_⟩
  · intro k member
    have below : k < count := by
      apply List.mem_range.mp
      apply numbers.mem_iff.mp
      rw [List.map_append, List.map_append]
      exact List.mem_append_left _ (free k member)
    rw [rep.arena]
    exact Nat.mul_le_mul_right _ (by omega)
  · intro r member pg from_ theirs
    have entryPage : page pg ∈ (lru.flatMap fun r => (p.entries r).pages).map page :=
      List.mem_map_of_mem (List.mem_flatMap.mpr ⟨r, member, from_⟩)
    exact apart _ (free _ theirs) _ entryPage rfl

theorem Paged.link_stores (p : Paged F) (b : Block) (free taken : List Int32) (distinct : (taken.map page).Nodup)
    (inside : ∀ k ∈ taken.map page, (k + 1) * p.pageSize ≤ p.arena.length)
    (needed : ∀ t, t < taken.length → t * p.pageSize < b.payload.1.length)
    (enough : b.payload.1.length ≤ taken.length * p.pageSize) :
    (p.link fl b free (scatter p.pageSize b.payload.1 (taken.map page) 0 p.arena) taken).Stores p.fresh b := by
  have entry : (p.link fl b free (scatter p.pageSize b.payload.1 (taken.map page) 0 p.arena)
    taken).entries p.fresh = _ := Function.update_self ..
  constructor
  · rw [entry]
  · rw [entry]
  · rw [entry]
  · rw [entry]
  · rw [entry]
  · rw [entry]
  · rw [entry]
    exact holds_scatter distinct inside (by rwa [List.length_map]) (by rwa [List.length_map])

theorem Paged.Rep.link (rep : p.Rep bottom count lru blocks) (b : Block) (new : p.items b.id = none)
    (rest taken : List Int32)
    (perm : (rest ++ taken.reverse ++ lru.flatMap fun r => (p.entries r).pages).Perm
      ((List.range count).map Int32.ofNat))
    (needed : ∀ t, t < taken.length → t * p.pageSize < b.payload.1.length)
    (enough : b.payload.1.length ≤ taken.length * p.pageSize) :
    (p.link fl b (bottom ++ rest) (scatter p.pageSize b.payload.1 (taken.map page) 0 p.arena) taken).Rep bottom count
      (p.fresh :: lru) (Function.update blocks b.id (some b)) := by
  obtain ⟨inside, distinct, apart⟩ := rep.taken perm
  have stores := p.link_stores fl b (bottom ++ rest) taken distinct inside needed enough
  have entries : ∀ r ∈ lru, (p.link fl b (bottom ++ rest) (scatter p.pageSize b.payload.1 (taken.map page) 0 p.arena)
      taken).entries r = p.entries r := fun r member => rep.linked.link_entries fl b _ _ _ member
  refine {
    linked := rep.linked.link fl b new (bottom ++ rest) _ taken
    few := rep.few
    stuck := rep.stuck
    positive := rep.positive
    bounded := rep.bounded
    arena := (length_scatter ..).trans rep.arena
    pages := ?_
    held := ?_
    nothing := ?_ }
  · have moved : (rest ++ (taken ++ lru.flatMap fun r => (p.entries r).pages)).Perm
        (rest ++ taken.reverse ++ lru.flatMap fun r => (p.entries r).pages) := by
      rw [← List.append_assoc]
      exact ((List.reverse_perm taken).symm.append_left rest).append_right _
    refine ⟨rest, rfl, ?_⟩
    rw [List.flatMap_cons, List.flatMap_congr fun r member => congrArg PagedEntry.pages (entries r member)]
    have own : ((p.link fl b (bottom ++ rest) (scatter p.pageSize b.payload.1 (taken.map page) 0 p.arena)
      taken).entries p.fresh).pages = taken := by simp [Paged.link]
    rw [own]
    exact moved.trans perm
  · intro r member
    rcases List.mem_cons.mp member with rfl | older
    · exact ⟨b, Function.update_self .., stores⟩
    · obtain ⟨old, known, stores⟩ := rep.held r older
      have different : old.id ≠ b.id := by
        intro same
        rw [(rep.items b.id r).mpr ⟨older, stores.id.trans same⟩] at new
        cases new
      refine ⟨old, by rw [Function.update_of_ne different, known], stores.kept ⟨_, _, entries r older⟩ ?_⟩
      refine stores.payload.scatter ?_ inside
      intro k mine
      obtain ⟨pg, from_, rfl⟩ := List.mem_map.mp mine
      exact apart r older pg from_
  · intro id missing
    by_cases named : id = b.id
    · subst named
      simp [Paged.link] at missing
    · rw [Function.update_of_ne named]
      apply rep.nothing
      simpa only [Paged.link, Function.update_of_ne named] using missing

theorem Paged.Rep.place (rep : p.Rep bottom count lru blocks) (b : Block) (new : p.items b.id = none) (need : Nat)
    (needed : ∀ t, t < need → t * p.pageSize < b.payload.1.length)
    (enough : b.payload.1.length ≤ need * p.pageSize) (evicted : List BlockID) :
    (p.place fl b need evicted).stored = none ∧ p.free.length < bottom.length + need ∨
    ∃ p', p.place fl b need evicted = ⟨some true, evicted, p'⟩ ∧
      p'.Rep bottom count (p.fresh :: lru) (Function.update blocks b.id (some b)) := by
  obtain ⟨top, split_, all⟩ := rep.pages
  have nonneg := rep.nonneg all
  by_cases room : need ≤ top.length
  · obtain ⟨rest, taken, parts, size⟩ :
        ∃ rest taken : List Int32, top = rest ++ taken.reverse ∧ taken.length = need := by
      refine ⟨top.take (top.length - need), (top.drop (top.length - need)).reverse, ?_, ?_⟩
      · rw [List.reverse_reverse, List.take_append_drop]
      · rw [List.length_reverse, List.length_drop]
        omega
    subst size
    rw [parts] at split_ all
    have placed := placeLoop_eq p.pageSize b.payload.1 taken (bottom ++ rest) [] 0 0 p.arena
      (fun pg member => nonneg pg (parts ▸ List.mem_append_right _ (List.mem_reverse.mpr member)))
    rw [List.append_assoc, ← split_, Nat.add_zero, List.nil_append] at placed
    have linked := rep.link fl b new rest taken all needed enough
    have touched := linked.touch fl p.fresh List.mem_cons_self
    rw [List.erase_cons_head] at touched
    refine Or.inr ⟨_, ?_, touched.occupy taken.length⟩
    simp only [Paged.place, placed, placeLoop]
  · obtain ⟨more, count_⟩ : ∃ more, need = top.reverse.length + (more + 1) :=
      ⟨need - top.length - 1, by rw [List.length_reverse]; omega⟩
    have placed := placeLoop_eq p.pageSize b.payload.1 top.reverse bottom [] 0 (more + 1) p.arena
      (fun pg member => nonneg pg (List.mem_reverse.mp member))
    rw [List.reverse_reverse, ← split_, ← count_] at placed
    have panics := placeLoop_stuck p.pageSize b.payload.1 bottom ([] ++ top.reverse)
      (0 + top.reverse.length) more (scatter p.pageSize b.payload.1 (top.reverse.map page) 0 p.arena) rep.stuck
    rw [← placed] at panics
    refine Or.inl ⟨?_, by rw [split_, List.length_append]; omega⟩
    unfold Paged.place
    split
    · rfl
    next some_ => rw [some_] at panics; cases panics

private theorem toInt_index (i : Nat) : (Int32.ofNat i).toInt =
    if i % 2 ^ 32 < 2 ^ 31 then ((i % 2 ^ 32 : Nat) : Int) else ((i % 2 ^ 32 : Nat) : Int) - 2 ^ 32 := by
  rw [Int32.toInt_ofNat', Int.bmod_def]
  have size : Int32.size = 2 ^ 32 := rfl
  rw [size]
  split
  · rw [if_pos (by omega)]
    omega
  · rw [if_neg (by omega)]
    omega

theorem exists_bottom (n : Nat) : ∃ bottom count, bottom.length + count = n ∧ count ≤ 2 ^ 31 ∧
    (n ≤ 2 ^ 31 → bottom = []) ∧ (∀ pg, bottom.getLast? = some pg → pg.toInt < 0) ∧
    (List.range n).map Int32.ofNat = bottom ++ (List.range count).map Int32.ofNat := by
  -- the indices above the last multiple of `2 ^ 32` unless there are too many of them
  obtain ⟨start, count, total, few, low, periodic⟩ : ∃ start count, start + count = n ∧ count ≤ 2 ^ 31 ∧
      (start = 0 ∨ 2 ^ 31 ≤ (start - 1) % 2 ^ 32) ∧ (count = 0 ∨ start % 2 ^ 32 = 0) := by
    by_cases short : n % 2 ^ 32 ≤ 2 ^ 31
    · exact ⟨n - n % 2 ^ 32, n % 2 ^ 32, by omega, short, by omega, by omega⟩
    · exact ⟨n, 0, rfl, by omega, by omega, Or.inl rfl⟩
  refine ⟨(List.range start).map Int32.ofNat, count, ?_, few, ?_, ?_, ?_⟩
  · rw [List.length_map, List.length_range, total]
  · intro small
    have none_ : start = 0 := by omega
    rw [none_, List.range_zero, List.map_nil]
  · intro pg last
    cases start with
    | zero => simp at last
    | succ top =>
      rw [List.range_succ, List.map_append, List.map_singleton, List.getLast?_concat, Option.some.injEq] at last
      rw [← last, toInt_index, if_neg (by omega)]
      omega
  · rw [← total, List.range_add, List.map_append, List.map_map]
    congr 1
    apply List.map_congr_left
    intro i member
    have inside := List.mem_range.mp member
    apply Int32.toInt_inj.mp
    simp only [Function.comp_apply, toInt_index]
    have same : (start + i) % 2 ^ 32 = i % 2 ^ 32 := by omega
    rw [same]

theorem newPaged_rep (capacityBytes : UInt64) (pageSize : Int64) (pol : EvictionPolicy) (p : Paged F)
    (made : newPaged fl capacityBytes pageSize pol = some p) :
    ∃ bottom count, p.Rep bottom count [] (fun _ => none) ∧
      (nPages capacityBytes pageSize ≤ 2 ^ 31 → bottom = []) := by
  simp only [newPaged, Option.ite_none_left_eq_some, not_or, not_le, not_lt, Option.some.injEq] at made
  obtain ⟨⟨positive, nonneg⟩, rfl⟩ := made
  have bounded : pageSize.toInt.toNat < 2 ^ 63 := by
    have := pageSize.toInt_lt
    omega
  obtain ⟨bottom, count, total, few, small, stuck, free⟩ := exists_bottom (nPages capacityBytes pageSize).toNat
  refine ⟨bottom, count, ?_, fun bound => small (by omega)⟩
  refine {
    linked := ⟨Links.empty_lists, ⟨List.nodup_nil, by simp⟩, List.Perm.refl _, by simp, by simp⟩
    few := few
    stuck := stuck
    positive := Int.pos_iff_toNat_pos.mp positive
    bounded := bounded
    arena := by simp only [List.length_replicate, total]
    pages := ⟨_, free, by simp⟩
    held := by simp
    nothing := by simp }

theorem Paged.Rep.pages_eq (rep : p.Rep bottom count lru blocks) :
    p.arena.length / p.pageSize = bottom.length + count := by
  rw [rep.arena, Nat.mul_div_cancel _ rep.positive]

theorem Paged.Rep.not_stuck (rep : p.Rep bottom count lru blocks) (need : Nat)
    (possible : need ≤ p.arena.length / p.pageSize) :
    (Paged.evictLoop fl intn need (p.order.order.length + 1) p []).1 = true := by
  rw [rep.pages_eq, ← rep.available] at possible
  exact (rep.linked.evictLoop_iff fl intn need _ (by rw [rep.same.length_eq]; omega) []).mpr possible

theorem Paged.Rep.placed {need : Nat} {gone : List Ref} (rep : p.Rep bottom count lru blocks) (b : Block)
    (absent : p.items b.id = none) (exact_ : p.pagesNeeded b.payload.1.length = need) (some_ : 0 < need)
    (evicts : Paged.Evicts fl intn need p gone p') (evicted : List BlockID) :
    (p'.place fl b need evicted).stored = none ∧ p'.free.length < bottom.length + need ∨
    ∃ p'', p'.place fl b need evicted = ⟨some true, evicted, p''⟩ ∧
      p''.Rep bottom count (p.fresh :: lru.diff gone)
        (Function.update (without blocks (gone.map fun r => (p.entries r).id)) b.id (some b)) := by
  obtain ⟨needed, enough⟩ := pagesNeeded_spec p rep.positive rep.bounded _ b.payload.2 need exact_ some_
  have rep' := rep.evicts fl intn evicts
  have new : p'.items b.id = none :=
    (rep'.absent b.id).mpr (without_none blocks _ b.id (rep.nothing b.id absent))
  obtain ⟨_, sameSize, _, sameFresh, _⟩ := evicts.same
  rw [← sameSize] at needed enough
  rw [← sameFresh]
  exact rep'.place fl b new need needed enough evicted

/-- A `Put` panics, changes nothing but the order of use, or replaces the blocks it evicts by the new one.
Without a bottom it panics only if the number of pages overflows, and then the store is unchanged. -/
theorem Paged.Rep.put (rep : p.Rep bottom count lru blocks) (b : Block) :
    (p.put fl intn b).stored = none ∧ (bottom = [] → (p.put fl intn b).evicted = [] ∧ (p.put fl intn b).store = p) ∨
    ((p.put fl intn b).stored = some false ∧ (p.put fl intn b).evicted = [] ∧
      ∃ lru', (p.put fl intn b).store.Rep bottom count lru' blocks) ∨
    (blocks b.id = none ∧ (p.put fl intn b).stored = some true ∧ ∃ lru', (p.put fl intn b).store.Rep bottom count lru'
      (Function.update (without blocks (p.put fl intn b).evicted) b.id (some b))) := by
  have ways := p.putCase fl intn b
  generalize p.put fl intn b = result at ways ⊢
  cases ways with
  | present r found => exact Or.inr (Or.inl ⟨rfl, rfl, _, rep.touch fl r ((rep.items b.id r).mp found).1⟩)
  | refused absent misfit => exact Or.inr (Or.inl ⟨rfl, rfl, lru, rep⟩)
  | overflow absent negative => exact Or.inl ⟨rfl, fun _ => ⟨rfl, rfl⟩⟩
  | stuck absent need possible failed gone p' evicts =>
    rw [rep.not_stuck fl intn need possible] at failed
    cases failed
  | placed absent need exact_ some_ possible gone p' evicts room =>
    rcases rep.placed fl intn b absent exact_ some_ evicts _ with ⟨panics, short⟩ | ⟨p'', placed, rep''⟩
    · refine Or.inl ⟨panics, ?_⟩
      intro none_
      rw [none_, List.length_nil] at short
      omega
    · rw [placed]
      exact Or.inr (Or.inr ⟨rep.nothing b.id absent, rfl, _, rep''⟩)

theorem Paged.Rep.hit (rep : p.Rep bottom count lru blocks) (id : BlockID) (r : Ref) (found : p.items id = some r) :
    (p.hit fl r).Rep bottom count (r :: lru.erase r) blocks :=
  (rep.stats _).touch fl r ((rep.items id r).mp found).1

theorem Paged.Rep.get (rep : p.Rep bottom count lru blocks) (id : BlockID) :
    (p.get fl id).1 = blocks id ∧ ∃ lru', (p.get fl id).2.Rep bottom count lru' blocks := by
  cases found : p.items id with
  | none =>
    simp only [Paged.get, found]
    exact ⟨(rep.nothing id found).symm, lru, rep.stats _⟩
  | some r =>
    have hit := rep.hit fl id r found
    simp only [Paged.get, found]
    exact ⟨(hit.read id r found).symm, _, hit⟩

theorem Paged.Rep.contains (rep : p.Rep bottom count lru blocks) (id : BlockID) :
    (p.contains fl id).1 = (blocks id).isSome ∧ ∃ lru', (p.contains fl id).2.Rep bottom count lru' blocks := by
  cases found : p.items id with
  | none =>
    simp only [Paged.contains, found, rep.nothing id found, Option.isSome_none, true_and]
    exact ⟨lru, rep.stats _⟩
  | some r =>
    simp only [Paged.contains, found, rep.read id r found, Option.isSome_some, true_and]
    exact ⟨_, rep.hit fl id r found⟩

theorem Paged.Rep.touchID (rep : p.Rep bottom count lru blocks) (id : BlockID) :
    ∃ lru', (p.touchID fl id).Rep bottom count lru' blocks := by
  cases found : p.items id with
  | none =>
    simp only [Paged.touchID, found]
    exact ⟨lru, rep⟩
  | some r =>
    simp only [Paged.touchID, found]
    exact ⟨_, rep.touch fl r ((rep.items id r).mp found).1⟩

end PrefixMesh.Blockstore
