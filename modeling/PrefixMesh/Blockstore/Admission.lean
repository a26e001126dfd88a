import PrefixMesh.Blockstore.LastUse
import PrefixMesh.Blockstore.Outcome

/-! Which blocks the paged store takes. The number of pages is a rounded division whose
dividend may overflow, and the indices of the pages are `int32`; where neither happens,
`Put` stores exactly the blocks that all pages together can hold. With at most `2 ^ 31`
pages every index fits. -/

namespace PrefixMesh.Blockstore

open Lib

variable {F : Type} (fl : Float64 F) (intn : Nat → Nat)

def pagesFor (pageSize size : Nat) : Nat := (size + pageSize - 1) / pageSize

theorem pagesFor_eq_zero {pageSize : Nat} (positive : 0 < pageSize) (size : Nat) :
    pagesFor pageSize size = 0 ↔ size = 0 := by
  unfold pagesFor
  rw [Nat.div_eq_zero_iff]
  omega

theorem pagesNeeded_small (p : Paged F) (positive : 0 < p.pageSize) (size : Nat)
    (sum : size + p.pageSize ≤ 2 ^ 63) : p.pagesNeeded size = pagesFor p.pageSize size := by
  have dividend : ((size : Int) + p.pageSize - 1) = ((size + p.pageSize - 1 : Nat) : Int) := by omega
  unfold Paged.pagesNeeded pagesFor
  rw [dividend, Int.bmod_eq_of_le (by omega) (by omega), Int.ofNat_tdiv]

/-- A dividend that overflows leads to no pages or to a negative number of them. -/
theorem pagesNeeded_large (p : Paged F) (bounded : p.pageSize < 2 ^ 63) (size : Nat) (small : size < 2 ^ 63)
    (sum : 2 ^ 63 < size + p.pageSize) :
    if 2 ^ 64 + 1 < size + 2 * p.pageSize then p.pagesNeeded size = 0 else p.pagesNeeded size < 0 := by
  obtain ⟨rest, below⟩ : ∃ rest : Nat, size + p.pageSize - 1 + rest = 2 ^ 64 :=
    ⟨2 ^ 64 - (size + p.pageSize - 1), by omega⟩
  have wrapped : Int.bmod ((size : Int) + p.pageSize - 1) (2 ^ 64) = -(rest : Int) := by
    rw [Int.bmod_def]
    omega
  have quotient : p.pagesNeeded size = -((rest / p.pageSize : Nat) : Int) := by
    unfold Paged.pagesNeeded
    rw [wrapped, Int.neg_tdiv, Int.ofNat_tdiv]
  rw [quotient]
  split
  next less =>
    rw [Nat.div_eq_of_lt (by omega)]
    rfl
  next more =>
    have some_ : 0 < rest / p.pageSize := Nat.div_pos (by omega) (by omega)
    omega

def Fits (pageSize nPages : Nat) (b : Block) : Prop :=
  b.payload.1 ≠ [] ∧ pagesFor pageSize b.payload.1.length ≤ nPages

instance (pageSize nPages : Nat) (b : Block) : Decidable (Fits pageSize nPages b) :=
  inferInstanceAs (Decidable (b.payload.1 ≠ [] ∧ pagesFor pageSize b.payload.1.length ≤ nPages))

/-- `Put` of the block returns, stores it exactly if it fits, never finds nothing to evict, and changes nothing
if it refuses the block. -/
structure Paged.Admits (p : Paged F) (b : Block) (nPages : Nat) : Prop where
  returns : (p.put fl intn b).stored ≠ none
  room : ∀ need : Nat, p.pagesNeeded b.payload.1.length = need → need ≤ p.arena.length / p.pageSize →
    (Paged.evictLoop fl intn need (p.order.order.length + 1) p []).1 = true
  stored : (p.put fl intn b).stored = some true ↔ Fits p.pageSize nPages b
  present : (p.put fl intn b).stored = some true → ((p.put fl intn b).store.contains fl b.id).1 = true
  unchanged : (p.put fl intn b).stored = some false → (p.put fl intn b).evicted = [] ∧ (p.put fl intn b).store = p

/-- The pages that a block of `need` pages is placed on: the last ones that are free once the loop has made room. -/
def Paged.taken (p : Paged F) (need : Nat) : List Int32 :=
  let free := (Paged.evictLoop fl intn need (p.order.order.length + 1) p []).2.2.free
  free.drop (free.length - need)

/-- There are `need` pages to place a block on, and the ones that it would get have kept their index. -/
structure Paged.Supplies (p : Paged F) (need : Nat) : Prop where
  enough : need ≤ p.available
  nonneg : ∀ pg ∈ p.taken fl intn need, 0 ≤ pg.toInt

variable {p : Paged F} {count : Nat} {lru : List Ref} {blocks : BlockID → Option Block}

theorem placeLoop_isSome (pageSize : Nat) (payload : List UInt8) (left i : Nat) (free pages : List Int32)
    (arena : List UInt8) (room : left ≤ free.length) :
    (placeLoop pageSize payload left i free arena pages).2.2.isSome = true ↔
      ∀ pg ∈ free.drop (free.length - left), 0 ≤ pg.toInt := by
  induction left generalizing i free arena pages with
  | zero => simp [placeLoop]
  | succ left ih =>
    rcases List.eq_nil_or_concat' free with rfl | ⟨init, pg, rfl⟩
    · cases room
    · rw [List.length_append, List.length_singleton] at room ⊢
      rw [Nat.add_sub_add_right, List.drop_append_of_le_length (Nat.sub_le _ _)]
      simp only [placeLoop, List.getLast?_concat, List.dropLast_concat, List.forall_mem_append,
        List.forall_mem_singleton]
      split
      next negative => simp [not_le.mpr negative]
      next nonneg => rw [ih _ _ _ _ (by omega), and_iff_left (not_lt.mp nonneg)]

theorem Paged.place_stored_iff (p : Paged F) (b : Block) (need : Nat) (room : need ≤ p.free.length)
    (evicted : List BlockID) : (p.place fl b need evicted).stored = some true ↔
      ∀ pg ∈ p.free.drop (p.free.length - need), 0 ≤ pg.toInt := by
  rw [← placeLoop_isSome p.pageSize b.payload.1 need 0 p.free [] p.arena room]
  unfold Paged.place
  split
  next failed => simp [failed]
  next placed => simp [placed]

theorem Paged.put_overflow (p : Paged F) (bounded : p.pageSize < 2 ^ 63) (b : Block) (absent : p.items b.id = none)
    (sum : 2 ^ 63 < b.payload.1.length + p.pageSize) :
    p.put fl intn b = ⟨if 2 ^ 64 + 1 < b.payload.1.length + 2 * p.pageSize then some false else none, [], p⟩ := by
  have large := pagesNeeded_large p bounded _ b.payload.2 sum
  split at large
  next wraps => simp only [Paged.put, absent, if_pos (Or.inl large), if_pos wraps]
  next negative =>
    have passes : ¬(p.pagesNeeded b.payload.1.length = 0 ∨
        p.pagesNeeded b.payload.1.length > (p.arena.length / p.pageSize : Nat)) :=
      not_or.mpr ⟨large.ne, not_lt.mpr (large.le.trans (Int.natCast_nonneg _))⟩
    simp only [Paged.put, absent, if_neg passes, if_pos large, if_neg negative]

theorem Paged.Linked.evictLoop_done (linked : p.Linked lru) {need : Nat} (enough : need ≤ p.available) :
    (Paged.evictLoop fl intn need (p.order.order.length + 1) p []).1 = true := by
  refine (linked.evictLoop_iff fl intn need _ ?_ []).mpr enough
  rw [linked.same.length_eq]
  exact Nat.lt_succ_self _

theorem Paged.Linked.put_absent (linked : p.Linked lru) (b : Block) (absent : p.items b.id = none) :
    ((p.pagesNeeded b.payload.1.length = 0 ∨
      (p.arena.length / p.pageSize : Nat) < p.pagesNeeded b.payload.1.length) ∧
      p.put fl intn b = ⟨some false, [], p⟩) ∨
    (p.pagesNeeded b.payload.1.length < 0 ∧ p.put fl intn b = ⟨none, [], p⟩) ∨
    ∃ need : Nat, p.pagesNeeded b.payload.1.length = need ∧ 0 < need ∧ need ≤ p.arena.length / p.pageSize ∧
      (p.available < need ∧ (p.put fl intn b).stored = some false ∨
      need ≤ p.available ∧ ∃ gone p', Paged.Evicts fl intn need p gone p' ∧ need ≤ p'.free.length ∧
        p.taken fl intn need = p'.free.drop (p'.free.length - need) ∧
        p.put fl intn b = p'.place fl b need (p.ids gone)) := by
  by_cases misfit : p.pagesNeeded b.payload.1.length = 0 ∨
      p.pagesNeeded b.payload.1.length > (p.arena.length / p.pageSize : Nat)
  · exact Or.inl ⟨misfit, by simp only [Paged.put, absent, if_pos misfit]⟩
  by_cases negative : p.pagesNeeded b.payload.1.length < 0
  · exact Or.inr (Or.inl ⟨negative, by simp only [Paged.put, absent, if_neg misfit, if_pos negative]⟩)
  obtain ⟨need, exact_⟩ := Int.eq_ofNat_of_zero_le (not_lt.mp negative)
  have room := linked.evictLoop_iff fl intn need (p.order.order.length + 1)
    (by rw [linked.same.length_eq]; exact Nat.lt_succ_self _) []
  refine Or.inr (Or.inr ⟨need, exact_, by omega, by omega, ?_⟩)
  simp only [Paged.put, absent, if_neg misfit, if_neg negative]
  rw [exact_, Int.toNat_natCast]
  cases looped : Paged.evictLoop fl intn need (p.order.order.length + 1) p [] with
  | mk done result =>
    obtain ⟨after, p'⟩ := result
    obtain ⟨gone, evicts, all, free⟩ := evicts_of_evictLoop fl intn _ _ _ _ _ _ _ looped
    rw [List.nil_append] at all
    subst all
    rw [looped] at room
    cases done with
    | false => exact Or.inl ⟨by simpa using room, rfl⟩
    | true =>
      refine Or.inr ⟨room.mp rfl, gone, p', evicts, free rfl, ?_, rfl⟩
      simp only [Paged.taken, looped]

theorem Paged.Linked.put_stored_iff (linked : p.Linked lru) (b : Block) (absent : p.items b.id = none) {need : Nat}
    (exact_ : p.pagesNeeded b.payload.1.length = need) (some_ : 0 < need)
    (possible : need ≤ p.arena.length / p.pageSize) :
    (p.put fl intn b).stored = some true ↔ p.Supplies fl intn need := by
  rcases linked.put_absent fl intn b absent with ⟨misfit, _⟩ | ⟨negative, _⟩ | ⟨need', exact', _, _, ways⟩
  · omega
  · omega
  · obtain rfl : need' = need := by omega
    rcases ways with ⟨few, refused⟩ | ⟨enough, gone, p', _, room, taken, put⟩
    · refine iff_of_false (by simp [refused]) ?_
      intro supplies
      exact absurd supplies.enough (not_le.mpr few)
    · rw [put, p'.place_stored_iff fl b need' room, ← taken]
      exact ⟨fun nonneg => ⟨enough, nonneg⟩, Paged.Supplies.nonneg⟩

theorem Paged.Rep.put_absent (rep : p.Rep [] count lru blocks) (b : Block) (absent : p.items b.id = none) :
    ((p.pagesNeeded b.payload.1.length = 0 ∨ (count : Int) < p.pagesNeeded b.payload.1.length) ∧
      p.put fl intn b = ⟨some false, [], p⟩) ∨
    (p.pagesNeeded b.payload.1.length < 0 ∧ p.put fl intn b = ⟨none, [], p⟩) ∨
    ∃ need : Nat, p.pagesNeeded b.payload.1.length = need ∧ 0 < need ∧ need ≤ count ∧
      ∃ gone p' p'', Paged.Evicts fl intn need p gone p' ∧ need ≤ p'.free.length ∧
        p.put fl intn b = p'.place fl b need (gone.map fun r => (p.entries r).id) ∧
        p.put fl intn b = ⟨some true, gone.map fun r => (p.entries r).id, p''⟩ ∧
        p''.Rep [] count (p.fresh :: lru.diff gone)
          (Function.update (without blocks (gone.map fun r => (p.entries r).id)) b.id (some b)) := by
  have pages := rep.pages_eq
  have all := rep.available
  rw [List.length_nil, Nat.zero_add] at pages all
  rcases rep.linked.put_absent fl intn b absent with ⟨misfit, put⟩ | ⟨negative, put⟩ |
    ⟨need, exact_, some_, possible, ways⟩
  · exact Or.inl ⟨pages ▸ misfit, put⟩
  · exact Or.inr (Or.inl ⟨negative, put⟩)
  · rcases ways with ⟨few, _⟩ | ⟨_, gone, p', evicts, room, _, put⟩
    · omega
    · rcases rep.placed fl intn b absent exact_ some_ evicts (p.ids gone) with ⟨_, short⟩ | ⟨p'', placed, rep''⟩
      · rw [List.length_nil] at short
        omega
      · exact Or.inr (Or.inr ⟨need, exact_, some_, pages ▸ possible, gone, p', p'', evicts, room, put,
          put.trans placed, rep''⟩)

theorem Paged.Rep.supplies (rep : p.Rep [] count lru blocks) (need : Nat) (possible : need ≤ count) :
    p.Supplies fl intn need := by
  have all := rep.available
  rw [List.length_nil, Nat.zero_add] at all
  refine ⟨all ▸ possible, fun pg taken => ?_⟩
  cases looped : Paged.evictLoop fl intn need (p.order.order.length + 1) p [] with
  | mk done result =>
    obtain ⟨gone, evicts, _⟩ := evicts_of_evictLoop fl intn _ _ _ _ _ _ _ looped
    simp only [Paged.taken, looped] at taken
    obtain ⟨top, free, perm⟩ := (rep.evicts fl intn evicts).pages
    rw [List.nil_append] at free
    exact rep.nonneg perm pg (free ▸ List.mem_of_mem_drop taken)

/-- A refusal is right exactly if the block does not fit. -/
theorem Paged.Linked.refused_admits_iff (linked : p.Linked lru) (b : Block)
    (misfit : p.pagesNeeded b.payload.1.length = 0 ∨
      (p.arena.length / p.pageSize : Nat) < p.pagesNeeded b.payload.1.length)
    (put : p.put fl intn b = ⟨some false, [], p⟩) :
    p.Admits fl intn b count ↔ ¬Fits p.pageSize count b := by
  constructor
  · intro admits fits
    have stored := admits.stored.mpr fits
    rw [put] at stored
    cases stored
  · intro unfit
    refine ⟨by simp [put], fun need exact_ possible => linked.evictLoop_done fl intn (by omega), by simp [put, unfit],
      by simp [put], ?_⟩
    intro _
    rw [put]
    exact ⟨rfl, rfl⟩

theorem Paged.Linked.admits_iff (linked : p.Linked lru) (positive : 0 < p.pageSize) (bounded : p.pageSize < 2 ^ 63)
    (pages : p.arena.length / p.pageSize = count) (b : Block) (absent : p.items b.id = none) :
    p.Admits fl intn b count ↔
      b.payload.1.length + p.pageSize ≤ 2 ^ 63 ∧
        (Fits p.pageSize count b → p.Supplies fl intn (pagesFor p.pageSize b.payload.1.length)) ∨
      2 ^ 64 + 1 < b.payload.1.length + 2 * p.pageSize ∧ count < pagesFor p.pageSize b.payload.1.length := by
  have zero := pagesFor_eq_zero positive b.payload.1.length
  have fits_iff : Fits p.pageSize count b ↔
      b.payload.1.length ≠ 0 ∧ pagesFor p.pageSize b.payload.1.length ≤ count := by
    rw [Fits, ne_eq, ne_eq, List.length_eq_zero_iff]
  by_cases sum : b.payload.1.length + p.pageSize ≤ 2 ^ 63
  · have need_eq := pagesNeeded_small p positive _ sum
    rw [or_iff_left (by omega), and_iff_right sum]
    by_cases fits : Fits p.pageSize count b
    · obtain ⟨some_, possible⟩ := fits_iff.mp fits
      have stored := linked.put_stored_iff fl intn b absent need_eq (by omega) (pages ▸ possible)
      refine ⟨fun admits _ => stored.mp (admits.stored.mpr fits), fun supplies => ?_⟩
      have put := stored.mpr (supplies fits)
      have held := ((Store.Shows.put_stores_iff fl intn (s := .paged p) ⟨lru, linked, rfl⟩ b).mp put).2
      refine ⟨by simp [put], fun need exact_ _ => linked.evictLoop_done fl intn ?_, by simp [put, fits], fun _ => ?_,
        by simp [put]⟩
      · obtain rfl : need = pagesFor p.pageSize b.payload.1.length := by omega
        exact (supplies fits).enough
      · exact (Paged.contains_isSome fl _ b.id).trans held
    · rcases linked.put_absent fl intn b absent with ⟨misfit, put⟩ | ⟨negative, _⟩ | ⟨need, exact_, some_, possible, _⟩
      · rw [linked.refused_admits_iff fl intn b misfit put]
        simp [fits]
      · omega
      · refine absurd (fits_iff.mpr ?_) fits
        omega
  · have put := p.put_overflow fl intn bounded b absent (not_le.mp sum)
    have large := pagesNeeded_large p bounded _ b.payload.2 (not_le.mp sum)
    rw [or_iff_right (fun both => sum both.1)]
    by_cases wraps : 2 ^ 64 + 1 < b.payload.1.length + 2 * p.pageSize
    · rw [if_pos wraps] at put large
      rw [linked.refused_admits_iff fl intn b (Or.inl large) put, fits_iff]
      omega
    · rw [if_neg wraps] at put
      exact iff_of_false (fun admits => admits.returns (by rw [put])) fun both => wraps both.1

theorem newPaged_config (capacityBytes : UInt64) (pageSize : Int64) (pol : EvictionPolicy)
    (made : newPaged fl capacityBytes pageSize pol = some p) :
    p.pageSize = pageSize.toInt.toNat ∧ p.pol = pol ∧
    p.arena.length = (nPages capacityBytes pageSize).toNat * pageSize.toInt.toNat := by
  simp only [newPaged, Option.ite_none_left_eq_some, Option.some.injEq] at made
  obtain ⟨_, rfl⟩ := made
  exact ⟨rfl, rfl, List.length_replicate⟩

/-- What holds in every state of a store, also after `Put`s that have panicked. -/
theorem newPaged_run (capacityBytes : UInt64) (pageSize : Int64) (pol : EvictionPolicy) (start : Paged F)
    (made : newPaged fl capacityBytes pageSize pol = some start) (ops : List Op)
    (ran : (start.run fl intn ops []).2 = p) :
    (∃ lru, p.Linked lru) ∧ p.pageSize = pageSize.toInt.toNat ∧ 0 < p.pageSize ∧ p.pageSize < 2 ^ 63 ∧
    p.arena.length / p.pageSize = (nPages capacityBytes pageSize).toNat ∧ p.pol = pol := by
  obtain ⟨_, _, fresh, _⟩ := newPaged_rep fl capacityBytes pageSize pol start made
  obtain ⟨size, policy, arena⟩ := newPaged_config fl capacityBytes pageSize pol made
  obtain ⟨size', policy', arena'⟩ := start.run_config fl intn ops []
  have recent : Recent [] [] := List.nil_sublist _
  obtain ⟨_, shows, _⟩ := Store.Shows.run fl intn (s := .paged start) ⟨[], fresh.linked, rfl⟩ recent ops
  rw [Store.run_paged fl intn start ops [], ran] at shows
  rw [ran] at size' policy' arena'
  obtain ⟨lru, linked, _⟩ := shows
  refine ⟨⟨lru, linked⟩, size'.trans size, size' ▸ fresh.positive, size' ▸ fresh.bounded, ?_, policy'.trans policy⟩
  rw [arena', arena, size', size, Nat.mul_div_cancel _ (size ▸ fresh.positive)]

/-- In every state of a store, under either policy and whatever the scores and the random source are, `Put` of an
absent block does what it should exactly if the dividend of `pagesNeeded` does not overflow and a block that fits finds
pages, or the dividend overflows to no pages while the store is too small for the block anyway. A store of at most
`2 ^ 31` pages has pages for every block that fits. -/
theorem put_admits_iff (capacityBytes : UInt64) (pageSize : Int64) (pol : EvictionPolicy) (start : Paged F)
    (made : newPaged fl capacityBytes pageSize pol = some start) (ops : List Op) (p : Paged F)
    (ran : (start.run fl intn ops []).2 = p) (b : Block) (absent : p.items b.id = none) :
    (p.Admits fl intn b (nPages capacityBytes pageSize).toNat ↔
      b.payload.1.length + pageSize.toInt.toNat ≤ 2 ^ 63 ∧
        (Fits pageSize.toInt.toNat (nPages capacityBytes pageSize).toNat b →
          p.Supplies fl intn (pagesFor pageSize.toInt.toNat b.payload.1.length)) ∨
      2 ^ 64 + 1 < b.payload.1.length + 2 * pageSize.toInt.toNat ∧
        (nPages capacityBytes pageSize).toNat < pagesFor pageSize.toInt.toNat b.payload.1.length) ∧
    (nPages capacityBytes pageSize ≤ 2 ^ 31 →
      ∀ need ≤ (nPages capacityBytes pageSize).toNat, p.Supplies fl intn need) := by
  obtain ⟨⟨lru, linked⟩, size, positive, bounded, pages, _⟩ :=
    newPaged_run fl intn capacityBytes pageSize pol start made ops ran
  refine ⟨?_, fun few need possible => ?_⟩
  · have iff_ := linked.admits_iff fl intn positive bounded pages b absent
    rwa [size] at iff_
  · obtain ⟨lru, rep⟩ := (newPaged_small fl capacityBytes pageSize pol made few).run fl intn ops
    rw [ran] at rep
    exact rep.supplies fl intn need possible

/-- Two bytes and a page of `2 ^ 63 - 1` bytes: the dividend is `2 ^ 63`, the quotient is -1, and instead of
refusing a block that no page is there for, `Put` panics. -/
theorem hugePage_not_admitted : ∃ start : Paged Int,
    newPaged sampleFloat 4096 9223372036854775807 .lru = some start ∧ nPages 4096 9223372036854775807 = 0 ∧
    (start.run sampleFloat id [] []).2.items (sampleID 1) = none ∧
    ¬(start.run sampleFloat id [] []).2.Admits sampleFloat id
      ⟨sampleID 1, sampleID 0, "m", ⟨[1, 2], by decide⟩, 2, 9⟩ 0 := by
  refine ⟨_, rfl, by decide, rfl, ?_⟩
  intro admits
  exact admits.returns (by decide)

/-- A block of three bytes takes both pages, and the block before it goes. -/
theorem sampleOps_admit : newPaged sampleFloat 4 2 .lru = some samplePaged ∧
    (samplePaged.run sampleFloat id sampleOps []).2.Supplies sampleFloat id 2 ∧
    (samplePaged.run sampleFloat id sampleOps []).2.Admits sampleFloat id
      ⟨sampleID 3, sampleID 2, "m", ⟨[5, 6, 7], by decide⟩, 3, 4⟩ 2 := by
  have made : newPaged sampleFloat 4 2 .lru = some samplePaged := (Option.some_get _).symm
  have both := put_admits_iff sampleFloat id 4 2 .lru samplePaged made sampleOps _ rfl
    ⟨sampleID 3, sampleID 2, "m", ⟨[5, 6, 7], by decide⟩, 3, 4⟩ (by decide)
  have supplies := both.2 (by decide) 2 (by decide)
  exact ⟨made, supplies, both.1.mpr (Or.inl ⟨by decide, fun _ => supplies⟩)⟩

end PrefixMesh.Blockstore
