import Mathlib.Algebra.Ring.Nat
import Mathlib.Data.List.Nodup
import Mathlib.Data.List.Perm.Basic
import PrefixMesh.Blockstore.Paged

/-! The containers of the paged store: the map, the array and the list hold the same
entries, whatever the pages are. A `Put` that panics leaves pages behind that are
neither free nor in an entry, but the containers stay in step. `Evicts` takes the
eviction loop apart, for either policy. -/

namespace PrefixMesh.Blockstore

open Lib

variable {F : Type} (fl : Float64 F) (intn : Nat → Nat)

/-- The containers hold the entries of `lru`, which the list has most recently used first. -/
structure Paged.Linked (p : Paged F) (lru : List Ref) : Prop where
  links : p.links.Lists lru
  order : p.order.Ok
  same : p.order.order.Perm lru
  items : ∀ id r, p.items id = some r ↔ r ∈ lru ∧ (p.entries r).id = id
  older : ∀ r ∈ lru, r < p.fresh

variable {p p' : Paged F} {lru lru' : List Ref}

theorem Paged.Linked.reorder (linked : p.Linked lru) (links : p'.links.Lists lru') (perm : lru.Perm lru')
    (items : p'.items = p.items) (order : p'.order = p.order) (fresh : p'.fresh = p.fresh)
    (ids : ∀ r, (p'.entries r).id = (p.entries r).id) : p'.Linked lru' where
  links := links
  order := order ▸ linked.order
  same := order ▸ linked.same.trans perm
  items := by
    intro id r
    rw [items, linked.items, perm.mem_iff, ids]
  older := by
    intro r member
    rw [fresh]
    exact linked.older r (perm.mem_iff.mpr member)

theorem Paged.touch_entries (p : Paged F) (r k : Ref) :
    ∃ freq last, (p.touch fl r).entries k = { p.entries k with freq := freq, lastAccess := last } := by
  by_cases same : k = r
  · subst same
    exact ⟨_, _, Function.update_self ..⟩
  · exact ⟨(p.entries k).freq, (p.entries k).lastAccess, Function.update_of_ne same ..⟩

theorem Paged.Linked.touch (linked : p.Linked lru) (r : Ref) (member : r ∈ lru) :
    (p.touch fl r).Linked (r :: lru.erase r) := by
  refine linked.reorder (linked.links.moveFront r member) (List.perm_cons_erase member) rfl rfl rfl ?_
  intro k
  obtain ⟨freq, last, entry⟩ := p.touch_entries fl r k
  rw [entry]

theorem Paged.Linked.stats (linked : p.Linked lru) (stats : Stats) : { p with stats := stats }.Linked lru :=
  linked.reorder linked.links (List.Perm.refl lru) rfl rfl rfl (fun _ => rfl)

theorem Paged.Linked.id_injective (linked : p.Linked lru) {r k : Ref} (first : r ∈ lru) (second : k ∈ lru)
    (same : (p.entries r).id = (p.entries k).id) : r = k := by
  have left := (linked.items _ r).mpr ⟨first, same⟩
  have right := (linked.items _ k).mpr ⟨second, rfl⟩
  exact Option.some.inj (left.symm.trans right)

def Paged.ids (p : Paged F) (refs : List Ref) : List BlockID := refs.map fun r => (p.entries r).id

theorem Paged.Linked.ids_nodup (linked : p.Linked lru) : (p.ids lru).Nodup :=
  linked.links.distinct.map_on fun _ first _ second same => linked.id_injective first second same

theorem Paged.Linked.link_entries (linked : p.Linked lru) (b : Block) (free : List Int32) (arena : List UInt8)
    (pages : List Int32) {r : Ref} (member : r ∈ lru) :
    (p.link fl b free arena pages).entries r = p.entries r :=
  Function.update_of_ne (Nat.ne_of_lt (linked.older r member)) ..

theorem Paged.Linked.discard (linked : p.Linked lru) (r : Ref) (member : r ∈ lru) (drawn : Nat) :
    (p.discard r drawn).Linked (lru.erase r) := by
  obtain ⟨before, after, whole⟩ := List.append_of_mem member
  have distinct := linked.links.distinct
  have early : r ∉ before := by
    rw [whole, List.nodup_append] at distinct
    intro inside
    exact distinct.2.2 r inside r List.mem_cons_self rfl
  have rest : lru.erase r = before ++ after := by
    rw [whole, List.erase_append_right _ early, List.erase_cons_head]
  obtain ⟨ok, shrunk⟩ := linked.order.swapRemove r (linked.same.mem_iff.mpr member)
  refine {
    links := ?_
    order := ok
    same := shrunk.trans (linked.same.erase r)
    items := ?_
    older := fun k inside => linked.older k (List.mem_of_mem_erase inside) }
  · rw [rest]
    exact Links.Lists.remove (whole ▸ linked.links)
  · intro id k
    by_cases gone : id = (p.entries r).id
    · subst gone
      simp only [Paged.discard, Function.update_self, reduceCtorEq, false_iff, not_and]
      intro inside same
      have again := linked.id_injective (List.mem_of_mem_erase inside) member same
      exact List.Nodup.not_mem_erase distinct (again ▸ inside)
    · simp only [Paged.discard, Function.update_of_ne gone, linked.items]
      refine and_congr_left ?_
      intro named
      have different : k ≠ r := fun same => gone (same ▸ named.symm)
      exact (List.mem_erase_of_ne different).symm

theorem Paged.Linked.link (linked : p.Linked lru) (b : Block) (new : p.items b.id = none) (free : List Int32)
    (arena : List UInt8) (pages : List Int32) : (p.link fl b free arena pages).Linked (p.fresh :: lru) := by
  have unseen : p.fresh ∉ lru := fun member => Nat.lt_irrefl _ (linked.older _ member)
  have others : ∀ r ∈ lru, r ≠ p.fresh := fun r member same => unseen (same ▸ member)
  refine {
    links := linked.links.pushFront p.fresh unseen
    order := linked.order.push p.fresh (fun member => unseen (linked.same.mem_iff.mp member))
    same := (List.perm_append_singleton ..).trans (linked.same.cons p.fresh)
    items := ?_
    older := ?_ }
  · intro id r
    by_cases named : id = b.id
    · subst named
      simp only [Paged.link, Function.update_self, Option.some.injEq, List.mem_cons]
      constructor
      · intro same
        subst same
        exact ⟨Or.inl rfl, by rw [Function.update_self]⟩
      · rintro ⟨same | member, id⟩
        · exact same.symm
        · rw [Function.update_of_ne (others r member)] at id
          rw [(linked.items b.id r).mpr ⟨member, id⟩] at new
          cases new
    · simp only [Paged.link, Function.update_of_ne named, linked.items, List.mem_cons]
      constructor
      · rintro ⟨member, id⟩
        exact ⟨Or.inr member, by rwa [Function.update_of_ne (others r member)]⟩
      · rintro ⟨same | member, id⟩
        · rw [same, Function.update_self] at id
          exact absurd id.symm named
        · rw [Function.update_of_ne (others r member)] at id
          exact ⟨member, id⟩
  · intro r member
    rcases List.mem_cons.mp member with same | older
    · exact same ▸ Nat.lt_succ_self _
    · exact (linked.older r older).trans (Nat.lt_succ_self _)

private theorem sampleLoop_mem (p : Paged F) (left drawn : Nat) (best : Option (Ref × F))
    (known : ∀ x ∈ best, x.1 ∈ p.order.order) :
    ∀ x ∈ p.sampleLoop fl intn left drawn best, x.1 ∈ p.order.order := by
  induction left generalizing drawn best with
  | zero => exact known
  | succ left ih =>
    cases drew : p.order.order[intn drawn % p.order.order.length]? with
    | none => simpa only [Paged.sampleLoop, drew] using known
    | some r =>
      have new : ∀ x ∈ some (r, p.eScore fl r), x.1 ∈ p.order.order := by
        intro x same
        cases same
        exact List.mem_of_getElem? drew
      cases best with
      | none => simpa only [Paged.sampleLoop, drew] using ih (drawn + 1) _ new
      | some old =>
        simp only [Paged.sampleLoop, drew]
        split
        · exact ih (drawn + 1) _ new
        · exact ih (drawn + 1) _ known

private theorem sampleLoop_some (p : Paged F) (left drawn : Nat) (best : Option (Ref × F))
    (some_ : best.isSome = true) : (p.sampleLoop fl intn left drawn best).isSome = true := by
  induction left generalizing drawn best with
  | zero => exact some_
  | succ left ih =>
    cases drew : p.order.order[intn drawn % p.order.order.length]? with
    | none => simpa only [Paged.sampleLoop, drew] using some_
    | some r =>
      cases best with
      | none => simpa only [Paged.sampleLoop, drew] using ih (drawn + 1) _ rfl
      | some old =>
        simp only [Paged.sampleLoop, drew]
        split
        · exact ih (drawn + 1) _ rfl
        · exact ih (drawn + 1) _ rfl

theorem Paged.Linked.victim (linked : p.Linked lru) :
    lru = [] ∧ (p.victim fl intn).1 = none ∨ ∃ r ∈ lru, (p.victim fl intn).1 = some r := by
  cases policy : p.pol with
  | lru =>
    simp only [Paged.victim, policy, linked.links.tail]
    cases last : lru.getLast? with
    | none => exact Or.inl ⟨List.getLast?_eq_none_iff.mp last, rfl⟩
    | some r => exact Or.inr ⟨r, List.mem_of_getLast? last, rfl⟩
  | cost =>
    simp only [Paged.victim, policy]
    by_cases empty : lru = []
    · have none_ : p.order.order = [] := List.perm_nil.mp (empty ▸ linked.same)
      exact Or.inl ⟨empty, by simp [none_, Paged.sampleLoop]⟩
    · have full : p.order.order ≠ [] := fun none_ => empty (List.nil_perm.mp (none_ ▸ linked.same))
      have many : 0 < p.order.order.length := List.length_pos_iff.mpr full
      obtain ⟨left, count⟩ : ∃ left, min evictSample p.order.order.length = left + 1 :=
        ⟨min evictSample p.order.order.length - 1, by unfold evictSample; omega⟩
      have place := List.getElem?_eq_getElem (Nat.mod_lt (intn p.drawn) many)
      have found : (p.sampleLoop fl intn (left + 1) p.drawn none).isSome = true := by
        simp only [Paged.sampleLoop, place]
        exact sampleLoop_some fl intn p left _ _ rfl
      obtain ⟨x, best⟩ := Option.isSome_iff_exists.mp found
      have member := sampleLoop_mem fl intn p (left + 1) p.drawn none (by simp) x best
      exact Or.inr ⟨x.1, linked.same.mem_iff.mp member, by rw [count, best]; rfl⟩

/-- What the eviction loop does for a need of `need` pages: `gone` are its victims, in their order. -/
inductive Paged.Evicts (need : Nat) : Paged F → List Ref → Paged F → Prop where
  | done (p : Paged F) : Evicts need p [] p
  | more {p p' : Paged F} {r : Ref} {gone : List Ref} (short : p.free.length < need)
      (picked : (p.victim fl intn).1 = some r)
      (rest : Evicts need (p.discard r (p.victim fl intn).2) gone p') : Evicts need p (r :: gone) p'

theorem Paged.evictOne_eq (p : Paged F) : p.evictOne fl intn =
    (p.victim fl intn).1.map fun r => ((p.entries r).id, p.discard r (p.victim fl intn).2) := by
  unfold Paged.evictOne
  split
  next picked => rw [picked]; rfl
  next picked => rw [picked]; rfl

theorem evicts_of_evictLoop (need fuel : Nat) (p p' : Paged F) (before after : List BlockID) (done : Bool)
    (looped : Paged.evictLoop fl intn need fuel p before = (done, after, p')) :
    ∃ gone, Paged.Evicts fl intn need p gone p' ∧ after = before ++ gone.map (fun r => (p.entries r).id) ∧
      (done = true → need ≤ p'.free.length) := by
  induction fuel generalizing p before with
  | zero =>
    cases looped
    exact ⟨[], .done _, (List.append_nil _).symm, by simp⟩
  | succ fuel ih =>
    by_cases short : p.free.length < need
    · simp only [Paged.evictLoop, if_pos short, Paged.evictOne_eq] at looped
      cases picked : (p.victim fl intn).1 with
      | none =>
        simp only [picked, Option.map_none] at looped
        cases looped
        exact ⟨[], .done _, (List.append_nil _).symm, by simp⟩
      | some r =>
        simp only [picked, Option.map_some] at looped
        obtain ⟨gone, evicts, all, room⟩ := ih _ _ looped
        refine ⟨r :: gone, .more short picked evicts, ?_, room⟩
        rw [all, List.append_assoc]
        rfl
    · simp only [Paged.evictLoop, if_neg short] at looped
      cases looped
      exact ⟨[], .done _, (List.append_nil _).symm, fun _ => not_lt.mp short⟩

section Evicts

variable {fl intn} {need : Nat} {gone : List Ref}

theorem Paged.Evicts.same (evicts : Paged.Evicts fl intn need p gone p') :
    p'.entries = p.entries ∧ p'.pageSize = p.pageSize ∧ p'.pol = p.pol ∧ p'.fresh = p.fresh ∧
    p'.stats.hits = p.stats.hits ∧ p'.stats.misses = p.stats.misses := by
  induction evicts with
  | done => exact ⟨rfl, rfl, rfl, rfl, rfl, rfl⟩
  | more _ _ _ ih => exact ih

theorem Paged.Evicts.arena (evicts : Paged.Evicts fl intn need p gone p') : p'.arena = p.arena := by
  induction evicts with
  | done => rfl
  | more _ _ _ ih => exact ih

theorem Paged.Evicts.free (evicts : Paged.Evicts fl intn need p gone p') :
    p'.free = p.free ++ gone.flatMap fun r => (p.entries r).pages := by
  induction evicts with
  | done => exact (List.append_nil _).symm
  | more _ _ _ ih =>
    rw [ih, List.flatMap_cons, ← List.append_assoc]
    rfl

theorem Paged.Evicts.least (evicts : Paged.Evicts fl intn need p gone p') (fewer : List Ref)
    (before : fewer <+: gone) (different : fewer ≠ gone) :
    p.free.length + (fewer.map fun r => (p.entries r).pages.length).sum < need := by
  induction evicts generalizing fewer with
  | done => exact absurd (List.prefix_nil.mp before) different
  | @more p p' r gone short _ _ ih =>
    cases fewer with
    | nil => simpa using short
    | cons first fewer =>
      obtain ⟨rfl, inside⟩ := List.cons_prefix_cons.mp before
      have rest := ih fewer inside (fun same => different (by rw [same]))
      simp only [Paged.discard, List.length_append] at rest
      rw [List.map_cons, List.sum_cons]
      omega

theorem Paged.Evicts.counted (evicts : Paged.Evicts fl intn need p gone p') :
    p'.stats.evictions = p.stats.evictions + UInt64.ofNat gone.length ∧
    p'.stats.evictedCostUS = p.stats.evictedCostUS +
      UInt64.ofNat (gone.map fun r => (p.entries r).costUS.toNat).sum := by
  induction evicts with
  | done => simp
  | more _ _ _ ih =>
    obtain ⟨count, cost⟩ := ih
    refine ⟨?_, ?_⟩
    · rw [count, List.length_cons, UInt64.ofNat_add, UInt64.add_comm (UInt64.ofNat _), ← UInt64.add_assoc]
      rfl
    · rw [cost, List.map_cons, List.sum_cons, UInt64.ofNat_add, UInt64.ofNat_toNat, ← UInt64.add_assoc]
      rfl

theorem Paged.Linked.evicts (linked : p.Linked lru) (evicts : Paged.Evicts fl intn need p gone p') :
    p'.Linked (lru.diff gone) ∧ (gone ++ lru.diff gone).Perm lru ∧
    (p.pol = .lru → lru = lru.diff gone ++ gone.reverse) := by
  induction evicts generalizing lru with
  | done => exact ⟨linked, List.Perm.refl _, fun _ => (List.append_nil _).symm⟩
  | @more p p' r gone _ picked _ ih =>
    have member : r ∈ lru := by
      rcases linked.victim fl intn with ⟨_, none_⟩ | ⟨k, member, same⟩
      · rw [picked] at none_
        cases none_
      · rw [picked, Option.some.injEq] at same
        exact same ▸ member
    obtain ⟨linked', perm, oldest⟩ := ih (linked.discard r member _)
    rw [List.diff_cons]
    refine ⟨linked', ?_, ?_⟩
    · exact (perm.cons r).trans (List.perm_cons_erase member).symm
    · intro policy
      have last : lru.getLast? = some r := by
        rw [← linked.links.tail]
        simpa only [Paged.victim, policy] using picked
      obtain ⟨init, rfl⟩ := List.getLast?_eq_some_iff.mp last
      have out : r ∉ init := by
        have distinct := linked.links.distinct
        rw [List.nodup_append] at distinct
        exact fun inside => distinct.2.2 r inside r (by simp) rfl
      have erased : (init ++ [r]).erase r = init := by
        rw [List.erase_append_right _ out, List.erase_cons_head, List.append_nil]
      have rest := oldest policy
      rw [erased] at rest ⊢
      rw [List.reverse_cons, ← List.append_assoc, ← rest]

end Evicts

/-- The pages that are free or in an entry. A `Put` that panics loses some. -/
def Paged.available (p : Paged F) : Nat :=
  p.free.length + (p.order.order.map fun r => (p.entries r).pages.length).sum

theorem Paged.Linked.available_eq (linked : p.Linked lru) :
    p.available = p.free.length + (lru.map fun r => (p.entries r).pages.length).sum := by
  rw [Paged.available, (linked.same.map _).sum_nat]

theorem Paged.Linked.available_discard (linked : p.Linked lru) (r : Ref) (member : r ∈ lru) (drawn : Nat) :
    (p.discard r drawn).available = p.available := by
  have perm := (List.perm_cons_erase member).map fun r => (p.entries r).pages.length
  rw [(linked.discard r member drawn).available_eq, linked.available_eq, perm.sum_nat, List.map_cons, List.sum_cons]
  simp only [Paged.discard, List.length_append]
  omega

theorem Paged.Linked.evictLoop_iff (linked : p.Linked lru) (need fuel : Nat) (enough : lru.length < fuel)
    (evicted : List BlockID) :
    (Paged.evictLoop fl intn need fuel p evicted).1 = true ↔ need ≤ p.available := by
  induction fuel generalizing p lru evicted with
  | zero => omega
  | succ fuel ih =>
    by_cases short : p.free.length < need
    · rcases linked.victim fl intn with ⟨rfl, none_⟩ | ⟨r, member, picked⟩
      · have nothing := linked.available_eq
        rw [List.map_nil, List.sum_nil] at nothing
        simp only [Paged.evictLoop, if_pos short, Paged.evictOne_eq, none_, Option.map_none, Bool.false_eq_true,
          false_iff]
        omega
      · have smaller := List.length_erase_of_mem member
        have some_ := List.length_pos_of_mem member
        simp only [Paged.evictLoop, if_pos short, Paged.evictOne_eq, picked, Option.map_some]
        rw [ih (linked.discard r member _) (by omega), linked.available_discard r member]
    · have free : need ≤ p.available := (not_lt.mp short).trans (Nat.le_add_right _ _)
      simp only [Paged.evictLoop, if_neg short, free]

theorem placeLoop_arena (pageSize : Nat) (payload : List UInt8) (left i : Nat) (free pages : List Int32)
    (arena : List UInt8) : (placeLoop pageSize payload left i free arena pages).2.1.length = arena.length := by
  induction left generalizing i free arena pages with
  | zero => rfl
  | succ left ih =>
    simp only [placeLoop]
    split
    · rfl
    · split
      · rfl
      · rw [ih, length_copyAt]

theorem Paged.place_arena (p : Paged F) (b : Block) (need : Nat) (evicted : List BlockID) :
    (p.place fl b need evicted).store.arena.length = p.arena.length := by
  have size := placeLoop_arena p.pageSize b.payload.1 need 0 p.free [] p.arena
  unfold Paged.place
  split
  next placed =>
    rw [placed] at size
    exact size
  next placed =>
    rw [placed] at size
    exact size

theorem Paged.place_cases (p : Paged F) (b : Block) (need : Nat) (evicted : List BlockID) :
    (∃ free arena, p.place fl b need evicted = ⟨none, evicted, { p with free := free, arena := arena }⟩) ∨
    ∃ free arena pages, p.place fl b need evicted =
      ⟨some true, evicted, ((p.link fl b free arena pages).touch fl p.fresh).occupy need⟩ := by
  unfold Paged.place
  split
  next free arena _ => exact Or.inl ⟨free, arena, rfl⟩
  next free arena pages _ => exact Or.inr ⟨free, arena, pages, rfl⟩

inductive Paged.PutCase (p : Paged F) (b : Block) : PutResult (Paged F) → Prop where
  | present (r : Ref) (found : p.items b.id = some r) : PutCase p b ⟨some false, [], p.touch fl r⟩
  | refused (absent : p.items b.id = none)
      (misfit : p.pagesNeeded b.payload.1.length = 0 ∨
        (p.arena.length / p.pageSize : Nat) < p.pagesNeeded b.payload.1.length) :
      PutCase p b ⟨some false, [], p⟩
  | overflow (absent : p.items b.id = none) (negative : p.pagesNeeded b.payload.1.length < 0) :
      PutCase p b ⟨none, [], p⟩
  | stuck (absent : p.items b.id = none) (need : Nat) (possible : need ≤ p.arena.length / p.pageSize)
      (failed : (Paged.evictLoop fl intn need (p.order.order.length + 1) p []).1 = false) (gone : List Ref)
      (p' : Paged F) (evicts : Paged.Evicts fl intn need p gone p') :
      PutCase p b ⟨some false, gone.map fun r => (p.entries r).id, p'⟩
  | placed (absent : p.items b.id = none) (need : Nat) (exact_ : p.pagesNeeded b.payload.1.length = need)
      (some_ : 0 < need) (possible : need ≤ p.arena.length / p.pageSize) (gone : List Ref) (p' : Paged F)
      (evicts : Paged.Evicts fl intn need p gone p') (room : need ≤ p'.free.length) :
      PutCase p b (p'.place fl b need (gone.map fun r => (p.entries r).id))

theorem Paged.putCase (p : Paged F) (b : Block) : p.PutCase fl intn b (p.put fl intn b) := by
  cases found : p.items b.id with
  | some r =>
    simp only [Paged.put, found]
    exact .present r found
  | none =>
    simp only [Paged.put, found]
    by_cases misfit : p.pagesNeeded b.payload.1.length = 0 ∨
        p.pagesNeeded b.payload.1.length > (p.arena.length / p.pageSize : Nat)
    · rw [if_pos misfit]
      exact .refused found misfit
    · rw [if_neg misfit]
      by_cases negative : p.pagesNeeded b.payload.1.length < 0
      · rw [if_pos negative]
        exact .overflow found negative
      · rw [if_neg negative]
        obtain ⟨need, exact_⟩ := Int.eq_ofNat_of_zero_le (not_lt.mp negative)
        rw [not_or, exact_] at misfit
        rw [exact_, Int.toNat_natCast]
        cases looped : Paged.evictLoop fl intn need (p.order.order.length + 1) p [] with
        | mk done result =>
          obtain ⟨after, p'⟩ := result
          obtain ⟨gone, evicts, all, room⟩ := evicts_of_evictLoop fl intn _ _ _ _ _ _ _ looped
          rw [List.nil_append] at all
          subst all
          cases done with
          | false => exact .stuck found need (by omega) (by rw [looped]) gone p' evicts
          | true => exact .placed found need exact_ (by omega) (by omega) gone p' evicts (room rfl)

theorem Paged.put_config (p : Paged F) (b : Block) :
    (p.put fl intn b).store.pageSize = p.pageSize ∧ (p.put fl intn b).store.pol = p.pol ∧
    (p.put fl intn b).store.arena.length = p.arena.length := by
  have ways := p.putCase fl intn b
  generalize p.put fl intn b = result at ways ⊢
  cases ways with
  | present r found => exact ⟨rfl, rfl, rfl⟩
  | refused absent misfit => exact ⟨rfl, rfl, rfl⟩
  | overflow absent negative => exact ⟨rfl, rfl, rfl⟩
  | stuck absent need possible failed gone p' evicts =>
    exact ⟨evicts.same.2.1, evicts.same.2.2.1, congrArg List.length evicts.arena⟩
  | placed absent need exact_ some_ possible gone p' evicts room =>
    rw [p'.place_arena fl b need, evicts.arena]
    rcases p'.place_cases fl b need (gone.map fun r => (p.entries r).id) with
      ⟨free, arena, placed⟩ | ⟨free, arena, pages, placed⟩
    · rw [placed]
      exact ⟨evicts.same.2.1, evicts.same.2.2.1, rfl⟩
    · rw [placed]
      exact ⟨evicts.same.2.1, evicts.same.2.2.1, rfl⟩

end PrefixMesh.Blockstore
