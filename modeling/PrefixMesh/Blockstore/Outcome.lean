import PrefixMesh.Blockstore.PagedInvariant
import PrefixMesh.Blockstore.Residents

/-! What `Put` returns, in terms of what the store held before and holds afterwards. A
store that has not panicked stores exactly the absent blocks that pass its test. -/

namespace PrefixMesh.Blockstore

variable {F : Type} (fl : Float64 F) (intn : Nat → Nat)

/-- The test that a store makes before it stores an absent block. -/
def Store.takes (b : Block) : Store F → Prop
  | .lru s => blockSize b ≤ s.cap
  | .paged p => 0 < p.pagesNeeded b.payload.1.length ∧
      p.pagesNeeded b.payload.1.length ≤ (p.arena.length / p.pageSize : Nat)

instance (b : Block) (s : Store F) : Decidable (s.takes b) :=
  match s with
  | .lru s => inferInstanceAs (Decidable (blockSize b ≤ s.cap))
  | .paged p => inferInstanceAs (Decidable (0 < p.pagesNeeded b.payload.1.length ∧
      p.pagesNeeded b.payload.1.length ≤ (p.arena.length / p.pageSize : Nat)))

variable {s : Store F} {blocks : BlockID → Option Block}

theorem Store.Rep.shows (rep : s.Rep blocks) : ∃ residents, s.Shows residents := by
  cases s with
  | lru s => exact ⟨_, ⟨blocks, rep⟩, rfl⟩
  | paged p =>
    obtain ⟨bottom, count, lru, rep⟩ := rep
    exact ⟨_, lru, rep.linked, rfl⟩

theorem Store.Rep.perform (rep : s.Rep blocks) (op : Op) (survives : (s.perform fl intn op).1 ≠ .put none) :
    ∃ blocks', (s.perform fl intn op).2.Rep blocks' := by
  cases op with
  | put b =>
    rcases rep.put fl intn b with panics | ⟨_, rep'⟩ | ⟨_, _, rep'⟩
    · exact absurd (congrArg Answer.put panics) survives
    · exact ⟨_, rep'⟩
    · exact ⟨_, rep'⟩
  | get id => exact ⟨_, (rep.get fl id).2⟩
  | contains id => exact ⟨_, (rep.contains fl id).2⟩
  | touch id => exact ⟨_, rep.touch fl id⟩

theorem Store.Rep.run (rep : s.Rep blocks) (ops : List Op) (survives : .put none ∉ (s.run fl intn ops).1) :
    ∃ blocks', (s.run fl intn ops).2.Rep blocks' := by
  induction ops generalizing s blocks with
  | nil => exact ⟨blocks, rep⟩
  | cons op rest ih =>
    rw [Store.run, List.mem_cons, not_or] at survives
    obtain ⟨blocks', rep'⟩ := rep.perform fl intn op (Ne.symm survives.1)
    exact ih rep' survives.2

/-- A state of a store whose process has not gone down. -/
def Store.Reached (s : Store F) : Prop :=
  ∃ (c : Config) (start : Store F) (ops : List Op), c.newStore fl = some start ∧
    .put none ∉ (start.run fl intn ops).1 ∧ (start.run fl intn ops).2 = s

theorem Store.Reached.rep (reached : s.Reached fl intn) : ∃ blocks, s.Rep blocks := by
  obtain ⟨c, start, ops, made, alive, same⟩ := reached
  obtain ⟨blocks, rep⟩ := (c.newStore_rep fl start made).run fl intn ops alive
  exact ⟨blocks, same ▸ rep⟩

theorem Store.Rep.put_stores_iff (rep : s.Rep blocks) (b : Block) (survives : (s.put fl intn b).stored ≠ none) :
    (s.put fl intn b).stored = some true ↔ s.holds b.id = false ∧ s.takes b := by
  cases s with
  | lru s =>
    have ways := s.putCase b
    simp only [Store.put, Store.holds, Store.takes] at survives ⊢
    generalize s.put b = result at ways survives ⊢
    cases ways with
    | present r found => simp [found]
    | refused absent large => simpa [absent] using large
    | panics absent small failed gone s' evicts => exact absurd rfl survives
    | placed absent small gone s' evicts room => simpa [absent] using small
  | paged p =>
    obtain ⟨bottom, count, lru, rep⟩ := rep
    have ways := p.putCase fl intn b
    simp only [Store.put, Store.holds, Store.takes] at survives ⊢
    generalize p.put fl intn b = result at ways survives ⊢
    cases ways with
    | present r found => simp [found]
    | refused absent misfit =>
      simp only [absent, Option.isSome_none, true_and, Option.some.injEq, Bool.false_eq_true, false_iff]
      omega
    | overflow absent negative => exact absurd rfl survives
    | stuck absent need possible failed gone p' evicts =>
      rw [rep.not_stuck fl intn need possible] at failed
      cases failed
    | placed absent need exact_ some_ possible gone p' evicts room =>
      rcases p'.place_cases fl b need (gone.map fun r => (p.entries r).id) with
        ⟨free, arena, placed⟩ | ⟨free, arena, pages, placed⟩
      · rw [placed] at survives
        exact absurd rfl survives
      · simp only [placed, absent, Option.isSome_none, true_and, true_iff]
        omega

theorem Store.Shows.put_stores_iff {residents : List Resident} (shows : s.Shows residents) (b : Block) :
    (s.put fl intn b).stored = some true ↔
      s.holds b.id = false ∧ (s.put fl intn b).store.holds b.id = true := by
  obtain ⟨residents', shows', change⟩ := shows.perform fl intn (.put b)
  have missing : (∀ r ∈ residents, r.id ≠ b.id) → s.holds b.id = false := by
    intro absent
    rw [← Bool.not_eq_true, shows.holds, List.mem_map]
    rintro ⟨r, member, named⟩
    exact absent r member named
  have answered : (s.perform fl intn (.put b)).1 ≠ .put (some true) → (s.put fl intn b).stored ≠ some true :=
    fun old stored => old (congrArg Answer.put stored)
  have after := shows'.holds b.id
  cases change with
  | used r member named old _ =>
    have held : s.holds b.id = true := (shows.holds b.id).mpr (List.mem_map.mpr ⟨r, member, named⟩)
    simp [answered old, held]
  | missed absent old _ =>
    refine iff_of_false (answered old) ?_
    rintro ⟨_, now⟩
    obtain ⟨r, member, named⟩ := List.mem_map.mp (after.mp now)
    exact absent r member named
  | failed _ _ absent old gone kept _ order _ =>
    refine iff_of_false (answered old) ?_
    rintro ⟨_, now⟩
    obtain ⟨r, member, named⟩ := List.mem_map.mp (after.mp now)
    exact absent r (order.subset member) named
  | stored b' same absent new gone kept _ _ _ =>
    rw [Op.put.injEq] at same
    subst same
    exact iff_of_true (Answer.put.inj new) ⟨missing absent, after.mpr List.mem_cons_self⟩

theorem Store.Rep.holds (rep : s.Rep blocks) (id : BlockID) : s.holds id = (blocks id).isSome := by
  cases s with
  | lru s =>
    cases found : s.items id with
    | none => simp only [Store.holds, found, Lru.Rep.nothing rep id found, Option.isSome_none]
    | some r =>
      obtain ⟨_, e, value, _⟩ := Lru.Rep.items rep id r found
      rw [← Lru.Rep.read rep id r found, value]
      simp only [Store.holds, found, Option.map_some, Option.isSome_some]
  | paged p =>
    obtain ⟨bottom, count, lru, rep⟩ := rep
    cases found : p.items id with
    | none => simp only [Store.holds, found, rep.nothing id found, Option.isSome_none]
    | some r => simp only [Store.holds, found, rep.read id r found, Option.isSome_some]

theorem Store.Rep.put_holds (rep : s.Rep blocks) (b : Block) (survives : (s.put fl intn b).stored ≠ none)
    (keeps : (s.put fl intn b).evicted = []) (id : BlockID) :
    (s.put fl intn b).store.holds id = true ↔ s.holds id = true ∨ id = b.id ∧ s.takes b := by
  have stores := rep.put_stores_iff fl intn b survives
  rcases rep.put fl intn b with panics | ⟨refused, same⟩ | ⟨missing, stored, new⟩
  · exact absurd panics survives
  · rw [same.holds, rep.holds]
    refine ⟨Or.inl, ?_⟩
    rintro (held | ⟨rfl, takes⟩)
    · exact held
    · rw [← rep.holds, ← Bool.not_eq_false]
      intro absent
      rw [stores.mpr ⟨absent, takes⟩] at refused
      cases refused
  · rw [keeps] at new
    rw [new.holds, rep.holds]
    by_cases own : id = b.id
    · rw [own, Function.update_self]
      simp [(stores.mp stored).2]
    · rw [Function.update_of_ne own]
      simp [own, without]

theorem Paged.contains_isSome (p : Paged F) (id : BlockID) : (p.contains fl id).1 = (p.items id).isSome := by
  unfold Paged.contains
  split
  next missing => rw [missing]; rfl
  next found => rw [found]; rfl

theorem Lru.put_cap (s : Lru) (b : Block) : (s.put b).store.cap = s.cap := by
  have ways := s.putCase b
  generalize s.put b = result at ways ⊢
  cases ways with
  | present r found => rfl
  | refused absent large => rfl
  | panics absent small failed gone s' evicts => exact evicts.same.1
  | placed absent small gone s' evicts room => exact evicts.same.1

theorem Store.takes_put (s : Store F) (b other : Block) (survives : (s.put fl intn b).stored ≠ none) :
    (s.put fl intn b).store.takes other ↔ s.takes other := by
  cases s with
  | lru s => simp only [Store.put, Store.takes, Lru.put_cap]
  | paged p =>
    obtain ⟨size, _, arena⟩ := p.put_config fl intn b
    simp only [Store.put, Store.takes, Paged.pagesNeeded, size, arena]

end PrefixMesh.Blockstore
