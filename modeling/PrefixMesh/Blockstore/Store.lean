import PrefixMesh.Blockstore.PagedMap

/-! The interface that the cache node works against, with its two implementations. -/

namespace PrefixMesh.Blockstore

inductive Store (F : Type) where
  | lru (s : Lru)
  | paged (p : Paged F)

variable {F : Type} (fl : Float64 F) (intn : Nat → Nat)

def Store.put (b : Block) : Store F → PutResult (Store F)
  | .lru s => let r := s.put b; ⟨r.stored, r.evicted, .lru r.store⟩
  | .paged p => let r := p.put fl intn b; ⟨r.stored, r.evicted, .paged r.store⟩

def Store.get (id : BlockID) : Store F → Option Block × Store F
  | .lru s => ((s.get id).1, .lru (s.get id).2)
  | .paged p => ((p.get fl id).1, .paged (p.get fl id).2)

def Store.contains (id : BlockID) : Store F → Bool × Store F
  | .lru s => ((s.contains id).1, .lru (s.contains id).2)
  | .paged p => ((p.contains fl id).1, .paged (p.contains fl id).2)

def Store.touch (id : BlockID) : Store F → Store F
  | .lru s => .lru (s.touch id)
  | .paged p => .paged (p.touchID fl id)

inductive Config where
  | lru (capacityBytes : UInt64)
  | paged (capacityBytes : UInt64) (pageSize : Int64) (pol : EvictionPolicy)
  deriving DecidableEq

/-- A new store, unless its constructor panics. -/
def Config.newStore : Config → Option (Store F)
  | .lru capacityBytes => some (.lru (newLRU capacityBytes))
  | .paged capacityBytes pageSize pol => (newPaged fl capacityBytes pageSize pol).map .paged

def Store.Rep (blocks : BlockID → Option Block) : Store F → Prop
  | .lru s => s.Rep blocks
  | .paged p => ∃ bottom count lru, p.Rep bottom count lru blocks

variable {s : Store F} {blocks : BlockID → Option Block}

theorem Config.newStore_rep (c : Config) (s : Store F) (made : c.newStore fl = some s) : s.Rep (fun _ => none) := by
  cases c with
  | lru capacityBytes =>
    cases made
    exact newLRU_rep capacityBytes
  | paged capacityBytes pageSize pol =>
    obtain ⟨p, new, rfl⟩ := Option.map_eq_some_iff.mp made
    obtain ⟨bottom, count, rep, _⟩ := newPaged_rep fl capacityBytes pageSize pol p new
    exact ⟨bottom, count, [], rep⟩

theorem Store.Rep.put (rep : s.Rep blocks) (b : Block) :
    (s.put fl intn b).stored = none ∨
    ((s.put fl intn b).stored = some false ∧ (s.put fl intn b).store.Rep blocks) ∨
    (blocks b.id = none ∧ (s.put fl intn b).stored = some true ∧ (s.put fl intn b).store.Rep
      (Function.update (without blocks (s.put fl intn b).evicted) b.id (some b))) := by
  cases s with
  | lru s =>
    rcases Lru.Rep.put rep b with panics | ⟨refused, _, same⟩ | stored
    · exact Or.inl panics
    · exact Or.inr (Or.inl ⟨refused, same⟩)
    · exact Or.inr (Or.inr stored)
  | paged p =>
    obtain ⟨bottom, count, lru, rep⟩ := rep
    rcases rep.put fl intn b with ⟨panics, _⟩ | ⟨refused, _, lru', same⟩ | ⟨missing, stored, lru', new⟩
    · exact Or.inl panics
    · exact Or.inr (Or.inl ⟨refused, bottom, count, lru', same⟩)
    · exact Or.inr (Or.inr ⟨missing, stored, bottom, count, lru', new⟩)

theorem Store.Rep.get (rep : s.Rep blocks) (id : BlockID) :
    (s.get fl id).1 = blocks id ∧ (s.get fl id).2.Rep blocks := by
  cases s with
  | lru s => exact Lru.Rep.get rep id
  | paged p =>
    obtain ⟨bottom, count, lru, rep⟩ := rep
    obtain ⟨got, lru', rep'⟩ := rep.get fl id
    exact ⟨got, bottom, count, lru', rep'⟩

theorem Store.Rep.contains (rep : s.Rep blocks) (id : BlockID) :
    (s.contains fl id).1 = (blocks id).isSome ∧ (s.contains fl id).2.Rep blocks := by
  cases s with
  | lru s => exact Lru.Rep.contains rep id
  | paged p =>
    obtain ⟨bottom, count, lru, rep⟩ := rep
    obtain ⟨got, lru', rep'⟩ := rep.contains fl id
    exact ⟨got, bottom, count, lru', rep'⟩

theorem Store.Rep.touch (rep : s.Rep blocks) (id : BlockID) : (s.touch fl id).Rep blocks := by
  cases s with
  | lru s => exact Lru.Rep.touch rep id
  | paged p =>
    obtain ⟨bottom, count, lru, rep⟩ := rep
    obtain ⟨lru', rep'⟩ := rep.touchID fl id
    exact ⟨bottom, count, lru', rep'⟩

end PrefixMesh.Blockstore
