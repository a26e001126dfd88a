import PrefixMesh.Blockstore.Residents

/-! The order of last use over whole runs. A run uses an id when a `Put` stores its
block or finds it there, at a hit, and at a `Touch` of a resident; the residents of the
store stand in the order of their last use. -/

namespace PrefixMesh.Blockstore

open Lib

variable {F : Type} (fl : Float64 F) (intn : Nat → Nat)

def Store.uses (s : Store F) (op : Op) : List BlockID :=
  if s.holds op.id = true ∨ (s.perform fl intn op).1 = .put (some true) then [op.id] else []

def Store.history (s : Store F) : List Op → List BlockID
  | [] => []
  | op :: rest => s.uses fl intn op ++ (s.perform fl intn op).2.history rest

/-- The residents after the operations, least recently used first. -/
def Store.byLastUse (s : Store F) (ops : List Op) : List BlockID :=
  (s.history fl intn ops).dedup.filter (s.run fl intn ops).2.holds

variable {s : Store F} {residents residents' : List Resident} {uses : List BlockID}

def Recent (residents : List Resident) (uses : List BlockID) : Prop :=
  (residents.map Resident.id).reverse.Sublist uses.dedup

theorem Recent.use {r : Resident} (recent : Recent residents uses) (distinct : (residents.map Resident.id).Nodup)
    (member : r ∈ residents) : Recent (r :: residents.erase r) (uses ++ [r.id]) := by
  have used := used_sublist recent r.id
  rwa [← reverse_erase distinct, ← map_erase distinct member, ← List.reverse_cons, ← List.map_cons] at used

theorem Recent.keep {kept : List Resident} (recent : Recent residents uses) (order : kept.Sublist residents) :
    Recent kept uses :=
  ((order.map _).reverse).trans recent

theorem Recent.store {r : Resident} (recent : Recent residents uses) (new : r.id ∉ residents.map Resident.id) :
    Recent (r :: residents) (uses ++ [r.id]) := by
  have used := used_sublist recent r.id
  rwa [List.erase_of_not_mem (by simpa using new), ← List.reverse_cons, ← List.map_cons] at used

theorem Store.Shows.recent (shows : s.Shows residents) (recent : Recent residents uses) (op : Op)
    (change : Change op (s.perform fl intn op).1 residents s.stats (s.perform fl intn op).2.stats residents') :
    Recent residents' (uses ++ s.uses fl intn op) := by
  have unused : (∀ r ∈ residents, r.id ≠ op.id) → (s.perform fl intn op).1 ≠ .put (some true) →
      s.uses fl intn op = [] := by
    intro absent old
    refine if_neg (not_or.mpr ⟨?_, old⟩)
    rw [shows.holds, List.mem_map]
    rintro ⟨r, member, named⟩
    exact absent r member named
  cases change with
  | used r member named _ _ =>
    have held : s.holds op.id = true := (shows.holds op.id).mpr (named ▸ List.mem_map_of_mem member)
    have uses_eq : s.uses fl intn op = [r.id] := by
      rw [Store.uses, if_pos (Or.inl held), named]
    rw [uses_eq]
    exact recent.use shows.ids_nodup member
  | missed absent old _ =>
    rw [unused absent old, List.append_nil]
    exact recent
  | failed b put absent old gone kept split order _ =>
    rw [unused absent old, List.append_nil]
    exact recent.keep order
  | stored b put absent new gone kept split order _ =>
    have uses_eq : s.uses fl intn op = [b.id] := by
      rw [Store.uses, if_pos (Or.inr new), put]
      rfl
    rw [uses_eq]
    refine (recent.keep order).store (r := ⟨b.id, b.costUS⟩) ?_
    intro listed
    obtain ⟨r, member, named⟩ := List.mem_map.mp listed
    exact absent r (order.subset member) (named.trans (by rw [put]; rfl))

theorem Store.Shows.run (shows : s.Shows residents) (recent : Recent residents uses) (ops : List Op) :
    ∃ residents', (s.run fl intn ops).2.Shows residents' ∧
      Recent residents' (uses ++ s.history fl intn ops) := by
  induction ops generalizing s residents uses with
  | nil => exact ⟨residents, shows, by rwa [Store.history, List.append_nil]⟩
  | cons op rest ih =>
    obtain ⟨middle, shows', change⟩ := shows.perform fl intn op
    obtain ⟨final, shows'', recent''⟩ := ih shows' (shows.recent fl intn recent op change)
    rw [List.append_assoc] at recent''
    exact ⟨final, shows'', recent''⟩

theorem Store.run_concat (s : Store F) (ops : List Op) (op : Op) :
    (s.run fl intn (ops ++ [op])).2 = ((s.run fl intn ops).2.perform fl intn op).2 := by
  induction ops generalizing s with
  | nil => rfl
  | cons first rest ih => exact ih (s.perform fl intn first).2

theorem Store.run_paged (p : Paged F) (ops : List Op) (events : List Event) :
    ((Store.paged p).run fl intn ops).2 = .paged (p.run fl intn ops events).2 := by
  induction ops generalizing p events with
  | nil => rfl
  | cons op rest ih =>
    cases op with
    | put b => exact ih (p.put fl intn b).store _
    | get id => exact ih (p.get fl id).2 _
    | contains id => exact ih (p.contains fl id).2 _
    | touch id => exact ih (p.touchID fl id) _

theorem Config.newStore_shows (c : Config) (made : c.newStore fl = some s) : s.Shows [] := by
  cases c with
  | lru capacityBytes =>
    cases made
    exact ⟨⟨_, newLRU_rep capacityBytes⟩, rfl⟩
  | paged capacityBytes pageSize pol =>
    obtain ⟨p, new, rfl⟩ := Option.map_eq_some_iff.mp made
    obtain ⟨bottom, count, rep, _⟩ := newPaged_rep fl capacityBytes pageSize pol p new
    exact ⟨[], rep.linked, rfl⟩

theorem byLastUse_eq (c : Config) (made : c.newStore fl = some s) (ops : List Op)
    (shows : (s.run fl intn ops).2.Shows residents) :
    s.byLastUse fl intn ops = (residents.map Resident.id).reverse := by
  have start : Recent [] [] := List.nil_sublist _
  obtain ⟨final, shows', recent⟩ := (c.newStore_shows fl made).run fl intn start ops
  cases shows.unique shows'
  refine (eq_filter_of_sublist recent (List.nodup_dedup _) _ ?_).symm
  intro id _
  rw [List.mem_reverse, shows.holds]

end PrefixMesh.Blockstore
