import PrefixMesh.Blockstore.PagedMap

/-! Sequences of operations on a paged store. A run keeps the events that matter for
its contents, newest first: a `Put` that returned true, and the evictions it made. -/

namespace PrefixMesh.Blockstore

inductive Op where
  | put (b : Block)
  | get (id : BlockID)
  | contains (id : BlockID)
  | touch (id : BlockID)
  deriving DecidableEq

inductive Event where
  | stored (b : Block)
  | evicted (id : BlockID)
  deriving DecidableEq

/-- The block of the most recent successful `Put` of the id. -/
def latest : List Event → BlockID → Option Block
  | [], _ => none
  | .stored b :: rest, id => if b.id = id then some b else latest rest id
  | .evicted _ :: rest, id => latest rest id

def present : List Event → BlockID → Bool
  | [], _ => false
  | .stored b :: rest, id => if b.id = id then true else present rest id
  | .evicted other :: rest, id => if other = id then false else present rest id

def blocksOf (events : List Event) (id : BlockID) : Option Block :=
  if present events id then latest events id else none

theorem blocksOf_stored (b : Block) (events : List Event) :
    blocksOf (.stored b :: events) = Function.update (blocksOf events) b.id (some b) := by
  funext id
  by_cases same : id = b.id
  · subst same
    simp [blocksOf, present, latest]
  · rw [Function.update_of_ne same]
    simp only [blocksOf, present, latest, if_neg (Ne.symm same)]

theorem blocksOf_evicted (other : BlockID) (events : List Event) :
    blocksOf (.evicted other :: events) = Function.update (blocksOf events) other none := by
  funext id
  by_cases same : id = other
  · subst same
    simp [blocksOf, present]
  · rw [Function.update_of_ne same]
    simp only [blocksOf, present, latest, if_neg (Ne.symm same)]

theorem blocksOf_gone (gone : List BlockID) (events : List Event) :
    blocksOf ((gone.map Event.evicted).reverse ++ events) = without (blocksOf events) gone := by
  induction gone generalizing events with
  | nil => rfl
  | cons first rest ih =>
    rw [List.map_cons, List.reverse_cons, List.append_assoc, List.singleton_append, ih, blocksOf_evicted]
    rfl

theorem latest_of_present (events : List Event) (id : BlockID) (here : present events id = true) :
    (latest events id).isSome = true := by
  induction events with
  | nil => cases here
  | cons e rest ih =>
    cases e with
    | stored b =>
      simp only [latest, present] at here ⊢
      by_cases same : b.id = id
      · rw [if_pos same]
        rfl
      · rw [if_neg same] at here ⊢
        exact ih here
    | evicted other =>
      simp only [latest, present] at here ⊢
      by_cases same : other = id
      · rw [if_pos same] at here
        cases here
      · rw [if_neg same] at here
        exact ih here

theorem blocksOf_isSome (events : List Event) (id : BlockID) :
    (blocksOf events id).isSome = present events id := by
  cases here : present events id with
  | true => simpa [blocksOf, here] using latest_of_present events id here
  | false => simp [blocksOf, here]

variable {F : Type} (fl : Float64 F) (intn : Nat → Nat)

def Paged.perform (p : Paged F) : Op → List Event × Paged F
  | .put b =>
      let result := p.put fl intn b
      let evictions := (result.evicted.map Event.evicted).reverse
      (if result.stored = some true then .stored b :: evictions else evictions, result.store)
  | .get id => ([], (p.get fl id).2)
  | .contains id => ([], (p.contains fl id).2)
  | .touch id => ([], p.touchID fl id)

def Paged.run (p : Paged F) : List Op → List Event → List Event × Paged F
  | [], events => (events, p)
  | op :: rest, events => (p.perform fl intn op).2.run rest ((p.perform fl intn op).1 ++ events)

theorem Paged.Rep.perform {p : Paged F} {count : Nat} {lru : List Ref} {events : List Event}
    (rep : p.Rep [] count lru (blocksOf events)) (op : Op) :
    ∃ lru', (p.perform fl intn op).2.Rep [] count lru' (blocksOf ((p.perform fl intn op).1 ++ events)) := by
  cases op with
  | put b =>
    simp only [Paged.perform]
    rcases rep.put fl intn b with ⟨panics, same⟩ | ⟨refused, gone, lru', rep'⟩ | ⟨_, stored, lru', rep'⟩
    · obtain ⟨gone, same⟩ := same rfl
      rw [panics, gone, same]
      exact ⟨lru, rep⟩
    · rw [refused, gone]
      exact ⟨lru', rep'⟩
    · rw [stored, if_pos rfl, List.cons_append, blocksOf_stored, blocksOf_gone]
      exact ⟨lru', rep'⟩
  | get id => exact (rep.get fl id).2
  | contains id => exact (rep.contains fl id).2
  | touch id => exact rep.touchID fl id

theorem Paged.Rep.run {p : Paged F} {count : Nat} {lru : List Ref} {events : List Event}
    (rep : p.Rep [] count lru (blocksOf events)) (ops : List Op) :
    ∃ lru', (p.run fl intn ops events).2.Rep [] count lru' (blocksOf (p.run fl intn ops events).1) := by
  induction ops generalizing p lru events with
  | nil => exact ⟨lru, rep⟩
  | cons op rest ih =>
    obtain ⟨lru', rep'⟩ := rep.perform fl intn op
    exact ih rep'

theorem Paged.perform_config (p : Paged F) (op : Op) :
    (p.perform fl intn op).2.pageSize = p.pageSize ∧ (p.perform fl intn op).2.pol = p.pol ∧
    (p.perform fl intn op).2.arena.length = p.arena.length := by
  cases op with
  | put b => exact p.put_config fl intn b
  | get id =>
    simp only [Paged.perform, Paged.get]
    split
    · exact ⟨rfl, rfl, rfl⟩
    · exact ⟨rfl, rfl, rfl⟩
  | contains id =>
    simp only [Paged.perform, Paged.contains]
    split
    · exact ⟨rfl, rfl, rfl⟩
    · exact ⟨rfl, rfl, rfl⟩
  | touch id =>
    simp only [Paged.perform, Paged.touchID]
    split
    · exact ⟨rfl, rfl, rfl⟩
    · exact ⟨rfl, rfl, rfl⟩

theorem Paged.run_config (p : Paged F) (ops : List Op) (events : List Event) :
    (p.run fl intn ops events).2.pageSize = p.pageSize ∧ (p.run fl intn ops events).2.pol = p.pol ∧
    (p.run fl intn ops events).2.arena.length = p.arena.length := by
  induction ops generalizing p events with
  | nil => exact ⟨rfl, rfl, rfl⟩
  | cons op rest ih =>
    obtain ⟨size, policy, arena⟩ := ih (p.perform fl intn op).2 ((p.perform fl intn op).1 ++ events)
    obtain ⟨size', policy', arena'⟩ := p.perform_config fl intn op
    exact ⟨size.trans size', policy.trans policy', arena.trans arena'⟩

/-- After any operations on a new store of at most `2 ^ 31` pages, `Get` returns what the most recent
successful `Put` of the id stored, a `Put` of a present id changes nothing that `Get` returns, and `Get` and
`Contains` agree with the successful `Put`s and the evictions. -/
theorem paged_refines_map (capacityBytes : UInt64) (pageSize : Int64) (pol : EvictionPolicy) (start : Paged F)
    (made : newPaged fl capacityBytes pageSize pol = some start) (few : nPages capacityBytes pageSize ≤ 2 ^ 31)
    (ops : List Op) (events : List Event) (p : Paged F) (ran : start.run fl intn ops [] = (events, p)) :
    (∀ id b, (p.get fl id).1 = some b → latest events id = some b) ∧
    (∀ b, (p.get fl b.id).1.isSome = true →
      ∀ id, ((p.put fl intn b).store.get fl id).1 = (p.get fl id).1) ∧
    ∀ id, (p.get fl id).1.isSome = present events id ∧ (p.contains fl id).1 = present events id := by
  obtain ⟨bottom, count, fresh, small⟩ := newPaged_rep fl capacityBytes pageSize pol start made
  rw [small few] at fresh
  have empty : start.Rep [] count [] (blocksOf []) := fresh
  obtain ⟨lru, rep⟩ := empty.run fl intn ops
  rw [ran] at rep
  refine ⟨?_, ?_, ?_⟩
  · intro id b got
    rw [(rep.get fl id).1, blocksOf] at got
    split at got
    · exact got
    · cases got
  · intro b here id
    rw [(rep.get fl b.id).1] at here
    rw [(rep.get fl id).1]
    rcases rep.put fl intn b with ⟨_, same⟩ | ⟨_, _, lru', rep'⟩ | ⟨missing, _⟩
    · rw [(same rfl).2, (rep.get fl id).1]
    · exact (rep'.get fl id).1
    · rw [missing] at here
      cases here
  · intro id
    rw [(rep.get fl id).1, (rep.contains fl id).1, blocksOf_isSome]
    exact ⟨rfl, rfl⟩

/-- Integers in the place of floats, for a policy that reads no score. -/
def sampleFloat : Float64 Int where
  ofUint64 n := n.toNat
  add := (· + ·)
  mul := (· * ·)
  div := (· / ·)
  neg n := -n
  exp2 n := 2 ^ n.toNat
  lt m n := m < n

def sampleID (n : UInt8) : BlockID := ⟨List.replicate hashSize n, List.length_replicate⟩

def sampleBlock (n size : UInt8) : Block where
  id := sampleID n
  parentID := sampleID 0
  modelID := "m"
  payload := ⟨List.replicate size.toNat n, by
    rw [List.length_replicate]
    exact lt_trans size.toNat_lt (by decide)⟩
  tokenCount := 1
  costUS := 10 * n.toUInt64

def samplePaged : Paged Int := (newPaged sampleFloat 4 2 .lru).get (by decide)

def sampleOps : List Op :=
  [.put ⟨sampleID 1, sampleID 0, "m", ⟨[1, 2, 3], by decide⟩, 3, 9⟩,
    .put ⟨sampleID 2, sampleID 1, "m", ⟨[4], by decide⟩, 1, 5⟩]

/-- Two pages of two bytes: the second block takes over the pages of the first. -/
theorem sampleOps_refine : newPaged sampleFloat 4 2 .lru = some samplePaged ∧ nPages 4 2 ≤ 2 ^ 31 ∧
    (((samplePaged.run sampleFloat id sampleOps []).2.get sampleFloat (sampleID 2)).1.map
      (fun b => b.payload.1)) = some [4] ∧
    ((samplePaged.run sampleFloat id sampleOps []).2.contains sampleFloat (sampleID 1)).1 = false ∧
    present (samplePaged.run sampleFloat id sampleOps []).1 (sampleID 1) = false := by
  have made : newPaged sampleFloat 4 2 .lru = some samplePaged := (Option.some_get _).symm
  have refines := paged_refines_map sampleFloat id 4 2 .lru samplePaged made (by decide) sampleOps _ _ rfl
  have gone : ((samplePaged.run sampleFloat id sampleOps []).2.contains sampleFloat (sampleID 1)).1 = false := by
    decide
  exact ⟨made, by decide, by decide, gone, (refines.2.2 (sampleID 1)).2.symm.trans gone⟩

end PrefixMesh.Blockstore
