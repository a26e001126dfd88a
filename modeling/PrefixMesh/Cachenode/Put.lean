import PrefixMesh.Blockstore.Outcome
import PrefixMesh.Cachenode.Server

/-! `PutBlocks` of a cache node as a whole. Between two rounds of its loop other handlers
may work on the store, and the node may see a newer ring. A `Put` that panics takes the
node down. -/

namespace PrefixMesh.Cachenode

open Blockstore

/-- A round of the loop: what other handlers have done to the store since the last one, the epoch of the node then,
and the request. -/
structure PutRound where
  others : List Op
  epoch : Option Nat
  req : CachePutRequest

inductive PutOutcome (F : Type) where
  | answered (stored existing : UInt32) (s : Store F)
  | failed (e : Status) (s : Store F)
  | down

variable {F : Type} (fl : Float64 F) (intn : Nat → Nat)

def PutOutcome.holds (id : BlockID) : PutOutcome F → Bool
  | .answered _ _ s => s.holds id
  | .failed _ s => s.holds id
  | .down => false

/-- The stream ends with the last round, or breaks there with a status. -/
def putLoop (broken : Option Status) : List PutRound → UInt32 → UInt32 → Store F → PutOutcome F
  | [], stored, existing, s =>
      match broken with
      | none => .answered stored existing s
      | some e => .failed e s
  | round :: rest, stored, existing, s =>
      let (answers, s) := s.run fl intn round.others
      if .put none ∈ answers then .down
      else
        match putOne fl intn round.epoch round.req s with
        | .error e => .failed e s
        | .ok ⟨none, _, _⟩ => .down
        | .ok ⟨some true, _, s⟩ => putLoop broken rest (stored + 1) existing s
        | .ok ⟨some false, _, s⟩ => putLoop broken rest stored (existing + 1) s

def putBlocks (broken : Option Status) (rounds : List PutRound) (s : Store F) : PutOutcome F :=
  putLoop fl intn broken rounds 0 0 s

structure Position (F : Type) where
  before : Store F
  block : Block
  after : Store F

def positions : List PutRound → Store F → List (Position F)
  | [], _ => []
  | round :: rest, s =>
      let s := (s.run fl intn round.others).2
      match fromProto round.req.block with
      | .error _ => []
      | .ok b => ⟨s, b, (s.put fl intn b).store⟩ :: positions rest (s.put fl intn b).store

def Position.resident (x : Position F) : Bool := x.before.holds x.block.id

def Position.became (x : Position F) : Bool := !x.before.holds x.block.id && x.after.holds x.block.id

def Position.misfit (x : Position F) : Bool := !x.before.holds x.block.id && !decide (x.before.takes x.block)

variable {s s' : Store F} {blocks : BlockID → Option Block}

theorem putLoop_cons {broken : Option Status} {round : PutRound} {rest : List PutRound}
    {stored existing st ex : UInt32} (answered : putLoop fl intn broken (round :: rest) stored existing s =
      .answered st ex s') :
    ∃ b now, fromProto round.req.block = .ok b ∧ (s.run fl intn round.others).2 = now ∧
      .put none ∉ (s.run fl intn round.others).1 ∧
      (((now.put fl intn b).stored = some true ∧
        putLoop fl intn broken rest (stored + 1) existing (now.put fl intn b).store = .answered st ex s') ∨
      ((now.put fl intn b).stored = some false ∧
        putLoop fl intn broken rest stored (existing + 1) (now.put fl intn b).store = .answered st ex s')) := by
  simp only [putLoop] at answered
  split at answered
  · cases answered
  next alive =>
    split at answered
    · cases answered
    · cases answered
    next evicted store put =>
      obtain ⟨b, parsed, result⟩ := putOne_ok put
      refine ⟨b, _, parsed, rfl, alive, Or.inl ?_⟩
      rw [← result]
      exact ⟨rfl, answered⟩
    next evicted store put =>
      obtain ⟨b, parsed, result⟩ := putOne_ok put
      refine ⟨b, _, parsed, rfl, alive, Or.inr ?_⟩
      rw [← result]
      exact ⟨rfl, answered⟩

theorem position_stored (rep : s.Rep blocks) (b : Block) (put : (s.put fl intn b).stored = some true) :
    Position.became ⟨s, b, (s.put fl intn b).store⟩ = true ∧
    Position.resident ⟨s, b, (s.put fl intn b).store⟩ = false ∧
    Position.misfit ⟨s, b, (s.put fl intn b).store⟩ = false := by
  obtain ⟨residents, shows⟩ := rep.shows
  obtain ⟨absent, here⟩ := (shows.put_stores_iff fl intn b).mp put
  obtain ⟨_, fits⟩ := (rep.put_stores_iff fl intn b (by simp [put])).mp put
  simp [Position.became, Position.resident, Position.misfit, absent, here, fits]

theorem position_refused (rep : s.Rep blocks) (b : Block) (put : (s.put fl intn b).stored = some false) :
    Position.became ⟨s, b, (s.put fl intn b).store⟩ = false ∧
    (Position.resident ⟨s, b, (s.put fl intn b).store⟩ = true ∧
      Position.misfit ⟨s, b, (s.put fl intn b).store⟩ = false ∨
    Position.resident ⟨s, b, (s.put fl intn b).store⟩ = false ∧
      Position.misfit ⟨s, b, (s.put fl intn b).store⟩ = true) := by
  obtain ⟨residents, shows⟩ := rep.shows
  have became := (shows.put_stores_iff fl intn b).not.mp (by simp [put])
  have takes := (rep.put_stores_iff fl intn b (by simp [put])).not.mp (by simp [put])
  cases held : s.holds b.id with
  | true => simp [Position.became, Position.resident, Position.misfit, held]
  | false => simpa [Position.became, Position.resident, Position.misfit, held] using And.intro became takes

theorem putLoop_counts {broken : Option Status} (rounds : List PutRound) {stored existing st ex : UInt32}
    (rep : s.Rep blocks) (answered : putLoop fl intn broken rounds stored existing s = .answered st ex s') :
    st = stored + UInt32.ofNat ((positions fl intn rounds s).countP Position.became) ∧
    ex = existing + UInt32.ofNat ((positions fl intn rounds s).countP Position.resident +
      (positions fl intn rounds s).countP Position.misfit) := by
  induction rounds generalizing s blocks stored existing with
  | nil =>
    simp only [putLoop] at answered
    split at answered
    · cases answered
      simp [positions]
    · cases answered
  | cons round rest ih =>
    obtain ⟨b, now, parsed, reached, alive, ways⟩ := putLoop_cons fl intn answered
    obtain ⟨middle, rep'⟩ := rep.run fl intn round.others alive
    rw [reached] at rep'
    have survives : (now.put fl intn b).stored ≠ none := by
      rcases ways with ⟨put, _⟩ | ⟨put, _⟩
      · simp [put]
      · simp [put]
    have next_rep : ∃ blocks', (now.put fl intn b).store.Rep blocks' :=
      rep'.perform fl intn (.put b) (fun panics => survives (Answer.put.inj panics))
    obtain ⟨after, rep''⟩ := next_rep
    simp only [positions, parsed, reached, List.countP_cons]
    rcases ways with ⟨put, next⟩ | ⟨put, next⟩
    · obtain ⟨st_eq, ex_eq⟩ := ih rep'' next
      obtain ⟨became, resident, misfit⟩ := position_stored fl intn rep' b put
      refine ⟨?_, by simpa [resident, misfit] using ex_eq⟩
      rw [st_eq, if_pos became, UInt32.ofNat_add _ 1, UInt32.add_assoc, UInt32.add_comm 1]
      rfl
    · obtain ⟨st_eq, ex_eq⟩ := ih rep'' next
      obtain ⟨became, either⟩ := position_refused fl intn rep' b put
      refine ⟨by simpa [became] using st_eq, ?_⟩
      have one : ((if Position.resident ⟨now, b, (now.put fl intn b).store⟩ = true then 1 else 0) +
          if Position.misfit ⟨now, b, (now.put fl intn b).store⟩ = true then 1 else 0) = 1 := by
        rcases either with ⟨resident, misfit⟩ | ⟨resident, misfit⟩
        · simp [resident, misfit]
        · simp [resident, misfit]
      rw [ex_eq, Nat.add_add_add_comm, one, UInt32.ofNat_add _ 1, UInt32.add_assoc, UInt32.add_comm 1]
      rfl

/-- On a store that has not panicked, the counters of an answered stream mean what they say exactly if they have not
wrapped around and every block that was absent at its position could be stored, up to a multiple of `2 ^ 32` of
them. -/
theorem put_counters_iff (c : Config) (start s : Store F) (made : c.newStore fl = some start) (ops : List Op)
    (alive : .put none ∉ (start.run fl intn ops).1) (reached : (start.run fl intn ops).2 = s)
    (broken : Option Status) (rounds : List PutRound) (stored existing : UInt32) (s' : Store F)
    (answered : putBlocks fl intn broken rounds s = .answered stored existing s') :
    (stored.toNat = (positions fl intn rounds s).countP Position.became ∧
      existing.toNat = (positions fl intn rounds s).countP Position.resident) ↔
    (positions fl intn rounds s).countP Position.became < 2 ^ 32 ∧
      (positions fl intn rounds s).countP Position.resident < 2 ^ 32 ∧
      2 ^ 32 ∣ (positions fl intn rounds s).countP Position.misfit := by
  obtain ⟨blocks, rep⟩ := (c.newStore_rep fl start made).run fl intn ops alive
  rw [reached] at rep
  obtain ⟨st_eq, ex_eq⟩ := putLoop_counts fl intn rounds rep answered
  rw [UInt32.zero_add] at st_eq ex_eq
  rw [st_eq, ex_eq, UInt32.toNat_ofNat', UInt32.toNat_ofNat']
  omega

/-- An empty block, which the paged store refuses, counts as existing. -/
theorem emptyBlock_existing : ∃ s s' : Store Int, (Config.paged 4 2 .lru).newStore sampleFloat = some s ∧
    putBlocks sampleFloat id none [⟨[], none, ⟨0, some (toProto (sampleBlock 1 0))⟩⟩] s = .answered 0 1 s' ∧
    (positions sampleFloat id [⟨[], none, ⟨0, some (toProto (sampleBlock 1 0))⟩⟩] s).countP Position.resident = 0 := by
  refine ⟨_, _, rfl, rfl, by decide⟩

def countedRounds : List PutRound :=
  [⟨[], none, ⟨0, some (toProto (sampleBlock 1 1))⟩⟩,
    ⟨[.touch (sampleID 1)], none, ⟨0, some (toProto (sampleBlock 1 2))⟩⟩]

/-- The second block of the stream has the id of the first. -/
theorem countedRounds_exact : ∃ s s' : Store Int, (Config.lru 258).newStore sampleFloat = some s ∧
    putBlocks sampleFloat id none countedRounds s = .answered 1 1 s' ∧
    (1 : UInt32).toNat = (positions sampleFloat id countedRounds s).countP Position.became ∧
    (1 : UInt32).toNat = (positions sampleFloat id countedRounds s).countP Position.resident := by
  refine ⟨_, _, rfl, rfl, ?_⟩
  exact (put_counters_iff sampleFloat id (.lru 258) _ _ rfl [] (by decide) rfl none countedRounds 1 1 _ rfl).mpr
    (by decide)

end PrefixMesh.Cachenode
