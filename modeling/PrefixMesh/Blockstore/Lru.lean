import PrefixMesh.Block
import Mathlib.Data.List.Nodup
import Mathlib.Logic.Function.Basic

/-! The plain LRU store. The list of `container/list` is a list of references to its
elements, front first. Sizes are `uint64` and wrap around. -/

namespace PrefixMesh.Blockstore

structure Stats where
  occupancyBytes : UInt64
  capacityBytes : UInt64
  hits : UInt64
  misses : UInt64
  evictions : UInt64
  evictedCostUS : UInt64
  deriving DecidableEq

/-- What a `Put` returns, `none` if it panics, and what it leaves behind. -/
structure PutResult (S : Type) where
  stored : Option Bool
  evicted : List BlockID
  store : S

abbrev Ref := Nat

def perBlockOverhead : UInt64 := 128

structure LruEntry where
  block : Block
  size : UInt64

structure Lru where
  cap : UInt64
  used : UInt64
  ll : List Ref
  items : BlockID → Option Ref
  stats : Stats
  values : Ref → Option LruEntry
  fresh : Ref

def newLRU (capacityBytes : UInt64) : Lru where
  cap := capacityBytes
  used := 0
  ll := []
  items := fun _ => none
  stats := ⟨0, 0, 0, 0, 0, 0⟩
  values := fun _ => none
  fresh := 0

def blockSize (b : Block) : UInt64 := UInt64.ofNat b.payload.1.length + perBlockOverhead

def Lru.moveToFront (s : Lru) (r : Ref) : Lru := { s with ll := r :: s.ll.erase r }

/-- The second half of `evictOldest`: the element `r` with entry `e` goes. -/
def Lru.discard (s : Lru) (r : Ref) (e : LruEntry) : Lru :=
  { s with
    ll := s.ll.erase r
    items := Function.update s.items e.block.id none
    used := s.used - e.size
    stats := { s.stats with
      evictions := s.stats.evictions + 1
      evictedCostUS := s.stats.evictedCostUS + e.block.costUS } }

/-- `none` if the list is empty: the source then reads through a nil pointer. -/
def Lru.evictOldest (s : Lru) : Option (BlockID × Lru) :=
  match s.ll.getLast? with
  | none => none
  | some r =>
      match s.values r with
      | none => none
      | some e => some (e.block.id, s.discard r e)

/-- The loop of `Put` that makes room; `false` if it panics. -/
def Lru.evictLoop (size : UInt64) : Nat → Lru → List BlockID → Bool × List BlockID × Lru
  | 0, s, evicted => (false, evicted, s)
  | fuel + 1, s, evicted =>
      if s.used + size > s.cap then
        match s.evictOldest with
        | none => (false, evicted, s)
        | some (id, s) => evictLoop size fuel s (evicted ++ [id])
      else (true, evicted, s)

def Lru.pushFront (s : Lru) (b : Block) (size : UInt64) : Lru :=
  { s with
    ll := s.fresh :: s.ll
    values := Function.update s.values s.fresh (some ⟨b, size⟩)
    items := Function.update s.items b.id (some s.fresh)
    used := s.used + size
    fresh := s.fresh + 1 }

/-- Every round of the loop takes one element from the list. -/
def Lru.put (s : Lru) (b : Block) : PutResult Lru :=
  let size := blockSize b
  match s.items b.id with
  | some r => ⟨some false, [], s.moveToFront r⟩
  | none =>
      if size > s.cap then ⟨some false, [], s⟩
      else
        match Lru.evictLoop size (s.ll.length + 1) s [] with
        | (false, evicted, s) => ⟨none, evicted, s⟩
        | (true, evicted, s) => ⟨some true, evicted, s.pushFront b size⟩

def Lru.missed (s : Lru) : Lru := { s with stats := { s.stats with misses := s.stats.misses + 1 } }

def Lru.hit (s : Lru) (r : Ref) : Lru :=
  { s with stats := { s.stats with hits := s.stats.hits + 1 } }.moveToFront r

def Lru.get (s : Lru) (id : BlockID) : Option Block × Lru :=
  match s.items id with
  | none => (none, s.missed)
  | some r => ((s.values r).map LruEntry.block, s.hit r)

def Lru.contains (s : Lru) (id : BlockID) : Bool × Lru :=
  match s.items id with
  | none => (false, s.missed)
  | some r => (true, s.hit r)

def Lru.touch (s : Lru) (id : BlockID) : Lru :=
  match s.items id with
  | none => s
  | some r => s.moveToFront r

def without (blocks : BlockID → Option Block) (gone : List BlockID) : BlockID → Option Block :=
  gone.foldl (fun blocks id => Function.update blocks id none) blocks

theorem of_without (blocks : BlockID → Option Block) (gone : List BlockID) (id : BlockID) (b : Block)
    (found : without blocks gone id = some b) : blocks id = some b := by
  induction gone generalizing blocks with
  | nil => exact found
  | cons first rest ih =>
    have earlier : Function.update blocks first none id = some b := ih _ found
    by_cases same : id = first
    · rw [same, Function.update_self] at earlier
      cases earlier
    · rwa [Function.update_of_ne same] at earlier

theorem without_none (blocks : BlockID → Option Block) (gone : List BlockID) (id : BlockID)
    (missing : blocks id = none) : without blocks gone id = none := by
  cases found : without blocks gone id with
  | none => rfl
  | some b =>
    rw [of_without blocks gone id b found] at missing
    cases missing

structure Lru.Rep (s : Lru) (blocks : BlockID → Option Block) : Prop where
  distinct : s.ll.Nodup
  held : ∀ r ∈ s.ll, ∃ e, s.values r = some e ∧ s.items e.block.id = some r ∧ blocks e.block.id = some e.block
  items : ∀ id r, s.items id = some r → r ∈ s.ll ∧ ∃ e, s.values r = some e ∧ e.block.id = id
  older : ∀ r ∈ s.ll, r < s.fresh
  nothing : ∀ id, s.items id = none → blocks id = none

variable {s : Lru} {blocks : BlockID → Option Block}

theorem newLRU_rep (capacityBytes : UInt64) : (newLRU capacityBytes).Rep (fun _ => none) where
  distinct := List.nodup_nil
  held := by simp [newLRU]
  items := by simp [newLRU]
  older := by simp [newLRU]
  nothing := by simp

theorem Lru.Rep.stats (rep : s.Rep blocks) (stats : Stats) : { s with stats := stats }.Rep blocks :=
  ⟨rep.distinct, rep.held, rep.items, rep.older, rep.nothing⟩

theorem Lru.Rep.moveToFront (rep : s.Rep blocks) (r : Ref) (member : r ∈ s.ll) :
    (s.moveToFront r).Rep blocks := by
  have perm := List.perm_cons_erase member
  constructor
  · exact perm.nodup_iff.mp rep.distinct
  · intro k inside
    exact rep.held k (perm.mem_iff.mpr inside)
  · intro id k found
    obtain ⟨inside, named⟩ := rep.items id k found
    exact ⟨perm.mem_iff.mp inside, named⟩
  · intro k inside
    exact rep.older k (perm.mem_iff.mpr inside)
  · exact rep.nothing

theorem Lru.Rep.read (rep : s.Rep blocks) (id : BlockID) (r : Ref) (found : s.items id = some r) :
    (s.values r).map LruEntry.block = blocks id := by
  obtain ⟨member, e, value, named⟩ := rep.items id r found
  obtain ⟨e', value', _, known⟩ := rep.held r member
  rw [value, Option.some.injEq] at value'
  subst value'
  rw [value, ← named, known]
  rfl

theorem Lru.Rep.absent (rep : s.Rep blocks) (id : BlockID) (missing : blocks id = none) : s.items id = none := by
  cases found : s.items id with
  | none => rfl
  | some r =>
    obtain ⟨_, e, value, _⟩ := rep.items id r found
    rw [← rep.read id r found, value] at missing
    cases missing

/-- The rounds of the loop that makes room for `size` bytes: `gone` are the entries it evicts, in their order. -/
inductive Lru.Evicts (size : UInt64) : Lru → List LruEntry → Lru → Prop where
  | done (s : Lru) : Evicts size s [] s
  | more {s s' : Lru} {r : Ref} {e : LruEntry} {gone : List LruEntry} (full : s.used + size > s.cap)
      (last : s.ll.getLast? = some r) (value : s.values r = some e) (rest : Evicts size (s.discard r e) gone s') :
      Evicts size s (e :: gone) s'

theorem evicts_of_lruLoop (size : UInt64) (fuel : Nat) (s s' : Lru) (before after : List BlockID) (done : Bool)
    (looped : Lru.evictLoop size fuel s before = (done, after, s')) :
    ∃ gone, Lru.Evicts size s gone s' ∧ after = before ++ gone.map (fun e => e.block.id) ∧
      (done = true → ¬s'.used + size > s'.cap) := by
  induction fuel generalizing s before with
  | zero =>
    cases looped
    exact ⟨[], .done _, (List.append_nil _).symm, by simp⟩
  | succ fuel ih =>
    by_cases full : s.used + size > s.cap
    · simp only [Lru.evictLoop, if_pos full] at looped
      cases last : s.ll.getLast? with
      | none =>
        simp only [Lru.evictOldest, last] at looped
        cases looped
        exact ⟨[], .done _, (List.append_nil _).symm, by simp⟩
      | some r =>
        cases value : s.values r with
        | none =>
          simp only [Lru.evictOldest, last, value] at looped
          cases looped
          exact ⟨[], .done _, (List.append_nil _).symm, by simp⟩
        | some e =>
          simp only [Lru.evictOldest, last, value] at looped
          obtain ⟨gone, evicts, all, room⟩ := ih (s.discard r e) _ looped
          refine ⟨e :: gone, .more full last value evicts, ?_, room⟩
          rw [all, List.append_assoc]
          rfl
    · simp only [Lru.evictLoop, if_neg full] at looped
      cases looped
      exact ⟨[], .done _, (List.append_nil _).symm, fun _ => full⟩

theorem Lru.Rep.discard (rep : s.Rep blocks) (r : Ref) (e : LruEntry) (member : r ∈ s.ll)
    (value : s.values r = some e) : (s.discard r e).Rep (Function.update blocks e.block.id none) := by
  obtain ⟨e', value', own, _⟩ := rep.held r member
  rw [value, Option.some.injEq] at value'
  subst value'
  constructor
  · exact rep.distinct.erase r
  · intro k inside
    obtain ⟨different, inside⟩ := (List.Nodup.mem_erase_iff rep.distinct).mp inside
    obtain ⟨x, xValue, xOwn, known⟩ := rep.held k inside
    have apart : x.block.id ≠ e.block.id := by
      intro same
      rw [same, own, Option.some.injEq] at xOwn
      exact different xOwn.symm
    refine ⟨x, xValue, ?_, ?_⟩
    · simpa only [Lru.discard, Function.update_of_ne apart] using xOwn
    · rw [Function.update_of_ne apart, known]
  · intro id k found
    by_cases same : id = e.block.id
    · subst same
      simp [Lru.discard] at found
    · simp only [Lru.discard, Function.update_of_ne same] at found
      obtain ⟨inside, x, xValue, named⟩ := rep.items id k found
      refine ⟨(List.Nodup.mem_erase_iff rep.distinct).mpr ⟨?_, inside⟩, x, xValue, named⟩
      intro again
      subst again
      rw [value, Option.some.injEq] at xValue
      exact same (xValue ▸ named.symm)
  · intro k inside
    exact rep.older k (List.mem_of_mem_erase inside)
  · intro id missing
    by_cases same : id = e.block.id
    · rw [same, Function.update_self]
    · rw [Function.update_of_ne same]
      apply rep.nothing
      simpa only [Lru.discard, Function.update_of_ne same] using missing

theorem Lru.Rep.evicts {size : UInt64} {gone : List LruEntry} {s' : Lru} (rep : s.Rep blocks)
    (evicts : Lru.Evicts size s gone s') : s'.Rep (without blocks (gone.map fun e => e.block.id)) := by
  induction evicts generalizing blocks with
  | done => exact rep
  | more _ last value _ ih => exact ih (rep.discard _ _ (List.mem_of_getLast? last) value)

theorem Lru.Rep.pushFront (rep : s.Rep blocks) (b : Block) (size : UInt64) (new : s.items b.id = none) :
    (s.pushFront b size).Rep (Function.update blocks b.id (some b)) := by
  have unseen : s.fresh ∉ s.ll := fun member => Nat.lt_irrefl _ (rep.older _ member)
  constructor
  · exact List.nodup_cons.mpr ⟨unseen, rep.distinct⟩
  · intro r member
    rcases List.mem_cons.mp member with same | older
    · subst same
      exact ⟨⟨b, size⟩, Function.update_self .., Function.update_self .., Function.update_self ..⟩
    · have different : r ≠ s.fresh := fun same => unseen (same ▸ older)
      obtain ⟨e, value, own, known⟩ := rep.held r older
      have apart : e.block.id ≠ b.id := by
        intro same
        rw [same, new] at own
        cases own
      refine ⟨e, ?_, ?_, ?_⟩
      · simpa only [Lru.pushFront, Function.update_of_ne different] using value
      · simpa only [Lru.pushFront, Function.update_of_ne apart] using own
      · rw [Function.update_of_ne apart, known]
  · intro id r found
    by_cases same : id = b.id
    · subst same
      simp only [Lru.pushFront, Function.update_self, Option.some.injEq] at found
      subst found
      exact ⟨List.mem_cons_self, ⟨b, size⟩, Function.update_self .., rfl⟩
    · simp only [Lru.pushFront, Function.update_of_ne same] at found
      obtain ⟨member, e, value, named⟩ := rep.items id r found
      have different : r ≠ s.fresh := fun again => unseen (again ▸ member)
      refine ⟨List.mem_cons_of_mem _ member, e, ?_, named⟩
      simpa only [Lru.pushFront, Function.update_of_ne different] using value
  · intro r member
    rcases List.mem_cons.mp member with same | older
    · exact same ▸ Nat.lt_succ_self _
    · exact Nat.lt_succ_of_lt (rep.older r older)
  · intro id missing
    by_cases same : id = b.id
    · subst same
      simp [Lru.pushFront] at missing
    · rw [Function.update_of_ne same]
      apply rep.nothing
      simpa only [Lru.pushFront, Function.update_of_ne same] using missing

inductive Lru.PutCase (s : Lru) (b : Block) : PutResult Lru → Prop where
  | present (r : Ref) (found : s.items b.id = some r) : PutCase s b ⟨some false, [], s.moveToFront r⟩
  | refused (absent : s.items b.id = none) (large : blockSize b > s.cap) : PutCase s b ⟨some false, [], s⟩
  | panics (absent : s.items b.id = none) (small : ¬blockSize b > s.cap)
      (failed : (Lru.evictLoop (blockSize b) (s.ll.length + 1) s []).1 = false) (gone : List LruEntry) (s' : Lru)
      (evicts : Lru.Evicts (blockSize b) s gone s') : PutCase s b ⟨none, gone.map fun e => e.block.id, s'⟩
  | placed (absent : s.items b.id = none) (small : ¬blockSize b > s.cap) (gone : List LruEntry) (s' : Lru)
      (evicts : Lru.Evicts (blockSize b) s gone s') (room : ¬s'.used + blockSize b > s'.cap) :
      PutCase s b ⟨some true, gone.map fun e => e.block.id, s'.pushFront b (blockSize b)⟩

theorem Lru.putCase (s : Lru) (b : Block) : s.PutCase b (s.put b) := by
  cases found : s.items b.id with
  | some r =>
    simp only [Lru.put, found]
    exact .present r found
  | none =>
    simp only [Lru.put, found]
    by_cases large : blockSize b > s.cap
    · rw [if_pos large]
      exact .refused found large
    · rw [if_neg large]
      cases looped : Lru.evictLoop (blockSize b) (s.ll.length + 1) s [] with
      | mk done result =>
        obtain ⟨after, s'⟩ := result
        obtain ⟨gone, evicts, all, room⟩ := evicts_of_lruLoop _ _ _ _ _ _ _ looped
        rw [List.nil_append] at all
        subst all
        cases done with
        | false => exact .panics found large (by rw [looped]) gone s' evicts
        | true => exact .placed found large gone s' evicts (room rfl)

theorem Lru.Rep.put (rep : s.Rep blocks) (b : Block) :
    (s.put b).stored = none ∨
    ((s.put b).stored = some false ∧ (s.put b).evicted = [] ∧ (s.put b).store.Rep blocks) ∨
    (blocks b.id = none ∧ (s.put b).stored = some true ∧
      (s.put b).store.Rep (Function.update (without blocks (s.put b).evicted) b.id (some b))) := by
  have ways := s.putCase b
  generalize s.put b = result at ways ⊢
  cases ways with
  | present r found => exact Or.inr (Or.inl ⟨rfl, rfl, rep.moveToFront r (rep.items b.id r found).1⟩)
  | refused absent large => exact Or.inr (Or.inl ⟨rfl, rfl, rep⟩)
  | panics absent small failed gone s' evicts => exact Or.inl rfl
  | placed absent small gone s' evicts room =>
    have missing := rep.nothing b.id absent
    have rep' := rep.evicts evicts
    have new := rep'.absent b.id (without_none blocks _ b.id missing)
    exact Or.inr (Or.inr ⟨missing, rfl, rep'.pushFront b _ new⟩)

theorem Lru.Rep.get (rep : s.Rep blocks) (id : BlockID) :
    (s.get id).1 = blocks id ∧ (s.get id).2.Rep blocks := by
  cases found : s.items id with
  | none =>
    simp only [Lru.get, found]
    exact ⟨(rep.nothing id found).symm, rep.stats _⟩
  | some r =>
    simp only [Lru.get, found]
    exact ⟨rep.read id r found, (rep.stats _).moveToFront r (rep.items id r found).1⟩

theorem Lru.Rep.contains (rep : s.Rep blocks) (id : BlockID) :
    (s.contains id).1 = (blocks id).isSome ∧ (s.contains id).2.Rep blocks := by
  cases found : s.items id with
  | none =>
    simp only [Lru.contains, found, rep.nothing id found, Option.isSome_none, true_and]
    exact rep.stats _
  | some r =>
    obtain ⟨member, e, value, _⟩ := rep.items id r found
    have known := rep.read id r found
    rw [value] at known
    simp only [Lru.contains, found, ← known, Option.map_some, Option.isSome_some, true_and]
    exact (rep.stats _).moveToFront r member

theorem Lru.Rep.touch (rep : s.Rep blocks) (id : BlockID) : (s.touch id).Rep blocks := by
  cases found : s.items id with
  | none => simpa only [Lru.touch, found] using rep
  | some r => simpa only [Lru.touch, found] using rep.moveToFront r (rep.items id r found).1

end PrefixMesh.Blockstore
