import PrefixMesh.Blockstore.Lru
import PrefixMesh.Lib.Arena
import PrefixMesh.Lib.Intrusive

/-! The paged store. Entries live on a heap and are named by references; the position
of an entry in `order` and its list links are kept in the containers of `Lib`. The
`float64` arithmetic and the random source are parameters: `intn k` is what the
source draws the `k`-th time, and an index below `n` is that value modulo `n`. -/

namespace PrefixMesh.Blockstore

open Lib

/-- The `float64` operations that the scores are made of. -/
structure Float64 (F : Type) where
  ofUint64 : UInt64 → F
  add : F → F → F
  mul : F → F → F
  div : F → F → F
  neg : F → F
  exp2 : F → F
  lt : F → F → Bool

inductive EvictionPolicy where
  | lru
  | cost
  deriving DecidableEq

def evictSample : Nat := 16

def frecencyHalfLife : UInt64 := 4096

structure PagedEntry (F : Type) where
  id : BlockID
  parentID : BlockID
  modelID : String
  tokenCount : UInt32
  costUS : UInt64
  size : {n : Nat // n < 2 ^ 63}
  pages : List Int32
  lastAccess : UInt64
  freq : F

structure Paged (F : Type) where
  pageSize : Nat
  arena : List UInt8
  free : List Int32
  items : BlockID → Option Ref
  order : Indexed Ref
  links : Links Ref
  clock : UInt64
  drawn : Nat
  pol : EvictionPolicy
  stats : Stats
  entries : Ref → PagedEntry F
  fresh : Ref

variable {F : Type} (fl : Float64 F) (intn : Nat → Nat)

def PagedEntry.zero : PagedEntry F where
  id := ⟨List.replicate hashSize 0, List.length_replicate⟩
  parentID := ⟨List.replicate hashSize 0, List.length_replicate⟩
  modelID := ""
  tokenCount := 0
  costUS := 0
  size := ⟨0, by decide⟩
  pages := []
  lastAccess := 0
  freq := fl.ofUint64 0

def nPages (capacityBytes : UInt64) (pageSize : Int64) : Int :=
  capacityBytes.toInt64.toInt.tdiv pageSize.toInt

/-- A page size that is not positive panics, and so does a negative number of pages. -/
def newPaged (capacityBytes : UInt64) (pageSize : Int64) (pol : EvictionPolicy) : Option (Paged F) :=
  let nPages := nPages capacityBytes pageSize
  if pageSize.toInt ≤ 0 ∨ nPages < 0 then none
  else some {
    pageSize := pageSize.toInt.toNat
    arena := List.replicate (nPages.toNat * pageSize.toInt.toNat) 0
    free := (List.range nPages.toNat).map Int32.ofNat
    items := fun _ => none
    order := ⟨[], fun _ => 0⟩
    links := Links.empty
    clock := 0
    drawn := 0
    pol := pol
    stats := ⟨0, UInt64.ofNat (nPages.toNat * pageSize.toInt.toNat), 0, 0, 0, 0⟩
    entries := fun _ => PagedEntry.zero fl
    fresh := 0 }

/-- The sum is an `int` and may overflow. -/
def Paged.pagesNeeded (p : Paged F) (size : Nat) : Int :=
  (Int.bmod (size + p.pageSize - 1) (2 ^ 64)).tdiv p.pageSize

def decayed (freq : F) (age : UInt64) : F :=
  fl.mul freq (fl.exp2 (fl.div (fl.neg (fl.ofUint64 age)) (fl.ofUint64 frecencyHalfLife)))

def Paged.touch (p : Paged F) (r : Ref) : Paged F :=
  let clock := p.clock + 1
  let e := p.entries r
  let e := { e with
    freq := fl.add (fl.ofUint64 1) (decayed fl e.freq (clock - e.lastAccess))
    lastAccess := clock }
  { p with clock := clock, entries := Function.update p.entries r e, links := p.links.moveFront r }

def Paged.eScore (p : Paged F) (r : Ref) : F :=
  let e := p.entries r
  fl.div (fl.mul (decayed fl e.freq (p.clock - e.lastAccess)) (fl.ofUint64 e.costUS))
    (fl.ofUint64 (UInt64.ofNat (e.pages.length * p.pageSize)))

/-- The sampling loop, with the best candidate so far and its score. -/
def Paged.sampleLoop (p : Paged F) : Nat → Nat → Option (Ref × F) → Option (Ref × F)
  | 0, _, best => best
  | left + 1, drawn, best =>
      match p.order.order[intn drawn % p.order.order.length]? with
      | none => best
      | some r =>
          let eScore := p.eScore fl r
          match best with
          | none => p.sampleLoop left (drawn + 1) (some (r, eScore))
          | some (victim, victimScore) =>
              if fl.lt eScore victimScore then p.sampleLoop left (drawn + 1) (some (r, eScore))
              else p.sampleLoop left (drawn + 1) (some (victim, victimScore))

def Paged.victim (p : Paged F) : Option Ref × Nat :=
  match p.pol with
  | .cost =>
      let samples := min evictSample p.order.order.length
      ((p.sampleLoop fl intn samples p.drawn none).map Prod.fst, p.drawn + samples)
  | .lru => (p.links.tail, p.drawn)

/-- The second half of `evictOne`: the victim's pages are freed and it is forgotten. -/
def Paged.discard (p : Paged F) (victim : Ref) (drawn : Nat) : Paged F :=
  let e := p.entries victim
  { p with
    free := p.free ++ e.pages
    links := p.links.remove victim
    order := p.order.swapRemove victim
    items := Function.update p.items e.id none
    drawn := drawn
    stats := { p.stats with
      occupancyBytes := p.stats.occupancyBytes - UInt64.ofNat (e.pages.length * p.pageSize)
      evictions := p.stats.evictions + 1
      evictedCostUS := p.stats.evictedCostUS + e.costUS } }

/-- `none` if there is nothing to evict, otherwise the id of the block that went. -/
def Paged.evictOne (p : Paged F) : Option (BlockID × Paged F) :=
  match p.victim fl intn with
  | (none, _) => none
  | (some victim, drawn) => some ((p.entries victim).id, p.discard victim drawn)

/-- The loop of `Put` that makes room: whether it did, and the ids it evicted. -/
def Paged.evictLoop (need : Nat) : Nat → Paged F → List BlockID → Bool × List BlockID × Paged F
  | 0, p, evicted => (false, evicted, p)
  | fuel + 1, p, evicted =>
      if p.free.length < need then
        match p.evictOne fl intn with
        | none => (false, evicted, p)
        | some (id, p) => evictLoop need fuel p (evicted ++ [id])
      else (true, evicted, p)

def page (pg : Int32) : Nat := pg.toInt.toNat

/-- The loop of `Put` that takes free pages, last in first out, and fills them. A store of more than
`2 ^ 31` pages has negative page indices, at which the slice expression panics: no pages then. -/
def placeLoop (pageSize : Nat) (payload : List UInt8) :
    Nat → Nat → List Int32 → List UInt8 → List Int32 → List Int32 × List UInt8 × Option (List Int32)
  | 0, _, free, arena, pages => (free, arena, some pages)
  | left + 1, i, free, arena, pages =>
      match free.getLast? with
      | none => (free, arena, none)
      | some pg =>
          if pg.toInt < 0 then (free.dropLast, arena, none)
          else
            let chunk := (payload.drop (i * pageSize)).take pageSize
            placeLoop pageSize payload left (i + 1) free.dropLast (copyAt arena (page pg * pageSize) chunk)
              (pages ++ [pg])

def Paged.link (p : Paged F) (b : Block) (free : List Int32) (arena : List UInt8) (pages : List Int32) :
    Paged F :=
  let r := p.fresh
  let e : PagedEntry F := { PagedEntry.zero fl with
    id := b.id
    parentID := b.parentID
    modelID := b.modelID
    tokenCount := b.tokenCount
    costUS := b.costUS
    size := ⟨b.payload.1.length, b.payload.2⟩
    pages := pages }
  { p with
    free := free
    arena := arena
    order := p.order.push r
    items := Function.update p.items b.id (some r)
    links := p.links.pushFront r
    entries := Function.update p.entries r e
    fresh := r + 1 }

def Paged.occupy (p : Paged F) (need : Nat) : Paged F :=
  { p with stats := { p.stats with
    occupancyBytes := p.stats.occupancyBytes + UInt64.ofNat (need * p.pageSize) } }

def Paged.place (p : Paged F) (b : Block) (need : Nat) (evicted : List BlockID) : PutResult (Paged F) :=
  match placeLoop p.pageSize b.payload.1 need 0 p.free p.arena [] with
  | (free, arena, none) => ⟨none, evicted, { p with free := free, arena := arena }⟩
  | (free, arena, some pages) =>
      ⟨some true, evicted, ((p.link fl b free arena pages).touch fl p.fresh).occupy need⟩

def Paged.put (p : Paged F) (b : Block) : PutResult (Paged F) :=
  match p.items b.id with
  | some r => ⟨some false, [], p.touch fl r⟩
  | none =>
      let need := p.pagesNeeded b.payload.1.length
      if need = 0 ∨ need > (p.arena.length / p.pageSize : Nat) then ⟨some false, [], p⟩
      -- the loop does nothing then, and `make` panics at a negative length
      else if need < 0 then ⟨none, [], p⟩
      else
        match evictLoop fl intn need.toNat (p.order.order.length + 1) p [] with
        | (false, evicted, p) => ⟨some false, evicted, p⟩
        | (true, evicted, p) => p.place fl b need.toNat evicted

def Paged.missed (p : Paged F) : Paged F :=
  { p with stats := { p.stats with misses := p.stats.misses + 1 } }

def Paged.hit (p : Paged F) (r : Ref) : Paged F :=
  { p with stats := { p.stats with hits := p.stats.hits + 1 } }.touch fl r

/-- The payload of an entry, read page by page into a fresh slice. -/
def Paged.payload (p : Paged F) (e : PagedEntry F) : ByteSlice :=
  ⟨gather p.pageSize p.arena e.size (e.pages.map page) 0 (List.replicate e.size 0), by
    rw [length_gather, List.length_replicate]
    exact e.size.2⟩

def Paged.read (p : Paged F) (r : Ref) : Block :=
  let e := p.entries r
  ⟨e.id, e.parentID, e.modelID, p.payload e, e.tokenCount, e.costUS⟩

def Paged.get (p : Paged F) (id : BlockID) : Option Block × Paged F :=
  match p.items id with
  | none => (none, p.missed)
  | some r =>
      let p := p.hit fl r
      (some (p.read r), p)

def Paged.contains (p : Paged F) (id : BlockID) : Bool × Paged F :=
  match p.items id with
  | none => (false, p.missed)
  | some r => (true, p.hit fl r)

def Paged.touchID (p : Paged F) (id : BlockID) : Paged F :=
  match p.items id with
  | none => p
  | some r => p.touch fl r

end PrefixMesh.Blockstore
