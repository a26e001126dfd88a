import PrefixMesh.Lib.Decay
import PrefixMesh.Blockstore.Admission
import PrefixMesh.Blockstore.Residents

/-! The cost policy on exact numbers. The weight that an entry carries is what its uses
since it was stored count for, faded by a half-life of 4096 uses of the store; an eviction
takes from its sample a block whose faded uses times cost by the byte are least. -/

namespace PrefixMesh.Blockstore

open Lib

/-- `float64` without rounding. -/
noncomputable def reals : Float64 ℝ where
  ofUint64 n := n.toNat
  add x y := x + y
  mul x y := x * y
  div x y := x / y
  neg x := -x
  exp2 x := (2 : Nat) ^ x
  lt x y := decide (x < y)

theorem decayed_reals (freq : ℝ) (age : UInt64) : decayed reals freq age = freq * fading 4096 age.toNat := by
  have life : frecencyHalfLife.toNat = 4096 := rfl
  simp only [decayed, reals, fading, life, Nat.cast_ofNat]

/-- The uses of the blocks of a store: how many there have been, and the times of those of each block since it was
stored. -/
structure Ledger where
  now : Nat
  uses : BlockID → List Nat

def Ledger.new : Ledger := ⟨0, fun _ => []⟩

def Ledger.use (l : Ledger) (id : BlockID) (earlier : List Nat) : Ledger :=
  ⟨l.now + 1, Function.update l.uses id ((l.now + 1) :: earlier)⟩

noncomputable def Ledger.count (l : Ledger) (id : BlockID) (time : ℝ) : ℝ :=
  fadedCount 4096 ((l.uses id).map (Nat.cast : Nat → ℝ)) time

theorem Ledger.count_use (l : Ledger) (id : BlockID) :
    (l.use id (l.uses id)).count id (l.now + 1 : Nat) = 1 + l.count id (l.now + 1 : Nat) := by
  simp only [Ledger.count, Ledger.use, Function.update_self, List.map_cons]
  exact fadedCount_cons _ _

theorem Ledger.count_use_of_ne (l : Ledger) {id other : BlockID} (different : other ≠ id) (earlier : List Nat)
    (time : ℝ) : (l.use id earlier).count other time = l.count other time := by
  simp only [Ledger.count, Ledger.use, Function.update_of_ne different]

section Ledger

variable {F : Type} (fl : Float64 F) (intn : Nat → Nat)

/-- An operation uses the block of its id if it is there, and a `Put` that stores it starts anew. -/
def Paged.record (p : Paged F) (op : Op) (l : Ledger) : Ledger :=
  if (p.items op.id).isSome then l.use op.id (l.uses op.id)
  else
    match op with
    | .put b => if (p.put fl intn b).stored = some true then l.use b.id [] else l
    | .get _ | .contains _ | .touch _ => l

theorem Paged.record_present (p : Paged F) (op : Op) {r : Ref} (found : p.items op.id = some r) (l : Ledger) :
    p.record fl intn op l = l.use op.id (l.uses op.id) := by
  unfold Paged.record
  rw [if_pos (by rw [found]; rfl)]

theorem Paged.record_put (p : Paged F) {b : Block} (absent : p.items b.id = none) (l : Ledger) :
    p.record fl intn (.put b) l = if (p.put fl intn b).stored = some true then l.use b.id [] else l := by
  simp [Paged.record, Op.id, absent]

def Paged.ledger (p : Paged F) : List Op → Ledger → Ledger
  | [], l => l
  | op :: rest, l => (p.perform fl intn op).2.ledger rest (p.record fl intn op l)

end Ledger

variable (intn : Nat → Nat) {p p' : Paged ℝ} {lru : List Ref} {l : Ledger}

structure Paged.Frecent (p : Paged ℝ) (l : Ledger) : Prop where
  clock : p.clock.toNat = l.now
  past : ∀ id r, p.items id = some r → (p.entries r).lastAccess.toNat ≤ l.now
  freq : ∀ id r, p.items id = some r → (p.entries r).freq = l.count id (p.entries r).lastAccess.toNat

/-- Nothing is read but the clock, the entries and the map, which may lose ids. -/
theorem Paged.Frecent.kept (frecent : p.Frecent l) (clock : p'.clock = p.clock) (entries : p'.entries = p.entries)
    (items : ∀ id r, p'.items id = some r → p.items id = some r) : p'.Frecent l where
  clock := clock ▸ frecent.clock
  past := fun id r found => entries ▸ frecent.past id r (items id r found)
  freq := fun id r found => entries ▸ frecent.freq id r (items id r found)

theorem Paged.Frecent.touch (frecent : p.Frecent l) (linked : p.Linked lru) {id : BlockID} {r : Ref}
    (found : p.items id = some r) (bound : l.now + 1 < 2 ^ 64) :
    (p.touch reals r).Frecent (l.use id (l.uses id)) := by
  have clock : (p.clock + 1).toNat = l.now + 1 := by
    rw [UInt64.toNat_add, frecent.clock]
    exact Nat.mod_eq_of_lt bound
  have past := frecent.past id r found
  refine ⟨clock, ?_, ?_⟩
  · intro other k inside
    by_cases same : k = r
    · subst same
      simp only [Paged.touch, Function.update_self, clock, Ledger.use, le_refl]
    · simp only [Paged.touch, Function.update_of_ne same]
      exact (frecent.past other k inside).trans (Nat.le_succ _)
  · intro other k inside
    by_cases same : k = r
    · subst same
      obtain rfl : other = id :=
        ((linked.items other k).mp inside).2.symm.trans ((linked.items id k).mp found).2
      have age : (p.clock + 1 - (p.entries k).lastAccess).toNat = l.now + 1 - (p.entries k).lastAccess.toNat := by
        rw [UInt64.toNat_sub_of_le _ _ (UInt64.le_iff_toNat_le.mpr (by omega)), clock]
      simp only [Paged.touch, Function.update_self, clock]
      rw [l.count_use, decayed_reals, age, frecent.freq other k inside, Nat.cast_sub (by omega), Ledger.count,
        fadedCount_later]
      simp [reals, Ledger.count]
    · have different : other ≠ id := by
        rintro rfl
        exact same (Option.some.inj (inside.symm.trans found))
      simp only [Paged.touch, Function.update_of_ne same]
      rw [frecent.freq other k inside, l.count_use_of_ne different]

theorem Paged.Frecent.hit (frecent : p.Frecent l) (linked : p.Linked lru) {id : BlockID} {r : Ref}
    (found : p.items id = some r) (bound : l.now + 1 < 2 ^ 64) :
    (p.hit reals r).Frecent (l.use id (l.uses id)) := by
  have counted : { p with stats := { p.stats with hits := p.stats.hits + 1 } }.Frecent l :=
    frecent.kept rfl rfl fun _ _ inside => inside
  exact counted.touch (linked.stats _) found bound

theorem Paged.Frecent.link (frecent : p.Frecent l) (linked : p.Linked lru) (b : Block) (free : List Int32)
    (arena : List UInt8) (pages : List Int32) :
    (p.link reals b free arena pages).Frecent ⟨l.now, Function.update l.uses b.id []⟩ := by
  have other : ∀ id r, id ≠ b.id → (p.link reals b free arena pages).items id = some r →
      p.items id = some r ∧ (p.link reals b free arena pages).entries r = p.entries r := by
    intro id r different found
    simp only [Paged.link, Function.update_of_ne different] at found
    exact ⟨found, linked.link_entries reals b free arena pages ((linked.items id r).mp found).1⟩
  have new : ∀ r, (p.link reals b free arena pages).items b.id = some r → r = p.fresh := by
    intro r found
    simp only [Paged.link, Function.update_self, Option.some.injEq] at found
    exact found.symm
  refine ⟨frecent.clock, ?_, ?_⟩
  · intro id r found
    by_cases same : id = b.id
    · subst same
      simp [new r found, Paged.link, PagedEntry.zero]
    · obtain ⟨old, entry⟩ := other id r same found
      rw [entry]
      exact frecent.past id r old
  · intro id r found
    by_cases same : id = b.id
    · subst same
      simp [new r found, Paged.link, PagedEntry.zero, Ledger.count, reals]
    · obtain ⟨old, entry⟩ := other id r same found
      rw [entry, frecent.freq id r old]
      simp only [Ledger.count, Function.update_of_ne same]

theorem Paged.Evicts.clock {need : Nat} {gone : List Ref} (evicts : Paged.Evicts reals intn need p gone p') :
    p'.clock = p.clock := by
  induction evicts with
  | done => rfl
  | more _ _ _ ih => exact ih

theorem Paged.Frecent.evicts {need : Nat} {gone : List Ref} (frecent : p.Frecent l) (linked : p.Linked lru)
    (evicts : Paged.Evicts reals intn need p gone p') : p'.Frecent l := by
  refine frecent.kept (evicts.clock intn) evicts.same.1 ?_
  intro id r found
  obtain ⟨member, named⟩ := ((linked.evicts evicts).1.items id r).mp found
  rw [evicts.same.1] at named
  exact (linked.items id r).mpr ⟨(List.diff_sublist _ _).subset member, named⟩

theorem Paged.Frecent.place (frecent : p.Frecent l) (linked : p.Linked lru) (b : Block) (new : p.items b.id = none)
    (free : List Int32) (arena : List UInt8) (pages : List Int32) (need : Nat) (bound : l.now + 1 < 2 ^ 64) :
    (((p.link reals b free arena pages).touch reals p.fresh).occupy need).Frecent (l.use b.id []) := by
  have linked' := linked.link reals b new free arena pages
  have found : (p.link reals b free arena pages).items b.id = some p.fresh := Function.update_self ..
  have touched := (frecent.link linked b free arena pages).touch linked' found bound
  have ledger : (⟨l.now, Function.update l.uses b.id []⟩ : Ledger).use b.id (Function.update l.uses b.id [] b.id) =
      l.use b.id [] := by
    simp only [Ledger.use, Function.update_self, Function.update_idem]
  rw [ledger] at touched
  exact touched.kept rfl rfl fun _ _ inside => inside

theorem Paged.Frecent.perform (frecent : p.Frecent l) (linked : p.Linked lru) (op : Op)
    (bound : l.now + 1 < 2 ^ 64) : (p.perform reals intn op).2.Frecent (p.record reals intn op l) := by
  cases op with
  | put b =>
    have ways := p.putCase reals intn b
    cases found : p.items b.id with
    | some r =>
      rw [p.record_present reals intn (.put b) found]
      simp only [Paged.perform, Paged.put, found]
      exact frecent.touch linked found bound
    | none =>
      rw [p.record_put reals intn found]
      simp only [Paged.perform]
      generalize p.put reals intn b = result at ways ⊢
      cases ways with
      | present r here =>
        rw [found] at here
        cases here
      | refused _ misfit => exact frecent
      | overflow _ negative => exact frecent
      | stuck _ need possible failed gone p' evicts => exact frecent.evicts intn linked evicts
      | placed _ need exact_ some_ possible gone p' evicts room =>
        have frecent' := frecent.evicts intn linked evicts
        have linked' := (linked.evicts evicts).1
        rcases p'.place_cases reals b need (gone.map fun r => (p.entries r).id) with
          ⟨free, arena, placed⟩ | ⟨free, arena, pages, placed⟩
        · rw [placed]
          exact frecent'.kept rfl rfl fun _ _ inside => inside
        · rw [placed]
          exact frecent'.place linked' b (linked.absent_evicts evicts b.id found) free arena pages need bound
  | get id =>
    cases found : p.items id with
    | some r =>
      rw [p.record_present reals intn (.get id) found]
      simp only [Paged.perform, Paged.get, found]
      exact frecent.hit linked found bound
    | none =>
      simp only [Paged.perform, Paged.get, Paged.record, Op.id, found]
      exact frecent.kept rfl rfl fun _ _ inside => inside
  | contains id =>
    cases found : p.items id with
    | some r =>
      rw [p.record_present reals intn (.contains id) found]
      simp only [Paged.perform, Paged.contains, found]
      exact frecent.hit linked found bound
    | none =>
      simp only [Paged.perform, Paged.contains, Paged.record, Op.id, found]
      exact frecent.kept rfl rfl fun _ _ inside => inside
  | touch id =>
    cases found : p.items id with
    | some r =>
      rw [p.record_present reals intn (.touch id) found]
      simp only [Paged.perform, Paged.touchID, found]
      exact frecent.touch linked found bound
    | none =>
      simp only [Paged.perform, Paged.touchID, Paged.record, Op.id, found]
      exact frecent

theorem Paged.record_now {F : Type} (fl : Float64 F) (p : Paged F) (op : Op) (l : Ledger) :
    (p.record fl intn op l).now ≤ l.now + 1 := by
  unfold Paged.record
  split
  · exact le_refl _
  · split
    · split
      · exact le_refl _
      · exact Nat.le_succ _
    all_goals exact Nat.le_succ _

theorem Paged.Frecent.run {count : Nat} {events : List Event} (frecent : p.Frecent l)
    (rep : p.Rep [] count lru (blocksOf events)) (ops : List Op) (bound : l.now + ops.length < 2 ^ 64) :
    (p.run reals intn ops events).2.Frecent (p.ledger reals intn ops l) := by
  induction ops generalizing p l lru events with
  | nil => exact frecent
  | cons op rest ih =>
    rw [List.length_cons] at bound
    obtain ⟨lru', rep'⟩ := rep.perform reals intn op
    have step := p.record_now intn reals op l
    exact ih (frecent.perform intn rep.linked op (by omega)) rep' (by omega)

/-- What a block is worth to the policy: its faded uses times its cost, for each byte of the pages it takes. -/
noncomputable def Ledger.worth (l : Ledger) (pageSize : Nat) (b : Block) : ℝ :=
  l.count b.id l.now * b.costUS.toNat / (pagesFor pageSize b.payload.1.length * pageSize : Nat)

theorem Paged.Rep.held_bytes {count : Nat} {blocks : BlockID → Option Block} (rep : p.Rep [] count lru blocks)
    (accounts : p.Accounts) {r : Ref} (member : r ∈ lru) : (p.entries r).pages.length * p.pageSize < 2 ^ 64 := by
  have inside : (p.entries r).pages.length ≤ (lru.flatMap fun k => (p.entries k).pages).length := by
    have listed : (p.entries r).pages ∈ lru.map fun k => (p.entries k).pages := List.mem_map_of_mem member
    rw [List.flatMap_def]
    exact (List.sublist_flatten_of_mem listed).length_le
  have all := rep.free_length
  rw [List.length_nil, Nat.zero_add] at all
  calc (p.entries r).pages.length * p.pageSize
    _ ≤ count * p.pageSize := Nat.mul_le_mul_right _ (by omega)
    _ = p.stats.capacityBytes.toNat := by rw [accounts.capacity, rep.arena, List.length_nil, Nat.zero_add]
    _ < 2 ^ 64 := p.stats.capacityBytes.toNat_lt

theorem Paged.Frecent.eScore {count : Nat} {blocks : BlockID → Option Block} (frecent : p.Frecent l)
    (rep : p.Rep [] count lru blocks) (accounts : p.Accounts) {r : Ref} (member : r ∈ lru) :
    ∃ b, blocks (p.entries r).id = some b ∧ p.eScore reals r = l.worth p.pageSize b := by
  obtain ⟨b, known, stores⟩ := rep.held r member
  have sizes := ((rep.invariant accounts).sizes r (rep.same.mem_iff.mpr member)).1
  rw [stores.size] at sizes
  have found := (rep.items _ r).mpr ⟨member, rfl⟩
  have past := frecent.past _ r found
  have age : (p.clock - (p.entries r).lastAccess).toNat = l.now - (p.entries r).lastAccess.toNat := by
    rw [UInt64.toNat_sub_of_le _ _ (UInt64.le_iff_toNat_le.mpr (frecent.clock ▸ past)), frecent.clock]
  have weight : decayed reals (p.entries r).freq (p.clock - (p.entries r).lastAccess) = l.count b.id l.now := by
    rw [decayed_reals, age, frecent.freq _ r found, Nat.cast_sub past, Ledger.count, fadedCount_later, stores.id]
    rfl
  have bytes : (UInt64.ofNat ((p.entries r).pages.length * p.pageSize)).toNat =
      pagesFor p.pageSize b.payload.1.length * p.pageSize := by
    rw [UInt64.toNat_ofNat_of_lt' (rep.held_bytes accounts member), sizes]
    rfl
  refine ⟨b, stores.id ▸ known, ?_⟩
  simp only [Paged.eScore, weight]
  simp only [reals, bytes, stores.costUS, Ledger.worth]

section Draws

variable {K L : Type}

/-- What is drawn from a list, with repetitions. -/
def draws (order : List K) : Nat → Nat → List K
  | 0, _ => []
  | left + 1, drawn => order[intn drawn % order.length]?.toList ++ draws order left (drawn + 1)

theorem draws_mem (order : List K) (left drawn : Nat) : ∀ r ∈ draws intn order left drawn, r ∈ order := by
  induction left generalizing drawn with
  | zero => exact List.forall_mem_nil _
  | succ left ih =>
    intro r inside
    rcases List.mem_append.mp inside with first | later
    · exact List.mem_of_getElem? (Option.mem_toList.mp first)
    · exact ih (drawn + 1) r later

theorem draws_map (f : K → L) (order : List K) (left drawn : Nat) :
    (draws intn order left drawn).map f = draws intn (order.map f) left drawn := by
  induction left generalizing drawn with
  | zero => rfl
  | succ left ih =>
    rw [draws, draws, List.map_append, ih, List.getElem?_map, List.length_map]
    cases order[intn drawn % order.length]? with
    | none => rfl
    | some r => rfl

def swapOut [BEq K] (order : List K) (victim : K) : List K :=
  match order.getLast? with
  | none => order
  | some last => (order.set (order.idxOf victim) last).dropLast

end Draws

theorem Paged.sampleLoop_least (p : Paged ℝ) (some_ : 0 < p.order.order.length) (left drawn : Nat)
    (best : Option (Ref × ℝ)) (scored : ∀ x ∈ best, x.2 = p.eScore reals x.1) :
    ∀ x ∈ p.sampleLoop reals intn left drawn best, x.2 = p.eScore reals x.1 ∧
      (x ∈ best ∨ x.1 ∈ draws intn p.order.order left drawn) ∧ (∀ y ∈ best, x.2 ≤ y.2) ∧
      ∀ r ∈ draws intn p.order.order left drawn, x.2 ≤ p.eScore reals r := by
  induction left generalizing drawn best with
  | zero =>
    intro x found
    exact ⟨scored x found, Or.inl found, fun y known => (Option.mem_unique known found) ▸ le_refl _,
      List.forall_mem_nil _⟩
  | succ left ih =>
    obtain ⟨r, place⟩ : ∃ r, p.order.order[intn drawn % p.order.order.length]? = some r :=
      ⟨_, List.getElem?_eq_getElem (Nat.mod_lt (intn drawn) some_)⟩
    have drew : draws intn p.order.order (left + 1) drawn = r :: draws intn p.order.order left (drawn + 1) := by
      rw [draws, place]
      rfl
    -- the better of the best so far and the new candidate goes on
    have goes_on : ∀ next, next.2 = p.eScore reals next.1 → (next ∈ best ∨ next.1 = r) →
        next.2 ≤ p.eScore reals r → (∀ y ∈ best, next.2 ≤ y.2) →
        ∀ x ∈ p.sampleLoop reals intn left (drawn + 1) (some next), x.2 = p.eScore reals x.1 ∧
          (x ∈ best ∨ x.1 ∈ draws intn p.order.order (left + 1) drawn) ∧ (∀ y ∈ best, x.2 ≤ y.2) ∧
          ∀ k ∈ draws intn p.order.order (left + 1) drawn, x.2 ≤ p.eScore reals k := by
      intro next own chosen low below x found
      obtain ⟨score, source, least, later⟩ :=
        ih (drawn + 1) (some next) (fun y same => by cases same; exact own) x found
      have bound := least next rfl
      rw [drew]
      refine ⟨score, ?_, fun y known => bound.trans (below y known), ?_⟩
      · rcases source with same | inside
        · cases same
          rcases chosen with known | rfl
          · exact Or.inl known
          · exact Or.inr List.mem_cons_self
        · exact Or.inr (List.mem_cons_of_mem _ inside)
      · intro k inside
        rcases List.mem_cons.mp inside with rfl | inside
        · exact bound.trans low
        · exact later k inside
    cases best with
    | none =>
      simp only [Paged.sampleLoop, place]
      exact goes_on (r, p.eScore reals r) rfl (Or.inr rfl) (le_refl _) (fun y known => by cases known)
    | some y =>
      have own := scored y rfl
      simp only [Paged.sampleLoop, place]
      split
      next less =>
        have lower : p.eScore reals r < y.2 := of_decide_eq_true less
        exact goes_on (r, p.eScore reals r) rfl (Or.inr rfl) (le_refl _) (fun z known => by cases known; exact lower.le)
      next other =>
        have upper : y.2 ≤ p.eScore reals r := not_lt.mp fun lower => other (decide_eq_true lower)
        exact goes_on y own (Or.inl rfl) upper (fun z known => by cases known; exact le_refl _)

def sample (order : List BlockID) (drawn : Nat) : List BlockID :=
  draws intn order (min evictSample order.length) drawn

inductive Sampled (worth : BlockID → ℝ) : List BlockID → Nat → List BlockID → Prop where
  | done (order : List BlockID) (drawn : Nat) : Sampled worth order drawn []
  | more {order : List BlockID} {drawn : Nat} {victim : BlockID} {gone : List BlockID}
      (chosen : victim ∈ sample intn order drawn) (least : ∀ id ∈ sample intn order drawn, worth victim ≤ worth id)
      (rest : Sampled worth (swapOut order victim) (drawn + min evictSample order.length) gone) :
      Sampled worth order drawn (victim :: gone)

theorem Paged.Linked.order_nodup (linked : p.Linked lru) : (p.ids p.order.order).Nodup :=
  (linked.same.map _).nodup_iff.mpr linked.ids_nodup

theorem Paged.Linked.mem_order (linked : p.Linked lru) (id : BlockID) :
    id ∈ p.ids p.order.order ↔ (p.items id).isSome = true := by
  rw [Paged.ids, List.mem_map, Option.isSome_iff_exists]
  refine exists_congr fun r => ?_
  rw [linked.items, linked.same.mem_iff]

theorem Paged.Linked.order_discard (linked : p.Linked lru) {r : Ref} (member : r ∈ lru) (drawn : Nat) :
    (p.discard r drawn).ids (p.discard r drawn).order.order = swapOut (p.ids p.order.order) (p.entries r).id := by
  obtain ⟨i, found⟩ := List.mem_iff_getElem?.mp (linked.same.mem_iff.mpr member)
  have place := linked.order.place i r found
  obtain ⟨inside, here⟩ := List.getElem?_eq_some_iff.mp found
  have named : (p.ids p.order.order).idxOf (p.entries r).id = i := by
    have at_ := linked.order_nodup.idxOf_getElem i (by rw [Paged.ids, List.length_map]; exact inside)
    simpa only [Paged.ids, List.getElem_map, here] using at_
  unfold swapOut
  rw [named]
  simp only [Paged.discard, Indexed.swapRemove, Paged.ids, List.getLast?_map, place]
  cases p.order.order.getLast? with
  | none => rfl
  | some last =>
    simp only [Option.map_some, List.map_dropLast, List.map_set]

theorem Paged.Evicts.sampled {need : Nat} {gone : List Ref} {worth : BlockID → ℝ}
    (evicts : Paged.Evicts reals intn need p gone p') (linked : p.Linked lru) (policy : p.pol = .cost)
    (scores : ∀ r ∈ lru, p.eScore reals r = worth (p.entries r).id) :
    Sampled intn worth (p.ids p.order.order) p.drawn (gone.map fun r => (p.entries r).id) := by
  induction evicts generalizing lru with
  | done => exact .done _ _
  | @more p p' r gone short picked rest ih =>
    have member : r ∈ lru := by
      rcases linked.victim reals intn with ⟨_, none_⟩ | ⟨k, inside, chosen⟩
      · rw [none_] at picked
        cases picked
      · rw [chosen, Option.some.injEq] at picked
        exact picked ▸ inside
    have some_ : 0 < p.order.order.length := List.length_pos_of_mem (linked.same.mem_iff.mpr member)
    have later : (p.victim reals intn).2 = p.drawn + min evictSample p.order.order.length := by
      simp only [Paged.victim, policy]
    simp only [Paged.victim, policy] at picked
    obtain ⟨x, found, rfl⟩ := Option.map_eq_some_iff.mp picked
    obtain ⟨score, source, _, least⟩ :=
      p.sampleLoop_least intn some_ _ p.drawn none (fun y known => by cases known) x found
    have drawn : sample intn (p.ids p.order.order) p.drawn =
        p.ids (draws intn p.order.order (min evictSample p.order.order.length) p.drawn) := by
      rw [sample, Paged.ids, Paged.ids, draws_map, List.length_map]
    refine .more ?_ ?_ ?_
    · rw [drawn]
      rcases source with known | inside
      · cases known
      · exact List.mem_map_of_mem inside
    · rw [drawn]
      intro id inside
      obtain ⟨k, listed, rfl⟩ := List.mem_map.mp inside
      rw [← scores x.1 member, ← scores k (linked.same.mem_iff.mp (draws_mem intn _ _ _ k listed)), ← score]
      exact least k listed
    · have rest' := ih (linked.discard x.1 member _) policy fun k inside => scores k (List.mem_of_mem_erase inside)
      rw [linked.order_discard member] at rest'
      rw [Paged.ids, List.length_map, ← later]
      exact rest'

theorem Paged.Linked.put_sampled (linked : p.Linked lru) (policy : p.pol = .cost) {worth : BlockID → ℝ}
    (scores : ∀ r ∈ lru, p.eScore reals r = worth (p.entries r).id) (b : Block) :
    Sampled intn worth (p.ids p.order.order) p.drawn (p.put reals intn b).evicted := by
  have ways := p.putCase reals intn b
  generalize p.put reals intn b = result at ways ⊢
  cases ways with
  | present r found => exact .done _ _
  | refused absent misfit => exact .done _ _
  | overflow absent negative => exact .done _ _
  | stuck absent need possible failed gone p' evicts => exact evicts.sampled intn linked policy scores
  | placed absent need exact_ some_ possible gone p' evicts room =>
    have sampled := evicts.sampled intn linked policy scores
    rcases p'.place_cases reals b need (gone.map fun r => (p.entries r).id) with
      ⟨free, arena, placed⟩ | ⟨free, arena, pages, placed⟩
    · rw [placed]
      exact sampled
    · rw [placed]
      exact sampled

theorem newPaged_frecent (capacityBytes : UInt64) (pageSize : Int64) (pol : EvictionPolicy)
    (made : newPaged reals capacityBytes pageSize pol = some p) : p.Frecent .new := by
  simp only [newPaged, Option.ite_none_left_eq_some, Option.some.injEq] at made
  obtain ⟨_, rfl⟩ := made
  exact ⟨rfl, fun _ _ found => (by cases found), fun _ _ found => by cases found⟩

/-- Under the cost policy and on exact numbers every eviction of a `Put`, after any fewer than `2 ^ 64` operations on a
new store, takes a block of its sample that is worth least: its uses since it was stored, faded by a half-life of 4096
uses of the store, times its cost, for each byte of its pages. -/
theorem cost_evicts_least_worth (capacityBytes : UInt64) (pageSize : Int64) (start : Paged ℝ)
    (made : newPaged reals capacityBytes pageSize .cost = some start) (few : nPages capacityBytes pageSize ≤ 2 ^ 31)
    (ops : List Op) (short : ops.length < 2 ^ 64) (events : List Event) (p : Paged ℝ)
    (ran : start.run reals intn ops [] = (events, p)) (b : Block) :
    (p.ids p.order.order).Nodup ∧ (∀ id, id ∈ p.ids p.order.order ↔ present events id = true) ∧
    Sampled intn (fun id => ((blocksOf events id).map ((start.ledger reals intn ops .new).worth start.pageSize)).getD 0)
      (p.ids p.order.order) p.drawn (p.put reals intn b).evicted := by
  have empty := newPaged_small reals capacityBytes pageSize .cost made few
  have fresh := newPaged_frecent capacityBytes pageSize .cost made
  obtain ⟨lru, rep⟩ := empty.run reals intn ops
  have accounts := (newPaged_accounts reals capacityBytes pageSize .cost made).1.run reals intn empty ops
  have frecent := fresh.run intn empty ops (by rw [Ledger.new, Nat.zero_add]; exact short)
  have config := start.run_config reals intn ops []
  rw [ran] at rep accounts frecent config
  refine ⟨rep.linked.order_nodup, ?_, ?_⟩
  · intro id
    rw [rep.linked.mem_order, ← blocksOf_isSome, Option.isSome_iff_ne_none, Option.isSome_iff_ne_none, ne_eq,
      rep.absent]
  · refine rep.linked.put_sampled intn (config.2.1.trans (newPaged_config reals _ _ _ made).2.1) ?_ b
    intro r member
    obtain ⟨x, known, score⟩ := frecent.eScore rep accounts member
    rw [score, known, config.1]
    rfl

section Sample

theorem Paged.put_evicts_one {F : Type} (fl : Float64 F) {p : Paged F} {b : Block} (absent : p.items b.id = none)
    (one : p.pagesNeeded b.payload.1.length = 1) (possible : 1 ≤ p.arena.length / p.pageSize) (full : p.free = [])
    (some_ : p.order.order.length ≠ 0) {r : Ref} {drawn : Nat} (picked : p.victim fl intn = (some r, drawn))
    (frees : (p.entries r).pages ≠ []) : (p.put fl intn b).evicted = [(p.entries r).id] := by
  have room : ¬(p.discard r drawn).free.length < 1 := by
    simp only [Paged.discard, full, List.nil_append, not_lt]
    exact List.length_pos_iff.mpr frees
  obtain ⟨n, succ⟩ := Nat.exists_eq_succ_of_ne_zero some_
  have looped : Paged.evictLoop fl intn 1 (p.order.order.length + 1) p [] =
      (true, [(p.entries r).id], p.discard r drawn) := by
    rw [succ]
    simp only [Paged.evictLoop, full, Paged.evictOne, picked, if_neg room]
    rfl
  simp only [Paged.put, absent, one]
  rw [if_neg (by omega), if_neg (by omega), Int.toNat_one, looped]
  dsimp only
  rcases (p.discard r drawn).place_cases fl b 1 [(p.entries r).id] with
    ⟨free, arena, placed⟩ | ⟨free, arena, pages, placed⟩
  · rw [placed]
  · rw [placed]

/-- A dear block and then a cheap one, which fill a store of two pages. -/
def pairOps : List Op := [.put (sampleBlock 2 1), .put (sampleBlock 1 1)]

noncomputable def pairStart : Paged ℝ := (newPaged reals 2 1 .cost).get rfl

noncomputable def pairRun : List Event × Paged ℝ := pairStart.run reals id pairOps []

noncomputable def pairWorth (x : BlockID) : ℝ :=
  ((blocksOf pairRun.1 x).map ((pairStart.ledger reals id pairOps .new).worth pairStart.pageSize)).getD 0

theorem pairWorth_eq (b : Block) (use : Nat) (stored : blocksOf pairRun.1 b.id = some b)
    (used : (pairStart.ledger reals id pairOps .new).uses b.id = [use]) (length : b.payload.1.length = 1) :
    pairWorth b.id = fading 4096 (2 - use) * b.costUS.toNat := by
  have size : pairStart.pageSize = 1 := by decide +kernel
  have now : (pairStart.ledger reals id pairOps .new).now = 2 := by decide +kernel
  rw [pairWorth, stored, Option.map_some, Option.getD_some, Ledger.worth, Ledger.count, now, used, size, length]
  simp [fadedCount, pagesFor]

theorem pairWorth_lt : pairWorth (sampleID 1) < pairWorth (sampleID 2) := by
  have cheap := pairWorth_eq (sampleBlock 1 1) 2 (by decide +kernel) (by decide +kernel) rfl
  have dear := pairWorth_eq (sampleBlock 2 1) 1 (by decide +kernel) (by decide +kernel) rfl
  have costs : (sampleBlock 1 1).costUS.toNat = 10 ∧ (sampleBlock 2 1).costUS.toNat = 20 := by decide +kernel
  rw [costs.1] at cheap
  rw [costs.2] at dear
  have half : 1 / 2 < fading 4096 1 := half_lt_fading (by norm_num) (by norm_num)
  calc pairWorth (sampleID 1) = 10 := by
        rw [show sampleID 1 = (sampleBlock 1 1).id from rfl, cheap]
        norm_num
    _ < fading 4096 1 * 20 := by linarith
    _ = pairWorth (sampleID 2) := by
        rw [show sampleID 2 = (sampleBlock 2 1).id from rfl, dear]
        norm_num

theorem pairRun_sample :
    sample id (pairRun.2.ids pairRun.2.order.order) pairRun.2.drawn = [sampleID 2, sampleID 1] := by
  decide +kernel

theorem pairRun_evicts_one : ∃ x, (pairRun.2.put reals id (sampleBlock 3 1)).evicted = [x] := by
  have order : pairRun.2.order.order = [0, 1] := by decide +kernel
  have pol : pairRun.2.pol = .cost := by decide +kernel
  have drawn : pairRun.2.drawn = 0 := by decide +kernel
  have frees : ∀ r ∈ [0, 1], (pairRun.2.entries r).pages ≠ [] := by decide +kernel
  obtain ⟨r, inside, picked⟩ : ∃ r ∈ [0, 1], pairRun.2.victim reals id = (some r, 2) := by
    simp only [Paged.victim, pol, order, drawn, evictSample, List.length_cons, List.length_nil]
    -- which of the two has the lower score
    simp [Paged.sampleLoop, order]
    split <;> simp
  exact ⟨_, Paged.put_evicts_one id reals (by decide +kernel) (by decide +kernel) (by decide +kernel)
    (by decide +kernel) (by decide +kernel) picked (frees r inside)⟩

/-- Both blocks are drawn, and the cheap one goes although it came last. -/
theorem cost_evicts_least_worth_sample : newPaged reals 2 1 .cost = some pairStart ∧
    sample id (pairRun.2.ids pairRun.2.order.order) pairRun.2.drawn = [sampleID 2, sampleID 1] ∧
    pairWorth (sampleID 1) < pairWorth (sampleID 2) ∧
    (pairRun.2.put reals id (sampleBlock 3 1)).evicted = [sampleID 1] := by
  refine ⟨rfl, pairRun_sample, pairWorth_lt, ?_⟩
  have sampled := (cost_evicts_least_worth id 2 1 pairStart rfl (by decide) pairOps (by decide) pairRun.1 pairRun.2 rfl
    (sampleBlock 3 1)).2.2
  obtain ⟨x, one⟩ := pairRun_evicts_one
  rw [one] at sampled ⊢
  cases sampled with
  | more chosen least _ =>
    rw [pairRun_sample] at chosen least
    rcases List.mem_pair.mp chosen with rfl | rfl
    · exact absurd (least (sampleID 1) (by simp)) (not_le.mpr pairWorth_lt)
    · rfl

end Sample

end PrefixMesh.Blockstore
