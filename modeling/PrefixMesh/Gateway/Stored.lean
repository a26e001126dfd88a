import Mathlib.Data.List.TakeWhile
import PrefixMesh.Cachenode.Put
import PrefixMesh.Gateway.Put

/-! `PutBlocks` through the gateway and the cache nodes. The ring is fixed; each owner
reads its stream in order, and what it has stored when it finds a malformed block stays. -/

namespace PrefixMesh.Gateway

open Hashring (Ring)
open Cachenode (CachePutRequest PutRound PutOutcome fromProto)
open Blockstore (Store Float64)

def streamOf (ring : Ring) (blocks : List WireBlock) : List Received := blocks.map fun b => ⟨some b, some ring⟩

def routedTo (rf : Int) (ring : Ring) (blocks : List WireBlock) (node : String) : List WireBlock :=
  blocks.filter fun b => node ∈ ring.owners b.blockId rf

def received (sent : List Sent) (node : String) : List CachePutRequest :=
  (sent.filter fun x => x.node = node).map fun x => ⟨x.ringEpoch, some x.block⟩

theorem addAll_lookup (byOwner : ByOwner WireBlock) (added : WireBlock) (node : String) (owners : List String)
    (distinct : owners.Nodup) :
    ((owners.foldl (fun m target => ByOwner.add m added target) byOwner).lookup node).getD [] =
      (byOwner.lookup node).getD [] ++ if node ∈ owners then [added] else [] := by
  induction owners generalizing byOwner with
  | nil => simp
  | cons target rest ih =>
    rw [List.nodup_cons] at distinct
    rw [List.foldl_cons, ih _ distinct.2]
    by_cases same : node = target
    · subst same
      simp [ByOwner.add, distinct.1]
    · simp [ByOwner.add, AList.lookup_insert_ne same, same]

theorem routeLoop_lookup (rf : Int) (ring : Ring) (filled : ring.size ≠ 0) (blocks : List WireBlock)
    (byOwner result : ByOwner WireBlock) (done : routeLoop rf (streamOf ring blocks) byOwner = some result)
    (node : String) :
    (result.lookup node).getD [] = (byOwner.lookup node).getD [] ++ routedTo rf ring blocks node := by
  induction blocks generalizing byOwner with
  | nil =>
    simp only [streamOf, List.map_nil, routeLoop, Option.some.injEq] at done
    simp [done, routedTo]
  | cons b rest ih =>
    simp only [streamOf, List.map_cons, routeLoop, if_neg filled] at done
    split at done
    · cases done
    · rw [ih _ done, addAll_lookup _ _ _ _ (ring.owners_nodup _ _), List.append_assoc]
      by_cases owner : node ∈ ring.owners b.blockId rf
      · simp [routedTo, owner]
      · simp [routedTo, owner]

theorem forward_node (epoch : Nat) (node : String) (blocks : List WireBlock) (link : Link) :
    ∀ x ∈ (forward epoch node blocks link).sent, x.node = node := by
  intro x inside
  rw [forward_sent] at inside
  split at inside
  · obtain ⟨b, _, rfl⟩ := List.mem_map.mp inside
    rfl
  · cases inside

theorem sentTo_eq (epoch : Nat) (client : String → Bool) (link : String → Link) (node : String)
    (connected : client node = true) (opened : (link node).opened = true)
    (entries : List (Σ _ : String, List WireBlock)) (distinct : entries.NodupKeys) :
    (((entries.filter fun entry => client entry.1).map fun entry =>
        forward epoch entry.1 entry.2 (link entry.1)).flatMap fun out => out.sent).filter (fun x => x.node = node) =
      (((entries.dlookup node).getD []).take (link node).sends).map fun b => ⟨node, epoch, b⟩ := by
  induction entries with
  | nil => simp
  | cons entry rest ih =>
    obtain ⟨target, blocks⟩ := entry
    rw [List.nodupKeys_cons] at distinct
    have rest_eq := ih distinct.2
    by_cases same : target = node
    · subst same
      have none_ : rest.dlookup target = none := List.dlookup_eq_none.mpr distinct.1
      rw [none_] at rest_eq
      have kept : (⟨target, blocks⟩ :: rest).filter (fun entry => client entry.1) =
          ⟨target, blocks⟩ :: rest.filter (fun entry => client entry.1) := List.filter_cons_of_pos connected
      have own : (forward epoch target blocks (link target)).sent.filter (fun x => x.node = target) =
          (forward epoch target blocks (link target)).sent :=
        List.filter_eq_self.mpr fun x inside => decide_eq_true (forward_node _ _ _ _ x inside)
      rw [kept, List.map_cons, List.flatMap_cons, List.filter_append, rest_eq, own, forward_sent, if_pos opened,
        List.dlookup_cons_eq, Option.getD_some, Option.getD_none, List.take_nil, List.map_nil, List.append_nil]
    · have others : (forward epoch target blocks (link target)).sent.filter (fun x => x.node = node) = [] := by
        rw [List.filter_eq_nil_iff]
        intro x inside
        simpa [forward_node _ _ _ _ x inside] using same
      rw [List.dlookup_cons_ne _ _ (Ne.symm same), ← rest_eq, List.filter_cons]
      split
      · rw [List.map_cons, List.flatMap_cons, List.filter_append, others, List.nil_append]
      · rfl

theorem received_eq (rf : Int) (ring : Ring) (filled : ring.size ≠ 0) (blocks : List WireBlock)
    (client : String → Bool) (link : String → Link) (sent : List Sent) (stored existing : Nat)
    (answered : putBlocks rf (streamOf ring blocks) true (some ring) client link = .answered sent stored existing)
    (node : String) (connected : client node = true) (opened : (link node).opened = true) :
    received sent node = ((routedTo rf ring blocks node).take (link node).sends).map
      fun b => ⟨ring.epoch, some b⟩ := by
  cases routed : routeLoop rf (streamOf ring blocks) ∅ with
  | none => simp [putBlocks, routed] at answered
  | some byOwner =>
    simp only [putBlocks, routed, if_true, PutResult.answered.injEq] at answered
    have lookup := routeLoop_lookup rf ring filled blocks ∅ byOwner routed node
    rw [AList.lookup_empty, Option.getD_none, List.nil_append] at lookup
    rw [received, ← answered.1, sentTo_eq _ client link node connected opened _ byOwner.nodupKeys, List.map_map]
    rw [← lookup]
    rfl

/-- The second test that a cache node makes of a block, and the gateway does not. -/
def Parented (b : WireBlock) : Bool := decide (b.parentId.length = hashSize)

theorem fromProto_parented (w : WireBlock) (long : w.blockId.length = hashSize) :
    if Parented w then ∃ b, fromProto (some w) = .ok b ∧ b.id.1 = w.blockId
    else ∃ e, fromProto (some w) = .error e := by
  by_cases parented : w.parentId.length = hashSize
  · simp [Parented, parented, fromProto, Cachenode.toID, long]
  · simp [Parented, parented, fromProto, Cachenode.toID, long]

variable {F : Type} (fl : Float64 F)

/-- The rounds of a node that reads its blocks without anything in between. -/
def roundsOf (epoch : Option Nat) (ringEpoch : Nat) (wires : List WireBlock) : List PutRound :=
  wires.map fun w => ⟨[], epoch, ⟨ringEpoch, some w⟩⟩

variable (intn : Nat → Nat) {epoch : Option Nat} {ringEpoch : Nat} {s : Store F} {blocks : BlockID → Option Block}

theorem putLoop_parented {w : WireBlock} {b : Block} (rest : List PutRound)
    (current : Cachenode.checkEpoch epoch ringEpoch = .ok ()) (parsed : fromProto (some w) = .ok b)
    (survives : (s.put fl intn b).stored ≠ none) (stored existing : UInt32) :
    ∃ stored' existing', Cachenode.putLoop fl intn none (⟨[], epoch, ⟨ringEpoch, some w⟩⟩ :: rest) stored existing s =
      Cachenode.putLoop fl intn none rest stored' existing' (s.put fl intn b).store := by
  cases put : s.put fl intn b with
  | mk outcome evicted after =>
    simp only [Cachenode.putLoop, Store.run, Cachenode.putOne, current, parsed, put, List.not_mem_nil, if_false]
    rw [put] at survives
    cases outcome with
    | none => exact absurd rfl survives
    | some taken =>
      cases taken with
      | true => exact ⟨_, _, rfl⟩
      | false => exact ⟨_, _, rfl⟩

theorem putLoop_unparented {w : WireBlock} {e : Status} {rest : List PutRound}
    (current : Cachenode.checkEpoch epoch ringEpoch = .ok ()) (failed : fromProto (some w) = .error e)
    (stored existing : UInt32) :
    Cachenode.putLoop fl intn none (⟨[], epoch, ⟨ringEpoch, some w⟩⟩ :: rest) stored existing s = .failed e s := by
  simp only [Cachenode.putLoop, Store.run, Cachenode.putOne, current, failed, List.not_mem_nil, if_false]

def Keeps (rounds : List PutRound) (s : Store F) : Prop :=
  ∀ x ∈ Cachenode.positions fl intn rounds s,
    (x.before.put fl intn x.block).stored ≠ none ∧ (x.before.put fl intn x.block).evicted = []

/-- A node holds afterwards what it held before, and what the store takes of the blocks before the first one that
it cannot read. -/
theorem putLoop_holds (wires : List WireBlock) (rep : s.Rep blocks)
    (current : Cachenode.checkEpoch epoch ringEpoch = .ok ()) (long : ∀ w ∈ wires, w.blockId.length = hashSize)
    (keeps : Keeps fl intn (roundsOf epoch ringEpoch wires) s) (stored existing : UInt32) (id : BlockID) :
    (Cachenode.putLoop fl intn none (roundsOf epoch ringEpoch wires) stored existing s).holds id = true ↔
      s.holds id = true ∨ ∃ w ∈ wires.takeWhile Parented, ∃ b, fromProto (some w) = .ok b ∧ b.id = id ∧ s.takes b := by
  induction wires generalizing s blocks stored existing with
  | nil => simp [roundsOf, Cachenode.putLoop, PutOutcome.holds]
  | cons w rest ih =>
    have known := fromProto_parented w (long w List.mem_cons_self)
    cases parented : Parented w with
    | false =>
      rw [parented] at known
      obtain ⟨e, failed⟩ := known
      rw [roundsOf, List.map_cons, putLoop_unparented fl intn current failed]
      simp [PutOutcome.holds, parented]
    | true =>
      rw [parented] at known
      obtain ⟨b, parsed, named⟩ := known
      have head : (⟨s, b, (s.put fl intn b).store⟩ : Cachenode.Position F) ∈
          Cachenode.positions fl intn (roundsOf epoch ringEpoch (w :: rest)) s := by
        simp [roundsOf, Cachenode.positions, Store.run, parsed]
      obtain ⟨survives, kept⟩ := keeps _ head
      have later : Keeps fl intn (roundsOf epoch ringEpoch rest) (s.put fl intn b).store := by
        intro x inside
        apply keeps x
        simp only [roundsOf, List.map_cons, Cachenode.positions, Store.run, parsed]
        exact List.mem_cons_of_mem _ inside
      obtain ⟨after, rep'⟩ : ∃ blocks', (s.put fl intn b).store.Rep blocks' :=
        rep.perform fl intn (.put b) (fun panics => survives (Blockstore.Answer.put.inj panics))
      obtain ⟨stored', existing', step⟩ := putLoop_parented fl intn (roundsOf epoch ringEpoch rest) current parsed
        survives stored existing
      have taken : (∃ w' ∈ (w :: rest).takeWhile Parented,
            ∃ b', fromProto (some w') = .ok b' ∧ b'.id = id ∧ s.takes b') ↔
          (id = b.id ∧ s.takes b) ∨
            ∃ w' ∈ rest.takeWhile Parented, ∃ b', fromProto (some w') = .ok b' ∧ b'.id = id ∧ s.takes b' := by
        simp only [List.takeWhile_cons_of_pos parented, List.mem_cons, exists_eq_or_imp, parsed, Except.ok.injEq,
          exists_eq_left']
        rw [eq_comm]
      have next := ih rep' (fun w' member => long w' (List.mem_cons_of_mem _ member)) later stored' existing'
      rw [← step] at next
      simp only [rep.put_holds fl intn b survives kept, Store.takes_put fl intn s b _ survives] at next
      rw [taken, ← or_assoc]
      exact next

theorem putLoop_not_failed (wires : List WireBlock) (current : Cachenode.checkEpoch epoch ringEpoch = .ok ())
    (long : ∀ w ∈ wires, w.blockId.length = hashSize) (parented : ∀ w ∈ wires, Parented w = true)
    (stored existing : UInt32) (e : Status) (s' : Store F) :
    Cachenode.putLoop fl intn none (roundsOf epoch ringEpoch wires) stored existing s ≠ .failed e s' := by
  induction wires generalizing s stored existing with
  | nil => simp [roundsOf, Cachenode.putLoop]
  | cons w rest ih =>
    have known := fromProto_parented w (long w List.mem_cons_self)
    rw [if_pos (parented w List.mem_cons_self)] at known
    obtain ⟨b, parsed, _⟩ := known
    by_cases panics : (s.put fl intn b).stored = none
    · cases put : s.put fl intn b with
      | mk outcome evicted after =>
        rw [put] at panics
        simp only at panics
        subst panics
        simp [roundsOf, Cachenode.putLoop, Store.run, Cachenode.putOne, current, parsed, put]
    · obtain ⟨stored', existing', step⟩ := putLoop_parented fl intn (roundsOf epoch ringEpoch rest) current parsed
        panics stored existing
      intro failed
      exact ih (fun w' member => long w' (List.mem_cons_of_mem _ member))
        (fun w' member => parented w' (List.mem_cons_of_mem _ member)) stored' existing' (step.symm.trans failed)

/-- What a stream that was cut off behind a malformed block brings is what the whole stream brings. -/
theorem takeWhile_take (wires : List WireBlock) (n : Nat) (bad : ∃ w ∈ wires.take n, Parented w = false) :
    (wires.take n).takeWhile Parented = wires.takeWhile Parented := by
  obtain ⟨w, member, unread⟩ := bad
  conv_rhs => rw [← List.take_append_drop n wires]
  rw [List.takeWhile_append, if_neg]
  intro whole
  have all : (wires.take n).takeWhile Parented = wires.take n :=
    (List.takeWhile_prefix _).eq_of_length whole
  have read := List.all_eq_true.mp List.all_takeWhile w (all.symm ▸ member)
  rw [unread] at read
  cases read

def handled (epochs : String → Option Nat) (sent : List Sent) (node : String) (s : Store F) : PutOutcome F :=
  Cachenode.putBlocks fl intn none ((received sent node).map fun req => ⟨[], epochs node, req⟩) s

/-- An owner can be reached, at the epoch of the ring, until it fails; its store is large enough for every block of
its stream and evicts nothing. -/
structure Hosting (rf : Int) (ring : Ring) (blocks : List WireBlock) (client : String → Bool) (link : String → Link)
    (sent : List Sent) (epochs : String → Option Nat) (s : Store F) (node : String) : Prop where
  connected : client node = true
  opened : (link node).opened = true
  delivered : (routedTo rf ring blocks node).length ≤ (link node).sends ∨
    ∃ e s', handled fl intn epochs sent node s = .failed e s'
  current : epochs node = none ∨ epochs node = some ring.epoch
  reached : s.Reached fl intn
  fits : ∀ w ∈ routedTo rf ring blocks node, ∀ b, fromProto (some w) = .ok b → b.payload.1 ≠ [] → s.takes b
  keeps : Keeps fl intn ((received sent node).map fun req => ⟨[], epochs node, req⟩) s

theorem checkEpoch_current (own : Option Nat) (ringEpoch : Nat) (same : own = none ∨ own = some ringEpoch) :
    Cachenode.checkEpoch own ringEpoch = .ok () := by
  rcases same with rfl | rfl
  · rfl
  · simp [Cachenode.checkEpoch]

theorem Hosting.holds {rf : Int} {ring : Ring} {wires : List WireBlock} {client : String → Bool}
    {link : String → Link} {sent : List Sent} {epochs : String → Option Nat} {node : String} {stored existing : Nat}
    (hosting : Hosting fl intn rf ring wires client link sent epochs s node) (filled : ring.size ≠ 0)
    (answered : putBlocks rf (streamOf ring wires) true (some ring) client link = .answered sent stored existing)
    (long : ∀ w ∈ wires, w.blockId.length = hashSize) (id : BlockID) :
    (handled fl intn epochs sent node s).holds id = true ↔ s.holds id = true ∨
      ∃ w ∈ (routedTo rf ring wires node).takeWhile Parented, ∃ b, fromProto (some w) = .ok b ∧ b.id = id ∧
        s.takes b := by
  have reqs := received_eq rf ring filled wires client link sent stored existing answered node hosting.connected
    hosting.opened
  have rounds : ((received sent node).map fun req => (⟨[], epochs node, req⟩ : PutRound)) =
      roundsOf (epochs node) ring.epoch ((routedTo rf ring wires node).take (link node).sends) := by
    rw [reqs, List.map_map]
    rfl
  have current := checkEpoch_current (epochs node) ring.epoch hosting.current
  have longs : ∀ w ∈ (routedTo rf ring wires node).take (link node).sends, w.blockId.length = hashSize :=
    fun w member => long w (List.mem_of_mem_filter (List.mem_of_mem_take member))
  have keeps := hosting.keeps
  have delivered := hosting.delivered
  obtain ⟨blocks, rep⟩ := hosting.reached.rep
  simp only [handled, Cachenode.putBlocks] at delivered ⊢
  rw [rounds] at keeps delivered ⊢
  rw [putLoop_holds fl intn _ rep current longs keeps]
  rcases delivered with all | ⟨e, s', failed⟩
  · rw [List.take_of_length_le all]
  · rw [takeWhile_take]
    by_contra none_
    refine putLoop_not_failed fl intn _ current longs ?_ 0 0 e s' failed
    intro w member
    rw [← Bool.not_eq_false]
    exact fun unread => none_ ⟨w, member, unread⟩

theorem answered_long {rf : Int} {ring : Ring} {wires : List WireBlock} {client : String → Bool}
    {link : String → Link} {sent : List Sent} {stored existing : Nat}
    (answered : putBlocks rf (streamOf ring wires) true (some ring) client link = .answered sent stored existing) :
    ∀ w ∈ wires, w.blockId.length = hashSize := by
  intro w member
  by_contra short
  have rejected := (routeLoop_none rf (streamOf ring wires) ∅).mpr
    ⟨⟨some w, some ring⟩, List.mem_map.mpr ⟨w, member, rfl⟩, by simpa [Received.wellFormed] using short⟩
  simp [putBlocks, rejected] at answered

/-- Every block with a payload of a stream that the gateway has answered is on all its owners afterwards, exactly if
each of them held a block with its id already or gets one that its store takes before the first one whose parent id
is malformed. -/
theorem admitted_blocks_stored_iff (rf : Int) (ring : Ring) (filled : ring.size ≠ 0) (wires : List WireBlock)
    (client : String → Bool) (link : String → Link) (sent : List Sent) (stored existing : Nat)
    (answered : putBlocks rf (streamOf ring wires) true (some ring) client link = .answered sent stored existing)
    (intns : String → Nat → Nat) (epochs : String → Option Nat) (stores : String → Store F)
    (hosting : ∀ w ∈ wires, ∀ node ∈ ring.owners w.blockId rf,
      Hosting fl (intns node) rf ring wires client link sent epochs (stores node) node) :
    (∀ w ∈ wires, w.payload.1 ≠ [] → ∀ node ∈ ring.owners w.blockId rf,
      ∃ id : BlockID, id.1 = w.blockId ∧
        (handled fl (intns node) epochs sent node (stores node)).holds id = true) ↔
    ∀ w ∈ wires, w.payload.1 ≠ [] → ∀ node ∈ ring.owners w.blockId rf,
      (∃ id : BlockID, id.1 = w.blockId ∧ (stores node).holds id = true) ∨
      ∃ first ∈ (routedTo rf ring wires node).takeWhile Parented, ∃ b, fromProto (some first) = .ok b ∧
        b.id.1 = w.blockId ∧ (stores node).takes b := by
  have long := answered_long answered
  refine forall_congr' fun w => forall_congr' fun member => forall_congr' fun payload => forall_congr' fun node =>
    forall_congr' fun owner => ?_
  have holds := (hosting w member node owner).holds fl (intns node) filled answered long
  constructor
  · rintro ⟨id, named, held⟩
    rcases (holds id).mp held with before | ⟨first, inside, b, parsed, own, takes⟩
    · exact Or.inl ⟨id, named, before⟩
    · exact Or.inr ⟨first, inside, b, parsed, own ▸ named, takes⟩
  · rintro (⟨id, named, before⟩ | ⟨first, inside, b, parsed, named, takes⟩)
    · exact ⟨id, named, (holds id).mpr (Or.inl before)⟩
    · exact ⟨b.id, named, (holds b.id).mpr (Or.inr ⟨first, inside, b, parsed, rfl, takes⟩)⟩

/-- A stream whose parent ids are all well formed is stored by all owners. -/
theorem parented_blocks_stored (rf : Int) (ring : Ring) (filled : ring.size ≠ 0) (wires : List WireBlock)
    (client : String → Bool) (link : String → Link) (sent : List Sent) (stored existing : Nat)
    (answered : putBlocks rf (streamOf ring wires) true (some ring) client link = .answered sent stored existing)
    (parented : ∀ w ∈ wires, Parented w = true) (w : WireBlock) (member : w ∈ wires) (payload : w.payload.1 ≠ [])
    (node : String) (owner : node ∈ ring.owners w.blockId rf) (epochs : String → Option Nat)
    (hosting : Hosting fl intn rf ring wires client link sent epochs s node) :
    ∃ id : BlockID, id.1 = w.blockId ∧ (handled fl intn epochs sent node s).holds id = true := by
  have long := answered_long answered
  have known := fromProto_parented w (long w member)
  rw [if_pos (parented w member)] at known
  obtain ⟨b, parsed, named⟩ := known
  have routed : w ∈ routedTo rf ring wires node := List.mem_filter.mpr ⟨member, decide_eq_true owner⟩
  have whole : (routedTo rf ring wires node).takeWhile Parented = routedTo rf ring wires node :=
    List.takeWhile_eq_self_iff.mpr fun x inside => parented x (List.mem_of_mem_filter inside)
  have same : b.payload = w.payload := by
    rw [Option.some.inj (Cachenode.toProto_fromProto parsed)]
    rfl
  refine ⟨b.id, named, (hosting.holds fl intn filled answered long b.id).mpr (Or.inr ⟨w, ?_, b, parsed, rfl, ?_⟩)⟩
  · rw [whole]
    exact routed
  · exact hosting.fits w routed b parsed (same ▸ payload)

def storedWire : WireBlock := Cachenode.toProto (Blockstore.sampleBlock 1 1)

/-- The gateway looks at the block id only. -/
def orphanWire : WireBlock := { Cachenode.toProto (Blockstore.sampleBlock 2 1) with parentId := [] }

def soleStore : Store Int := .lru (Blockstore.newLRU 1000)

theorem soleStore_hosting (rf : Int) (ring : Ring) (wires : List WireBlock)
    (small : ∀ w ∈ wires, w.payload.1.length = 1) (sent : List Sent) (link : Link) (opened : link.opened = true)
    (delivered : wires.length ≤ link.sends) (node : String)
    (keeps : Keeps Blockstore.sampleFloat id ((received sent node).map fun req => ⟨[], none, req⟩) soleStore) :
    Hosting Blockstore.sampleFloat id rf ring wires (fun _ => true) (fun _ => link) sent (fun _ => none) soleStore
      node where
  connected := rfl
  opened := opened
  delivered := Or.inl ((List.length_filter_le _ _).trans delivered)
  current := Or.inl rfl
  reached := ⟨.lru 1000, soleStore, [], rfl, List.not_mem_nil, rfl⟩
  fits := by
    intro w inside b parsed _
    have size := small w (List.mem_of_mem_filter inside)
    rw [Option.some.inj (Cachenode.toProto_fromProto parsed)] at size
    show UInt64.ofNat b.payload.1.length + Blockstore.perBlockOverhead ≤ 1000
    rw [show b.payload.1.length = 1 from size]
    decide
  keeps := keeps

/-- A block with an empty parent id takes the block behind it along: the owner drops both, and the gateway answers. -/
theorem orphanWire_drops : ∃ sent,
    putBlocks 1 (streamOf (sampleRing 1 ["a"]) [orphanWire, storedWire]) true (some (sampleRing 1 ["a"]))
      (fun _ => true) (fun _ => ⟨true, 2, none⟩) = .answered sent 0 0 ∧
    (sampleRing 1 ["a"]).owners storedWire.blockId 1 = ["a"] ∧ storedWire.payload.1 ≠ [] ∧
    Hosting Blockstore.sampleFloat id 1 (sampleRing 1 ["a"]) [orphanWire, storedWire] (fun _ => true)
      (fun _ => ⟨true, 2, none⟩) sent (fun _ => none) soleStore "a" ∧
    ¬∃ i : BlockID, i.1 = storedWire.blockId ∧
      (handled Blockstore.sampleFloat id (fun _ => none) sent "a" soleStore).holds i = true := by
  refine ⟨_, rfl, by decide, by decide, soleStore_hosting _ _ _ ?_ _ ⟨true, 2, none⟩ rfl (by decide) _ ?_, ?_⟩
  · intro w inside
    simp only [List.mem_cons, List.not_mem_nil, or_false] at inside
    rcases inside with rfl | rfl
    · rfl
    · rfl
  · exact fun x inside => absurd inside List.not_mem_nil
  · rintro ⟨i, named, held⟩
    have empty : soleStore.holds i = true := held
    cases empty

/-- Two blocks, and the first once more with an empty parent id. -/
def resentWires : List WireBlock :=
  [storedWire, Cachenode.toProto (Blockstore.sampleBlock 3 1), { storedWire with parentId := [] }]

def resentSent : List Sent := ["a", "b"].flatMap fun node => resentWires.map fun w => ⟨node, 1, w⟩

/-- Both owners store the two blocks and fail at the end. -/
theorem storedWire_kept :
    putBlocks 2 (streamOf (sampleRing 1 ["a", "b"]) resentWires) true (some (sampleRing 1 ["a", "b"])) (fun _ => true)
      (fun _ => ⟨true, 3, none⟩) = .answered resentSent 0 0 ∧
    ∀ w ∈ resentWires, ((sampleRing 1 ["a", "b"]).owners w.blockId 2).length = 2 ∧
      ∀ node ∈ (sampleRing 1 ["a", "b"]).owners w.blockId 2, ∃ i : BlockID, i.1 = w.blockId ∧
        (handled Blockstore.sampleFloat id (fun _ => none) resentSent node soleStore).holds i = true := by
  refine ⟨rfl, fun w member => ⟨?_, ?_⟩⟩
  · revert w
    decide +kernel
  -- each owner has the first two blocks before the malformed one
  have first : ∀ w ∈ resentWires, ∀ node ∈ (sampleRing 1 ["a", "b"]).owners w.blockId 2,
      ∃ b ∈ [Blockstore.sampleBlock 1 1, Blockstore.sampleBlock 3 1],
        Cachenode.toProto b ∈ (routedTo 2 (sampleRing 1 ["a", "b"]) resentWires node).takeWhile Parented ∧
        b.id.1 = w.blockId ∧ soleStore.takes b := by decide +kernel
  refine (admitted_blocks_stored_iff Blockstore.sampleFloat 2 (sampleRing 1 ["a", "b"]) (by decide) resentWires
    (fun _ => true) (fun _ => ⟨true, 3, none⟩) _ 0 0 rfl (fun _ => id) (fun _ => none) (fun _ => soleStore) ?_).mpr
    ?_ w member ?_
  · intro w member node owner
    refine soleStore_hosting 2 _ resentWires (by decide +kernel) _ ⟨true, 3, none⟩ rfl (by decide) node ?_
    have spared : ∀ w ∈ resentWires, ∀ node ∈ (sampleRing 1 ["a", "b"]).owners w.blockId 2,
        ∀ x ∈ Cachenode.positions Blockstore.sampleFloat id
            ((received resentSent node).map fun req => ⟨[], none, req⟩) soleStore,
          (x.before.put Blockstore.sampleFloat id x.block).stored ≠ none ∧
            (x.before.put Blockstore.sampleFloat id x.block).evicted = [] := by decide +kernel
    exact spared w member node owner
  · intro w member _ node owner
    obtain ⟨b, _, routed, named, takes⟩ := first w member node owner
    exact Or.inr ⟨_, routed, b, Cachenode.fromProto_toProto b, named, takes⟩
  · revert w
    decide +kernel

end PrefixMesh.Gateway
