import Mathlib.Algebra.Ring.Nat
import PrefixMesh.Block
import PrefixMesh.Hashring.Ring

/-! `PutBlocks` of the gateway. Every received request comes with the ring that the
source shows at that moment; `last` is the ring read once the stream has ended, whose
epoch goes on every forwarded request. A `Link` is the behaviour of one owner's stream. -/

namespace PrefixMesh.Gateway
open Hashring (Ring)

structure Received where
  block : Option WireBlock
  ring : Option Ring

/-- What is to go to each owner, in the order in which the map is iterated. -/
abbrev ByOwner (α : Type) := AList (fun _ : String => List α)

def ByOwner.add {α : Type} (byOwner : ByOwner α) (block : α) (node : String) : ByOwner α :=
  byOwner.insert node ((byOwner.lookup node).getD [] ++ [block])

/-- The receive loop; `none` where a block is missing or its id is not 32 bytes long. -/
def routeLoop (rf : Int) : List Received → ByOwner WireBlock → Option (ByOwner WireBlock)
  | [], byOwner => some byOwner
  | req :: rest, byOwner =>
      match req.block with
      | none => none
      | some block =>
          if block.blockId.length ≠ hashSize then none
          else
            match req.ring with
            | none => routeLoop rf rest byOwner
            | some ring =>
                if ring.size = 0 then routeLoop rf rest byOwner
                else routeLoop rf rest
                  ((ring.owners block.blockId rf).foldl (fun m node => ByOwner.add m block node) byOwner)

structure Link where
  opened : Bool
  sends : Nat
  answer : Option (Nat × Nat)

structure Sent where
  node : String
  ringEpoch : Nat
  block : WireBlock
  deriving DecidableEq

structure Forwarded where
  sent : List Sent
  stored : Nat
  existing : Nat

/-- One goroutine: it gives up at the first error, and counts only an answer. -/
def forward (epoch : Nat) (node : String) (blocks : List WireBlock) (link : Link) : Forwarded :=
  if link.opened then
    let sent := (blocks.take link.sends).map fun block => ⟨node, epoch, block⟩
    if blocks.length ≤ link.sends then ⟨sent, (link.answer.getD (0, 0)).1, (link.answer.getD (0, 0)).2⟩
    else ⟨sent, 0, 0⟩
  else ⟨[], 0, 0⟩

inductive PutResult where
  | failed
  | invalidArgument (message : String)
  | answered (sent : List Sent) (stored existing : Nat)

/-- `eof` tells whether the client closed its stream, or it broke. -/
def putBlocks (rf : Int) (stream : List Received) (eof : Bool) (last : Option Ring) (client : String → Bool)
    (link : String → Link) : PutResult :=
  match routeLoop rf stream ∅ with
  | none => .invalidArgument "missing or malformed block"
  | some byOwner =>
      if eof then
        let epoch := last.elim 0 (fun ring => ring.epoch)
        let results := (byOwner.entries.filter (fun entry => client entry.1)).map
          (fun entry => forward epoch entry.1 entry.2 (link entry.1))
        .answered (results.flatMap (fun out => out.sent)) ((results.map (fun out => out.stored)).sum % 2 ^ 32)
          ((results.map (fun out => out.existing)).sum % 2 ^ 32)
      else .failed

def PutResult.sent : PutResult → List Sent
  | .answered sent _ _ => sent
  | _ => []

def Received.wellFormed (req : Received) : Bool := req.block.any fun block => decide (block.blockId.length = hashSize)

def Routed (rf : Int) (stream : List Received) (node : String) (block : WireBlock) : Prop :=
  ∃ ring, ⟨some block, some ring⟩ ∈ stream ∧ node ∈ ring.owners block.blockId rf

theorem ByOwner.mem_add {α : Type} (byOwner : ByOwner α) (block added : α) (node target : String) :
    block ∈ ((ByOwner.add byOwner added target).lookup node).getD [] ↔
      block ∈ (byOwner.lookup node).getD [] ∨ node = target ∧ block = added := by
  unfold ByOwner.add
  by_cases same : node = target
  · subst same
    simp
  · simp [AList.lookup_insert_ne same, same]

private theorem mem_addAll (byOwner : ByOwner WireBlock) (block added : WireBlock) (node : String)
    (owners : List String) :
    block ∈ ((owners.foldl (fun m target => ByOwner.add m added target) byOwner).lookup node).getD [] ↔
      block ∈ (byOwner.lookup node).getD [] ∨ node ∈ owners ∧ block = added := by
  induction owners generalizing byOwner with
  | nil => simp
  | cons target rest ih =>
    rw [List.foldl_cons, ih, ByOwner.mem_add, List.mem_cons]
    tauto

theorem routeLoop_none (rf : Int) (stream : List Received) (byOwner : ByOwner WireBlock) :
    routeLoop rf stream byOwner = none ↔ ∃ req ∈ stream, req.wellFormed = false := by
  induction stream generalizing byOwner with
  | nil => simp [routeLoop]
  | cons req rest ih =>
    obtain ⟨block, ring⟩ := req
    cases block with
    | none => simp [routeLoop, Received.wellFormed]
    | some block =>
      by_cases long : block.blockId.length = hashSize
      · cases ring with
        | none => simp [routeLoop, Received.wellFormed, long, ih]
        | some ring =>
          by_cases empty : ring.size = 0
          · simp [routeLoop, Received.wellFormed, long, empty, ih]
          · simp [routeLoop, Received.wellFormed, long, empty, ih]
      · simp [routeLoop, Received.wellFormed, long]

private theorem owners_of_size_zero (ring : Ring) (blockID : List UInt8) (n : Int) (empty : ring.size = 0) :
    ring.owners blockID n = [] := by
  unfold Ring.owners Ring.ownersAt
  rw [empty]
  by_cases nothing : ring.vnodes.length = 0 ∨ n ≤ 0
  · rw [if_pos nothing]
  · rw [if_neg nothing]
    have capped : n > ((0 : Nat) : Int) := by omega
    simp only [if_pos capped]
    cases (ring.vnodes.rotate _).map (fun v => v.nodeID) with
    | nil => rfl
    | cons _ _ => rfl

theorem routeLoop_mem (rf : Int) (stream : List Received) (byOwner result : ByOwner WireBlock)
    (done : routeLoop rf stream byOwner = some result) (node : String) (block : WireBlock) :
    block ∈ (result.lookup node).getD [] ↔
      block ∈ (byOwner.lookup node).getD [] ∨ Routed rf stream node block := by
  induction stream generalizing byOwner with
  | nil =>
    simp only [routeLoop, Option.some.injEq] at done
    simp [done, Routed]
  | cons req rest ih =>
    obtain ⟨sent, ring⟩ := req
    -- a request adds to the table exactly what it routes
    have split_ : Routed rf (⟨sent, ring⟩ :: rest) node block ↔
        (sent = some block ∧ ∃ shown, ring = some shown ∧ node ∈ shown.owners block.blockId rf) ∨
          Routed rf rest node block := by
      simp only [Routed, List.mem_cons, Received.mk.injEq]
      constructor
      · rintro ⟨shown, ⟨same, current⟩ | later, owner⟩
        · exact Or.inl ⟨same.symm, shown, current.symm, owner⟩
        · exact Or.inr ⟨shown, later, owner⟩
      · rintro (⟨same, shown, current, owner⟩ | ⟨shown, later, owner⟩)
        · exact ⟨shown, Or.inl ⟨same.symm, current.symm⟩, owner⟩
        · exact ⟨shown, Or.inr later, owner⟩
    rw [split_]
    cases sent with
    | none => simp [routeLoop] at done
    | some added =>
      by_cases long : added.blockId.length = hashSize
      · cases ring with
        | none =>
          simp only [routeLoop, long, ne_eq, not_true_eq_false, if_false] at done
          rw [ih byOwner done]
          simp
        | some shown =>
          by_cases empty : shown.size = 0
          · simp only [routeLoop, long, ne_eq, not_true_eq_false, if_false, if_pos empty] at done
            rw [ih byOwner done]
            simp [owners_of_size_zero shown _ _ empty]
          · simp only [routeLoop, long, ne_eq, not_true_eq_false, if_false, if_neg empty] at done
            rw [ih _ done, mem_addAll]
            simp only [Option.some.injEq, exists_eq_left']
            constructor
            · rintro ((old | ⟨owner, rfl⟩) | later)
              · exact Or.inl old
              · exact Or.inr (Or.inl ⟨rfl, owner⟩)
              · exact Or.inr (Or.inr later)
            · rintro (old | ⟨rfl, owner⟩ | later)
              · exact Or.inl (Or.inl old)
              · exact Or.inl (Or.inr ⟨owner, rfl⟩)
              · exact Or.inr later
      · simp [routeLoop, long] at done

theorem forward_sent (epoch : Nat) (node : String) (blocks : List WireBlock) (link : Link) :
    (forward epoch node blocks link).sent =
      if link.opened then (blocks.take link.sends).map fun block => ⟨node, epoch, block⟩ else [] := by
  unfold forward
  split_ifs <;> rfl

theorem putBlocks_sent (rf : Int) (stream : List Received) (eof : Bool) (last : Option Ring)
    (client : String → Bool) (link : String → Link) (x : Sent)
    (present : x ∈ (putBlocks rf stream eof last client link).sent) :
    eof = true ∧ (∀ req ∈ stream, req.wellFormed = true) ∧ client x.node = true ∧
      x.ringEpoch = last.elim 0 (fun ring => ring.epoch) ∧ Routed rf stream x.node x.block := by
  unfold putBlocks at present
  cases routed : routeLoop rf stream ∅ with
  | none => simp [routed, PutResult.sent] at present
  | some byOwner =>
    cases eof with
    | false => simp [routed, PutResult.sent] at present
    | true =>
      simp only [routed, if_true, PutResult.sent, List.mem_flatMap, List.mem_map, List.mem_filter] at present
      obtain ⟨out, ⟨⟨node, blocks⟩, ⟨entry, connected⟩, rfl⟩, inside⟩ := present
      rw [forward_sent] at inside
      split_ifs at inside
      · obtain ⟨block, taken, rfl⟩ := List.mem_map.mp inside
        have found : byOwner.lookup node = some blocks := AList.mem_lookup_iff.mpr entry
        have member : block ∈ (byOwner.lookup node).getD [] := by
          rw [found]
          exact List.mem_of_mem_take taken
        have route := (routeLoop_mem rf stream ∅ byOwner routed node block).mp member
        refine ⟨rfl, ?_, connected, rfl, by simpa using route⟩
        intro req inStream
        by_contra malformed
        have rejected := (routeLoop_none rf stream ∅).mpr ⟨req, inStream, by simpa using malformed⟩
        rw [routed] at rejected
        cases rejected
      · cases inside

theorem putBlocks_sends (rf : Int) (stream : List Received) (last : Option Ring) (client : String → Bool)
    (formed : ∀ req ∈ stream, req.wellFormed = true) (node : String) (block : WireBlock)
    (connected : client node = true) (route : Routed rf stream node block) :
    ∃ link, (⟨node, last.elim 0 (fun ring => ring.epoch), block⟩ : Sent) ∈
      (putBlocks rf stream true last client link).sent := by
  cases routed : routeLoop rf stream ∅ with
  | none =>
    obtain ⟨req, inStream, malformed⟩ := (routeLoop_none rf stream ∅).mp routed
    rw [formed req inStream] at malformed
    cases malformed
  | some byOwner =>
    have member := (routeLoop_mem rf stream ∅ byOwner routed node block).mpr (Or.inr route)
    cases found : byOwner.lookup node with
    | none => simp [found] at member
    | some blocks =>
      refine ⟨fun _ => ⟨true, blocks.length, none⟩, ?_⟩
      simp only [putBlocks, routed, if_true, PutResult.sent, List.mem_flatMap, List.mem_map, List.mem_filter]
      refine ⟨_, ⟨⟨node, blocks⟩, ⟨AList.mem_lookup_iff.mp found, connected⟩, rfl⟩, ?_⟩
      rw [forward_sent, if_pos rfl, List.take_length]
      exact List.mem_map.mpr ⟨block, by simpa [found] using member, rfl⟩

/-- Whatever the links do, every request goes to an owner of its block on the ring whose epoch it carries,
exactly if every owner with a client that a block had when it was received still is one when the stream has
ended. A stream that breaks or holds a malformed block sends nothing. -/
theorem putBlocks_epoch_iff (rf : Int) (stream : List Received) (eof : Bool) (last : Option Ring)
    (client : String → Bool) :
    (∀ link x, x ∈ (putBlocks rf stream eof last client link).sent →
      ∃ ring, last = some ring ∧ x.ringEpoch = ring.epoch ∧ x.node ∈ ring.owners x.block.blockId rf) ↔
    (eof = true → (∀ req ∈ stream, req.wellFormed = true) →
      ∀ block ring node, ⟨some block, some ring⟩ ∈ stream → node ∈ ring.owners block.blockId rf →
        client node = true → ∃ now, last = some now ∧ node ∈ now.owners block.blockId rf) := by
  constructor
  · intro routed ended formed block ring node received owner connected
    subst ended
    obtain ⟨link, sent⟩ := putBlocks_sends rf stream last client formed node block connected
      ⟨ring, received, owner⟩
    obtain ⟨now, current, _, still⟩ := routed link _ sent
    exact ⟨now, current, still⟩
  · intro still link x present
    obtain ⟨ended, formed, connected, epoch, ring, received, owner⟩ :=
      putBlocks_sent rf stream eof last client link x present
    obtain ⟨now, current, kept⟩ := still ended formed x.block ring x.node received owner connected
    refine ⟨now, current, ?_, kept⟩
    rw [epoch, current]
    rfl

def sampleBlock : WireBlock :=
  ⟨List.replicate 32 0, List.replicate 32 0, "m", ⟨[1], by decide⟩, 1, 1⟩

/-- The ring of `nodes` at an epoch, with one vnode a node; addresses are the ids. -/
def sampleRing (epoch : Nat) (nodes : List String) : Ring :=
  Hashring.newRing Hashring.samplePoint epoch (nodes.map (fun id => ⟨id, id⟩)).toAList 1

/-- A node joins between the receiving of a block and the end of the stream: the block goes to `a`, which
owned it at epoch 1, under epoch 2, where only `b` owns it. -/
theorem putBlocks_join_midstream : ∃ x ∈ (putBlocks 1 [⟨some sampleBlock, some (sampleRing 1 ["a"])⟩] true
      (some (sampleRing 2 ["a", "b"])) (fun _ => true) (fun _ => ⟨true, 1, some (1, 0)⟩)).sent,
    x.ringEpoch = (sampleRing 2 ["a", "b"]).epoch ∧
    x.node ∉ (sampleRing 2 ["a", "b"]).owners x.block.blockId 1 := by
  refine ⟨⟨"a", 2, sampleBlock⟩, by decide, by decide, by decide⟩

end PrefixMesh.Gateway
