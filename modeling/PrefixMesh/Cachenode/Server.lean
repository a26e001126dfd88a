import PrefixMesh.Blockstore.Store

/-! The handlers of a cache node. Each of them loops over the ids or the blocks of a
request, and every round of a loop takes the lock of the store once; the rounds are
functions of their own because those of different requests interleave. -/

namespace PrefixMesh.Cachenode

open Blockstore

/-- `epoch` is the newest ring epoch that the node has seen; a static ring has none. -/
def checkEpoch (epoch : Option Nat) (callerEpoch : Nat) : Except Status Unit :=
  match epoch with
  | none => .ok ()
  | some mine =>
      if callerEpoch = 0 then .ok ()
      else if callerEpoch < mine then
        .error ⟨.failedPrecondition, s!"caller ring epoch {callerEpoch} < node epoch {mine}"⟩
      else .ok ()

def toID (b : List UInt8) : Except Status BlockID :=
  if sized : b.length = hashSize then .ok ⟨b, sized⟩
  else
    let got := b.length
    .error ⟨.invalidArgument, s!"block id must be {hashSize} bytes, got {got}"⟩

def toProto (b : Block) : WireBlock :=
  ⟨b.id.1, b.parentID.1, b.modelID, b.payload, b.tokenCount, b.costUS⟩

def fromProto : Option WireBlock → Except Status Block
  | none => .error ⟨.invalidArgument, "missing block"⟩
  | some p =>
      match toID p.blockId with
      | .error e => .error e
      | .ok id =>
          match toID p.parentId with
          | .error e => .error e
          | .ok parent => .ok ⟨id, parent, p.modelId, p.payload, p.tokenCount, p.costUs⟩

variable {F : Type} (fl : Float64 F) (intn : Nat → Nat)

def containsOne (raw : List UInt8) (s : Store F) : Except Status (Bool × Store F) :=
  match toID raw with
  | .error e => .error e
  | .ok id => .ok (s.contains fl id)

def containsLoop : List (List UInt8) → List Bool → Store F → Except Status (List Bool) × Store F
  | [], present, s => (.ok present, s)
  | raw :: rest, present, s =>
      match containsOne fl raw s with
      | .error e => (.error e, s)
      | .ok (here, s) => containsLoop rest (present ++ [here]) s

def contains (epoch : Option Nat) (ringEpoch : Nat) (ids : List (List UInt8)) (s : Store F) :
    Except Status (List Bool) × Store F :=
  match checkEpoch epoch ringEpoch with
  | .error e => (.error e, s)
  | .ok () => containsLoop fl ids [] s

/-- One round of `GetBlocks`. A miss is not an error. -/
def getOne (raw : List UInt8) (s : Store F) : Except Status (Option WireBlock × Store F) :=
  match toID raw with
  | .error e => .error e
  | .ok id => .ok ((s.get fl id).1.map toProto, (s.get fl id).2)

def touchOne (raw : List UInt8) (s : Store F) : Except Status (Store F) :=
  match toID raw with
  | .error e => .error e
  | .ok id => .ok (s.touch fl id)

structure CachePutRequest where
  ringEpoch : Nat
  block : Option WireBlock
  deriving DecidableEq

def putOne (epoch : Option Nat) (req : CachePutRequest) (s : Store F) : Except Status (PutResult (Store F)) :=
  match checkEpoch epoch req.ringEpoch with
  | .error e => .error e
  | .ok () =>
      match fromProto req.block with
      | .error e => .error e
      | .ok b => .ok (s.put fl intn b)

theorem toID_ok {raw : List UInt8} {id : BlockID} (ok : toID raw = .ok id) : id.1 = raw := by
  unfold toID at ok
  split at ok
  · cases ok
    rfl
  · cases ok

theorem toProto_fromProto {p : Option WireBlock} {b : Block} (ok : fromProto p = .ok b) : p = some (toProto b) := by
  cases p with
  | none => cases ok
  | some p =>
    simp only [fromProto] at ok
    split at ok
    · cases ok
    next id own =>
      split at ok
      · cases ok
      next parent other =>
        cases ok
        simp only [toProto, toID_ok own, toID_ok other]

theorem toID_val (id : BlockID) : toID id.1 = .ok id := by
  unfold toID
  rw [dif_pos id.2]

theorem fromProto_toProto (b : Block) : fromProto (some (toProto b)) = .ok b := by
  simp only [fromProto, toProto, toID_val]

theorem containsLoop_eq {blocks : BlockID → Option Block} (ids : List BlockID) (present : List Bool) (s : Store F)
    (rep : s.Rep blocks) : (containsLoop fl (ids.map Subtype.val) present s).1 =
      .ok (present ++ ids.map (fun id => (blocks id).isSome)) := by
  induction ids generalizing present s with
  | nil => simp [containsLoop]
  | cons id rest ih =>
    obtain ⟨here, rep'⟩ := rep.contains fl id
    rw [List.map_cons, containsLoop]
    simp only [containsOne, toID_val]
    rw [ih _ _ rep', here, List.append_assoc]
    rfl

section Rounds

variable {fl intn} {s s' : Store F} {blocks : BlockID → Option Block} {raw : List UInt8}

theorem getOne_rep {sent : Option WireBlock} (got : getOne fl raw s = .ok (sent, s')) (rep : s.Rep blocks) :
    s'.Rep blocks := by
  unfold getOne at got
  split at got
  · cases got
  · cases got
    exact (rep.get fl _).2

theorem containsOne_rep {present : Bool} (probed : containsOne fl raw s = .ok (present, s')) (rep : s.Rep blocks) :
    s'.Rep blocks := by
  unfold containsOne at probed
  split at probed
  · cases probed
  next id _ =>
    have same : (s.contains fl id).2 = s' := congrArg Prod.snd (Except.ok.inj probed)
    exact same ▸ (rep.contains fl id).2

theorem touchOne_rep (touched : touchOne fl raw s = .ok s') (rep : s.Rep blocks) : s'.Rep blocks := by
  unfold touchOne at touched
  split at touched
  · cases touched
  · cases touched
    exact rep.touch fl _

theorem putOne_ok {epoch : Option Nat} {req : CachePutRequest} {result : PutResult (Store F)}
    (put : putOne fl intn epoch req s = .ok result) :
    ∃ b, fromProto req.block = .ok b ∧ result = s.put fl intn b := by
  unfold putOne at put
  split at put
  · cases put
  · split at put
    · cases put
    next b parsed => exact ⟨b, parsed, (Except.ok.inj put).symm⟩

end Rounds

/-- Everything in the store has its own id and is one of `puts`. -/
def Sound (puts : List WireBlock) (s : Store F) : Prop :=
  ∃ blocks, s.Rep blocks ∧ ∀ id b, blocks id = some b → b.id = id ∧ toProto b ∈ puts

variable {puts : List WireBlock} {s : Store F}

theorem Sound.mono (sound : Sound puts s) (more : List WireBlock) (grown : ∀ p ∈ puts, p ∈ more) :
    Sound more s := by
  obtain ⟨blocks, rep, own⟩ := sound
  refine ⟨blocks, rep, ?_⟩
  intro id b found
  obtain ⟨named, put⟩ := own id b found
  exact ⟨named, grown _ put⟩

theorem Sound.read (sound : Sound puts s) {s' : Store F} (same : ∀ blocks, s.Rep blocks → s'.Rep blocks) :
    Sound puts s' := by
  obtain ⟨blocks, rep, own⟩ := sound
  exact ⟨blocks, same blocks rep, own⟩

theorem Sound.put (sound : Sound puts s) (b : Block) (known : toProto b ∈ puts)
    (survives : (s.put fl intn b).stored ≠ none) : Sound puts (s.put fl intn b).store := by
  obtain ⟨blocks, rep, own⟩ := sound
  rcases rep.put fl intn b with panics | ⟨_, same⟩ | ⟨_, _, new⟩
  · exact absurd panics survives
  · exact ⟨blocks, same, own⟩
  · refine ⟨_, new, ?_⟩
    intro id x found
    by_cases named : id = b.id
    · subst named
      rw [Function.update_self, Option.some.injEq] at found
      exact found ▸ ⟨rfl, known⟩
    · rw [Function.update_of_ne named] at found
      exact own id x (of_without blocks _ id x found)

theorem getOne_sound (sound : Sound puts s) (raw : List UInt8) (sent : Option WireBlock) (s' : Store F)
    (ok : getOne fl raw s = .ok (sent, s')) :
    Sound puts s' ∧ ∀ p, sent = some p → p.blockId = raw ∧ p ∈ puts := by
  obtain ⟨blocks, rep, own⟩ := sound
  unfold getOne at ok
  split at ok
  · cases ok
  next id formed =>
    cases ok
    obtain ⟨got, rep'⟩ := rep.get fl id
    refine ⟨⟨blocks, rep', own⟩, ?_⟩
    intro p found
    rw [got] at found
    obtain ⟨b, known, rfl⟩ := Option.map_eq_some_iff.mp found
    obtain ⟨named, put⟩ := own id b known
    exact ⟨by rw [← toID_ok formed, ← named]; rfl, put⟩

end PrefixMesh.Cachenode
