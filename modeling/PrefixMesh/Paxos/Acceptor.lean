import Mathlib.Data.Nat.Bitwise
import Mathlib.Data.List.Sort
import Mathlib.Logic.Function.Basic

/-! Ballots and the acceptor. A ballot packs the round above the replica's index
in the sorted list of replicas, so rounds dominate and the index breaks ties; it
is a natural number below `2 ^ 64`.
Values are the non-nil byte slices of the source; a nil slice is `none`. -/

namespace PrefixMesh.Paxos

/-- `round<<8 | uint64(replicaIdx)` on 64 bits. -/
def makeBallot (round replicaIdx : Nat) : Nat :=
  (round <<< 8) % 2 ^ 64 ||| replicaIdx

def Ballot.round (b : Nat) : Nat := b >>> 8

theorem makeBallot_eq (round replicaIdx : Nat) (small : round < 2 ^ 56) (byte : replicaIdx < 256) :
    makeBallot round replicaIdx = round * 256 + replicaIdx := by
  unfold makeBallot
  have shifted : round <<< 8 = round * 256 := by rw [Nat.shiftLeft_eq]
  have fits : round <<< 8 < 2 ^ 64 := by omega
  rw [Nat.mod_eq_of_lt fits, ← Nat.shiftLeft_add_eq_or_of_lt (i := 8) byte, shifted]

theorem makeBallot_injective {r r' i i' : Nat} (small : r < 2 ^ 56) (small' : r' < 2 ^ 56)
    (byte : i < 256) (byte' : i' < 256) (same : makeBallot r i = makeBallot r' i') :
    r = r' ∧ i = i' := by
  rw [makeBallot_eq r i small byte, makeBallot_eq r' i' small' byte'] at same
  omega

theorem Ballot.round_le {b b' : Nat} (below : b ≤ b') : Ballot.round b ≤ Ballot.round b' := by
  unfold Ballot.round
  rw [Nat.shiftRight_eq_div_pow, Nat.shiftRight_eq_div_pow]
  exact Nat.div_le_div_right below

theorem Ballot.lt_round_succ (b : Nat) : b < (Ballot.round b + 1) * 256 := by
  unfold Ballot.round
  rw [Nat.shiftRight_eq_div_pow]
  omega

/-- `NewNode`'s index: the last position of `self` in the sorted replica list, as a `uint8`. -/
def nodeIdx {R : Type} [LinearOrder R] (self : R) (replicas : List R) : Nat :=
  (((replicas.insertionSort (· ≤ ·)).zipIdx.foldl
    (fun idx entry => if entry.1 = self then entry.2 else idx) 0)) % 256

structure AcceptorSlot (V : Type) where
  promised : Nat := 0
  acceptedBallot : Nat := 0
  acceptedValue : Option V := none

/-- The slot map; a slot never touched reads as the zero slot that `Acceptor.slot` creates. -/
abbrev Acceptor (V : Type) := Nat → AcceptorSlot V

structure PrepareReply (V : Type) where
  promised : Bool
  acceptedBallot : Nat
  acceptedValue : Option V
  promisedBallot : Nat
  deriving DecidableEq

structure AcceptReply where
  accepted : Bool
  promisedBallot : Nat
  deriving DecidableEq

variable {V : Type}

def newAcceptor : Acceptor V := fun _ => {}

def Acceptor.prepare (a : Acceptor V) (slot : Nat) (b : Nat) : PrepareReply V × Acceptor V :=
  let sl := a slot
  if b > sl.promised then
    (⟨true, sl.acceptedBallot, sl.acceptedValue, b⟩, Function.update a slot { sl with promised := b })
  else
    (⟨false, sl.acceptedBallot, sl.acceptedValue, sl.promised⟩, a)

def Acceptor.accept (a : Acceptor V) (slot : Nat) (b : Nat) (v : V) : AcceptReply × Acceptor V :=
  let sl := a slot
  if b ≥ sl.promised then
    (⟨true, b⟩, Function.update a slot
      { promised := b, acceptedBallot := b, acceptedValue := some v })
  else
    (⟨false, sl.promised⟩, a)

theorem Acceptor.prepare_eq (a : Acceptor V) (slot : Nat) (b : Nat) : a.prepare slot b =
    (⟨decide ((a slot).promised < b), (a slot).acceptedBallot, (a slot).acceptedValue, max (a slot).promised b⟩,
      Function.update a slot { a slot with promised := max (a slot).promised b }) := by
  unfold Acceptor.prepare
  by_cases newer : (a slot).promised < b
  · simp [newer, le_of_lt newer]
  · simp [newer, Function.update_eq_self, not_lt.mp newer]

theorem Acceptor.prepare_spec (a : Acceptor V) (slot : Nat) (b : Nat) (s : Nat) :
    (a slot).promised ≤ ((a.prepare slot b).2 slot).promised ∧
    ((a.prepare slot b).2 s).acceptedBallot = (a s).acceptedBallot ∧
    ((a.prepare slot b).2 s).acceptedValue = (a s).acceptedValue ∧
    (s ≠ slot → (a.prepare slot b).2 s = a s) := by
  unfold Acceptor.prepare
  by_cases newer : b > (a slot).promised
  · simp only [if_pos newer]
    by_cases same : s = slot
    · subst same
      simp [le_of_lt newer]
    · simp [Function.update_of_ne same, le_of_lt newer]
  · simp [newer]

theorem Acceptor.prepare_promised (a : Acceptor V) (slot : Nat) (b : Nat)
    (granted : (a.prepare slot b).1.promised = true) :
    (a slot).promised < b ∧ ((a.prepare slot b).2 slot).promised = b ∧
    (a.prepare slot b).1.acceptedBallot = (a slot).acceptedBallot ∧
    (a.prepare slot b).1.acceptedValue = (a slot).acceptedValue := by
  unfold Acceptor.prepare at granted ⊢
  by_cases newer : b > (a slot).promised
  · simp [newer]
  · simp [newer] at granted

theorem Acceptor.accept_accepted (a : Acceptor V) (slot : Nat) (b : Nat) (v : V)
    (granted : (a.accept slot b v).1.accepted = true) :
    (a slot).promised ≤ b ∧
    (a.accept slot b v).2 = Function.update a slot ⟨b, b, some v⟩ := by
  unfold Acceptor.accept at granted ⊢
  by_cases newer : b ≥ (a slot).promised
  · exact ⟨newer, by simp only [if_pos newer]⟩
  · simp [newer] at granted

theorem Acceptor.accept_rejected (a : Acceptor V) (slot : Nat) (b : Nat) (v : V)
    (refused : ¬(a.accept slot b v).1.accepted = true) : (a.accept slot b v).2 = a := by
  unfold Acceptor.accept at refused ⊢
  by_cases newer : b ≥ (a slot).promised
  · simp [newer] at refused
  · simp only [if_neg newer]

end PrefixMesh.Paxos
