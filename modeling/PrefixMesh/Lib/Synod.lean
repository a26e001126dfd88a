import Mathlib.Data.Finset.Card

/-! One instance of consensus, seen only through its history: which acceptor
voted for which value at which ballot, and which value each ballot proposed.
The safety argument needs no more than that any two quorums meet. -/

namespace PrefixMesh.Lib

section Majority

variable {A : Type} [DecidableEq A]

def Majority (members : List A) (quorum : Finset A) : Prop :=
  (∀ a ∈ quorum, a ∈ members) ∧ members.length / 2 + 1 ≤ quorum.card

theorem Majority.meet {members : List A} {first second : Finset A}
    (left : Majority members first) (right : Majority members second) :
    ∃ a ∈ first, a ∈ second := by
  have size : (first ∪ second).card ≤ members.length := by
    have subset : first ∪ second ⊆ members.toFinset := by
      intro a present
      rcases Finset.mem_union.mp present with inFirst | inSecond
      · exact List.mem_toFinset.mpr (left.1 a inFirst)
      · exact List.mem_toFinset.mpr (right.1 a inSecond)
    calc (first ∪ second).card
        ≤ members.toFinset.card := Finset.card_le_card subset
      _ ≤ members.length := List.toFinset_card_le members
  have counted := Finset.card_union_add_card_inter first second
  have positive : 0 < (first ∩ second).card := by
    have := left.2
    have := right.2
    omega
  obtain ⟨a, common⟩ := Finset.card_pos.mp positive
  exact ⟨a, Finset.mem_inter.mp common⟩

theorem Majority.nonempty {members : List A} {quorum : Finset A}
    (majority : Majority members quorum) : quorum.Nonempty := by
  obtain ⟨a, present, _⟩ := majority.meet majority
  exact ⟨a, present⟩

end Majority

/-- The history of one consensus instance. -/
structure Synod (A C : Type) where
  voted : A → Nat → C → Prop
  proposed : Nat → C → Prop

namespace Synod

variable {A C : Type}

/-- The votes of `quorum` below `ballot` leave `value` as the only one that may have been
chosen there: either there are none, or `value` is the one voted for at the highest ballot. -/
def ShowsSafe (history : Synod A C) (quorum : Finset A) (ballot : Nat) (value : C) : Prop :=
  (∀ a ∈ quorum, ∀ b, b < ballot → ∀ w, ¬history.voted a b w) ∨
  ∃ top, top < ballot ∧ (∃ a ∈ quorum, history.voted a top value) ∧
    ∀ a ∈ quorum, ∀ b, top < b → b < ballot → ∀ w, ¬history.voted a b w

structure Sound (history : Synod A C) (isQuorum : Finset A → Prop) : Prop where
  votedProposed : ∀ a b v, history.voted a b v → history.proposed b v
  proposedOnce : ∀ b v w, history.proposed b v → history.proposed b w → v = w
  proposedSafe : ∀ b v, history.proposed b v →
    ∃ quorum, isQuorum quorum ∧ history.ShowsSafe quorum b v

def ChosenAt (history : Synod A C) (isQuorum : Finset A → Prop) (ballot : Nat) (value : C) : Prop :=
  ∃ quorum, isQuorum quorum ∧ ∀ a ∈ quorum, history.voted a ballot value

variable {history : Synod A C} {isQuorum : Finset A → Prop}

theorem Sound.proposed_after_chosen (sound : history.Sound isQuorum)
    (meet : ∀ p q, isQuorum p → isQuorum q → ∃ a ∈ p, a ∈ q)
    {ballot : Nat} {value : C} (chosen : history.ChosenAt isQuorum ballot value)
    (later : Nat) (after : ballot < later) (other : C) (proposal : history.proposed later other) :
    other = value := by
  induction later using Nat.strong_induction_on generalizing other with
  | _ later ih =>
    obtain ⟨voters, votersQuorum, votes⟩ := chosen
    obtain ⟨quorum, isQ, safe⟩ := sound.proposedSafe later other proposal
    obtain ⟨a, inVoters, inQuorum⟩ := meet voters quorum votersQuorum isQ
    rcases safe with none | ⟨top, below, ⟨witness, inside, atTop⟩, gap⟩
    · exact absurd (votes a inVoters) (none a inQuorum ballot after value)
    · have reached : ballot ≤ top := by
        by_contra low
        exact gap a inQuorum ballot (by omega) after value (votes a inVoters)
      have proposedTop := sound.votedProposed witness top other atTop
      rcases Nat.eq_or_lt_of_le reached with same | above
      · subst same
        exact sound.proposedOnce _ _ _ proposedTop (sound.votedProposed a _ value (votes a inVoters))
      · exact ih top below above other proposedTop

theorem Sound.chosen_unique (sound : history.Sound isQuorum)
    (meet : ∀ p q, isQuorum p → isQuorum q → ∃ a ∈ p, a ∈ q)
    {b c : Nat} {v w : C} (first : history.ChosenAt isQuorum b v)
    (second : history.ChosenAt isQuorum c w) : v = w := by
  have proposals : ∀ {b : Nat} {v : C}, history.ChosenAt isQuorum b v → history.proposed b v := by
    rintro b v ⟨quorum, isQ, votes⟩
    obtain ⟨a, present, _⟩ := meet quorum quorum isQ isQ
    exact sound.votedProposed a b v (votes a present)
  rcases Nat.lt_trichotomy b c with before | same | after
  · exact (sound.proposed_after_chosen meet first c before w (proposals second)).symm
  · subst same
    exact sound.proposedOnce _ _ _ (proposals first) (proposals second)
  · exact sound.proposed_after_chosen meet second b after v (proposals first)

end Synod

end PrefixMesh.Lib
