import Mathlib.Data.List.Induction
import Mathlib.Logic.Function.Basic

/-! Chains in which every value is made of the one before it and a block, and the fixed
width codes that blocks are written in. Nothing is assumed of `next` but that it does not
confuse the arguments that two given chains apply it to. -/

namespace PrefixMesh.Lib

section Codes

variable {α β : Type} {code : α → List β} {width : Nat}

theorem encoded_length (sized : ∀ a, (code a).length = width) (xs : List α) :
    (xs.flatMap code).length = xs.length * width := by
  induction xs with
  | nil => simp
  | cons a rest ih =>
    rw [List.flatMap_cons, List.length_append, ih, sized, List.length_cons, Nat.succ_mul]
    omega

theorem encoded_injective (sized : ∀ a, (code a).length = width) (positive : 0 < width)
    (injective : Function.Injective code) : Function.Injective (fun xs : List α => xs.flatMap code) := by
  intro xs ys same
  have lengths : xs.length = ys.length := by
    have equal := congrArg List.length same
    simp only [encoded_length sized] at equal
    exact Nat.eq_of_mul_eq_mul_right positive equal
  induction xs generalizing ys with
  | nil => exact (List.length_eq_zero_iff.mp lengths.symm).symm
  | cons a rest ih =>
    cases ys with
    | nil => cases lengths
    | cons b rest' =>
      simp only [List.flatMap_cons] at same
      obtain ⟨first, later⟩ := List.append_inj same ((sized a).trans (sized b).symm)
      rw [injective first, ih later (Nat.succ.inj lengths)]

theorem exists_encoded (onto : ∀ l : List β, l.length = width → ∃ a, code a = l) (count : Nat) (l : List β)
    (length : l.length = count * width) : ∃ xs : List α, xs.length = count ∧ xs.flatMap code = l := by
  induction count generalizing l with
  | zero => exact ⟨[], rfl, (List.length_eq_zero_iff.mp (by omega)).symm⟩
  | succ count ih =>
    rw [Nat.succ_mul] at length
    obtain ⟨a, first⟩ := onto (l.take width) (by rw [List.length_take]; omega)
    obtain ⟨rest, size, later⟩ := ih (l.drop width) (by rw [List.length_drop]; omega)
    exact ⟨a :: rest, by rw [List.length_cons, size], by rw [List.flatMap_cons, first, later, List.take_append_drop]⟩

end Codes

section Chains

variable {H B : Type} (next : H → B → H)

def chainFrom (h : H) : List B → List H
  | [] => []
  | b :: rest => next h b :: chainFrom (next h b) rest

theorem length_chainFrom (h : H) (blocks : List B) : (chainFrom next h blocks).length = blocks.length := by
  induction blocks generalizing h with
  | nil => rfl
  | cons b rest ih => rw [chainFrom, List.length_cons, ih, List.length_cons]

theorem chainFrom_getElem? (h : H) (blocks : List B) (i : Nat) (inside : i < blocks.length) :
    (chainFrom next h blocks)[i]? = some ((blocks.take (i + 1)).foldl next h) := by
  induction blocks generalizing h i with
  | nil => cases inside
  | cons b rest ih =>
    cases i with
    | zero => rfl
    | succ i =>
      rw [chainFrom, List.getElem?_cons_succ, ih (next h b) i (Nat.lt_of_succ_lt_succ inside)]
      rfl

theorem chainFrom_eq_some {h : H} {blocks : List B} {i : Nat} {a : H} (found : (chainFrom next h blocks)[i]? = some a) :
    i < blocks.length ∧ a = (blocks.take (i + 1)).foldl next h := by
  have inside := (List.getElem?_eq_some_iff.mp found).1
  rw [length_chainFrom] at inside
  rw [chainFrom_getElem? next h blocks i inside, Option.some.injEq] at found
  exact ⟨inside, found.symm⟩

theorem mem_chainFrom {h : H} {blocks : List B} {a : H} :
    a ∈ chainFrom next h blocks ↔ ∃ front x, front ++ [x] <+: blocks ∧ a = (front ++ [x]).foldl next h := by
  constructor
  · intro member
    obtain ⟨i, found⟩ := List.mem_iff_getElem?.mp member
    obtain ⟨inside, rfl⟩ := chainFrom_eq_some next found
    refine ⟨blocks.take i, blocks.get ⟨i, inside⟩, ?_, ?_⟩
    · rw [List.get_eq_getElem, List.take_append_getElem inside]
      exact List.take_prefix _ _
    · rw [List.get_eq_getElem, List.take_append_getElem inside]
  · rintro ⟨front, x, ⟨rest, rfl⟩, rfl⟩
    refine List.mem_of_getElem? (i := front.length) ?_
    rw [chainFrom_getElem? next h _ _ (by simp), List.take_append_of_le_length (by simp),
      List.take_of_length_le (by simp)]

/-- `next` tells apart what the one chain applies it to from what the other does. -/
def Apart (h h' : H) (blocks blocks' : List B) : Prop :=
  ∀ front x front' x', front ++ [x] <+: blocks → front' ++ [x'] <+: blocks' →
    next (front.foldl next h) x = next (front'.foldl next h') x' →
      front.foldl next h = front'.foldl next h' ∧ x = x'

variable {next}

theorem Apart.meet {h h' : H} {blocks blocks' : List B} (apart : Apart next h h' blocks blocks') (xs ys : List B)
    (first : xs <+: blocks) (second : ys <+: blocks') (shorter : ys.length ≤ xs.length)
    (same : xs.foldl next h = ys.foldl next h') : ∃ front, xs = front ++ ys ∧ front.foldl next h = h' := by
  induction ys using List.reverseRecOn generalizing xs with
  | nil => exact ⟨xs, by simp, same⟩
  | append_singleton ys y ih =>
    rw [List.length_append, List.length_singleton] at shorter
    cases xs using List.reverseRecOn with
    | nil => simp at shorter
    | append_singleton xs x =>
      rw [List.length_append, List.length_singleton] at shorter
      rw [List.foldl_append, List.foldl_append] at same
      obtain ⟨before, rfl⟩ := apart xs x ys y first second same
      obtain ⟨front, whole, start⟩ := ih xs ((List.prefix_append xs [x]).trans first)
        ((List.prefix_append ys [x]).trans second) (by omega) before
      exact ⟨front, by rw [whole, List.append_assoc], start⟩

end Chains

end PrefixMesh.Lib
