import Mathlib.Data.List.Basic

/-! Operations with keys. An operation without a key does nothing and two operations
with different keys commute, so that the result of a log depends only on the
subsequences of the operations with each key. -/

namespace PrefixMesh.Lib

variable {S A K : Type}

structure KeyedOps (act : S → A → S) (key : A → Option K) : Prop where
  neutral : ∀ s a, key a = none → act s a = s
  commute : ∀ s a b k l, key a = some k → key b = some l → k ≠ l → act (act s a) b = act (act s b) a

variable {act : S → A → S} {key : A → Option K}

theorem KeyedOps.neutral_foldl (ops : KeyedOps act key) (s : S) {log : List A} (none : ∀ a ∈ log, key a = none) :
    log.foldl act s = s := by
  induction log generalizing s with
  | nil => rfl
  | cons a rest ih =>
    rw [List.foldl_cons, ops.neutral s a (none a List.mem_cons_self)]
    exact ih s (fun b member => none b (List.mem_cons_of_mem a member))

theorem KeyedOps.pass (ops : KeyedOps act key) (s : S) {a : A} {k : K} (keyed : key a = some k) {others : List A}
    (apart : ∀ b ∈ others, key b ≠ some k) : others.foldl act (act s a) = act (others.foldl act s) a := by
  induction others generalizing s with
  | nil => rfl
  | cons b rest ih =>
    have swap : act (act s a) b = act (act s b) a := by
      cases other : key b with
      | none => rw [ops.neutral _ b other, ops.neutral s b other]
      | some l =>
        refine ops.commute s a b k l keyed other ?_
        intro same
        exact apart b List.mem_cons_self (same ▸ other)
    rw [List.foldl_cons, List.foldl_cons, swap]
    exact ih (act s b) (fun c member => apart c (List.mem_cons_of_mem b member))

variable [DecidableEq K]

def withKey (key : A → Option K) (k : K) (log : List A) : List A := log.filter fun a => decide (key a = some k)

theorem withKey_append (k : K) (first second : List A) :
    withKey key k (first ++ second) = withKey key k first ++ withKey key k second := List.filter_append _ _

theorem withKey_cons_ne {a : A} {k : K} (other : key a ≠ some k) (rest : List A) :
    withKey key k (a :: rest) = withKey key k rest := by
  rw [withKey, List.filter_cons_of_neg (by simpa using other)]
  rfl

theorem withKey_cons_eq {a : A} {k : K} (keyed : key a = some k) (rest : List A) :
    withKey key k (a :: rest) = a :: withKey key k rest := by
  rw [withKey, List.filter_cons_of_pos (by simpa using keyed)]
  rfl

theorem withKey_eq_nil {k : K} {log : List A} : withKey key k log = [] ↔ ∀ a ∈ log, key a ≠ some k := by
  simp [withKey]

theorem KeyedOps.foldl_eq (ops : KeyedOps act key) (s : S) {log log' : List A}
    (same : ∀ k, withKey key k log = withKey key k log') : log.foldl act s = log'.foldl act s := by
  induction log generalizing s log' with
  | nil =>
    rw [List.foldl_nil, ops.neutral_foldl]
    intro a member
    cases keyed : key a with
    | none => rfl
    | some k => exact absurd keyed (withKey_eq_nil.mp (same k).symm a member)
  | cons a rest ih =>
    cases keyed : key a with
    | none =>
      rw [List.foldl_cons, ops.neutral s a keyed]
      apply ih
      intro k
      rw [← same k, withKey_cons_ne]
      rw [keyed]
      exact Option.some_ne_none k ∘ Eq.symm
    | some k =>
      -- the other log has the operation behind operations with other keys
      have found := (same k).symm
      rw [withKey_cons_eq keyed, withKey, List.filter_eq_cons_iff] at found
      obtain ⟨before, after, rfl, apart, -, tail⟩ := found
      have apart : ∀ b ∈ before, key b ≠ some k := fun b member => by simpa using apart b member
      rw [List.foldl_cons, List.foldl_append, List.foldl_cons, ← ops.pass s keyed apart, ← List.foldl_append]
      apply ih
      intro l
      by_cases this : l = k
      · subst this
        rw [withKey_append, withKey_eq_nil.mpr apart]
        exact tail.symm
      · have other : key a ≠ some l := by
          rw [keyed]
          exact fun eq => this (Option.some.inj eq).symm
        have agree := same l
        rwa [withKey_cons_ne other, withKey_append, withKey_cons_ne other, ← withKey_append] at agree

omit [DecidableEq K] in
/-- A repeated operation does nothing if no other one with its key was in between. -/
theorem KeyedOps.absorb (ops : KeyedOps act key) (s : S) {a : A} (settled : act (act s a) a = act s a)
    {others : List A} (apart : ∀ k, key a = some k → ∀ b ∈ others, key b ≠ some k) :
    act (others.foldl act (act s a)) a = others.foldl act (act s a) := by
  cases keyed : key a with
  | none => exact ops.neutral _ a keyed
  | some k => rw [← ops.pass (act s a) keyed (apart k keyed), settled]

end PrefixMesh.Lib
