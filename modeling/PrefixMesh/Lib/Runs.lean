import Mathlib.Logic.Function.Basic

/-! Runs of a partial transition function. An action that is not enabled in a
state yields `none`; `ok` restricts the transitions a run may take, so that an
assumption on the environment is an assumption on the run and not on the code. -/

namespace PrefixMesh.Lib

variable {S A : Type}

inductive Reaches (step : S → A → Option S) (ok : S → A → S → Prop) (s : S) : S → Prop where
  | refl : Reaches step ok s s
  | tail {t u : S} {a : A} (earlier : Reaches step ok s t) (taken : step t a = some u)
      (allowed : ok t a u) : Reaches step ok s u

theorem Reaches.trans {step : S → A → Option S} {ok : S → A → S → Prop} {s t u : S}
    (first : Reaches step ok s t) (second : Reaches step ok t u) : Reaches step ok s u := by
  induction second with
  | refl => exact first
  | tail _ taken allowed ih => exact ih.tail taken allowed

/-- The induction rule of every safety argument: what holds at the start and is kept by
each allowed transition holds wherever the run leads. -/
theorem Reaches.invariant {step : S → A → Option S} {ok : S → A → S → Prop} {s t : S}
    (holds : S → Prop) (run : Reaches step ok s t) (start : holds s)
    (kept : ∀ u a v, holds u → step u a = some v → ok u a v → holds v) : holds t := by
  induction run with
  | refl => exact start
  | tail _ taken allowed ih => exact kept _ _ _ ih taken allowed

theorem Reaches.weaken {step : S → A → Option S} {ok ok' : S → A → S → Prop} {s t : S}
    (run : Reaches step ok s t) (weaker : ∀ u a v, ok u a v → ok' u a v) : Reaches step ok' s t := by
  induction run with
  | refl => exact .refl
  | tail _ taken allowed ih => exact ih.tail taken (weaker _ _ _ allowed)

/-- Executing a list of actions, stopping at the first one that is disabled or not allowed. -/
def runActions (step : S → A → Option S) (ok : S → A → S → Prop)
    [∀ s a t, Decidable (ok s a t)] : S → List A → Option S
  | s, [] => some s
  | s, a :: rest =>
      match step s a with
      | none => none
      | some t => if ok s a t then runActions step ok t rest else none

theorem reaches_of_runActions {step : S → A → Option S} {ok : S → A → S → Prop}
    [∀ s a t, Decidable (ok s a t)] (actions : List A) (s t : S)
    (executed : runActions step ok s actions = some t) : Reaches step ok s t := by
  induction actions generalizing s with
  | nil =>
    simp only [runActions, Option.some.injEq] at executed
    exact executed ▸ .refl
  | cons a rest ih =>
    simp only [runActions] at executed
    cases taken : step s a with
    | none => simp [taken] at executed
    | some u =>
      by_cases allowed : ok s a u
      · simp only [taken, if_pos allowed] at executed
        exact (Reaches.refl.tail taken allowed).trans (ih u executed)
      · simp [taken, allowed] at executed

/-- An execution that ends in a state passing a check exhibits a run to such a state. -/
theorem reaches_of_check (step : S → A → Option S) (ok : S → A → S → Prop)
    [∀ s a t, Decidable (ok s a t)] (actions : List A) (s : S) (holds : S → Prop) [DecidablePred holds]
    (checked : (runActions step ok s actions).any (fun t => decide (holds t)) = true) :
    ∃ t, Reaches step ok s t ∧ holds t := by
  obtain ⟨t, executed, passed⟩ := (Option.any_eq_true _ _).mp checked
  exact ⟨t, reaches_of_runActions actions s t executed, of_decide_eq_true passed⟩

def counted (step : S → A → Option S) (own : A → Bool) (x : S × Nat) (a : A) : Option (S × Nat) :=
  (step x.1 a).map fun t => (t, if own a then x.2 + 1 else x.2)

/-- Progress under any schedule: if every action of one's own lowers a rank which the other actions do not raise, then
the goal is reached after as many actions of one's own as the rank says, whatever happens in between. -/
theorem Reaches.paced {step : S → A → Option S} {own : A → Bool} {s t : S} {k : Nat}
    (ok : S → A → S → Prop) (rank : S → Nat) (holds goal : S → Prop)
    (run : Reaches (counted step own) (fun x a y => ok x.1 a y.1) (s, 0) (t, k)) (start : holds s)
    (done : ∀ u, holds u → rank u = 0 → goal u)
    (kept : ∀ u a v, holds u → step u a = some v → ok u a v →
      holds v ∧ (goal u → goal v) ∧ (goal v ∨ rank v + (if own a then 1 else 0) ≤ rank u)) :
    holds t ∧ (rank s ≤ k → goal t) := by
  have both : holds t ∧ (goal t ∨ k + rank t ≤ rank s) := by
    refine run.invariant (fun x => holds x.1 ∧ (goal x.1 ∨ x.2 + rank x.1 ≤ rank s)) ⟨start, Or.inr (by simp)⟩ ?_
    rintro ⟨u, i⟩ a ⟨v, j⟩ ⟨here, ahead⟩ taken allowed
    obtain ⟨w, moved, same⟩ := Option.map_eq_some_iff.mp taken
    cases same
    obtain ⟨next, stays, lower⟩ := kept u a v here moved allowed
    refine ⟨next, ?_⟩
    rcases ahead with reached | left
    · exact Or.inl (stays reached)
    · refine lower.imp_right fun less => ?_
      cases mine : own a with
      | true =>
        simp only [mine, if_true] at less left ⊢
        omega
      | false =>
        simp only [mine, Bool.false_eq_true, if_false] at less left ⊢
        omega
  refine ⟨both.1, fun enough => ?_⟩
  rcases both.2 with reached | left
  · exact reached
  · exact done t both.1 (by omega)

/-- Every run of allowed transitions comes to the goal, and none gets stuck before. -/
inductive Inevitable (step : S → A → Option S) (ok : S → A → S → Prop) (goal : S → Prop) : S → Prop where
  | now {s : S} (here : goal s) : Inevitable step ok goal s
  | later {s : S} (enabled : ∃ a t, step s a = some t ∧ ok s a t)
      (all : ∀ a t, step s a = some t → ok s a t → Inevitable step ok goal t) : Inevitable step ok goal s

theorem Inevitable.bind {step : S → A → Option S} {ok : S → A → S → Prop} {goal goal' : S → Prop} {s : S}
    (first : Inevitable step ok goal s) (next : ∀ t, goal t → Inevitable step ok goal' t) :
    Inevitable step ok goal' s := by
  induction first with
  | now here => exact next _ here
  | later enabled _ ih => exact .later enabled ih

/-- What every transition keeps is still there at the goal, and at the first state that need not keep it. -/
theorem Inevitable.unless {step : S → A → Option S} {ok : S → A → S → Prop} {goal : S → Prop}
    (holds escape : S → Prop) {s : S} (first : Inevitable step ok goal s) (start : holds s)
    (kept : ∀ u a v, holds u → ¬escape u → step u a = some v → ok u a v → holds v) :
    Inevitable step ok (fun t => holds t ∧ (escape t ∨ goal t)) s := by
  induction first with
  | now here => exact .now ⟨start, Or.inr here⟩
  | @later u enabled _ ih =>
    by_cases out : escape u
    · exact .now ⟨start, Or.inl out⟩
    · exact .later enabled fun a t taken allowed => ih a t taken allowed (kept u a t start out taken allowed)

/-- The rule for a phase of a run: some transition is always enabled, and each one reaches the goal or goes down in a
pair of ranks. -/
theorem Inevitable.of_rank {step : S → A → Option S} {ok : S → A → S → Prop} {goal : S → Prop}
    (holds : Nat → Nat → S → Prop)
    (enabled : ∀ k l s, holds k l s → ∃ a t, step s a = some t ∧ ok s a t)
    (kept : ∀ k l s a t, holds k l s → step s a = some t → ok s a t →
      goal t ∨ ∃ k' l', holds k' l' t ∧ (k' < k ∨ k' = k ∧ l' < l))
    (k l : Nat) (s : S) (start : holds k l s) : Inevitable step ok goal s := by
  induction k using Nat.strongRecOn generalizing l s with
  | _ k outer =>
    induction l using Nat.strongRecOn generalizing s with
    | _ l inner =>
      refine .later (enabled k l s start) fun a t taken allowed => ?_
      rcases kept k l s a t start taken allowed with there | ⟨k', l', next, less | ⟨rfl, less⟩⟩
      · exact .now there
      · exact outer k' less l' t next
      · exact inner l' less t next

/-- A rank that counts what is open goes down when something is closed and nothing opens. -/
theorem countP_lt {B : Type} {p q : B → Bool} {items : List B} (closes : ∀ x, p x = true → q x = true) {x : B}
    (member : x ∈ items) (before : q x = true) (after : p x = false) : items.countP p < items.countP q := by
  have kept : items.filter p = (items.filter q).filter p := by
    rw [List.filter_filter]
    refine List.filter_congr fun y _ => ?_
    cases open_ : p y with
    | true => rw [closes y open_, Bool.and_self]
    | false => rw [Bool.false_and]
  rw [List.countP_eq_length_filter, List.countP_eq_length_filter, kept, List.length_filter_lt_length_iff_exists]
  exact ⟨x, List.mem_filter.mpr ⟨member, before⟩, by rw [after]; exact Bool.false_ne_true⟩

theorem update_cases {A B : Type} [DecidableEq A] {f : A → B} {a b : A} {x y : B}
    (value : Function.update f a x b = y) : b = a ∧ x = y ∨ b ≠ a ∧ f b = y := by
  by_cases same : b = a
  · subst same
    exact Or.inl ⟨rfl, by simpa using value⟩
  · exact Or.inr ⟨same, by simpa [Function.update_of_ne same] using value⟩

end PrefixMesh.Lib
