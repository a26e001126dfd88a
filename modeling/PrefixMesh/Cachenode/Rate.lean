import PrefixMesh.Cachenode.Warmer
import PrefixMesh.Lib.TokenBucket

/-! The rate of warm fetches. The warmer's bucket holds as many tokens as it gains in a
second, which is less than the one token a fetch takes if the rate is below one. The
times are those at which `allow` reads the clock, under the lock. -/

namespace PrefixMesh.Cachenode

open Lib Blockstore

def Warmer.bucket (w : Warmer) : Bucket ℚ := ⟨w.rate, w.rate, w.tokens, w.lastRef⟩

def Warmer.answers (w : Warmer) : List ℚ → List (ℚ × Bool)
  | [] => []
  | now :: later => (now, (w.allow now).1) :: (w.allow now).2.answers later

def Warmer.after (w : Warmer) (times : List ℚ) : Warmer := times.foldl (fun w now => (w.allow now).2) w

theorem Warmer.allow_take (w : Warmer) (now : ℚ) : Prod.map id Warmer.bucket (w.allow now) = w.bucket.take now := by
  unfold Warmer.allow Bucket.take
  by_cases short : w.bucket.refilled now < 1
  · rw [if_pos short]
    exact congrArg (Prod.map id Warmer.bucket) (if_pos short)
  · rw [if_neg short]
    exact congrArg (Prod.map id Warmer.bucket) (if_neg short)

theorem Warmer.allow_answer (w : Warmer) (now : ℚ) : (w.allow now).1 = (w.bucket.take now).1 :=
  congrArg Prod.fst (w.allow_take now)

theorem Warmer.allow_bucket (w : Warmer) (now : ℚ) : (w.allow now).2.bucket = (w.bucket.take now).2 :=
  congrArg Prod.snd (w.allow_take now)

theorem Warmer.answers_eq_serve (w : Warmer) (times : List ℚ) : w.answers times = w.bucket.serve times := by
  induction times generalizing w with
  | nil => rfl
  | cons now later ih => rw [Warmer.answers, Bucket.serve, ih, w.allow_answer, w.allow_bucket]

theorem Warmer.after_bucket (w : Warmer) (times : List ℚ) : (w.after times).bucket = w.bucket.after times := by
  induction times generalizing w with
  | nil => rfl
  | cons now later ih =>
    change ((w.allow now).2.after later).bucket = (w.bucket.take now).2.after later
    rw [ih, w.allow_bucket]

theorem newWarmer_bucket {rate : ℚ} (positive : 0 < rate) (start : ℚ) :
    (newWarmer rate start).bucket = ⟨rate, rate, rate, start⟩ := by
  simp only [newWarmer, Warmer.bucket, if_neg (not_le.mpr positive)]

theorem full_valid {rate : ℚ} (positive : 0 < rate) (start : ℚ) : Bucket.Valid ⟨rate, rate, rate, start⟩ :=
  ⟨positive.le, positive.le, le_refl rate⟩

theorem answers_within_rate (rate start : ℚ) (positive : 0 < rate) (times : List ℚ)
    (ordered : (start :: times).Pairwise (· ≤ ·)) :
    (∀ first window : ℚ, 0 ≤ window →
      (granted first (first + window) ((newWarmer rate start).answers times) : ℚ) ≤ rate + rate * window) ∧
    ∀ before, before <+: times →
      0 ≤ ((newWarmer rate start).after before).tokens ∧ ((newWarmer rate start).after before).tokens ≤ rate := by
  refine ⟨?_, ?_⟩
  · intro first window forward
    have bound := (full_valid positive start).granted_window first forward ordered
    rw [Warmer.answers_eq_serve, newWarmer_bucket positive, mul_comm rate window]
    exact bound
  · intro before part
    have chain : (start :: before).Pairwise (· ≤ ·) := ordered.sublist (part.sublist.cons_cons start)
    have kept := (full_valid positive start).after chain
    rw [← newWarmer_bucket positive, ← Warmer.after_bucket] at kept
    obtain ⟨valid, cap, -⟩ := kept
    have capped := valid.capped
    rw [cap, newWarmer_bucket positive] at capped
    exact ⟨valid.filled, capped⟩

/-- Three calls at once and one a second later, at two fetches a second. -/
theorem answers_within_rate_two :
    (newWarmer 2 0).answers [0, 0, 0, 1] = [(0, true), (0, true), (0, false), (1, true)] ∧
    (granted (0 : ℚ) (0 + 1) ((newWarmer 2 0).answers [0, 0, 0, 1]) : ℚ) ≤ 2 + 2 * 1 :=
  ⟨by decide +kernel, (answers_within_rate 2 0 (by decide) [0, 0, 0, 1] (by decide)).1 0 1 (by decide)⟩

/-- A rate below one shuts the warmer off for good. -/
theorem answers_slow {rate : ℚ} (positive : 0 < rate) (slow : rate < 1) (start : ℚ) (times : List ℚ) :
    ∀ answer ∈ (newWarmer rate start).answers times, answer.2 = false := by
  rw [Warmer.answers_eq_serve, newWarmer_bucket positive]
  exact Bucket.serve_small _ slow times

theorem allow_due_iff (rate start : ℚ) (positive : 0 < rate) (before : List ℚ) (previous now : ℚ)
    (ordered : (start :: (before ++ [previous])).Pairwise (· ≤ ·)) (due : 1 / rate ≤ now - previous) :
    (((newWarmer rate start).after (before ++ [previous])).allow now).1 = true ↔ 1 ≤ rate := by
  obtain ⟨valid, cap, gains⟩ := (full_valid positive start).after ordered
  rw [Warmer.allow_answer, Warmer.after_bucket, newWarmer_bucket positive]
  constructor
  · intro answered
    by_contra slow
    rw [Bucket.take_small _ (by rw [cap]; exact not_le.mp slow) now] at answered
    cases answered
  · intro whole
    refine valid.take_due (by rwa [cap]) ?_
    rw [Bucket.after_last, gains]
    exact (div_le_iff₀ positive).mp due

theorem allow_due_iff_two : (((newWarmer 2 0).after ([0, 0] ++ [0])).allow (1 / 2)).1 = true ↔ (1 : ℚ) ≤ 2 :=
  allow_due_iff 2 0 (by decide) [0, 0] 0 (1 / 2) (by decide) (by decide +kernel)

/-- One fetch in two seconds is asked for, and none is ever made. -/
theorem allow_half_refused :
    (0 : ℚ) < 1 / 2 ∧ (1 : ℚ) / (1 / 2) ≤ 2 - 0 ∧ (((newWarmer (1 / 2) 0).after [0]).allow 2).1 = false := by
  decide +kernel

variable {F : Type} (fl : Float64 F)

theorem Warmer.handle_asks (w : Warmer) (self : String) (cmd : WarmCommand) (now : ℚ) (s : Store F) :
    ((w.handle fl self cmd now s).1 = false ∧ (w.handle fl self cmd now s).2.2.bucket = w.bucket) ∨
    ((w.handle fl self cmd now s).1 = (w.allow now).1 ∧
      (w.handle fl self cmd now s).2.2.bucket = (w.allow now).2.bucket) := by
  simp only [Warmer.handle]
  split
  · exact Or.inl ⟨rfl, rfl⟩
  · split
    · exact Or.inl ⟨rfl, rfl⟩
    · split
      · exact Or.inl ⟨rfl, rfl⟩
      · split
        · exact Or.inl ⟨rfl, rfl⟩
        · split
          · exact Or.inl ⟨rfl, rfl⟩
          · refine Or.inr ?_
            split
            next allowed => exact ⟨allowed.symm, rfl⟩
            next refused => exact ⟨(eq_false_of_ne_true refused).symm, rfl⟩

/-- Commands handled one after another, each with the time and the store it finds: when a fetch was sent. -/
def Warmer.fetches (self : String) (w : Warmer) : List (WarmCommand × ℚ × Store F) → List (ℚ × Bool)
  | [] => []
  | (cmd, now, s) :: later =>
      (now, (w.handle fl self cmd now s).1) :: (w.handle fl self cmd now s).2.2.fetches self later

theorem Warmer.fetches_granted (w : Warmer) (self : String) (calls : List (WarmCommand × ℚ × Store F))
    (first final : ℚ) :
    ∃ asked, asked.Sublist (calls.map fun call => call.2.1) ∧
      granted first final (w.fetches fl self calls) = granted first final (w.bucket.serve asked) := by
  induction calls generalizing w with
  | nil => exact ⟨[], List.Sublist.refl _, rfl⟩
  | cons call later ih =>
    obtain ⟨cmd, now, s⟩ := call
    obtain ⟨asked, part, same⟩ := ih (w.handle fl self cmd now s).2.2
    rcases w.handle_asks fl self cmd now s with ⟨idle, kept⟩ | ⟨answer, next⟩
    · refine ⟨asked, part.cons now, ?_⟩
      rw [kept] at same
      rw [← same]
      simp [granted, Warmer.fetches, idle]
    · refine ⟨now :: asked, part.cons_cons now, ?_⟩
      rw [next, w.allow_bucket] at same
      rw [w.allow_answer] at answer
      simp only [granted, Warmer.fetches, Bucket.serve, List.countP_cons, answer] at same ⊢
      rw [same]

/-- Whatever commands come, the fetches of a window stay within the burst and the rate. -/
theorem fetches_within_rate (rate start : ℚ) (positive : 0 < rate) (self : String)
    (calls : List (WarmCommand × ℚ × Store F))
    (ordered : (start :: calls.map fun call => call.2.1).Pairwise (· ≤ ·)) (first window : ℚ) (forward : 0 ≤ window) :
    (granted first (first + window) ((newWarmer rate start).fetches fl self calls) : ℚ) ≤ rate + rate * window := by
  obtain ⟨asked, part, same⟩ := (newWarmer rate start).fetches_granted fl self calls first (first + window)
  have chain : (start :: asked).Pairwise (· ≤ ·) := ordered.sublist (part.cons_cons start)
  have bound := (full_valid positive start).granted_window first forward chain
  rw [same, newWarmer_bucket positive, mul_comm rate window]
  exact bound

end PrefixMesh.Cachenode
