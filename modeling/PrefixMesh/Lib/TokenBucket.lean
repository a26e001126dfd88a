import Mathlib.Algebra.Order.Field.Basic
import Mathlib.Data.List.Count
import Mathlib.Tactic.Linarith
import Mathlib.Tactic.Ring

/-! Token buckets in exact arithmetic. A bucket holds at most `cap` tokens, gains `rate`
of them a second and gives one whole token to a request, or none. What a bucket has given
in a window is paid for by what it held at the first request and what it gained since. -/

namespace PrefixMesh.Lib

structure Bucket (K : Type) where
  cap : K
  rate : K
  level : K
  last : K
  deriving DecidableEq

variable {K : Type} [Field K] [LinearOrder K]

def Bucket.refilled (b : Bucket K) (now : K) : K := min b.cap (b.level + (now - b.last) * b.rate)

def Bucket.take (b : Bucket K) (now : K) : Bool × Bucket K :=
  if b.refilled now < 1 then (false, { b with level := b.refilled now, last := now })
  else (true, { b with level := b.refilled now - 1, last := now })

def Bucket.serve (b : Bucket K) : List K → List (K × Bool)
  | [] => []
  | now :: later => (now, (b.take now).1) :: (b.take now).2.serve later

def Bucket.after (b : Bucket K) (times : List K) : Bucket K := times.foldl (fun b now => (b.take now).2) b

def granted (first final : K) (answers : List (K × Bool)) : Nat :=
  answers.countP fun answer => decide (first ≤ answer.1) && decide (answer.1 ≤ final) && answer.2

structure Bucket.Valid (b : Bucket K) : Prop where
  gains : 0 ≤ b.rate
  filled : 0 ≤ b.level
  capped : b.level ≤ b.cap

theorem Bucket.refilled_le_cap (b : Bucket K) (now : K) : b.refilled now ≤ b.cap := min_le_left _ _

theorem Bucket.refilled_le (b : Bucket K) (now : K) : b.refilled now ≤ b.level + (now - b.last) * b.rate :=
  min_le_right _ _

@[simp] theorem Bucket.take_last (b : Bucket K) (now : K) : (b.take now).2.last = now := by
  unfold Bucket.take
  split <;> rfl

@[simp] theorem Bucket.take_cap (b : Bucket K) (now : K) : (b.take now).2.cap = b.cap := by
  unfold Bucket.take
  split <;> rfl

@[simp] theorem Bucket.take_rate (b : Bucket K) (now : K) : (b.take now).2.rate = b.rate := by
  unfold Bucket.take
  split <;> rfl

theorem Bucket.take_level (b : Bucket K) (now : K) :
    (b.take now).2.level + ((if (b.take now).1 then 1 else 0 : Nat) : K) = b.refilled now := by
  unfold Bucket.take
  split
  · simp
  · simp

theorem Bucket.take_eq_true (b : Bucket K) (now : K) : (b.take now).1 = true ↔ 1 ≤ b.refilled now := by
  unfold Bucket.take
  split
  next short => simp [short]
  next enough => simp [not_lt.mp enough]

theorem Bucket.after_last (b : Bucket K) (before : List K) (now : K) : (b.after (before ++ [now])).last = now := by
  rw [Bucket.after, List.foldl_append]
  exact Bucket.take_last _ now

theorem Bucket.take_small (b : Bucket K) (small : b.cap < 1) (now : K) : (b.take now).1 = false := by
  rw [← Bool.not_eq_true, Bucket.take_eq_true, not_le]
  exact (b.refilled_le_cap now).trans_lt small

theorem Bucket.serve_times (b : Bucket K) (times : List K) : (b.serve times).map Prod.fst = times := by
  induction times generalizing b with
  | nil => rfl
  | cons now later ih => simp [Bucket.serve, ih]

theorem Bucket.serve_small (b : Bucket K) (small : b.cap < 1) (times : List K) :
    ∀ answer ∈ b.serve times, answer.2 = false := by
  induction times generalizing b with
  | nil =>
    intro answer member
    cases member
  | cons now later ih =>
    intro answer member
    rcases List.mem_cons.mp member with rfl | member
    · exact b.take_small small now
    · exact ih (b.take now).2 (by rwa [Bucket.take_cap]) answer member

theorem Bucket.granted_past (b : Bucket K) {first final now : K} {later : List K}
    (rest : (now :: later).Pairwise (· ≤ ·)) (past : final < now) :
    granted first final (b.serve (now :: later)) = 0 := by
  rw [granted, List.countP_eq_zero]
  intro answer member
  have asked : answer.1 ∈ now :: later := by
    rw [← b.serve_times (now :: later)]
    exact List.mem_map_of_mem member
  have after : now ≤ answer.1 := by
    rcases List.mem_cons.mp asked with same | listed
    · exact same.ge
    · exact (List.pairwise_cons.mp rest).1 answer.1 listed
  simp [not_le.mpr (past.trans_le after)]

variable [IsStrictOrderedRing K] {b : Bucket K}

theorem Bucket.Valid.refilled_nonneg (valid : b.Valid) {now : K} (later : b.last ≤ now) : 0 ≤ b.refilled now := by
  have gained : 0 ≤ (now - b.last) * b.rate := mul_nonneg (sub_nonneg.mpr later) valid.gains
  exact le_min (valid.filled.trans valid.capped) (add_nonneg valid.filled gained)

theorem Bucket.Valid.take (valid : b.Valid) {now : K} (later : b.last ≤ now) : (b.take now).2.Valid := by
  have filled := valid.refilled_nonneg later
  have capped := b.refilled_le_cap now
  unfold Bucket.take
  split
  · exact ⟨valid.gains, filled, capped⟩
  next enough =>
    have whole : 1 ≤ b.refilled now := not_lt.mp enough
    exact ⟨valid.gains, sub_nonneg.mpr whole, (sub_le_self _ zero_le_one).trans capped⟩

theorem Bucket.Valid.after (valid : b.Valid) {times : List K} (ordered : (b.last :: times).Pairwise (· ≤ ·)) :
    (b.after times).Valid ∧ (b.after times).cap = b.cap ∧ (b.after times).rate = b.rate := by
  induction times generalizing b with
  | nil => exact ⟨valid, rfl, rfl⟩
  | cons now later ih =>
    obtain ⟨first, rest⟩ := List.pairwise_cons.mp ordered
    have next := ih (valid.take (first now List.mem_cons_self)) (by rwa [Bucket.take_last])
    rwa [Bucket.take_cap, Bucket.take_rate] at next

/-- A bucket that can hold a whole token has one as soon as it has been left alone for the time a token takes. -/
theorem Bucket.Valid.take_due (valid : b.Valid) {now : K} (whole : 1 ≤ b.cap)
    (due : 1 ≤ (now - b.last) * b.rate) : (b.take now).1 = true := by
  rw [Bucket.take_eq_true]
  exact le_min whole (due.trans (le_add_of_nonneg_left valid.filled))

theorem Bucket.granted_cons_le (b : Bucket K) {first final now : K} {later : List K} (started : first ≤ now)
    (soon : now ≤ final)
    (others : (granted first final ((b.take now).2.serve later) : K) ≤
      (b.take now).2.level + (final - now) * b.rate) :
    (granted first final (b.serve (now :: later)) : K) ≤ b.refilled now + (final - now) * b.rate := by
  have split : granted first final (b.serve (now :: later)) =
      granted first final ((b.take now).2.serve later) + if (b.take now).1 then 1 else 0 := by
    simp [granted, Bucket.serve, List.countP_cons, started, soon]
  rw [split, Nat.cast_add, ← b.take_level now]
  linarith

theorem Bucket.Valid.granted_le (valid : b.Valid) {first final : K} {times : List K} (started : first ≤ b.last)
    (soon : b.last ≤ final) (ordered : (b.last :: times).Pairwise (· ≤ ·)) :
    (granted first final (b.serve times) : K) ≤ b.level + (final - b.last) * b.rate := by
  induction times generalizing b with
  | nil =>
    simpa [granted, Bucket.serve] using
      add_nonneg valid.filled (mul_nonneg (sub_nonneg.mpr soon) valid.gains)
  | cons now later ih =>
    obtain ⟨least, rest⟩ := List.pairwise_cons.mp ordered
    have forward : b.last ≤ now := least now List.mem_cons_self
    rcases lt_or_ge final now with past | inside
    · rw [b.granted_past rest past, Nat.cast_zero]
      exact add_nonneg valid.filled (mul_nonneg (sub_nonneg.mpr soon) valid.gains)
    · have others := ih (valid.take forward) (by simpa using started.trans forward) (by simpa using inside)
        (by simpa using rest)
      rw [Bucket.take_last, Bucket.take_rate] at others
      calc (granted first final (b.serve (now :: later)) : K)
          ≤ b.refilled now + (final - now) * b.rate :=
            b.granted_cons_le (started.trans forward) inside others
        _ ≤ b.level + (now - b.last) * b.rate + (final - now) * b.rate :=
            add_le_add_left (b.refilled_le now) _
        _ = b.level + (final - b.last) * b.rate := by ring

theorem Bucket.Valid.granted_window (valid : b.Valid) (first : K) {window : K} {times : List K}
    (forward : 0 ≤ window) (ordered : (b.last :: times).Pairwise (· ≤ ·)) :
    (granted first (first + window) (b.serve times) : K) ≤ b.cap + window * b.rate := by
  have budget : 0 ≤ b.cap + window * b.rate :=
    add_nonneg (valid.filled.trans valid.capped) (mul_nonneg forward valid.gains)
  induction times generalizing b with
  | nil => simpa [granted, Bucket.serve] using budget
  | cons now later ih =>
    obtain ⟨least, rest⟩ := List.pairwise_cons.mp ordered
    have next := valid.take (least now List.mem_cons_self)
    have chain : ((b.take now).2.last :: later).Pairwise (· ≤ ·) := by rwa [Bucket.take_last]
    rcases lt_or_ge now first with early | started
    · -- a request before the window
      have same : granted first (first + window) (b.serve (now :: later)) =
          granted first (first + window) ((b.take now).2.serve later) := by
        simp [granted, Bucket.serve, not_le.mpr early]
      rw [same, ← b.take_cap now, ← b.take_rate now]
      exact ih next chain (by rwa [Bucket.take_cap, Bucket.take_rate])
    · rcases lt_or_ge (first + window) now with past | inside
      · rw [b.granted_past rest past, Nat.cast_zero]
        exact budget
      · -- the first request of the window finds a full bucket at best
        have others := next.granted_le (by simpa using started) (by simpa using inside) chain
        rw [Bucket.take_last, Bucket.take_rate] at others
        have shorter : first + window - now ≤ window := by linarith
        calc (granted first (first + window) (b.serve (now :: later)) : K)
            ≤ b.refilled now + (first + window - now) * b.rate := b.granted_cons_le started inside others
          _ ≤ b.cap + window * b.rate :=
              add_le_add (b.refilled_le_cap now) (mul_le_mul_of_nonneg_right shorter valid.gains)

end PrefixMesh.Lib
