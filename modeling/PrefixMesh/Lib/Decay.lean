import Mathlib.Analysis.SpecialFunctions.Pow.Real

/-! Counts that fade. Every use of a thing counts for one at its time and for half as much
whenever a half-life has passed. A program keeps such a count as one number that it fades
and adds one to; the number is then the sum over all uses, and how two things compare does
not depend on when one asks. -/

namespace PrefixMesh.Lib

noncomputable def fading (halfLife elapsed : ℝ) : ℝ := 2 ^ (-elapsed / halfLife)

theorem fading_pos (halfLife elapsed : ℝ) : 0 < fading halfLife elapsed := Real.rpow_pos_of_pos two_pos _

@[simp] theorem fading_zero (halfLife : ℝ) : fading halfLife 0 = 1 := by
  rw [fading, neg_zero, zero_div, Real.rpow_zero]

theorem fading_add (halfLife elapsed more : ℝ) :
    fading halfLife (elapsed + more) = fading halfLife elapsed * fading halfLife more := by
  rw [fading, fading, fading, ← Real.rpow_add two_pos]
  congr 1
  ring

theorem half_lt_fading {halfLife elapsed : ℝ} (positive : 0 < halfLife) (early : elapsed < halfLife) :
    1 / 2 < fading halfLife elapsed := by
  have half : (2 : ℝ) ^ (-1 : ℝ) = 1 / 2 := by rw [Real.rpow_neg_one, one_div]
  rw [fading, ← half]
  refine Real.rpow_lt_rpow_of_exponent_lt one_lt_two ?_
  rw [lt_div_iff₀ positive, neg_one_mul]
  exact neg_lt_neg early

/-- What uses at these times count for together at the time `now`. -/
noncomputable def fadedCount (halfLife : ℝ) (uses : List ℝ) (now : ℝ) : ℝ :=
  (uses.map fun time => fading halfLife (now - time)).sum

variable {halfLife : ℝ}

@[simp] theorem fadedCount_nil (now : ℝ) : fadedCount halfLife [] now = 0 := rfl

theorem fadedCount_cons (uses : List ℝ) (now : ℝ) :
    fadedCount halfLife (now :: uses) now = 1 + fadedCount halfLife uses now := by
  rw [fadedCount, List.map_cons, List.sum_cons, sub_self, fading_zero, fadedCount]

theorem fadedCount_later (uses : List ℝ) (now later : ℝ) :
    fadedCount halfLife uses now * fading halfLife (later - now) = fadedCount halfLife uses later := by
  rw [fadedCount, fadedCount, ← List.sum_map_mul_right]
  refine congrArg List.sum (List.map_congr_left ?_)
  intro time _
  rw [← fading_add]
  congr 1
  ring

theorem fadedCount_le_iff (uses uses' : List ℝ) (now later : ℝ) :
    fadedCount halfLife uses now ≤ fadedCount halfLife uses' now ↔
      fadedCount halfLife uses later ≤ fadedCount halfLife uses' later := by
  rw [← fadedCount_later uses now later, ← fadedCount_later uses' now later]
  exact (mul_le_mul_iff_left₀ (fading_pos _ _)).symm

end PrefixMesh.Lib
