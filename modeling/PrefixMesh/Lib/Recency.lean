import Mathlib.Algebra.Ring.Nat
import Mathlib.Data.List.Dedup

/-! Caches in order of use. An order lists what a cache holds, least recently used
first; the uses of a run are listed as they came, so that `dedup`, which keeps the last
of equal elements, puts every element where it was used last. Making room takes the
shortest run from the front of the order whose weights cover what is lacking. -/

namespace PrefixMesh.Lib

variable {E K : Type}

/-- `gone` is the shortest run at the front of `order` that covers `lack`, and `kept` is the rest. -/
structure ShortestRun (weight : E → Nat) (lack : Nat) (order gone kept : List E) : Prop where
  split : order = gone ++ kept
  enough : lack ≤ (gone.map weight).sum
  least : ∀ fewer, fewer <+: gone → fewer ≠ gone → (fewer.map weight).sum < lack

theorem ShortestRun.congr {weight weight' : E → Nat} {lack : Nat} {order gone kept : List E}
    (run : ShortestRun weight lack order gone kept) (same : ∀ e ∈ order, weight e = weight' e) :
    ShortestRun weight' lack order gone kept := by
  have total : ∀ part, part <+: gone → part.map weight = part.map weight' := by
    intro part inside
    apply List.map_congr_left
    intro e member
    apply same
    rw [run.split]
    exact List.mem_append_left _ (inside.subset member)
  refine ⟨run.split, ?_, ?_⟩
  · rw [← total gone (List.prefix_refl _)]
    exact run.enough
  · intro fewer before different
    rw [← total fewer before]
    exact run.least fewer before different

theorem ShortestRun.map {weight : K → Nat} {lack : Nat} {order gone kept : List E} (f : E → K)
    (run : ShortestRun (fun e => weight (f e)) lack order gone kept) :
    ShortestRun weight lack (order.map f) (gone.map f) (kept.map f) where
  split := by rw [run.split, List.map_append]
  enough := by
    rw [List.map_map]
    exact run.enough
  least := by
    intro fewer before different
    obtain ⟨part, inside, rfl⟩ : ∃ part, part <+: gone ∧ part.map f = fewer := by
      refine ⟨gone.take fewer.length, List.take_prefix _ _, ?_⟩
      rw [List.map_take, ← List.prefix_iff_eq_take.mp before]
    rw [List.map_map]
    exact run.least part inside (fun same => different (by rw [same]))

/-- With all weights equal to `w` the number that goes is the lack divided by `w`, rounded up. -/
theorem ShortestRun.length_eq {weight : E → Nat} {lack w : Nat} {order gone kept : List E}
    (run : ShortestRun weight lack order gone kept) (equal : ∀ e ∈ order, weight e = w) (positive : 0 < w) :
    gone.length = (lack + w - 1) / w := by
  have run := run.congr equal
  have total : ∀ part : List E, (part.map fun _ => w).sum = part.length * w := by
    intro part
    rw [List.map_const', List.sum_replicate_nat]
  have enough := run.enough
  rw [total gone] at enough
  refine (Nat.div_eq_of_lt_le ?_ ?_).symm
  · rcases List.eq_nil_or_concat gone with rfl | ⟨init, last, whole⟩
    · rw [List.length_nil, Nat.zero_mul]
      exact Nat.zero_le _
    · -- the run without its last element does not cover the lack
      rw [List.concat_eq_append] at whole
      subst whole
      have before : init <+: init ++ [last] := List.prefix_append _ _
      have least := run.least init before (by simp)
      rw [total init] at least
      rw [List.length_append, List.length_singleton, Nat.add_mul, Nat.one_mul]
      omega
  · rw [Nat.succ_mul]
    omega

section Uses

variable [BEq K] [LawfulBEq K]

theorem dedup_concat [DecidableEq K] (uses : List K) (k : K) : (uses ++ [k]).dedup = uses.dedup.erase k ++ [k] := by
  induction uses with
  | nil => simp
  | cons first rest ih =>
    by_cases again : first ∈ rest
    · rw [List.cons_append, List.dedup_cons_of_mem (List.mem_append_left _ again), ih,
        List.dedup_cons_of_mem again]
    · by_cases same : first = k
      · subst same
        rw [List.cons_append, List.dedup_cons_of_mem (by simp), ih, List.dedup_cons_of_notMem again,
          List.erase_cons_head, List.erase_of_not_mem (by simpa using again)]
      · have unseen : first ∉ rest ++ [k] := by simp [again, same]
        rw [List.cons_append, List.dedup_cons_of_notMem unseen, ih, List.dedup_cons_of_notMem again,
          List.erase_cons_tail (by simpa using same), List.cons_append]

theorem used_sublist [DecidableEq K] {order uses : List K} (recent : order.Sublist uses.dedup) (k : K) :
    (order.erase k ++ [k]).Sublist (uses ++ [k]).dedup := by
  rw [dedup_concat]
  exact (recent.erase k).append (List.Sublist.refl _)

theorem map_erase [BEq E] [LawfulBEq E] {f : E → K} {list : List E} (distinct : (list.map f).Nodup) {e : E}
    (member : e ∈ list) : (list.erase e).map f = (list.map f).erase (f e) := by
  induction list with
  | nil => cases member
  | cons first rest ih =>
    rw [List.map_cons, List.nodup_cons] at distinct
    by_cases same : first = e
    · subst same
      rw [List.erase_cons_head, List.map_cons, List.erase_cons_head]
    · have inside : e ∈ rest := (List.mem_cons.mp member).resolve_left (Ne.symm same)
      have other : f first ≠ f e := fun named => distinct.1 (named ▸ List.mem_map_of_mem inside)
      rw [List.erase_cons_tail (by simpa using same), List.map_cons, List.map_cons,
        List.erase_cons_tail (by simpa using other), ih distinct.2 inside]

theorem reverse_erase {list : List K} (distinct : list.Nodup) (k : K) :
    (list.erase k).reverse = list.reverse.erase k := by
  rw [distinct.erase_eq_filter, (List.nodup_reverse.mpr distinct).erase_eq_filter, List.filter_reverse]

omit [BEq K] [LawfulBEq K] in
theorem eq_filter_of_sublist {order list : List K} (part : order.Sublist list) (distinct : list.Nodup)
    (inside : K → Bool) (exactly : ∀ k ∈ list, k ∈ order ↔ inside k = true) : order = list.filter inside := by
  induction part with
  | slnil => rfl
  | cons first part ih =>
    rw [List.nodup_cons] at distinct
    have out : inside first = false := by
      rw [← Bool.not_eq_true, ← exactly first List.mem_cons_self]
      exact fun member => distinct.1 (part.subset member)
    rw [List.filter_cons_of_neg (by simp [out])]
    exact ih distinct.2 (fun k member => exactly k (List.mem_cons_of_mem _ member))
  | cons_cons first part ih =>
    rw [List.nodup_cons] at distinct
    rw [List.filter_cons_of_pos ((exactly first List.mem_cons_self).mp List.mem_cons_self)]
    congr 1
    apply ih distinct.2
    intro k member
    rw [← exactly k (List.mem_cons_of_mem _ member), List.mem_cons]
    have other : k ≠ first := fun same => distinct.1 (same ▸ member)
    simp [other]

end Uses

end PrefixMesh.Lib
