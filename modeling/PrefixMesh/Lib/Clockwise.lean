import Mathlib.Data.Finset.Card
import Mathlib.Data.List.Rotate
import Mathlib.Data.List.Sort

/-! Walking a circle of sorted points and keeping the first occurrence of each
label. `search` is the binary search of Go's `sort.Search`. The last theorem is
about two selections from one cyclic order: if the sets differ in few elements,
their first `n` members have an element in common outside a small set. -/

namespace PrefixMesh.Lib

def searchLoop (holds : Nat → Bool) : Nat → Nat → Nat → Nat
  | 0, i, _ => i
  | fuel + 1, i, j =>
      if i < j then
        let h := (i + j) / 2
        if holds h then searchLoop holds fuel i h else searchLoop holds fuel (h + 1) j
      else i

def search (n : Nat) (holds : Nat → Bool) : Nat := searchLoop holds n 0 n

private theorem searchLoop_spec (holds : Nat → Bool) (n : Nat)
    (upward : ∀ h k, h ≤ k → k < n → holds h = true → holds k = true) (fuel i j : Nat)
    (order : i ≤ j) (bound : j ≤ n) (enough : j - i ≤ fuel) (low : ∀ k, k < i → holds k = false)
    (high : ∀ k, j ≤ k → k < n → holds k = true) :
    searchLoop holds fuel i j ≤ n ∧ (∀ k, k < searchLoop holds fuel i j → holds k = false) ∧
      ∀ k, searchLoop holds fuel i j ≤ k → k < n → holds k = true := by
  induction fuel generalizing i j with
  | zero =>
    have same : i = j := by omega
    subst same
    exact ⟨bound, low, high⟩
  | succ fuel ih =>
    by_cases open_ : i < j
    · by_cases found : holds ((i + j) / 2) = true
      · simp only [searchLoop, if_pos open_, if_pos found]
        refine ih i ((i + j) / 2) (by omega) (by omega) (by omega) low ?_
        intro k above below
        exact upward _ k above below found
      · simp only [searchLoop, if_pos open_, if_neg found]
        refine ih ((i + j) / 2 + 1) j (by omega) bound (by omega) ?_ high
        intro k below
        by_contra true_
        exact found (upward k _ (by omega) (by omega) (by simpa using true_))
    · simp only [searchLoop, if_neg open_]
      have same : i = j := by omega
      subst same
      exact ⟨bound, low, high⟩

/-- On a predicate that stays true once it is true, the search finds where it becomes true. -/
theorem search_spec (n : Nat) (holds : Nat → Bool)
    (upward : ∀ h k, h ≤ k → k < n → holds h = true → holds k = true) :
    search n holds ≤ n ∧ (∀ k, k < search n holds → holds k = false) ∧
      ∀ k, search n holds ≤ k → k < n → holds k = true :=
  searchLoop_spec holds n upward n 0 n (Nat.zero_le n) le_rfl (by omega) (by omega)
    (fun k above below => by omega)

variable {α : Type} [DecidableEq α]

theorem nodup_eraseDups (l : List α) : l.eraseDups.Nodup := by
  induction size : l.length using Nat.strong_induction_on generalizing l with
  | _ n ih =>
    cases l with
    | nil => simp
    | cons a as =>
      have shorter : (as.filter fun b => !b == a).length < n := by
        have := List.length_filter_le (fun b => !b == a) as
        simp only [List.length_cons] at size
        omega
      rw [List.eraseDups_cons, List.nodup_cons]
      refine ⟨?_, ih _ shorter _ rfl⟩
      rw [List.mem_eraseDups]
      simp

theorem eraseDups_filter (p : α → Bool) (l : List α) :
    (l.filter p).eraseDups = l.eraseDups.filter p := by
  induction size : l.length using Nat.strong_induction_on generalizing l with
  | _ n ih =>
    cases l with
    | nil => simp
    | cons a as =>
      simp only [List.length_cons] at size
      have shorter : (as.filter fun b => !b == a).length < n := by
        have := List.length_filter_le (fun b => !b == a) as
        omega
      have rest := ih _ shorter _ rfl
      by_cases kept : p a = true
      · rw [List.filter_cons_of_pos kept, List.eraseDups_cons, List.eraseDups_cons,
          List.filter_cons_of_pos kept, ← rest, List.filter_filter, List.filter_filter]
        simp only [Bool.and_comm]
      · have same : (as.filter fun b => !b == a).filter p = as.filter p := by
          rw [List.filter_filter]
          refine List.filter_congr ?_
          intro b _
          by_cases equal : b = a
          · simp [equal, kept]
          · simp [equal]
        rw [List.filter_cons_of_neg kept, List.eraseDups_cons, List.filter_cons_of_neg kept, ← rest, same]

theorem eraseDups_pairwise (l : List α) : l.eraseDups.Pairwise (fun a b => l.idxOf a < l.idxOf b) := by
  induction l using List.reverseRecOn with
  | nil => simp
  | append_singleton l x ih =>
    have kept : l.eraseDups.Pairwise (fun a b => (l ++ [x]).idxOf a < (l ++ [x]).idxOf b) := by
      refine ih.imp_of_mem ?_
      intro a b first second less
      rwa [List.idxOf_append_of_mem (List.mem_eraseDups.mp first),
        List.idxOf_append_of_mem (List.mem_eraseDups.mp second)]
    by_cases known : x ∈ l
    · have same : (l ++ [x]).eraseDups = l.eraseDups := by simp [List.eraseDups_append, List.removeAll, known]
      rwa [same]
    · have more : (l ++ [x]).eraseDups = l.eraseDups ++ [x] := by
        simp [List.eraseDups_append, List.removeAll, known, List.eraseDups_cons]
      rw [more, List.pairwise_append]
      refine ⟨kept, List.pairwise_singleton _ _, ?_⟩
      intro a first b last
      rw [List.mem_singleton.mp last, List.idxOf_append_of_mem (List.mem_eraseDups.mp first),
        List.idxOf_append_of_notMem known]
      have inside := List.idxOf_lt_length_of_mem (List.mem_eraseDups.mp first)
      omega

/-- Leaving one label out of the first `n` gives all but at most the last of the first `n` others. -/
theorem take_without (l : List α) (distinct : l.Nodup) (x : α) (n : Nat) :
    (l.take n).filter (· ≠ x) <+: (l.filter (· ≠ x)).take n ∧
      ((l.filter (· ≠ x)).take n).length ≤ ((l.take n).filter (· ≠ x)).length + 1 := by
  have short : ((l.take n).filter (· ≠ x)).length ≤ n :=
    (List.length_filter_le _ _).trans (List.length_take_le _ _)
  constructor
  · exact List.prefix_take_iff.mpr ⟨(List.take_prefix n l).filter _, short⟩
  · have once : (l.take n).count x ≤ 1 :=
      List.nodup_iff_count_le_one.mp (distinct.sublist (List.take_sublist n l)) x
    have split := List.length_eq_length_filter_add (l := l.take n) (· ≠ x)
    have left_out : ((l.take n).filter (fun y => !decide (y ≠ x))).length = (l.take n).count x := by
      rw [List.count_eq_length_filter]
      congr 1
      refine List.filter_congr ?_
      intro y _
      by_cases same : y = x
      · simp [same]
      · simp [same]
    have fewer : ((l.filter (· ≠ x)).take n).length ≤ (l.take n).length := by
      have := List.length_filter_le (· ≠ x) l
      simp only [List.length_take]
      omega
    omega

omit [DecidableEq α] in
theorem take_filter (p : α → Bool) (l : List α) (n : Nat) :
    ∃ k, (l.filter p).take n = (l.take k).filter p := by
  induction l generalizing n with
  | nil => exact ⟨0, by simp⟩
  | cons a as ih =>
    cases n with
    | zero => exact ⟨0, by simp⟩
    | succ n =>
      by_cases kept : p a = true
      · obtain ⟨k, same⟩ := ih n
        exact ⟨k + 1, by simp [kept, same]⟩
      · obtain ⟨k, same⟩ := ih (n + 1)
        exact ⟨k + 1, by simp [kept, same]⟩

private theorem exists_of_card (l : List α) (distinct : l.Nodup) (s t u : Finset α)
    (inside : ∀ x ∈ l, x ∈ s) (few : (s \ t).card + u.card < l.length) :
    ∃ x ∈ l, x ∈ t ∧ x ∉ u := by
  by_contra none_
  push Not at none_
  have covered : l.toFinset ⊆ (s \ t) ∪ u := by
    intro x present
    have member := List.mem_toFinset.mp present
    by_cases kept : x ∈ t
    · exact Finset.mem_union_right _ (none_ x member kept)
    · exact Finset.mem_union_left _ (Finset.mem_sdiff.mpr ⟨inside x member, kept⟩)
  have sizes : l.length ≤ (s \ t).card + u.card :=
    calc l.length
        = l.toFinset.card := (List.toFinset_card_of_nodup distinct).symm
      _ ≤ ((s \ t) ∪ u).card := Finset.card_le_card covered
      _ ≤ (s \ t).card + u.card := Finset.card_union_le _ _
  omega

/-- If `s` has `n` members on the circle and `t` and `s` differ in few, the first `n` of `s` and the
first `n` of `t` share a member outside `u`. -/
theorem exists_common_first (circle : List α) (distinct : circle.Nodup) (s t u : Finset α) (n : Nat)
    (large : n ≤ (circle.filter (· ∈ s)).length)
    (close : (t \ s).card + (s \ t).card + u.card < n) :
    ∃ x ∈ (circle.filter (· ∈ s)).take n, x ∈ (circle.filter (· ∈ t)).take n ∧ x ∉ u := by
  obtain ⟨i, first⟩ := take_filter (· ∈ s) circle n
  obtain ⟨j, second⟩ := take_filter (· ∈ t) circle n
  have sizeS : ((circle.filter (· ∈ s)).take n).length = n := by rw [List.length_take]; omega
  have distinctS : ((circle.filter (· ∈ s)).take n).Nodup := (distinct.filter _).sublist (List.take_sublist _ _)
  have distinctT : ((circle.filter (· ∈ t)).take n).Nodup := (distinct.filter _).sublist (List.take_sublist _ _)
  -- all members of `t` among the first `n` of `s` are among the first `n` of `t`
  have forward : (∀ x ∈ (circle.filter (· ∈ s)).take n, x ∈ t → x ∈ (circle.filter (· ∈ t)).take n) →
      ∃ x ∈ (circle.filter (· ∈ s)).take n, x ∈ (circle.filter (· ∈ t)).take n ∧ x ∉ u := by
    intro carried
    obtain ⟨x, present, kept, outside⟩ := exists_of_card _ distinctS s t u
      (fun x present => by simpa using (List.mem_filter.mp (List.mem_of_mem_take present)).2) (by omega)
    exact ⟨x, present, carried x present kept, outside⟩
  rcases Nat.le_total i j with order | order
  · apply forward
    intro x present kept
    rw [first] at present
    rw [second]
    obtain ⟨early, _⟩ := List.mem_filter.mp present
    exact List.mem_filter.mpr ⟨(List.take_sublist_take_left order).subset early, by simpa using kept⟩
  · by_cases small : (circle.filter (· ∈ t)).length < n
    · apply forward
      intro x present kept
      rw [List.take_of_length_le (by omega)]
      have member := (List.mem_filter.mp (List.mem_of_mem_take present)).1
      exact List.mem_filter.mpr ⟨member, by simpa using kept⟩
    · have sizeT : ((circle.filter (· ∈ t)).take n).length = n := by rw [List.length_take]; omega
      obtain ⟨x, present, kept, outside⟩ := exists_of_card _ distinctT t s u
        (fun x present => by simpa using (List.mem_filter.mp (List.mem_of_mem_take present)).2) (by omega)
      refine ⟨x, ?_, present, outside⟩
      rw [second] at present
      rw [first]
      obtain ⟨early, _⟩ := List.mem_filter.mp present
      exact List.mem_filter.mpr ⟨(List.take_sublist_take_left order).subset early, by simpa using kept⟩

end PrefixMesh.Lib
