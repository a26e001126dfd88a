import PrefixMesh.Lib.Recency

/-! The inclusion property of caches that evict what was used least recently. Two of them
that see the same uses, with the same weights and different capacities, stay in step: what
the smaller one holds is the most recently used part of what the larger one holds. -/

namespace PrefixMesh.Lib

variable {K : Type} [BEq K] [LawfulBEq K]

/-- A use of `k` and whether it is a hit. What is there moves to the end of the order; for what is not, the shortest run
of the least recently used goes that makes room. -/
inductive Use (weight : K → Nat) (capacity : Nat) (order : List K) (k : K) : Bool → List K → Prop where
  | hit (present : k ∈ order) : Use weight capacity order k true (order.erase k ++ [k])
  | miss (absent : k ∉ order) (gone kept : List K)
      (room : ShortestRun weight ((order.map weight).sum + weight k - capacity) order gone kept) :
      Use weight capacity order k false (kept ++ [k])

variable {weight : K → Nat} {capacity capacity' : Nat} {order order' next next' : List K} {k : K} {hit hit' : Bool}

theorem Use.nodup (use : Use weight capacity order k hit next) (distinct : order.Nodup) : next.Nodup := by
  have fresh : ∀ {list : List K}, list.Nodup → k ∉ list → (list ++ [k]).Nodup := fun nodup absent =>
    List.nodup_append.mpr ⟨nodup, List.nodup_singleton k, fun a inside b new same =>
      absent (List.mem_singleton.mp new ▸ same ▸ inside)⟩
  cases use with
  | hit present => exact fresh (distinct.erase k) distinct.not_mem_erase
  | miss absent gone kept room =>
    rw [room.split] at distinct absent
    exact fresh (List.nodup_append.mp distinct).2.1 fun inside => absent (List.mem_append_right _ inside)

omit [BEq K] [LawfulBEq K] in
theorem ShortestRun.kept_suffix {gone kept gone' kept' : List K} (le : capacity ≤ capacity') (inside : order <:+ order')
    (small : ShortestRun weight ((order.map weight).sum + weight k - capacity) order gone kept)
    (large : ShortestRun weight ((order'.map weight).sum + weight k - capacity') order' gone' kept') :
    kept <:+ kept' := by
  have first : kept <:+ order' := (small.split ▸ List.suffix_append gone kept).trans inside
  have second : kept' <:+ order' := large.split ▸ List.suffix_append gone' kept'
  refine (List.suffix_or_suffix_of_suffix first second).elim id fun shorter => ?_
  -- otherwise the larger cache would have stopped before
  obtain ⟨more, rfl⟩ := shorter
  obtain ⟨less, whole⟩ := first
  by_cases none_ : more = []
  · subst none_
    exact List.suffix_refl _
  · have split : gone' = less ++ more := by
      have both := large.split
      rw [← whole, ← List.append_assoc] at both
      exact (List.append_cancel_right both).symm
    have least := large.least less (split ▸ List.prefix_append less more) fun same => by simp [split, none_] at same
    have enough := small.enough
    rw [small.split, List.map_append, List.sum_append] at enough
    rw [← whole, List.map_append, List.sum_append] at least
    omega

theorem Use.inclusion (small : Use weight capacity order k hit next) (large : Use weight capacity' order' k hit' next')
    (le : capacity ≤ capacity') (inside : order <:+ order') (distinct : order'.Nodup) :
    (hit = true → hit' = true) ∧ next <:+ next' := by
  obtain ⟨older, rfl⟩ := inside
  cases large with
  | hit present' =>
    refine ⟨fun _ => rfl, ?_⟩
    cases small with
    | hit present =>
      have absent : k ∉ older := fun older_ => (List.nodup_append.mp distinct).2.2 k older_ k present rfl
      rw [List.erase_append_right _ absent, List.append_assoc]
      exact List.suffix_append _ _
    | miss absent gone kept room =>
      have older_ : k ∈ older := (List.mem_append.mp present').resolve_right absent
      rw [List.erase_append_left _ older_, room.split, List.append_assoc, List.append_assoc]
      exact (List.suffix_append gone _).trans (List.suffix_append _ _)
  | miss absent' gone' kept' room' =>
    cases small with
    | hit present => exact absurd (List.mem_append_right older present) absent'
    | miss absent gone kept room =>
      refine ⟨fun none_ => none_, ?_⟩
      obtain ⟨more, rfl⟩ := room.kept_suffix le (List.suffix_append older order) room'
      rw [List.append_assoc]
      exact List.suffix_append _ _

inductive Uses (weight : K → Nat) (capacity : Nat) : List K → List K → List Bool → List K → Prop where
  | nil (order : List K) : Uses weight capacity order [] [] order
  | cons {order next final : List K} {k : K} {hit : Bool} {keys : List K} {hits : List Bool}
      (use : Use weight capacity order k hit next) (rest : Uses weight capacity next keys hits final) :
      Uses weight capacity order (k :: keys) (hit :: hits) final

theorem Uses.inclusion {keys final final' : List K} {hits hits' : List Bool}
    (small : Uses weight capacity order keys hits final) (large : Uses weight capacity' order' keys hits' final')
    (le : capacity ≤ capacity') (inside : order <:+ order') (distinct : order'.Nodup) :
    hits.Forall₂ (fun hit hit' => hit = true → hit' = true) hits' ∧ final <:+ final' := by
  induction small generalizing order' hits' with
  | nil order =>
    cases large
    exact ⟨.nil, inside⟩
  | cons use _ ih =>
    cases large with
    | cons use' rest' =>
      obtain ⟨first, inside'⟩ := use.inclusion use' le inside distinct
      obtain ⟨later, ends⟩ := ih rest' inside' (use'.nodup distinct)
      exact ⟨.cons first later, ends⟩

end PrefixMesh.Lib
