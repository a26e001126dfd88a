import PrefixMesh.Hashring.Ring

/-! Owner sets through membership changes. Two rings over the same hash are two
selections from one circle, so their walks from a key pass the common nodes in the
same order. -/

namespace PrefixMesh.Hashring

inductive Churn where
  | join (id addr : String)
  | remove (id : String)
  deriving DecidableEq

abbrev Nodes := Finmap (fun _ : String => String)

def Churn.apply (nodes : Nodes) : Churn → Nodes
  | .join id addr => nodes.insert id addr
  | .remove id => nodes.erase id

def churn (nodes : Nodes) (ops : List Churn) : Nodes := ops.foldl Churn.apply nodes

private theorem apply_close (nodes : Nodes) (op : Churn) :
    ((op.apply nodes).keys \ nodes.keys).card + (nodes.keys \ (op.apply nodes).keys).card ≤ 1 := by
  cases op with
  | join id addr =>
    have gained : (nodes.insert id addr).keys \ nodes.keys ⊆ {id} := by
      intro x member
      obtain ⟨new, old⟩ := Finset.mem_sdiff.mp member
      rw [Finmap.mem_keys, Finmap.mem_insert] at new
      rw [Finmap.mem_keys] at old
      rcases new with same | again
      · exact Finset.mem_singleton.mpr same
      · exact absurd again old
    have lost : nodes.keys \ (nodes.insert id addr).keys = ∅ := by
      rw [Finset.sdiff_eq_empty_iff_subset]
      intro x member
      rw [Finmap.mem_keys] at member ⊢
      exact Finmap.mem_insert.mpr (Or.inr member)
    have one := Finset.card_le_card gained
    rw [Finset.card_singleton] at one
    simp only [Churn.apply, lost, Finset.card_empty]
    omega
  | remove id =>
    have gained : (nodes.erase id).keys \ nodes.keys = ∅ := by
      rw [Finset.sdiff_eq_empty_iff_subset]
      intro x member
      rw [Finmap.mem_keys] at member ⊢
      exact (Finmap.mem_erase.mp member).2
    have lost : nodes.keys \ (nodes.erase id).keys ⊆ {id} := by
      intro x member
      obtain ⟨old, gone⟩ := Finset.mem_sdiff.mp member
      rw [Finmap.mem_keys] at old gone
      by_contra different
      exact gone (Finmap.mem_erase.mpr ⟨fun same => different (Finset.mem_singleton.mpr same), old⟩)
    have one := Finset.card_le_card lost
    rw [Finset.card_singleton] at one
    simp only [Churn.apply, gained, Finset.card_empty]
    omega

private theorem card_sdiff_trans (a b c : Finset String) : (a \ c).card ≤ (a \ b).card + (b \ c).card := by
  have covered : a \ c ⊆ (a \ b) ∪ (b \ c) := by
    intro x member
    obtain ⟨inside, outside⟩ := Finset.mem_sdiff.mp member
    by_cases middle : x ∈ b
    · exact Finset.mem_union_right _ (Finset.mem_sdiff.mpr ⟨middle, outside⟩)
    · exact Finset.mem_union_left _ (Finset.mem_sdiff.mpr ⟨inside, middle⟩)
  calc (a \ c).card
      ≤ ((a \ b) ∪ (b \ c)).card := Finset.card_le_card covered
    _ ≤ (a \ b).card + (b \ c).card := Finset.card_union_le _ _

theorem churn_close (nodes : Nodes) (ops : List Churn) :
    ((churn nodes ops).keys \ nodes.keys).card + (nodes.keys \ (churn nodes ops).keys).card ≤ ops.length := by
  induction ops generalizing nodes with
  | nil => simp [churn]
  | cons op rest ih =>
    have first := apply_close nodes op
    have later := ih (op.apply nodes)
    have gained := card_sdiff_trans (churn (op.apply nodes) rest).keys (op.apply nodes).keys nodes.keys
    have lost := card_sdiff_trans nodes.keys (op.apply nodes).keys (churn (op.apply nodes) rest).keys
    simp only [churn, List.foldl_cons, List.length_cons] at *
    omega

theorem vnodeCount_pos (vnodesPerNode : Int) : 0 < vnodeCount vnodesPerNode := by
  unfold vnodeCount defaultVNodes
  split
  · omega
  · omega

theorem mem_clockwise_placed (point : String → Nat → Nat) (count : Nat) (some_ : 0 < count) (ids : List String)
    (key : Nat) (id : String) : id ∈ clockwise (placed point count ids) key ↔ id ∈ ids := by
  rw [mem_clockwise]
  constructor
  · rintro ⟨v, present, rfl⟩
    exact mem_placed point count ids v present
  · intro member
    refine ⟨⟨point id 0, id⟩, ?_, rfl⟩
    rw [placed, List.mem_insertionSort, List.mem_flatMap]
    exact ⟨id, member, List.mem_map.mpr ⟨0, List.mem_range.mpr some_, rfl⟩⟩

theorem length_clockwise_placed (point : String → Nat → Nat) (count : Nat) (some_ : 0 < count)
    (ids : List String) (distinct : ids.Nodup) (key : Nat) :
    (clockwise (placed point count ids) key).length = ids.length := by
  have perm : (clockwise (placed point count ids) key).Perm ids :=
    (List.perm_ext_iff_of_nodup (clockwise_nodup _ _) distinct).mpr
      (mem_clockwise_placed point count some_ ids key)
  exact perm.length_eq

theorem exists_common_owner (point : String → Nat → Nat) (vnodesPerNode : Int) (epoch : Nat)
    (nodes nodes' : AList (fun _ : String => String)) (down : Finset String) (rf key : Nat)
    (large : rf ≤ nodes.keys.length)
    (close : (nodes'.keys.toFinset \ nodes.keys.toFinset).card +
      (nodes.keys.toFinset \ nodes'.keys.toFinset).card + down.card < rf) :
    ∃ x ∈ (newRing point epoch nodes vnodesPerNode).ownersAt key rf,
      x ∈ (clockwise (placed point (vnodeCount vnodesPerNode) nodes'.keys) key).take rf ∧ x ∉ down := by
  have count := vnodeCount_pos vnodesPerNode
  -- the circle of all nodes of either ring
  have walk : ∀ part : AList (fun _ : String => String), (∀ id ∈ part.keys, id ∈ nodes.keys ∪ nodes'.keys) →
      clockwise (placed point (vnodeCount vnodesPerNode) part.keys) key =
        (clockwise (placed point (vnodeCount vnodesPerNode) (nodes.keys ∪ nodes'.keys)) key).filter
          (· ∈ part.keys.toFinset) := by
    intro part inside
    rw [← clockwise_filter]
    congr 1
    apply placed_perm
    have distinct : (nodes.keys ∪ nodes'.keys).Nodup := List.Nodup.union _ nodes'.keys_nodup
    refine (List.perm_ext_iff_of_nodup part.keys_nodup (distinct.filter _)).mpr ?_
    intro id
    simp only [List.mem_filter, List.mem_toFinset, decide_eq_true_eq]
    exact ⟨fun member => ⟨inside id member, member⟩, fun both => both.2⟩
  have first := walk nodes (fun id member => List.mem_union_iff.mpr (Or.inl member))
  have second := walk nodes' (fun id member => List.mem_union_iff.mpr (Or.inr member))
  have enough : rf ≤ (clockwise (placed point (vnodeCount vnodesPerNode) nodes.keys) key).length := by
    rw [length_clockwise_placed point _ count _ nodes.keys_nodup]
    exact large
  rw [first] at enough
  rw [newRing_ownersAt, first, second]
  exact Lib.exists_common_first _ (clockwise_nodup _ _) _ _ down rf enough close

/-- Through fewer than `rf` changes and losses, one of the old owners of a key is still a reachable owner. -/
theorem exists_live_owner (point : String → Nat → Nat) (vnodesPerNode : Int) (epoch rf : Nat)
    (nodes nodes' : AList (fun _ : String => String)) (large : rf ≤ nodes.keys.length) (ops : List Churn)
    (churned : nodes'.toFinmap = churn nodes.toFinmap ops) (down : Finset String)
    (few : ops.length + down.card < rf) (key : Nat) :
    ∃ n ∈ (newRing point epoch nodes vnodesPerNode).ownersAt key rf, n ∉ down ∧ ∃ last < rf,
      (clockwise (placed point (vnodeCount vnodesPerNode) nodes'.keys) key)[last]? = some n := by
  have keys : ∀ part : AList (fun _ : String => String), part.keys.toFinset = part.toFinmap.keys := by
    intro part
    ext id
    rw [List.mem_toFinset, Finmap.mem_keys]
    exact AList.mem_keys.symm
  have changes := churn_close nodes.toFinmap ops
  rw [← churned, ← keys nodes, ← keys nodes'] at changes
  obtain ⟨n, old, new, up⟩ := exists_common_owner point vnodesPerNode epoch nodes nodes' down rf key large (by omega)
  obtain ⟨last, found⟩ := List.mem_iff_getElem?.mp new
  rw [List.getElem?_take] at found
  split at found
  next high => exact ⟨n, old, up, last, high, found⟩
  next => cases found

end PrefixMesh.Hashring
