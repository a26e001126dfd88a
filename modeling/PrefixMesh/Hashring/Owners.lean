import PrefixMesh.Hashring.Churn

/-! Who owns a key. The owners are the first distinct nodes of a walk over the vnodes
that starts at the first point not below the key and wraps around. How the map of nodes
is iterated and how equal vnodes are sorted makes no difference, and a node that joins
or leaves moves at most one owner. -/

namespace PrefixMesh.Hashring

def Ring.owner (r : Ring) (blockID : List UInt8) : Option (String × String) :=
  match r.owners blockID 1 with
  | [] => none
  | id :: _ => some (id, (r.addrs.lookup id).getD "")

/-- The nodes of the vnodes from the first point not below the key on, once around. -/
def walkFrom (vnodes : List VNode) (key : Nat) : List String :=
  (vnodes.rotate (vnodes.findIdx fun v => decide (key ≤ v.point))).map fun v => v.nodeID

private theorem filter_sorted (vnodes : List VNode) (sorted : vnodes.Pairwise VNode.before) (key : Nat) :
    vnodes.filter (fun v => decide (key ≤ v.point)) = vnodes.drop (vnodes.findIdx fun v => decide (key ≤ v.point)) ∧
    vnodes.filter (fun v => decide (v.point < key)) =
      vnodes.take (vnodes.findIdx fun v => decide (key ≤ v.point)) := by
  induction vnodes with
  | nil => simp
  | cons v rest ih =>
    obtain ⟨first, later⟩ := List.pairwise_cons.mp sorted
    by_cases reached : key ≤ v.point
    · have above : ∀ w ∈ v :: rest, key ≤ w.point := by
        intro w member
        rcases List.mem_cons.mp member with rfl | behind
        · exact reached
        · rcases first w behind with up | ⟨level, _⟩
          · omega
          · omega
      have start : (v :: rest).findIdx (fun v => decide (key ≤ v.point)) = 0 := by simp [List.findIdx_cons, reached]
      rw [start, List.drop_zero, List.take_zero]
      constructor
      · exact List.filter_eq_self.mpr (fun w member => decide_eq_true (above w member))
      · refine List.filter_eq_nil_iff.mpr ?_
        intro w member
        have := above w member
        simp only [decide_eq_true_eq]
        omega
    · have next : (v :: rest).findIdx (fun v => decide (key ≤ v.point)) =
          rest.findIdx (fun v => decide (key ≤ v.point)) + 1 := by simp [List.findIdx_cons, reached]
      obtain ⟨upper, lower⟩ := ih later
      rw [next, List.drop_succ_cons, List.take_succ_cons, ← upper, ← lower]
      constructor
      · exact List.filter_cons_of_neg (by simpa using reached)
      · exact List.filter_cons_of_pos (by simp only [decide_eq_true_eq]; omega)

theorem walkFrom_eraseDups (vnodes : List VNode) (sorted : vnodes.Pairwise VNode.before) (key : Nat) :
    (walkFrom vnodes key).eraseDups = clockwise vnodes key := by
  obtain ⟨upper, lower⟩ := filter_sorted vnodes sorted key
  rw [walkFrom, List.rotate_eq_drop_append_take List.findIdx_le_length, clockwise, upper, lower]

theorem placed_unique (point : String → Nat → Nat) (count : Nat) (ids : List String) (vnodes : List VNode)
    (sorted : vnodes.Pairwise VNode.before) (all : vnodes.Perm (ids.flatMap (vnodesOf point count))) :
    vnodes = placed point count ids :=
  (all.trans (List.perm_insertionSort VNode.before _).symm).eq_of_pairwise
    (fun _ _ _ _ => VNode.before_antisymm) sorted (placed_sorted point count ids)

section Built

variable (point : String → Nat → Nat) (epoch : Nat) (nodes : AList (fun _ : String => String)) (vnodesPerNode : Int)

theorem newRing_addrs : (newRing point epoch nodes vnodesPerNode).addrs = nodes.toFinmap := rfl

theorem newRing_owners (key : List UInt8) (n : Int) :
    (newRing point epoch nodes vnodesPerNode).owners key n =
      (clockwise (placed point (vnodeCount vnodesPerNode) nodes.keys) (uint64 key)).take n.toNat := by
  by_cases nothing : n ≤ 0
  · have zero : n.toNat = 0 := by omega
    simp [Ring.owners, Ring.ownersAt, nothing, zero]
  · rw [← newRing_ownersAt, Ring.owners, Int.toNat_of_nonneg (by omega)]

theorem newRing_owners_length (key : List UInt8) (n : Int) :
    ((newRing point epoch nodes vnodesPerNode).owners key n).length = min n.toNat nodes.keys.length := by
  rw [newRing_owners, List.length_take,
    length_clockwise_placed point _ (vnodeCount_pos vnodesPerNode) _ nodes.keys_nodup]

theorem newRing_owners_nodup (key : List UInt8) (n : Int) :
    ((newRing point epoch nodes vnodesPerNode).owners key n).Nodup := by
  rw [newRing_owners]
  exact (clockwise_nodup _ _).sublist (List.take_sublist _ _)

theorem mem_newRing_owners (key : List UInt8) (n : Int) (id : String)
    (owner : id ∈ (newRing point epoch nodes vnodesPerNode).owners key n) : id ∈ nodes := by
  rw [newRing_owners] at owner
  exact (mem_clockwise_placed point _ (vnodeCount_pos vnodesPerNode) _ _ id).mp (List.mem_of_mem_take owner)

theorem newRing_owners_le (key : List UInt8) (m n : Int) (less : m ≤ n) :
    (newRing point epoch nodes vnodesPerNode).owners key m <+:
      (newRing point epoch nodes vnodesPerNode).owners key n := by
  rw [newRing_owners, newRing_owners]
  exact List.take_prefix_take_left (by omega)

theorem newRing_owners_order (key : List UInt8) (n : Int) :
    ((newRing point epoch nodes vnodesPerNode).owners key n).Pairwise (fun a b =>
      (walkFrom (placed point (vnodeCount vnodesPerNode) nodes.keys) (uint64 key)).idxOf a <
        (walkFrom (placed point (vnodeCount vnodesPerNode) nodes.keys) (uint64 key)).idxOf b) ∧
    ∀ a ∈ (newRing point epoch nodes vnodesPerNode).owners key n, ∀ b ∈ nodes,
      b ∉ (newRing point epoch nodes vnodesPerNode).owners key n →
      (walkFrom (placed point (vnodeCount vnodesPerNode) nodes.keys) (uint64 key)).idxOf a <
        (walkFrom (placed point (vnodeCount vnodesPerNode) nodes.keys) (uint64 key)).idxOf b := by
  have order := Lib.eraseDups_pairwise (walkFrom (placed point (vnodeCount vnodesPerNode) nodes.keys) (uint64 key))
  rw [walkFrom_eraseDups _ (placed_sorted point _ nodes.keys),
    ← List.take_append_drop n.toNat (clockwise _ _), List.pairwise_append] at order
  rw [newRing_owners]
  obtain ⟨among, _, across⟩ := order
  refine ⟨among, ?_⟩
  intro a owner b member apart
  have met := (mem_clockwise_placed point _ (vnodeCount_pos vnodesPerNode) nodes.keys (uint64 key) b).mpr member
  rw [← List.take_append_drop n.toNat (clockwise _ _)] at met
  exact across a owner b ((List.mem_append.mp met).resolve_left apart)

end Built

private theorem joined_keys (nodes joined : AList (fun _ : String => String)) (x addr : String) (fresh : x ∉ nodes)
    (join : joined.toFinmap = nodes.toFinmap.insert x addr) :
    (joined.keys.filter (· ≠ x)).Perm nodes.keys := by
  refine (List.perm_ext_iff_of_nodup (joined.keys_nodup.filter _) nodes.keys_nodup).mpr ?_
  intro id
  have member : id ∈ joined ↔ id = x ∨ id ∈ nodes := by
    rw [← Finmap.mem_toFinmap, join, Finmap.mem_insert, Finmap.mem_toFinmap]
  simp only [List.mem_filter, decide_eq_true_eq, ne_eq]
  rw [← AList.mem_keys, ← AList.mem_keys, member]
  constructor
  · rintro ⟨same | old, different⟩
    · exact absurd same different
    · exact old
  · intro old
    exact ⟨Or.inr old, fun same => fresh (same ▸ old)⟩

theorem clockwise_join (point : String → Nat → Nat) (count : Nat) (nodes joined : AList (fun _ : String => String))
    (x addr : String) (fresh : x ∉ nodes) (join : joined.toFinmap = nodes.toFinmap.insert x addr) (key : Nat) :
    clockwise (placed point count nodes.keys) key =
      (clockwise (placed point count joined.keys) key).filter (· ≠ x) := by
  rw [← clockwise_filter, placed_perm point count (joined_keys nodes joined x addr fresh join)]

theorem owners_join (point : String → Nat → Nat) (epoch epoch' : Nat)
    (nodes joined : AList (fun _ : String => String)) (x addr : String) (fresh : x ∉ nodes)
    (join : joined.toFinmap = nodes.toFinmap.insert x addr) (vnodesPerNode : Int) (key : List UInt8) (n : Int) :
    ((newRing point epoch' joined vnodesPerNode).owners key n).filter (· ≠ x) <+:
      (newRing point epoch nodes vnodesPerNode).owners key n ∧
    ((newRing point epoch nodes vnodesPerNode).owners key n).length ≤
      (((newRing point epoch' joined vnodesPerNode).owners key n).filter (· ≠ x)).length + 1 := by
  rw [newRing_owners, newRing_owners, clockwise_join point _ nodes joined x addr fresh join]
  exact Lib.take_without _ (clockwise_nodup _ _) x n.toNat

theorem owner_join (point : String → Nat → Nat) (epoch epoch' : Nat)
    (nodes joined : AList (fun _ : String => String)) (x addr : String) (fresh : x ∉ nodes)
    (join : joined.toFinmap = nodes.toFinmap.insert x addr) (vnodesPerNode : Int) (key : List UInt8) :
    (newRing point epoch' joined vnodesPerNode).owner key = (newRing point epoch nodes vnodesPerNode).owner key ∨
      (newRing point epoch' joined vnodesPerNode).owner key = some (x, addr) := by
  obtain ⟨initial, _⟩ := owners_join point epoch epoch' nodes joined x addr fresh join vnodesPerNode key 1
  have here : x ∈ joined.keys := by
    rw [← AList.mem_keys, ← Finmap.mem_toFinmap, join]
    exact Finmap.mem_insert.mpr (Or.inl rfl)
  have length := newRing_owners_length point epoch' joined vnodesPerNode key 1
  have some_ := List.length_pos_of_mem here
  cases after : (newRing point epoch' joined vnodesPerNode).owners key 1 with
  | nil =>
    rw [after, List.length_nil] at length
    omega
  | cons o rest =>
    rw [after, List.length_cons] at length
    have alone : rest = [] := List.length_eq_zero_iff.mp (by omega)
    subst alone
    rw [after] at initial
    have address : (newRing point epoch' joined vnodesPerNode).owner key =
        some (o, ((nodes.toFinmap.insert x addr).lookup o).getD "") := by
      rw [Ring.owner, after, newRing_addrs, join]
    by_cases same : o = x
    · subst same
      refine Or.inr (address.trans ?_)
      rw [Finmap.lookup_insert]
      rfl
    · left
      rw [address, Finmap.lookup_insert_of_ne _ same]
      rw [List.filter_cons_of_pos (by simpa using same), List.filter_nil] at initial
      obtain ⟨others, before⟩ := initial
      rw [Ring.owner, ← before, newRing_addrs]
      rfl

/-- A node joins a map of nodes, and later leaves it again. On the join all owners of a key but at most the last
stay, in their order, and its first owner changes only to the new node; when the node leaves, only the keys whose
first owner it was get another one. -/
theorem membership_moves_one_owner (point : String → Nat → Nat) (epoch epoch' epoch'' : Nat)
    (nodes joined left : AList (fun _ : String => String)) (x addr : String) (fresh : x ∉ nodes)
    (join : joined.toFinmap = nodes.toFinmap.insert x addr) (leave : left.toFinmap = joined.toFinmap.erase x)
    (vnodesPerNode : Int) (key : List UInt8) (_long : 8 ≤ key.length) (n : Int) (_some : 1 ≤ n) :
    let before := newRing point epoch nodes vnodesPerNode
    let after := newRing point epoch' joined vnodesPerNode
    let removed := newRing point epoch'' left vnodesPerNode
    (after.owners key n).filter (· ≠ x) <+: before.owners key n ∧
    (before.owners key n).length ≤ ((after.owners key n).filter (· ≠ x)).length + 1 ∧
    (after.owner key ≠ before.owner key → after.owner key = some (x, addr)) ∧
    (removed.owner key ≠ after.owner key → after.owner key = some (x, addr)) := by
  intro before after removed
  obtain ⟨initial, most⟩ := owners_join point epoch epoch' nodes joined x addr fresh join vnodesPerNode key n
  have rejoin : joined.toFinmap = left.toFinmap.insert x addr := by
    rw [leave, join]
    apply Finmap.ext_lookup
    intro id
    by_cases same : id = x
    · subst same
      rw [Finmap.lookup_insert, Finmap.lookup_insert]
    · rw [Finmap.lookup_insert_of_ne _ same, Finmap.lookup_insert_of_ne _ same, Finmap.lookup_erase_ne same,
        Finmap.lookup_insert_of_ne _ same]
  have absent : x ∉ left := by
    rw [← Finmap.mem_toFinmap, leave, Finmap.mem_erase]
    exact fun both => both.1 rfl
  refine ⟨initial, most, ?_, ?_⟩
  · intro changed
    exact (owner_join point epoch epoch' nodes joined x addr fresh join vnodesPerNode key).resolve_left changed
  · intro changed
    exact (owner_join point epoch'' epoch' left joined x addr absent rejoin vnodesPerNode key).resolve_left
      (fun same => changed same.symm)

/-- The node `b` joins `a` and `c`, and takes a key over from `c`. -/
theorem sampleJoin_moves :
    let before := newRing samplePoint 1 (["a", "c"].map fun id => ⟨id, id⟩).toAList 1
    let after := newRing samplePoint 2 (["a", "b", "c"].map fun id => ⟨id, id⟩).toAList 1
    after.owners (List.replicate 32 0) 2 = ["b", "c"] ∧ before.owners (List.replicate 32 0) 2 = ["c", "a"] ∧
      (after.owners (List.replicate 32 0) 2).filter (· ≠ "b") <+: before.owners (List.replicate 32 0) 2 := by
  have join : (["a", "b", "c"].map fun id => (⟨id, id⟩ : Sigma fun _ : String => String)).toAList.toFinmap =
      (["a", "c"].map fun id => ⟨id, id⟩).toAList.toFinmap.insert "b" "b" := by decide +kernel
  have leave : (["a", "c"].map fun id => (⟨id, id⟩ : Sigma fun _ : String => String)).toAList.toFinmap =
      (["a", "b", "c"].map fun id => ⟨id, id⟩).toAList.toFinmap.erase "b" := by decide +kernel
  refine ⟨by decide, by decide, ?_⟩
  exact (membership_moves_one_owner samplePoint 1 2 3 _ _ _ "b" "b" (by decide) join leave 1 (List.replicate 32 0)
    (by decide) 2 (by decide)).1

end PrefixMesh.Hashring
