import Mathlib.Data.Finmap
import Mathlib.Data.String.Basic
import PrefixMesh.Lib.Clockwise

/-! The consistent hash ring. `point id i` stands for the first eight bytes of the
hash of `id#i`; nothing is assumed about it, so points may collide. A Go map that is
iterated over is an `AList`, whose entries stand in the order of the iteration. -/

namespace PrefixMesh.Hashring

structure VNode where
  point : Nat
  nodeID : String
  deriving DecidableEq

/-- The sort order of `New`: by point, and by node on a collision. -/
def VNode.before (a b : VNode) : Prop := a.point < b.point ∨ a.point = b.point ∧ a.nodeID ≤ b.nodeID

instance : DecidableRel VNode.before := fun a b =>
  inferInstanceAs (Decidable (a.point < b.point ∨ a.point = b.point ∧ a.nodeID ≤ b.nodeID))

theorem VNode.before_trans {a b c : VNode} (first : a.before b) (second : b.before c) : a.before c := by
  rcases first with less | ⟨same, ids⟩ <;> rcases second with less' | ⟨same', ids'⟩
  · exact Or.inl (less.trans less')
  · exact Or.inl (same' ▸ less)
  · exact Or.inl (same ▸ less')
  · exact Or.inr ⟨same.trans same', ids.trans ids'⟩

theorem VNode.before_total (a b : VNode) : a.before b ∨ b.before a := by
  rcases lt_trichotomy a.point b.point with less | same | more
  · exact Or.inl (Or.inl less)
  · rcases le_total a.nodeID b.nodeID with ids | ids
    · exact Or.inl (Or.inr ⟨same, ids⟩)
    · exact Or.inr (Or.inr ⟨same.symm, ids⟩)
  · exact Or.inr (Or.inl more)

theorem VNode.before_antisymm {a b : VNode} (first : a.before b) (second : b.before a) : a = b := by
  rcases first with less | ⟨same, ids⟩ <;> rcases second with less' | ⟨same', ids'⟩
  · omega
  · omega
  · omega
  · cases a
    cases b
    simp only [VNode.mk.injEq]
    exact ⟨same, le_antisymm ids ids'⟩

instance : IsTrans VNode VNode.before := ⟨fun _ _ _ => VNode.before_trans⟩
instance : Std.Total VNode.before := ⟨VNode.before_total⟩

structure Ring where
  epoch : Nat
  vnodes : List VNode
  addrs : Finmap (fun _ : String => String)

def vnodesOf (point : String → Nat → Nat) (count : Nat) (id : String) : List VNode :=
  (List.range count).map fun i => ⟨point id i, id⟩

def placed (point : String → Nat → Nat) (count : Nat) (ids : List String) : List VNode :=
  (ids.flatMap (vnodesOf point count)).insertionSort VNode.before

def defaultVNodes : Nat := 128

def vnodeCount (vnodesPerNode : Int) : Nat :=
  if vnodesPerNode ≤ 0 then defaultVNodes else vnodesPerNode.toNat

/-- `New`, over the nodes in the order of its iteration. -/
def newRing (point : String → Nat → Nat) (epoch : Nat) (nodes : AList (fun _ : String => String))
    (vnodesPerNode : Int) : Ring where
  epoch := epoch
  vnodes := placed point (vnodeCount vnodesPerNode) nodes.keys
  addrs := nodes.toFinmap

def Ring.size (r : Ring) : Nat := r.addrs.keys.card

/-- `binary.BigEndian.Uint64` of the first eight bytes. -/
def uint64 (b : List UInt8) : Nat := (b.take 8).foldl (fun n byte => n * 256 + byte.toNat) 0

def walkLoop (n : Nat) : List String → List String → List String
  | [], out => out
  | id :: rest, out =>
      if out.length < n then
        if id ∈ out then walkLoop n rest out else walkLoop n rest (out ++ [id])
      else out

/-- The walk starts at the first vnode whose point is not below the key, and wraps around. -/
def Ring.ownersAt (r : Ring) (key : Nat) (n : Int) : List String :=
  if r.vnodes.length = 0 ∨ n ≤ 0 then []
  else
    let n := if n > r.size then r.size else n.toNat
    let i := Lib.search r.vnodes.length fun i => (r.vnodes[i]?).any fun v => decide (v.point ≥ key)
    walkLoop n ((r.vnodes.rotate i).map (fun v => v.nodeID)) []

def Ring.owners (r : Ring) (blockID : List UInt8) (n : Int) : List String := r.ownersAt (uint64 blockID) n

theorem mem_placed (point : String → Nat → Nat) (count : Nat) (ids : List String) (v : VNode)
    (present : v ∈ placed point count ids) : v.nodeID ∈ ids := by
  rw [placed, List.mem_insertionSort, List.mem_flatMap] at present
  obtain ⟨id, member, made⟩ := present
  obtain ⟨i, _, rfl⟩ := List.mem_map.mp made
  exact member

theorem placed_sorted (point : String → Nat → Nat) (count : Nat) (ids : List String) :
    (placed point count ids).Pairwise VNode.before :=
  List.pairwise_insertionSort VNode.before _

private theorem sorted_eq {l l' : List VNode} (first : l.Pairwise VNode.before)
    (second : l'.Pairwise VNode.before) (same : l.Perm l') : l = l' :=
  same.eq_of_pairwise (fun _ _ _ _ => VNode.before_antisymm) first second

theorem placed_perm (point : String → Nat → Nat) (count : Nat) {ids ids' : List String}
    (same : ids.Perm ids') : placed point count ids = placed point count ids' := by
  apply sorted_eq (placed_sorted point count ids) (placed_sorted point count ids')
  calc (placed point count ids).Perm (ids.flatMap (vnodesOf point count)) := List.perm_insertionSort _ _
    List.Perm _ (ids'.flatMap (vnodesOf point count)) := same.flatMap_right _
    List.Perm _ (placed point count ids') := (List.perm_insertionSort _ _).symm

theorem newRing_congr (point : String → Nat → Nat) (epoch : Nat)
    {nodes nodes' : AList (fun _ : String => String)} (vnodesPerNode : Int)
    (same : nodes.toFinmap = nodes'.toFinmap) :
    newRing point epoch nodes vnodesPerNode = newRing point epoch nodes' vnodesPerNode := by
  have keys : nodes.keys.Perm nodes'.keys := (AList.toFinmap_eq.mp same).map Sigma.fst
  simp only [newRing, same, placed_perm point (vnodeCount vnodesPerNode) keys]

theorem placed_filter (point : String → Nat → Nat) (count : Nat) (ids : List String) (p : String → Bool) :
    (placed point count ids).filter (fun v => p v.nodeID) = placed point count (ids.filter p) := by
  apply sorted_eq ((placed_sorted point count ids).filter _) (placed_sorted point count _)
  have own : ∀ id, (vnodesOf point count id).filter (fun v => p v.nodeID) =
      if p id then vnodesOf point count id else [] := by
    intro id
    by_cases kept : p id = true
    · simp [vnodesOf, List.filter_map, Function.comp_def, kept]
    · simp [vnodesOf, List.filter_map, Function.comp_def, kept]
  have spread : (ids.flatMap (vnodesOf point count)).filter (fun v => p v.nodeID) =
      (ids.filter p).flatMap (vnodesOf point count) := by
    rw [List.filter_flatMap]
    induction ids with
    | nil => rfl
    | cons id rest ih =>
      rw [List.flatMap_cons, ih, own]
      by_cases kept : p id = true
      · simp [kept]
      · simp [kept]
  calc ((placed point count ids).filter (fun v => p v.nodeID)).Perm
        ((ids.flatMap (vnodesOf point count)).filter (fun v => p v.nodeID)) :=
      (List.perm_insertionSort _ _).filter _
    List.Perm _ ((ids.filter p).flatMap (vnodesOf point count)) := List.Perm.of_eq spread
    List.Perm _ (placed point count (ids.filter p)) := (List.perm_insertionSort _ _).symm

private theorem walkLoop_eq (n : Nat) (ids out : List String) (room : out.length ≤ n) :
    walkLoop n ids out = (out ++ (ids.filter (· ∉ out)).eraseDups).take n := by
  induction ids generalizing out with
  | nil => simp [walkLoop, List.take_of_length_le room]
  | cons id rest ih =>
    by_cases open_ : out.length < n
    · by_cases known : id ∈ out
      · simp only [walkLoop, if_pos open_, if_pos known]
        rw [ih out room, List.filter_cons_of_neg (by simpa using known)]
      · simp only [walkLoop, if_pos open_, if_neg known]
        rw [ih (out ++ [id]) (by simp; omega), List.filter_cons_of_pos (by simpa using known),
          List.eraseDups_cons, List.filter_filter, List.append_assoc, List.singleton_append]
        congr 4
        refine List.filter_congr ?_
        intro x _
        by_cases same : x = id
        · simp [same]
        · simp [same]
    · simp only [walkLoop, if_neg open_]
      have full : n = out.length := by omega
      rw [full, List.take_left]

theorem walkLoop_nil (n : Nat) (ids : List String) : walkLoop n ids [] = ids.eraseDups.take n := by
  simpa using walkLoop_eq n ids [] (Nat.zero_le n)

theorem Ring.owners_nodup (r : Ring) (blockID : List UInt8) (n : Int) : (r.owners blockID n).Nodup := by
  unfold Ring.owners Ring.ownersAt
  split
  · exact List.nodup_nil
  · rw [walkLoop_nil]
    exact (Lib.nodup_eraseDups _).sublist (List.take_sublist _ _)

/-- The distinct nodes in the order in which a walk from `key` meets them. -/
def clockwise (vnodes : List VNode) (key : Nat) : List String :=
  ((vnodes.filter (fun v => decide (key ≤ v.point)) ++ vnodes.filter (fun v => decide (v.point < key))).map
    (fun v => v.nodeID)).eraseDups

theorem clockwise_nodup (vnodes : List VNode) (key : Nat) : (clockwise vnodes key).Nodup :=
  Lib.nodup_eraseDups _

theorem mem_clockwise (vnodes : List VNode) (key : Nat) (id : String) :
    id ∈ clockwise vnodes key ↔ ∃ v ∈ vnodes, v.nodeID = id := by
  simp only [clockwise, List.mem_eraseDups, List.mem_map, List.mem_append, List.mem_filter,
    decide_eq_true_eq]
  constructor
  · rintro ⟨v, ⟨present, _⟩ | ⟨present, _⟩, same⟩
    · exact ⟨v, present, same⟩
    · exact ⟨v, present, same⟩
  · rintro ⟨v, present, same⟩
    rcases Nat.lt_or_ge v.point key with below | above
    · exact ⟨v, Or.inr ⟨present, below⟩, same⟩
    · exact ⟨v, Or.inl ⟨present, above⟩, same⟩

private theorem rotate_search (vnodes : List VNode) (sorted : vnodes.Pairwise VNode.before) (key : Nat) :
    vnodes.rotate (Lib.search vnodes.length fun i => (vnodes[i]?).any fun v => decide (v.point ≥ key)) =
      vnodes.filter (fun v => decide (key ≤ v.point)) ++ vnodes.filter (fun v => decide (v.point < key)) := by
  have upward : ∀ h k, h ≤ k → k < vnodes.length → ((vnodes[h]?).any fun v => decide (v.point ≥ key)) = true →
      ((vnodes[k]?).any fun v => decide (v.point ≥ key)) = true := by
    intro h k order inside reached
    have insideH : h < vnodes.length := by omega
    simp only [List.getElem?_eq_getElem inside, List.getElem?_eq_getElem insideH, Option.any_some,
      decide_eq_true_eq] at reached ⊢
    rcases Nat.eq_or_lt_of_le order with same | less
    · subst same
      exact reached
    · rcases List.pairwise_iff_getElem.mp sorted h k insideH inside less with up | ⟨level, _⟩
      · omega
      · omega
  obtain ⟨bound, low, high⟩ := Lib.search_spec vnodes.length _ upward
  generalize Lib.search vnodes.length (fun i => (vnodes[i]?).any fun v => decide (v.point ≥ key)) = cut at *
  have below : ∀ v ∈ vnodes.take cut, v.point < key := by
    intro v present
    obtain ⟨k, inside, rfl⟩ := List.mem_iff_getElem.mp present
    rw [List.length_take] at inside
    have fails := low k (by omega)
    rw [List.getElem_take]
    simpa [List.getElem?_eq_getElem (show k < vnodes.length by omega)] using fails
  have above : ∀ v ∈ vnodes.drop cut, key ≤ v.point := by
    intro v present
    obtain ⟨k, inside, rfl⟩ := List.mem_iff_getElem.mp present
    rw [List.length_drop] at inside
    have succeeds := high (cut + k) (by omega) (by omega)
    rw [List.getElem_drop]
    simpa [List.getElem?_eq_getElem (show cut + k < vnodes.length by omega)] using succeeds
  have upper : vnodes.filter (fun v => decide (key ≤ v.point)) = vnodes.drop cut := by
    conv_lhs => rw [← List.take_append_drop cut vnodes]
    rw [List.filter_append, List.filter_eq_nil_iff.mpr, List.nil_append, List.filter_eq_self.mpr]
    · intro v present
      exact decide_eq_true (above v present)
    · intro v present
      have := below v present
      simp only [decide_eq_true_eq]
      omega
  have lower : vnodes.filter (fun v => decide (v.point < key)) = vnodes.take cut := by
    conv_lhs => rw [← List.take_append_drop cut vnodes]
    rw [List.filter_append, List.filter_eq_self.mpr, List.filter_eq_nil_iff.mpr, List.append_nil]
    · intro v present
      have := above v present
      simp only [decide_eq_true_eq]
      omega
    · intro v present
      exact decide_eq_true (below v present)
  rw [List.rotate_eq_drop_append_take bound, upper, lower]

theorem Ring.ownersAt_eq (r : Ring) (sorted : r.vnodes.Pairwise VNode.before) (key n : Nat)
    (few : (clockwise r.vnodes key).length ≤ r.size) : r.ownersAt key n = (clockwise r.vnodes key).take n := by
  unfold Ring.ownersAt
  by_cases nothing : r.vnodes.length = 0 ∨ (n : Int) ≤ 0
  · rw [if_pos nothing]
    rcases nothing with empty | zero
    · rw [List.length_eq_zero_iff.mp empty]
      simp [clockwise]
    · have : n = 0 := by omega
      simp [this]
  · rw [if_neg nothing]
    simp only [rotate_search _ sorted, walkLoop_nil]
    change (clockwise r.vnodes key).take _ = _
    by_cases capped : (n : Int) > r.size
    · rw [if_pos capped, List.take_of_length_le few, List.take_of_length_le (by omega)]
    · rw [if_neg capped, Int.toNat_natCast]

theorem newRing_size (point : String → Nat → Nat) (epoch : Nat) (nodes : AList (fun _ : String => String))
    (vnodesPerNode : Int) : (newRing point epoch nodes vnodesPerNode).size = nodes.keys.length := by
  simp [Ring.size, newRing, Finmap.keys, AList.keys, List.keys]

theorem newRing_ownersAt (point : String → Nat → Nat) (epoch : Nat)
    (nodes : AList (fun _ : String => String)) (vnodesPerNode : Int) (key n : Nat) :
    (newRing point epoch nodes vnodesPerNode).ownersAt key n =
      (clockwise (placed point (vnodeCount vnodesPerNode) nodes.keys) key).take n := by
  apply Ring.ownersAt_eq
  · exact placed_sorted point (vnodeCount vnodesPerNode) nodes.keys
  · rw [newRing_size]
    refine (List.subperm_of_subset (clockwise_nodup _ _) ?_).length_le
    intro id member
    obtain ⟨v, present, rfl⟩ := (mem_clockwise _ _ _).mp member
    exact mem_placed point _ _ v present

theorem clockwise_filter (point : String → Nat → Nat) (count : Nat) (ids : List String) (p : String → Bool)
    (key : Nat) : clockwise (placed point count (ids.filter p)) key =
      (clockwise (placed point count ids) key).filter p := by
  rw [← placed_filter]
  simp only [clockwise]
  rw [← Lib.eraseDups_filter, List.filter_map, List.filter_append]
  simp only [List.filter_filter, Function.comp_def, Bool.and_comm]

/-- The SHA-256 points of `a#0`, `b#0` and `c#0`, for closed instances with one vnode a node. -/
def samplePoint (id : String) (_ : Nat) : Nat :=
  if id = "a" then 0xa090a256cb93456a
  else if id = "b" then 0x0ab14df98e9ade65
  else 0x1362ad7ec170f91f

end PrefixMesh.Hashring
