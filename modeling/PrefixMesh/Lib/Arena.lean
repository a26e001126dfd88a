import Mathlib.Data.List.Basic
import Mathlib.Tactic.Ring

/-! Byte strings scattered over the pages of an arena. `copyAt` is Go's `copy` into a
slice that starts at an offset. A string of at most `pages.length` pages that is
written page by page is read back unchanged, and pages that are not written to keep
what they held. -/

namespace PrefixMesh.Lib

variable {α : Type}

def copyAt (dst : List α) (offset : Nat) (src : List α) : List α :=
  dst.take offset ++ src.take (dst.length - offset) ++ dst.drop (offset + src.length)

@[simp]
theorem length_copyAt (dst src : List α) (offset : Nat) : (copyAt dst offset src).length = dst.length := by
  simp only [copyAt, List.length_append, List.length_take, List.length_drop]
  omega

theorem getElem?_copyAt (dst src : List α) (offset k : Nat) (fits : offset + src.length ≤ dst.length) :
    (copyAt dst offset src)[k]? =
      if offset ≤ k ∧ k < offset + src.length then src[k - offset]? else dst[k]? := by
  have whole : src.take (dst.length - offset) = src := List.take_of_length_le (by omega)
  have size : (dst.take offset).length = offset := by rw [List.length_take]; omega
  rw [copyAt, whole, List.append_assoc]
  by_cases before : k < offset
  · rw [List.getElem?_append_left (by omega), List.getElem?_take, if_pos before, if_neg (by omega)]
  · rw [List.getElem?_append_right (by omega), size]
    by_cases inside : k < offset + src.length
    · rw [List.getElem?_append_left (by omega), if_pos ⟨by omega, inside⟩]
    · rw [List.getElem?_append_right (by omega), List.getElem?_drop, if_neg (by omega)]
      congr 1
      omega

/-- Write `data` to the pages, the first of which takes the piece at index `i`. -/
def scatter (pageSize : Nat) (data : List α) : List Nat → Nat → List α → List α
  | [], _, arena => arena
  | pg :: rest, i, arena =>
      scatter pageSize data rest (i + 1) (copyAt arena (pg * pageSize) ((data.drop (i * pageSize)).take pageSize))

/-- Read the pages into `out`, up to `size` bytes; the first of them holds the piece at index `i`. -/
def gather (pageSize : Nat) (arena : List α) (size : Nat) : List Nat → Nat → List α → List α
  | [], _, out => out
  | pg :: rest, i, out =>
      let lo := i * pageSize
      let hi := min (lo + pageSize) size
      gather pageSize arena size rest (i + 1) (copyAt out lo ((arena.drop (pg * pageSize)).take (hi - lo)))

private theorem page_le_iff {pageSize i j m : Nat} (inside : m < pageSize) :
    i * pageSize ≤ j * pageSize + m ↔ i ≤ j := by
  constructor
  · intro bound
    by_contra less
    have step : (j + 1) * pageSize ≤ i * pageSize := Nat.mul_le_mul_right _ (by omega)
    have expand : (j + 1) * pageSize = j * pageSize + pageSize := by ring
    omega
  · intro bound
    have step : i * pageSize ≤ j * pageSize := Nat.mul_le_mul_right _ bound
    omega

private theorem page_end (pageSize pg : Nat) : pg * pageSize + pageSize = (pg + 1) * pageSize := by ring

@[simp]
theorem length_scatter (pageSize : Nat) (data : List α) (pages : List Nat) (i : Nat) (arena : List α) :
    (scatter pageSize data pages i arena).length = arena.length := by
  induction pages generalizing i arena with
  | nil => rfl
  | cons pg rest ih => rw [scatter, ih, length_copyAt]

@[simp]
theorem length_gather (pageSize : Nat) (arena : List α) (size : Nat) (pages : List Nat) (i : Nat)
    (out : List α) : (gather pageSize arena size pages i out).length = out.length := by
  induction pages generalizing i out with
  | nil => rfl
  | cons pg rest ih => rw [gather, ih, length_copyAt]

theorem scatter_other (pageSize : Nat) (data : List α) (pages : List Nat) (i : Nat) (arena : List α)
    (inside : ∀ pg ∈ pages, (pg + 1) * pageSize ≤ arena.length) (pg m : Nat) (absent : pg ∉ pages)
    (low : m < pageSize) :
    (scatter pageSize data pages i arena)[pg * pageSize + m]? = arena[pg * pageSize + m]? := by
  induction pages generalizing i arena with
  | nil => rfl
  | cons first rest ih =>
    have room := inside first List.mem_cons_self
    rw [← page_end] at room
    have fits : first * pageSize + ((data.drop (i * pageSize)).take pageSize).length ≤ arena.length := by
      rw [List.length_take]
      omega
    rw [List.mem_cons, not_or] at absent
    rw [scatter, ih (i + 1) _ ?_ absent.2, getElem?_copyAt _ _ _ _ fits, if_neg]
    · rintro ⟨above, below⟩
      rw [List.length_take] at below
      have up := (page_le_iff low).mp above
      have down : pg * pageSize + m < first * pageSize + pageSize := by omega
      have notUp : ¬first + 1 ≤ pg := by
        intro beyond
        have := (page_le_iff low).mpr beyond
        rw [← page_end] at this
        omega
      exact absent.1 (by omega)
    · intro other member
      rw [length_copyAt]
      exact inside other (List.mem_cons_of_mem _ member)

theorem scatter_written (pageSize : Nat) (data : List α) (pages : List Nat) (i : Nat) (arena : List α)
    (distinct : pages.Nodup) (inside : ∀ pg ∈ pages, (pg + 1) * pageSize ≤ arena.length) (t pg m : Nat)
    (at_ : pages[t]? = some pg) (low : m < pageSize) (short : (i + t) * pageSize + m < data.length) :
    (scatter pageSize data pages i arena)[pg * pageSize + m]? = data[(i + t) * pageSize + m]? := by
  induction pages generalizing i t arena with
  | nil => simp at at_
  | cons first rest ih =>
    rw [List.nodup_cons] at distinct
    have room := inside first List.mem_cons_self
    rw [← page_end] at room
    have fits : first * pageSize + ((data.drop (i * pageSize)).take pageSize).length ≤ arena.length := by
      rw [List.length_take]
      omega
    have others : ∀ other ∈ rest, (other + 1) * pageSize ≤
        (copyAt arena (first * pageSize) ((data.drop (i * pageSize)).take pageSize)).length := by
      intro other member
      rw [length_copyAt]
      exact inside other (List.mem_cons_of_mem _ member)
    cases t with
    | zero =>
      obtain rfl : first = pg := by simpa using at_
      rw [Nat.add_zero] at short ⊢
      rw [scatter, scatter_other pageSize data rest (i + 1) _ others first m distinct.1 low,
        getElem?_copyAt _ _ _ _ fits, if_pos]
      · rw [Nat.add_sub_cancel_left, List.getElem?_take, if_pos low, List.getElem?_drop]
      · rw [List.length_take, List.length_drop]
        omega
    | succ t =>
      have next : i + (t + 1) = i + 1 + t := by omega
      rw [next] at short ⊢
      exact ih (i + 1) _ distinct.2 others t (by simpa using at_) short

private theorem gather_fits {pageSize size pg i : Nat} {rest : List Nat} (arena out : List α)
    (sized : out.length = size) (needed : ∀ t, t < (pg :: rest).length → (i + t) * pageSize < size) :
    i * pageSize + ((arena.drop (pg * pageSize)).take
      (min (i * pageSize + pageSize) size - i * pageSize)).length ≤ out.length := by
  have first := needed 0 (by simp)
  rw [Nat.add_zero] at first
  rw [List.length_take]
  omega

private theorem needed_tail {pageSize size pg i : Nat} {rest : List Nat}
    (needed : ∀ t, t < (pg :: rest).length → (i + t) * pageSize < size) (t : Nat) (bound : t < rest.length) :
    (i + 1 + t) * pageSize < size := by
  have later := needed (t + 1) (by simpa using bound)
  rwa [show i + 1 + t = i + (t + 1) by omega]

theorem gather_before (pageSize : Nat) (arena : List α) (size : Nat) (pages : List Nat) (i : Nat)
    (out : List α) (sized : out.length = size) (needed : ∀ t, t < pages.length → (i + t) * pageSize < size)
    (k : Nat) (before : k < i * pageSize) : (gather pageSize arena size pages i out)[k]? = out[k]? := by
  induction pages generalizing i out with
  | nil => rfl
  | cons pg rest ih =>
    have fits := gather_fits arena out sized needed
    rw [gather, ih (i + 1) _ ((length_copyAt _ _ _).trans sized) (needed_tail needed) (by rw [← page_end]; omega),
      getElem?_copyAt _ _ _ _ fits, if_neg (by omega)]

theorem gather_read (pageSize : Nat) (arena : List α) (size : Nat) (pages : List Nat) (i : Nat)
    (out : List α) (sized : out.length = size) (needed : ∀ t, t < pages.length → (i + t) * pageSize < size)
    (inside : ∀ pg ∈ pages, (pg + 1) * pageSize ≤ arena.length) (t pg m : Nat) (at_ : pages[t]? = some pg)
    (low : m < pageSize) (short : (i + t) * pageSize + m < size) :
    (gather pageSize arena size pages i out)[(i + t) * pageSize + m]? = arena[pg * pageSize + m]? := by
  induction pages generalizing i t out with
  | nil => simp at at_
  | cons first rest ih =>
    have fits := gather_fits arena out sized needed
    have needed' := needed_tail needed
    cases t with
    | zero =>
      obtain rfl : first = pg := by simpa using at_
      have room := inside first List.mem_cons_self
      rw [← page_end] at room
      rw [Nat.add_zero] at short ⊢
      rw [gather, gather_before _ _ _ _ _ _ ((length_copyAt _ _ _).trans sized) needed' _ (by rw [← page_end]; omega),
        getElem?_copyAt _ _ _ _ fits, if_pos]
      · rw [Nat.add_sub_cancel_left, List.getElem?_take, if_pos (by omega), List.getElem?_drop]
      · rw [List.length_take, List.length_drop]
        omega
    | succ t =>
      have next : i + (t + 1) = i + 1 + t := by omega
      rw [next] at short ⊢
      exact ih (i + 1) _ ((length_copyAt _ _ _).trans sized) needed'
        (fun pg member => inside pg (List.mem_cons_of_mem _ member)) t (by simpa using at_) short

structure Holds (pageSize : Nat) (arena : List α) (pages : List Nat) (data : List α) : Prop where
  needed : ∀ t, t < pages.length → t * pageSize < data.length
  enough : data.length ≤ pages.length * pageSize
  inside : ∀ pg ∈ pages, (pg + 1) * pageSize ≤ arena.length
  bytes : ∀ t pg m, pages[t]? = some pg → m < pageSize → t * pageSize + m < data.length →
    arena[pg * pageSize + m]? = data[t * pageSize + m]?

theorem Holds.gather {pageSize : Nat} {arena data : List α} {pages : List Nat}
    (holds : Holds pageSize arena pages data) (out : List α) (sized : out.length = data.length) :
    gather pageSize arena data.length pages 0 out = data := by
  have needed : ∀ t, t < pages.length → (0 + t) * pageSize < data.length := by
    intro t bound
    rw [Nat.zero_add]
    exact holds.needed t bound
  have length := (length_gather pageSize arena data.length pages 0 out).trans sized
  apply List.ext_getElem?
  intro k
  by_cases short : k < data.length
  · have positive : 0 < pageSize := by
      rcases Nat.eq_zero_or_pos pageSize with zero | positive
      · have := holds.enough
        rw [zero, Nat.mul_zero] at this
        omega
      · exact positive
    have page : k / pageSize < pages.length :=
      Nat.div_lt_of_lt_mul ((Nat.mul_comm _ _).symm ▸ short.trans_le holds.enough)
    have low : k % pageSize < pageSize := Nat.mod_lt k positive
    have split_ : k / pageSize * pageSize + k % pageSize = k := Nat.div_add_mod' k pageSize
    have at_ : pages[k / pageSize]? = some (pages.get ⟨k / pageSize, page⟩) := List.getElem?_eq_getElem page
    have read := gather_read pageSize arena data.length pages 0 out sized needed holds.inside
      (k / pageSize) _ (k % pageSize) at_ low (by rw [Nat.zero_add, split_]; exact short)
    have wrote := holds.bytes (k / pageSize) _ (k % pageSize) at_ low (by rw [split_]; exact short)
    rw [Nat.zero_add, split_] at read
    rw [read, wrote, split_]
  · rw [List.getElem?_eq_none (by omega), List.getElem?_eq_none (by omega)]

theorem holds_scatter {pageSize : Nat} {arena data : List α} {pages : List Nat} (distinct : pages.Nodup)
    (inside : ∀ pg ∈ pages, (pg + 1) * pageSize ≤ arena.length)
    (needed : ∀ t, t < pages.length → t * pageSize < data.length)
    (enough : data.length ≤ pages.length * pageSize) :
    Holds pageSize (scatter pageSize data pages 0 arena) pages data where
  needed := needed
  enough := enough
  inside := by rwa [length_scatter]
  bytes := by
    intro t pg m at_ low short
    have wrote := scatter_written pageSize data pages 0 arena distinct inside t pg m at_ low
      (by rwa [Nat.zero_add])
    rwa [Nat.zero_add] at wrote

theorem Holds.scatter {pageSize : Nat} {arena data other : List α} {pages pages' : List Nat}
    (holds : Holds pageSize arena pages data) (apart : ∀ pg ∈ pages, pg ∉ pages')
    (inside : ∀ pg ∈ pages', (pg + 1) * pageSize ≤ arena.length) :
    Holds pageSize (scatter pageSize other pages' 0 arena) pages data where
  needed := holds.needed
  enough := holds.enough
  inside := by
    rw [length_scatter]
    exact holds.inside
  bytes := by
    intro t pg m at_ low short
    rw [scatter_other _ _ _ _ _ inside pg m (apart pg (List.mem_of_getElem? at_)) low]
    exact holds.bytes t pg m at_ low short

end PrefixMesh.Lib
