import Mathlib.Data.List.Nodup
import Mathlib.Logic.Function.Basic

/-! Intrusive containers: a doubly linked list threaded through its elements, and an
array whose elements record their own position so that one of them can be removed by
moving the last one into its place. Each has a predicate that ties it to a plain list,
and every operation a rule in terms of that list. -/

namespace PrefixMesh.Lib

variable {R : Type} [DecidableEq R]

/-- The links of a list whose elements are `R`; `none` is a nil pointer. -/
structure Links (R : Type) where
  prev : R → Option R
  next : R → Option R
  head : Option R
  tail : Option R

def Links.empty : Links R := ⟨fun _ => none, fun _ => none, none, none⟩

def Links.pushFront (l : Links R) (e : R) : Links R :=
  let l := { l with prev := Function.update l.prev e none, next := Function.update l.next e l.head }
  let l := match l.head with
    | some h => { l with prev := Function.update l.prev h (some e) }
    | none => l
  let l := { l with head := some e }
  match l.tail with
  | none => { l with tail := some e }
  | some _ => l

def Links.remove (l : Links R) (e : R) : Links R :=
  let l := match l.prev e with
    | some p => { l with next := Function.update l.next p (l.next e) }
    | none => if l.head = some e then { l with head := l.next e } else l
  let l := match l.next e with
    | some n => { l with prev := Function.update l.prev n (l.prev e) }
    | none => if l.tail = some e then { l with tail := l.prev e } else l
  { l with prev := Function.update l.prev e none, next := Function.update l.next e none }

def Links.moveFront (l : Links R) (e : R) : Links R :=
  if l.head = some e then l else (l.remove e).pushFront e

/-- The links hold exactly the elements of `xs`, from head to tail, each linked to its neighbours. -/
structure Links.Lists (l : Links R) (xs : List R) : Prop where
  distinct : xs.Nodup
  head : l.head = xs.head?
  tail : l.tail = xs.getLast?
  around : ∀ before x after, xs = before ++ x :: after →
    l.prev x = before.getLast? ∧ l.next x = after.head?

omit [DecidableEq R] in
theorem Links.empty_lists : (Links.empty : Links R).Lists [] where
  distinct := List.nodup_nil
  head := rfl
  tail := rfl
  around := by
    intro before x after split_
    simp at split_

private theorem Links.pushFront_fields (l : Links R) (e : R) :
    (l.pushFront e).head = some e ∧
    (l.pushFront e).tail = l.tail.or (some e) ∧
    (∀ x, (l.pushFront e).next x = if x = e then l.head else l.next x) ∧
    ∀ x, (l.pushFront e).prev x = if l.head = some x then some e else if x = e then none else l.prev x := by
  cases top : l.head with
  | none =>
    cases bottom : l.tail with
    | none => simp [Links.pushFront, top, bottom, Function.update_apply]
    | some b => simp [Links.pushFront, top, bottom, Function.update_apply]
  | some h =>
    cases bottom : l.tail with
    | none => simp [Links.pushFront, top, bottom, Function.update_apply, eq_comm]
    | some b => simp [Links.pushFront, top, bottom, Function.update_apply, eq_comm]

theorem Links.Lists.pushFront {l : Links R} {xs : List R} (lists : l.Lists xs) (e : R) (absent : e ∉ xs) :
    (l.pushFront e).Lists (e :: xs) := by
  obtain ⟨head, tail, next, prev⟩ := l.pushFront_fields e
  refine ⟨List.nodup_cons.mpr ⟨absent, lists.distinct⟩, head, ?_, ?_⟩
  · rw [tail, lists.tail, List.getLast?_cons]
    cases xs.getLast? with
    | none => rfl
    | some b => rfl
  · intro before x after split_
    rw [prev, next, lists.head]
    cases before with
    | nil =>
      obtain ⟨rfl, rfl⟩ : e = x ∧ xs = after := by simpa using split_
      have other : xs.head? ≠ some e := fun top => absent (List.mem_of_mem_head? top)
      simp [other]
    | cons first before =>
      obtain ⟨rfl, inside⟩ : e = first ∧ xs = before ++ x :: after := by simpa using split_
      have different : x ≠ e := fun same => absent (same ▸ inside ▸ by simp)
      obtain ⟨prevX, nextX⟩ := lists.around before x after inside
      rw [if_neg different, if_neg different, prevX, nextX]
      refine ⟨?_, rfl⟩
      cases before with
      | nil => simp [inside]
      | cons second before =>
        have apart : second ≠ x := by
          have distinct := lists.distinct
          rw [inside, List.cons_append, List.nodup_cons] at distinct
          exact fun same => distinct.1 (same ▸ by simp)
        simp [inside, apart]

private theorem Links.remove_fields (l : Links R) (e : R) :
    (l.remove e).head = (if l.prev e = none ∧ l.head = some e then l.next e else l.head) ∧
    (l.remove e).tail = (if l.next e = none ∧ l.tail = some e then l.prev e else l.tail) ∧
    (∀ x, (l.remove e).next x = if x = e then none else if l.prev e = some x then l.next e else l.next x) ∧
    ∀ x, (l.remove e).prev x = if x = e then none else if l.next e = some x then l.prev e else l.prev x := by
  cases before : l.prev e with
  | none =>
    by_cases first : l.head = some e
    · cases after : l.next e with
      | none =>
        by_cases last : l.tail = some e
        · simp [Links.remove, before, after, first, last, Function.update_apply]
        · simp [Links.remove, before, after, first, last, Function.update_apply]
      | some n => simp [Links.remove, before, after, first, Function.update_apply, eq_comm]
    · cases after : l.next e with
      | none =>
        by_cases last : l.tail = some e
        · simp [Links.remove, before, after, first, last, Function.update_apply]
        · simp [Links.remove, before, after, first, last, Function.update_apply]
      | some n => simp [Links.remove, before, after, first, Function.update_apply, eq_comm]
  | some p =>
    cases after : l.next e with
    | none =>
      by_cases last : l.tail = some e
      · simp [Links.remove, before, after, last, Function.update_apply, eq_comm]
      · simp [Links.remove, before, after, last, Function.update_apply, eq_comm]
    | some n => simp [Links.remove, before, after, Function.update_apply, eq_comm]

theorem Links.Lists.remove {l : Links R} {before after : List R} {e : R}
    (lists : l.Lists (before ++ e :: after)) : (l.remove e).Lists (before ++ after) := by
  obtain ⟨head, tail, next, prev⟩ := l.remove_fields e
  obtain ⟨prevE, nextE⟩ := lists.around before e after rfl
  have apart := lists.distinct
  rw [List.nodup_append, List.nodup_cons] at apart
  obtain ⟨_, ⟨notAfter, _⟩, cross⟩ := apart
  have notBefore : e ∉ before := fun inside => cross e inside e List.mem_cons_self rfl
  have split_ : ∀ x ∈ before, x ∉ after :=
    fun x left right => cross x left x (List.mem_cons_of_mem _ right) rfl
  refine ⟨?_, ?_, ?_, ?_⟩
  · exact lists.distinct.sublist (List.Sublist.append_left (List.sublist_cons_self e after) before)
  · rw [head, prevE, nextE, lists.head]
    cases before with
    | nil => simp
    | cons first before => simp
  · rw [tail, prevE, nextE, lists.tail, List.getLast?_append, List.getLast?_append, List.getLast?_cons]
    cases after with
    | nil => simp
    | cons first after => simp [List.getLast?_cons]
  · intro left x right whole
    rw [prev, next, prevE, nextE]
    rcases List.append_eq_append_iff.mp whole with ⟨middle, leftEq, afterEq⟩ | ⟨middle, beforeEq, rightEq⟩
    · -- `x` stands behind the removed element
      subst leftEq afterEq
      have different : x ≠ e := fun same => notAfter (same ▸ by simp)
      have notIn : before.getLast? ≠ some x :=
        fun last => split_ x (List.mem_of_mem_getLast? last) (by simp)
      obtain ⟨prevX, nextX⟩ := lists.around (before ++ e :: middle) x right (by simp)
      rw [if_neg different, if_neg different, if_neg notIn, prevX, nextX]
      refine ⟨?_, rfl⟩
      cases middle with
      | nil => simp
      | cons first middle =>
        have firstNot : first ≠ x := by
          have distinct := lists.distinct
          simp only [List.cons_append, List.nodup_append, List.nodup_cons] at distinct
          exact fun same => distinct.2.1.2.1 (same ▸ by simp)
        simp [firstNot, List.getLast?_append, List.getLast?_cons]
    · cases middle with
      | nil =>
        obtain rfl : before = left := by simpa using beforeEq
        obtain ⟨rfl⟩ : after = x :: right := by simpa using rightEq.symm
        have different : x ≠ e := fun same => notAfter (same ▸ by simp)
        have notIn : before.getLast? ≠ some x :=
          fun last => split_ x (List.mem_of_mem_getLast? last) (by simp)
        obtain ⟨_, nextX⟩ := lists.around (before ++ [e]) x right (by simp)
        rw [if_neg different, if_neg different, if_neg notIn, nextX]
        simp
      | cons y middle =>
        obtain ⟨rfl, rfl⟩ : x = y ∧ right = middle ++ after := by simpa using rightEq
        subst beforeEq
        have different : x ≠ e := fun same => notBefore (same ▸ by simp)
        have notIn : after.head? ≠ some x := fun first =>
          split_ x (by simp) (List.mem_of_mem_head? first)
        obtain ⟨prevX, nextX⟩ := lists.around left x (middle ++ e :: after) (by simp)
        rw [if_neg different, if_neg different, if_neg notIn, prevX, nextX]
        refine ⟨rfl, ?_⟩
        cases middle with
        | nil => simp [List.getLast?_append]
        | cons z middle =>
          have lastNot : (left ++ x :: z :: middle).getLast? ≠ some x := by
            intro last
            have inside : x ∈ z :: middle := by
              rw [List.getLast?_append, List.getLast?_cons, List.getLast?_cons] at last
              have shown : (z :: middle).getLast? = some x := by
                simpa [List.getLast?_cons] using last
              exact List.mem_of_mem_getLast? shown
            have distinct := lists.distinct
            simp only [List.append_assoc, List.cons_append, List.nodup_append, List.nodup_cons] at distinct
            exact distinct.2.1.1 (List.mem_append_left _ inside)
          rw [if_neg lastNot]
          rfl

theorem Links.Lists.moveFront {l : Links R} {xs : List R} (lists : l.Lists xs) (e : R) (present : e ∈ xs) :
    (l.moveFront e).Lists (e :: xs.erase e) := by
  unfold Links.moveFront
  by_cases first : l.head = some e
  · rw [if_pos first]
    cases xs with
    | nil => cases present
    | cons x rest =>
      have same : x = e := by simpa [lists.head] using first
      subst same
      simpa using lists
  · rw [if_neg first]
    obtain ⟨before, after, rfl⟩ := List.append_of_mem present
    have apart := lists.distinct
    rw [List.nodup_append, List.nodup_cons] at apart
    have notBefore : e ∉ before := fun inside => apart.2.2 e inside e List.mem_cons_self rfl
    have erased : (before ++ e :: after).erase e = before ++ after := by
      rw [List.erase_append_right _ notBefore, List.erase_cons_head]
    rw [erased]
    refine lists.remove.pushFront e ?_
    simp [notBefore, apart.2.1.1]

omit [DecidableEq R] in
theorem Links.Lists.unique {l : Links R} {xs ys : List R} (lists : l.Lists xs) (lists' : l.Lists ys) : xs = ys := by
  have rest : ∀ (after after' before : List R), xs = before ++ after → ys = before ++ after' →
      after.head? = after'.head? → after = after' := by
    intro after
    induction after with
    | nil =>
      intro after' before _ _ same
      exact (List.head?_eq_none_iff.mp same.symm).symm
    | cons x after ih =>
      intro after' before whole whole' same
      obtain ⟨tail, rfl⟩ := List.head?_eq_some_iff.mp same.symm
      have next := (lists.around before x after whole).2.symm.trans (lists'.around before x tail whole').2
      rw [ih tail (before ++ [x]) (by simpa using whole) (by simpa using whole') next]
  exact rest xs ys [] rfl rfl (lists.head.symm.trans lists'.head)

omit [DecidableEq R] in
theorem Links.Lists.next_iff {l : Links R} {xs : List R} (lists : l.Lists xs) {x : R} (inside : x ∈ xs) (y : R) :
    l.next x = some y ↔ y ∈ xs ∧ l.prev y = some x := by
  constructor
  · intro next
    obtain ⟨before, after, whole⟩ := List.append_of_mem inside
    rw [(lists.around before x after whole).2, List.head?_eq_some_iff] at next
    obtain ⟨rest, rfl⟩ := next
    have moved : xs = (before ++ [x]) ++ y :: rest := by rw [whole, List.append_assoc, List.singleton_append]
    refine ⟨moved ▸ by simp, ?_⟩
    rw [(lists.around _ y rest moved).1, List.getLast?_concat]
  · rintro ⟨member, prev⟩
    obtain ⟨before, after, whole⟩ := List.append_of_mem member
    rw [(lists.around before y after whole).1, List.getLast?_eq_some_iff] at prev
    obtain ⟨front, rfl⟩ := prev
    rw [List.append_assoc, List.singleton_append] at whole
    rw [(lists.around front x (y :: after) whole).2, List.head?_cons]

structure Indexed (R : Type) where
  order : List R
  idx : R → Nat

def Indexed.push (a : Indexed R) (e : R) : Indexed R :=
  ⟨a.order ++ [e], Function.update a.idx e a.order.length⟩

def Indexed.swapRemove (a : Indexed R) (e : R) : Indexed R :=
  match a.order.getLast? with
  | none => a
  | some last => ⟨(a.order.set (a.idx e) last).dropLast, Function.update a.idx last (a.idx e)⟩

structure Indexed.Ok (a : Indexed R) : Prop where
  distinct : a.order.Nodup
  place : ∀ i e, a.order[i]? = some e → a.idx e = i

theorem Indexed.Ok.push {a : Indexed R} (ok : a.Ok) (e : R) (absent : e ∉ a.order) : (a.push e).Ok where
  distinct := by
    simp only [Indexed.push, List.nodup_append, ok.distinct, List.nodup_singleton, true_and]
    intro x inside y last
    rw [List.mem_singleton.mp last]
    exact fun same => absent (same ▸ inside)
  place := by
    intro i x found
    simp only [Indexed.push] at found ⊢
    rcases Nat.lt_or_ge i a.order.length with inside | beyond
    · rw [List.getElem?_append_left inside] at found
      have member : x ∈ a.order := List.mem_of_getElem? found
      have different : x ≠ e := fun same => absent (same ▸ member)
      rw [Function.update_of_ne different]
      exact ok.place i x found
    · rw [List.getElem?_append_right beyond] at found
      cases offset : i - a.order.length with
      | zero =>
        obtain rfl : e = x := by simpa [offset] using found
        rw [Function.update_self]
        omega
      | succ k => simp [offset] at found

theorem Indexed.Ok.swapRemove {a : Indexed R} (ok : a.Ok) (e : R) (present : e ∈ a.order) :
    (a.swapRemove e).Ok ∧ (a.swapRemove e).order.Perm (a.order.erase e) := by
  obtain ⟨init, last, whole⟩ : ∃ init last, a.order = init ++ [last] := by
    rcases List.eq_nil_or_concat a.order with empty | ⟨init, last, whole⟩
    · rw [empty] at present
      cases present
    · exact ⟨init, last, by rw [whole, List.concat_eq_append]⟩
  have distinct := ok.distinct
  rw [whole, List.nodup_append] at distinct
  have lastOut : last ∉ init := fun inside => distinct.2.2 last inside last (by simp) rfl
  have lastPlace : a.idx last = init.length := ok.place _ _ (by simp [whole])
  by_cases same : e = last
  · subst same
    have moved : a.swapRemove e = ⟨init, a.idx⟩ := by
      simp only [Indexed.swapRemove, whole, List.getLast?_append, List.getLast?_singleton, Option.some_or,
        lastPlace]
      rw [List.set_append_right _ _ (Nat.le_refl _)]
      simp [← lastPlace]
    rw [moved, whole, List.erase_append_right _ lastOut]
    refine ⟨⟨distinct.1, ?_⟩, by simp⟩
    intro i x found
    exact ok.place i x (by rw [whole, List.getElem?_append_left (List.getElem?_eq_some_iff.mp found).1]; exact found)
  · have inInit : e ∈ init := by
      rw [whole] at present
      rcases List.mem_append.mp present with inside | isLast
      · exact inside
      · exact absurd (List.mem_singleton.mp isLast) same
    obtain ⟨front, back, rfl⟩ := List.append_of_mem inInit
    have place : a.idx e = front.length := ok.place _ _ (by simp [whole])
    have moved : a.swapRemove e = ⟨front ++ last :: back, Function.update a.idx last front.length⟩ := by
      simp only [Indexed.swapRemove, whole, List.getLast?_append, List.getLast?_singleton, Option.some_or,
        place]
      have short : (last :: (back ++ [last])).dropLast = last :: back := by
        rw [← List.cons_append, List.dropLast_concat]
      rw [List.append_assoc, List.set_append_right _ _ (Nat.le_refl _)]
      simpa using short
    have notFront : e ∉ front := by
      have inner := distinct.1
      rw [List.nodup_append] at inner
      exact fun inside => inner.2.2 e inside e List.mem_cons_self rfl
    have target : a.order.erase e = front ++ (back ++ [last]) := by
      rw [whole, List.append_assoc, List.erase_append_right _ notFront, List.cons_append, List.erase_cons_head]
    have same_ : (front ++ last :: back).Perm (front ++ (back ++ [last])) :=
      List.Perm.append_left front (List.perm_append_singleton last back).symm
    rw [moved, target]
    refine ⟨⟨?_, ?_⟩, same_⟩
    · rw [same_.nodup_iff, ← target]
      exact ok.distinct.erase e
    · intro i x found
      change (front ++ last :: back)[i]? = some x at found
      change Function.update a.idx last front.length x = i
      by_cases isLast : x = last
      · subst isLast
        rw [Function.update_self]
        -- the moved element occurs once, where the removed one was
        have once : (front ++ x :: back).Nodup := by
          rw [same_.nodup_iff, ← target]
          exact ok.distinct.erase e
        have here : (front ++ x :: back)[front.length]? = some x := by simp
        exact (List.getElem?_inj (List.getElem?_eq_some_iff.mp here).1 once).mp (here.trans found.symm)
      · rw [Function.update_of_ne isLast]
        apply ok.place
        rw [whole, List.append_assoc]
        rcases Nat.lt_trichotomy i front.length with before | here | after
        · rw [List.getElem?_append_left before] at found ⊢
          exact found
        · subst here
          simp at found
          exact absurd found.symm isLast
        · rw [List.getElem?_append_right (by omega)] at found ⊢
          obtain ⟨k, position⟩ : ∃ k, i - front.length = k + 1 := ⟨i - front.length - 1, by omega⟩
          rw [position, List.getElem?_cons_succ] at found
          rw [position, List.cons_append, List.getElem?_cons_succ,
            List.getElem?_append_left (List.getElem?_eq_some_iff.mp found).1]
          exact found

end PrefixMesh.Lib
