/-
The `k` smallest elements of a list, in order. Nothing here is about a particular program.

- `smallest_cons`: they follow from the `k` smallest so far and the new element, so a list of `k` is enough to keep them.
- `orderedInsert_last`, `orderedInsert_all`: an element that goes before the last one, and one that goes behind all.
-/
import Mathlib.Tactic
import Mathlib.Data.List.Sort

namespace DecsLabs

variable {α : Type*} [LinearOrder α] {k : ℕ} {l l' s : List α} {x y : α}

def smallest (k : ℕ) (l : List α) : List α := (l.insertionSort (· ≤ ·)).take k

theorem smallest_pairwise (k : ℕ) (l : List α) : (smallest k l).Pairwise (· ≤ ·) :=
  (List.pairwise_insertionSort (· ≤ ·) l).sublist (List.take_sublist k _)

theorem smallest_length (k : ℕ) (l : List α) : (smallest k l).length = min k l.length := by
  rw [smallest, List.length_take, List.length_insertionSort]

theorem smallest_perm (h : l.Perm l') : smallest k l = smallest k l' := by
  have hsort : (l.insertionSort (· ≤ ·)).Perm (l'.insertionSort (· ≤ ·)) :=
    ((List.perm_insertionSort _ l).trans h).trans (List.perm_insertionSort _ l').symm
  rw [smallest, smallest, hsort.eq_of_pairwise' (List.pairwise_insertionSort _ l) (List.pairwise_insertionSort _ l')]

theorem take_orderedInsert (k : ℕ) (x : α) (s : List α) :
    (s.orderedInsert (· ≤ ·) x).take k = ((s.take k).orderedInsert (· ≤ ·) x).take k := by
  induction s generalizing k with
  | nil => simp
  | cons b s ih =>
    cases k with
    | zero => simp
    | succ k =>
      rw [List.take_succ_cons, List.orderedInsert_cons, List.orderedInsert_cons]
      split_ifs
      · rw [List.take_succ_cons, List.take_succ_cons]
        cases k with
        | zero => simp
        | succ k => rw [List.take_succ_cons, List.take_succ_cons, List.take_take, min_eq_left (Nat.le_succ k)]
      · rw [List.take_succ_cons, List.take_succ_cons, ih]

theorem smallest_cons (k : ℕ) (x : α) (l : List α) :
    smallest k (x :: l) = ((smallest k l).orderedInsert (· ≤ ·) x).take k := by
  rw [smallest, List.insertionSort_cons, take_orderedInsert]
  rfl

theorem smallest_concat (k : ℕ) (x : α) (l : List α) :
    smallest k (l ++ [x]) = ((smallest k l).orderedInsert (· ≤ ·) x).take k := by
  rw [smallest_perm (List.perm_append_singleton x l), smallest_cons]

theorem orderedInsert_last (h : x < y) (s : List α) :
    (s ++ [y]).orderedInsert (· ≤ ·) x = s.orderedInsert (· ≤ ·) x ++ [y] := by
  induction s with
  | nil => simp [h.le]
  | cons b s ih =>
    rw [List.cons_append, List.orderedInsert_cons, List.orderedInsert_cons]
    split_ifs
    · rfl
    · rw [ih]
      rfl

theorem orderedInsert_all (hs : s.Pairwise (· ≤ ·)) (h : ∀ b ∈ s, b ≤ x) : s.orderedInsert (· ≤ ·) x = s ++ [x] := by
  have hperm : (s.orderedInsert (· ≤ ·) x).Perm (s ++ [x]) :=
    (List.perm_orderedInsert _ x s).trans (List.perm_append_singleton x s).symm
  have hsorted : (s ++ [x]).Pairwise (· ≤ ·) := by
    rw [List.pairwise_append]
    exact ⟨hs, List.pairwise_singleton _ x, by simpa using h⟩
  exact hperm.eq_of_pairwise' (hs.orderedInsert x) hsorted

/-- the first is the least -/
theorem smallest_head (hk : 0 < k) (h : (smallest k l)[0]? = some x) : IsLeast {y | y ∈ l} x := by
  cases hsort : l.insertionSort (· ≤ ·) with
  | nil =>
    rw [smallest, hsort] at h
    simp at h
  | cons b s =>
    have hmem : ∀ y, y ∈ l ↔ y ∈ b :: s := by
      intro y
      rw [← hsort, List.mem_insertionSort]
    have hbx : b = x := by
      obtain ⟨j, rfl⟩ := Nat.exists_eq_succ_of_ne_zero hk.ne'
      rw [smallest, hsort] at h
      simpa using h
    subst hbx
    have hpair := List.pairwise_insertionSort (· ≤ ·) l
    rw [hsort, List.pairwise_cons] at hpair
    constructor
    · exact (hmem b).2 (by simp)
    · intro y hy
      rcases List.mem_cons.1 ((hmem y).1 hy) with rfl | hys
      · exact le_rfl
      · exact hpair.1 y hys

end DecsLabs
