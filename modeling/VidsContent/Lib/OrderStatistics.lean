import Mathlib.Algebra.Order.BigOperators.Group.List
import Mathlib.Data.List.Sort

/-!
# Order statistics

A sorted list answers by position how many of its elements are at most, at least,
or greater than the one found there.  Counting does not depend on the order, so
the answers hold for every list that it is a permutation of.
-/

namespace OrderStatistics

variable {alpha : Type _} [LinearOrder alpha] {xs ys : List alpha}

theorem le_of_mem_take (h : xs.SortedLE) {i : Nat} (hi : i < xs.length) {x : alpha}
    (hx : x ∈ xs.take (i + 1)) : x ≤ xs[i] := by
  rcases List.mem_take_iff_getElem.mp hx with ⟨j, hj, rfl⟩
  exact h.getElem_le_getElem_of_le (by lia)

theorem le_of_mem_drop (h : xs.SortedLE) {i : Nat} (hi : i < xs.length) {x : alpha}
    (hx : x ∈ xs.drop i) : xs[i] ≤ x := by
  rcases List.mem_drop_iff_getElem.mp hx with ⟨j, hj, rfl⟩
  exact h.getElem_le_getElem_of_le (by lia)

theorem lt_countP_le (h : xs.SortedLE) {i : Nat} (hi : i < xs.length) :
    i < xs.countP (fun x => x ≤ xs[i]) := by
  have hall : (xs.take (i + 1)).countP (fun x => x ≤ xs[i]) = (xs.take (i + 1)).length :=
    List.countP_eq_length.mpr fun x hx => decide_eq_true (le_of_mem_take h hi hx)
  have hle : (xs.take (i + 1)).countP (fun x => x ≤ xs[i]) ≤ xs.countP (fun x => x ≤ xs[i]) :=
    (List.take_sublist (i + 1) xs).countP_le
  rw [hall, List.length_take] at hle
  lia

theorem length_le_countP_ge (h : xs.SortedLE) {i : Nat} (hi : i < xs.length) :
    xs.length ≤ i + xs.countP (fun x => xs[i] ≤ x) := by
  have hall : (xs.drop i).countP (fun x => xs[i] ≤ x) = (xs.drop i).length :=
    List.countP_eq_length.mpr fun x hx => decide_eq_true (le_of_mem_drop h hi hx)
  have hle : (xs.drop i).countP (fun x => xs[i] ≤ x) ≤ xs.countP (fun x => xs[i] ≤ x) :=
    (List.drop_sublist i xs).countP_le
  rw [hall, List.length_drop] at hle
  lia

/-- Only what stands behind a position can be greater than what is found there. -/
theorem countP_gt_le (h : xs.SortedLE) {i : Nat} (hi : i < xs.length) :
    xs.countP (fun x => xs[i] < x) + i < xs.length := by
  have hnone : (xs.take (i + 1)).countP (fun x => xs[i] < x) = 0 :=
    List.countP_eq_zero.mpr fun x hx => by
      simpa using le_of_mem_take h hi hx
  have hsplit : xs.countP (fun x => xs[i] < x) =
      (xs.take (i + 1)).countP (fun x => xs[i] < x) +
        (xs.drop (i + 1)).countP (fun x => xs[i] < x) := by
    rw [← List.countP_append, List.take_append_drop]
  have hle := List.countP_le_length (p := fun x => decide (xs[i] < x)) (l := xs.drop (i + 1))
  rw [List.length_drop] at hle
  lia

theorem between (h : xs.SortedLE) (hpos : 0 < xs.length) {x : alpha} (hx : x ∈ xs) :
    xs[0] ≤ x ∧ x ≤ xs[xs.length - 1] := by
  rcases List.mem_iff_getElem.mp hx with ⟨i, hi, rfl⟩
  exact ⟨h.getElem_le_getElem_of_le (Nat.zero_le i), h.getElem_le_getElem_of_le (by lia)⟩

end OrderStatistics
