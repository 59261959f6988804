import Mathlib.Data.List.Basic

/-!
# Totals over a list whose members change one at a time

A total is the sum of a measure of the members.  It changes by as much as the member
that changes, it bounds every member, and where it is positive a member is.
-/

namespace Totals

universe u

variable {alpha : Type u}

def total (f : alpha -> Nat) : List alpha -> Nat
  | [] => 0
  | x :: xs => f x + total f xs

@[simp] theorem total_nil (f : alpha -> Nat) : total f [] = 0 := rfl

@[simp] theorem total_cons (f : alpha -> Nat) (x : alpha) (xs : List alpha) :
    total f (x :: xs) = f x + total f xs := rfl

theorem total_concat (f : alpha -> Nat) (xs : List alpha) (x : alpha) :
    total f (xs ++ [x]) = total f xs + f x := by
  induction xs with
  | nil => exact Nat.add_comm _ _
  | cons y xs ih => rw [List.cons_append, total_cons, total_cons, ih, Nat.add_assoc]

/-- Stated as a sum on both sides, for the member may have become less. -/
theorem total_set (f : alpha -> Nat) {xs : List alpha} {i : Nat} {old : alpha}
    (hget : xs[i]? = some old) (new : alpha) :
    total f (xs.set i new) + f old = total f xs + f new := by
  induction xs generalizing i with
  | nil => cases hget
  | cons x xs ih =>
      cases i with
      | zero =>
          cases hget
          rw [List.set_cons_zero, total_cons, total_cons]
          lia
      | succ i =>
          have hrest := ih hget
          rw [List.set_cons_succ, total_cons, total_cons]
          lia

theorem le_total (f : alpha -> Nat) {xs : List alpha} {x : alpha} (h : x ∈ xs) :
    f x ≤ total f xs := by
  induction xs with
  | nil => cases h
  | cons y xs ih =>
      rw [total_cons]
      rcases List.mem_cons.mp h with rfl | hin
      · exact Nat.le_add_right _ _
      · exact Nat.le_trans (ih hin) (Nat.le_add_left _ _)

theorem total_le {f : alpha -> Nat} {xs : List alpha} {bound : Nat}
    (h : forall x, x ∈ xs -> f x ≤ bound) : total f xs ≤ xs.length * bound := by
  induction xs with
  | nil => exact Nat.zero_le _
  | cons x xs ih =>
      rcases List.forall_mem_cons.mp h with ⟨hx, hxs⟩
      rw [total_cons, List.length_cons, Nat.succ_mul, Nat.add_comm]
      exact Nat.add_le_add (ih hxs) hx

theorem exists_pos_of_total_pos {f : alpha -> Nat} {xs : List alpha} (h : 0 < total f xs) :
    exists (i : Nat) (x : alpha), xs[i]? = some x ∧ 0 < f x := by
  induction xs with
  | nil => cases h
  | cons x xs ih =>
      by_cases hx : 0 < f x
      · exact ⟨0, x, rfl, hx⟩
      · rw [total_cons] at h
        rcases ih (by lia) with ⟨i, y, hget, hy⟩
        exact ⟨i + 1, y, hget, hy⟩

theorem length_le_total {f : alpha -> Nat} {xs : List alpha} (h : forall x, x ∈ xs -> 1 ≤ f x) :
    xs.length ≤ total f xs := by
  induction xs with
  | nil => exact Nat.le_refl 0
  | cons x xs ih =>
      rcases List.forall_mem_cons.mp h with ⟨hx, hxs⟩
      have hrest := ih hxs
      rw [List.length_cons, total_cons]
      lia

theorem total_eq_length {f : alpha -> Nat} {xs : List alpha} (h : forall x, x ∈ xs -> f x = 1) :
    total f xs = xs.length := by
  induction xs with
  | nil => rfl
  | cons x xs ih =>
      rcases List.forall_mem_cons.mp h with ⟨hx, hxs⟩
      rw [total_cons, ih hxs, hx, List.length_cons, Nat.add_comm]

end Totals
