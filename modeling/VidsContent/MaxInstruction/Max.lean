import Mathlib.Logic.Function.Basic
import Mathlib.Order.Lattice

/-!
# Two maxima

`max_naive` and `max_faster` fill an array from two others, one with a conditional
expression and one with `_mm_max_sd`.  An array is a function on the indices; the
values come from any linear order.
-/

namespace VidsContent
namespace MaxInstruction

def mmMaxSd [LinearOrder alpha] (a b : alpha) : alpha := if b < a then a else b

/-- `zs[i] = value(i)` for `count` indices from `i` on. -/
def fill (value : Nat -> alpha) : Nat -> Nat -> (Nat -> alpha) -> Nat -> alpha
  | 0, _, zs => zs
  | count + 1, i, zs => fill value count (i + 1) (Function.update zs i (value i))

theorem fill_apply (value : Nat -> alpha) (count i : Nat) (zs : Nat -> alpha) (j : Nat) :
    fill value count i zs j = if i ≤ j ∧ j < i + count then value j else zs j := by
  induction count generalizing i zs with
  | zero =>
      rw [fill, if_neg (by lia)]
  | succ count ih =>
      rw [fill, ih]
      by_cases hji : j = i
      · rw [if_neg (by lia), if_pos (by lia), hji, Function.update_self]
      · rw [Function.update_of_ne hji]
        by_cases hin : i + 1 ≤ j ∧ j < i + 1 + count
        · rw [if_pos hin, if_pos (by lia)]
        · rw [if_neg hin, if_neg (by lia)]

variable [LinearOrder alpha]

def maxNaive (xs ys zs : Nat -> alpha) (n : Nat) : Nat -> alpha :=
  fill (fun i => if xs i < ys i then xs i else ys i) n 0 zs

/-- The loop starts at 1. -/
def maxFaster (xs ys zs : Nat -> alpha) (n : Nat) : Nat -> alpha :=
  fill (fun i => mmMaxSd (xs i) (ys i)) (n - 1) 1 zs

theorem mmMaxSd_eq_max (a b : alpha) : mmMaxSd a b = max a b := by
  unfold mmMaxSd
  split
  · rename_i hlt
    exact (max_eq_left_of_lt hlt).symm
  · rename_i hle
    exact (max_eq_right (le_of_not_gt hle)).symm

theorem maxNaive_apply (xs ys zs : Nat -> alpha) {n i : Nat} (hi : i < n) :
    maxNaive xs ys zs n i = min (xs i) (ys i) := by
  rw [maxNaive, fill_apply, if_pos ⟨Nat.zero_le i, by lia⟩]
  split
  · rename_i hlt
    exact (min_eq_left_of_lt hlt).symm
  · rename_i hle
    exact (min_eq_right (le_of_not_gt hle)).symm

theorem maxFaster_apply (xs ys zs : Nat -> alpha) {n i : Nat} (hpos : 0 < i) (hi : i < n) :
    maxFaster xs ys zs n i = max (xs i) (ys i) := by
  rw [maxFaster, fill_apply, if_pos ⟨hpos, by lia⟩, mmMaxSd_eq_max]

theorem maxFaster_zero (xs ys zs : Nat -> alpha) (n : Nat) :
    maxFaster xs ys zs n 0 = zs 0 := by
  rw [maxFaster, fill_apply, if_neg (by lia)]

/--
The two functions leave the same values, the larger ones, exactly when the two
arrays agree and the first value was in its place before.
-/
theorem maxima_agree_iff (xs ys zs : Nat -> alpha) (n : Nat) :
    ((forall i, i < n -> maxNaive xs ys zs n i = maxFaster xs ys zs n i) ∧
      forall i, i < n -> maxNaive xs ys zs n i = max (xs i) (ys i)) <->
      (forall i, i < n -> xs i = ys i) ∧ (0 < n -> zs 0 = xs 0) := by
  constructor
  · rintro ⟨hsame, hlarger⟩
    have hequal : forall i, i < n -> xs i = ys i := by
      intro i hi
      have hmax := hlarger i hi
      rw [maxNaive_apply xs ys zs hi] at hmax
      exact inf_eq_sup.mp hmax
    refine ⟨hequal, ?_⟩
    intro hn
    have hfirst := hsame 0 hn
    rw [maxFaster_zero, hlarger 0 hn, ← hequal 0 hn, max_self] at hfirst
    exact hfirst.symm
  · rintro ⟨hequal, hfirst⟩
    have hlarger : forall i, i < n -> maxNaive xs ys zs n i = max (xs i) (ys i) := by
      intro i hi
      rw [maxNaive_apply xs ys zs hi, hequal i hi, min_self, max_self]
    refine ⟨?_, hlarger⟩
    intro i hi
    rw [hlarger i hi]
    rcases Nat.eq_zero_or_pos i with rfl | hpos
    · rw [maxFaster_zero, hfirst hi, ← hequal 0 hi, max_self]
    · rw [maxFaster_apply xs ys zs hpos hi]

/-- Two elements: the smaller ones on one side, the first one missing on the other. -/
theorem maxima_differ :
    (maxNaive (fun i => i + 1) (fun i => i + 3) (fun _ => 0) 2 0 = 1 ∧
      maxFaster (fun i => i + 1) (fun i => i + 3) (fun _ => 0) 2 0 = 0) ∧
      maxNaive (fun i => i + 1) (fun i => i + 3) (fun _ => 0) 2 1 = 2 ∧
      maxFaster (fun i => i + 1) (fun i => i + 3) (fun _ => 0) 2 1 = 4 :=
  ⟨⟨rfl, rfl⟩, rfl, rfl⟩

end MaxInstruction
end VidsContent
