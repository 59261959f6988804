import VidsContent.CpuIdleGovernor.Main
import VidsContent.CpuIdleGovernor.Report

/-!
# Accepted arguments

`main` checks the sign of its two arguments.  Here is when that is enough for
the products and sums that they enter.
-/

namespace VidsContent
namespace CpuIdleGovernor

open Checked
open Transition

structure Accepted (first : Timespec) (iterations intervalMs : Int) : Prop where
  positive : 0 < iterations ∧ 0 < intervalMs
  allocated : iterations ≤ 17592186044416
  normalised : first.Normalised
  early : 0 ≤ first.tvSec ∧ first.tvSec < 1099511627776

/--
Neither the line before the loop nor its deadlines nor the places of the figures
overflow: in a run only the difference to a wake-up time can.
-/
structure ArithmeticFits (first : Timespec) (iterations intervalMs : Int) : Prop where
  entered : (start first iterations intervalMs).pc ≠ .overflow
  steps : forall es s e next,
    exec (step iterations intervalMs) (start first iterations intervalMs) es = some s ->
    step iterations intervalMs s e = some next -> next.pc = .overflow ->
    exists woke, e = .wake woke ∧ tsDiffNs woke s.next = none
  places : exists places, indices iterations = some places

/-- The two products of the arguments that the sign check leaves open. -/
def ProductsFit (iterations intervalMs : Int) : Prop :=
  iterations * intervalMs < int64Limit ∧ intervalMs * 1000000 < int64Limit

theorem Accepted.deadlinesFit {first : Timespec} {iterations intervalMs : Int}
    (h : Accepted first iterations intervalMs) (hfits : ProductsFit iterations intervalMs) :
    DeadlinesFit first iterations intervalMs := by
  rcases h with ⟨hpositive, _, hnormalised, hearly⟩
  rcases hfits with ⟨htotal, hinterval⟩
  constructor
  · exact hnormalised
  · unfold InRange int64Limit
    lia
  · exact hpositive
  · exact hinterval
  · rw [← Int.mul_assoc]
    unfold Timespec.Normalised nsPerSec at hnormalised
    unfold Timespec.toNs
    unfold int64Limit nsPerSec at *
    generalize iterations * intervalMs = total at htotal ⊢
    lia

theorem Accepted.total_inRange {first : Timespec} {iterations intervalMs : Int}
    (h : Accepted first iterations intervalMs) :
    InRange int64Limit (iterations * intervalMs) <-> iterations * intervalMs < int64Limit := by
  have hpositive := Int.mul_pos h.positive.left h.positive.right
  unfold InRange
  lia

theorem Accepted.places {first : Timespec} {iterations intervalMs : Int}
    (h : Accepted first iterations intervalMs) :
    exists places, indices iterations = some places := by
  rcases Int.eq_ofNat_of_zero_le (Int.le_of_lt h.positive.left) with ⟨n, rfl⟩
  have hpositive := h.positive.left
  have hallocated := h.allocated
  exact ⟨_, indices_eq (by lia) (by lia)⟩

theorem step_overflow {first : Timespec} {iterations intervalMs : Int} {s next : State}
    {e : Event} (hfit : DeadlinesFit first iterations intervalMs)
    (hplace : Place first iterations intervalMs s)
    (hstep : step iterations intervalMs s e = some next) (hover : next.pc = .overflow) :
    exists woke, e = .wake woke ∧ tsDiffNs woke s.next = none := by
  rcases step_cases hstep with ⟨hpc, rfl | ⟨rc, rfl⟩ | rfl⟩ | ⟨woke, he, _, hdiff, _⟩ |
    ⟨woke, overshoot, _, hpc, _, rfl⟩
  · rw [hpc] at hover
    cases hover
  · cases hover
  · cases hover
  · exact ⟨woke, he, hdiff⟩
  · exact absurd hover (headed_iteration hfit hpc hplace woke overshoot).noOverflow

theorem total_of_start {first : Timespec} {iterations intervalMs : Int}
    (h : (start first iterations intervalMs).pc ≠ .overflow) :
    InRange int64Limit (iterations * intervalMs) ∧
      (loopHead iterations intervalMs (entry first iterations)).pc ≠ .overflow := by
  unfold start at h
  cases htotal : mul int64Limit iterations intervalMs with
  | none =>
      rw [htotal] at h
      exact absurd rfl h
  | some total =>
      rw [htotal] at h
      exact ⟨(mul_eq_some_iff.mp htotal).left, h⟩

theorem interval_of_loopHead {iterations intervalMs : Int} {s : State}
    (hmore : s.i < iterations) (h : (loopHead iterations intervalMs s).pc ≠ .overflow) :
    InRange int64Limit (intervalMs * 1000000) := by
  apply Decidable.byContradiction
  intro hrange
  apply h
  unfold loopHead
  rw [if_pos hmore, mul_eq_none_iff.mpr hrange]
  rfl

/-- The sign check is enough exactly when the two products of the arguments fit. -/
theorem arithmeticFits_iff (first : Timespec) (iterations intervalMs : Int)
    (h : Accepted first iterations intervalMs) :
    ArithmeticFits first iterations intervalMs <-> ProductsFit iterations intervalMs := by
  constructor
  · intro hfits
    rcases total_of_start hfits.entered with ⟨htotal, hhead⟩
    have hinterval := interval_of_loopHead (s := entry first iterations)
      h.positive.left hhead
    exact ⟨htotal.right, hinterval.right⟩
  · intro hproducts
    have hfit := h.deadlinesFit hproducts
    constructor
    · exact start_no_overflow hfit (h.total_inRange.mpr hproducts.left)
    · intro es s e next hrun hstep hover
      exact step_overflow hfit (inv_run hfit hrun).place hstep hover
    · exact h.places

theorem arithmeticFits_iff_defaults : ArithmeticFits ⟨5, 999000000⟩ 500 100 := by
  have haccepted : Accepted ⟨5, 999000000⟩ 500 100 := by
    constructor <;> decide
  exact (arithmeticFits_iff ⟨5, 999000000⟩ 500 100 haccepted).mpr (by
    unfold ProductsFit
    decide)

theorem accepted_at_zero {iterations intervalMs : Int} (hpositive : 0 < iterations ∧ 0 < intervalMs)
    (hallocated : iterations ≤ 17592186044416) : Accepted ⟨0, 0⟩ iterations intervalMs where
  positive := hpositive
  allocated := hallocated
  normalised := ⟨Int.le_refl 0, by decide⟩
  early := ⟨Int.le_refl 0, by decide⟩

/-- One interval of some 317 years, and a product of two arguments of which either fits. -/
theorem accepted_arguments_overflow :
    (Accepted ⟨0, 0⟩ 1 10000000000000 ∧ (start ⟨0, 0⟩ 1 10000000000000).pc = .overflow ∧
        ¬ ArithmeticFits ⟨0, 0⟩ 1 10000000000000) ∧
      Accepted ⟨0, 0⟩ 1073741824 8589934592 ∧
        mul int64Limit 1073741824 8589934592 = none ∧
        ¬ ArithmeticFits ⟨0, 0⟩ 1073741824 8589934592 := by
  have hinterval : (start ⟨0, 0⟩ 1 10000000000000).pc = .overflow := by
    decide +kernel
  have htotal : mul int64Limit 1073741824 8589934592 = none := by
    decide
  refine ⟨⟨accepted_at_zero (by lia) (by lia), hinterval, ?_⟩,
    accepted_at_zero (by lia) (by lia), htotal, ?_⟩
  · intro hfits
    exact hfits.entered hinterval
  · intro hfits
    have hrange := (total_of_start hfits.entered).left
    rw [mul_eq_none_iff] at htotal
    exact htotal hrange

end CpuIdleGovernor
end VidsContent
