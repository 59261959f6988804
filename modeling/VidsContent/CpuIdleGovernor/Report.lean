import Mathlib
import VidsContent.CpuIdleGovernor.Timespec
import VidsContent.Lib.OrderStatistics

/-!
# The printed latencies

What `main` reads out of the samples once it has measured them.  `qsort` is the
library's: for a comparator that is a total order it sorts what it is given.
-/

namespace VidsContent
namespace CpuIdleGovernor

open Checked

def cmpI64 (x y : Int) : Int :=
  (if y < x then 1 else 0) - (if x < y then 1 else 0)

structure Comparator (cmp : Int -> Int -> Int) : Prop where
  swap : forall x y, cmp x y < 0 <-> 0 < cmp y x
  eq : forall x y, cmp x y = 0 <-> x = y
  trans : forall x y z, cmp x y ≤ 0 -> cmp y z ≤ 0 -> cmp x z ≤ 0

/-- What `qsort` promises on an array of 64-bit values. -/
def Sorts (qsort : (Int -> Int -> Int) -> List Int -> List Int) : Prop :=
  forall cmp xs, Comparator cmp -> (forall x, x ∈ xs -> InRange int64Limit x) ->
    (qsort cmp xs).Perm xs ∧ (qsort cmp xs).Pairwise (fun x y => cmp x y ≤ 0)

structure Indices where
  min : Int
  med : Int
  p99 : Int
  max : Int

def indices (iterations : Int) : Option Indices := do
  let scaled <- mul int64Limit iterations 99
  let last <- sub int64Limit iterations 1
  some
    { min := 0
      med := iterations.tdiv 2
      p99 := scaled.tdiv 100
      max := last }

def read (samples : List Int) (i : Int) : Option Int :=
  if 0 ≤ i then samples[i.toNat]? else none

def sumOf (samples : List Int) : Option Int :=
  samples.foldl (fun sum x => sum.bind fun sum => add int64Limit sum x) (some 0)

/-- `sum` is `none` where its accumulation overflows. -/
structure Report where
  min : Int
  med : Int
  p99 : Int
  max : Int
  sum : Option Int

def report (qsort : (Int -> Int -> Int) -> List Int -> List Int) (iterations : Int)
    (samples : List Int) : Option Report := do
  let samples := qsort cmpI64 samples
  let places <- indices iterations
  let min <- read samples places.min
  let med <- read samples places.med
  let p99 <- read samples places.p99
  let max <- read samples places.max
  some
    { min := min
      med := med
      p99 := p99
      max := max
      sum := sumOf (samples.take iterations.toNat) }

/-!
## The comparator
-/

theorem cmpI64_nonpos_iff (x y : Int) : cmpI64 x y ≤ 0 <-> x ≤ y := by
  unfold cmpI64
  split <;> split <;> lia

theorem comparator_cmpI64 : Comparator cmpI64 := by
  constructor
  · intro x y
    unfold cmpI64
    split <;> split <;> lia
  · intro x y
    unfold cmpI64
    split <;> split <;> lia
  · intro x y z hxy hyz
    rw [cmpI64_nonpos_iff] at hxy hyz ⊢
    exact Int.le_trans hxy hyz

section Sorted

variable {qsort : (Int -> Int -> Int) -> List Int -> List Int} {samples : List Int}

theorem sorted_samples (hqsort : Sorts qsort)
    (hrange : forall x, x ∈ samples -> InRange int64Limit x) :
    (qsort cmpI64 samples).Perm samples ∧ (qsort cmpI64 samples).SortedLE := by
  rcases hqsort cmpI64 samples comparator_cmpI64 hrange with ⟨hperm, hpairwise⟩
  have hsorted : (qsort cmpI64 samples).Pairwise (fun x y => x ≤ y) :=
    hpairwise.imp fun {x y} hxy => (cmpI64_nonpos_iff x y).mp hxy
  exact ⟨hperm, hsorted.sortedLE⟩

theorem sorted_eq_of_perm {recorded : List Int} (hqsort : Sorts qsort)
    (hrange : forall x, x ∈ samples -> InRange int64Limit x) (h : recorded.Perm samples) :
    qsort cmpI64 recorded = qsort cmpI64 samples := by
  rcases sorted_samples hqsort hrange with ⟨hperm, hsorted⟩
  have hrecorded : forall x, x ∈ recorded -> InRange int64Limit x :=
    fun x hx => hrange x (h.subset hx)
  rcases sorted_samples hqsort hrecorded with ⟨hpermRecorded, hsortedRecorded⟩
  exact ((hpermRecorded.trans h).trans hperm.symm).eq_of_sortedLE hsortedRecorded hsorted

end Sorted

/-!
## The figures
-/

theorem sumOf_append_singleton (samples : List Int) (x : Int) :
    sumOf (samples ++ [x]) = (sumOf samples).bind fun sum => add int64Limit sum x := by
  unfold sumOf
  rw [List.foldl_append]
  rfl

theorem sumOf_exact {samples : List Int} {total : Int} (h : sumOf samples = some total) :
    total = samples.sum := by
  induction samples using List.reverseRecOn generalizing total with
  | nil =>
      cases h
      rfl
  | append_singleton samples x ih =>
      rw [sumOf_append_singleton, Option.bind_eq_some_iff] at h
      rcases h with ⟨before, hbefore, hadd⟩
      rw [List.sum_append, List.sum_singleton, ← ih hbefore]
      exact (add_eq_some_iff.mp hadd).right.symm

/-- The values that `sum` goes through. -/
def PartialSumsFit (samples : List Int) : Prop :=
  forall k, InRange int64Limit (samples.take k).sum

theorem partialSumsFit_append_singleton {samples : List Int} {x : Int} :
    PartialSumsFit (samples ++ [x]) <->
      PartialSumsFit samples ∧ InRange int64Limit (samples.sum + x) := by
  have hwhole : (samples ++ [x]).sum = samples.sum + x := by
    rw [List.sum_append, List.sum_singleton]
  constructor
  · intro h
    constructor
    · intro k
      by_cases hk : k ≤ samples.length
      · have hpart := h k
        rw [List.take_append_of_le_length hk] at hpart
        exact hpart
      · have hall := h samples.length
        rw [List.take_left] at hall
        rw [List.take_of_length_le (by lia)]
        exact hall
    · have hall := h (samples ++ [x]).length
      rw [List.take_length, hwhole] at hall
      exact hall
  · rintro ⟨hbefore, hlast⟩ k
    by_cases hk : k ≤ samples.length
    · rw [List.take_append_of_le_length hk]
      exact hbefore k
    · rw [List.take_of_length_le (by rw [List.length_append, List.length_singleton]; lia), hwhole]
      exact hlast

theorem sumOf_eq_some_iff {samples : List Int} :
    sumOf samples = some samples.sum <-> PartialSumsFit samples := by
  induction samples using List.reverseRecOn with
  | nil =>
      refine ⟨fun _ k => ?_, fun _ => rfl⟩
      rw [List.take_nil]
      decide
  | append_singleton samples x ih =>
      rw [sumOf_append_singleton, partialSumsFit_append_singleton, ← ih, List.sum_append,
        List.sum_singleton, Option.bind_eq_some_iff]
      constructor
      · rintro ⟨before, hbefore, hadd⟩
        have hexact := sumOf_exact hbefore
        subst hexact
        exact ⟨hbefore, (add_eq_some_iff.mp hadd).left⟩
      · rintro ⟨hbefore, hlast⟩
        exact ⟨_, hbefore, add_eq_some_iff.mpr ⟨hlast, rfl⟩⟩

theorem partialSumsFit_of_nonneg {samples : List Int} (hnonneg : forall x, x ∈ samples -> 0 ≤ x)
    (hsum : samples.sum < int64Limit) : PartialSumsFit samples := by
  intro k
  have hpart : 0 ≤ (samples.take k).sum :=
    List.sum_nonneg fun x hx => hnonneg x (List.mem_of_mem_take hx)
  have hrest : 0 ≤ (samples.drop k).sum :=
    List.sum_nonneg fun x hx => hnonneg x (List.mem_of_mem_drop hx)
  have hsplit : (samples.take k).sum + (samples.drop k).sum = samples.sum := by
    rw [← List.sum_append, List.take_append_drop]
  unfold InRange
  lia

theorem indices_eq {n : Nat} (hpos : 0 < n) (hle : n ≤ 72057594037927936) :
    indices n =
      some
        { min := 0
          med := (n / 2 : Nat)
          p99 := (n * 99 / 100 : Nat)
          max := (n - 1 : Nat) } := by
  have hscaled : InRange int64Limit ((n : Int) * 99) := by
    unfold InRange int64Limit
    lia
  have hlast : InRange int64Limit ((n : Int) - 1) := by
    unfold InRange int64Limit
    lia
  unfold indices
  rw [mul_of_inRange hscaled, sub_of_inRange hlast]
  simp only [Option.bind_eq_bind, Option.bind_some, Option.some.injEq, Indices.mk.injEq, true_and]
  refine ⟨?_, ?_, ?_⟩
  · rw [Int.tdiv_eq_ediv_of_nonneg (by lia)]
    lia
  · rw [Int.tdiv_eq_ediv_of_nonneg (by lia)]
    lia
  · lia

theorem read_natCast {samples : List Int} {i : Nat} (hi : i < samples.length) :
    read samples i = some samples[i] := by
  unfold read
  rw [if_pos (Int.natCast_nonneg i), Int.toNat_natCast]
  exact List.getElem?_eq_getElem hi

/-- What the figures say of the samples, for the sum as far as it could be accumulated. -/
structure Describes (samples : List Int) (r : Report) : Prop where
  ordered : r.min ≤ r.med ∧ r.med ≤ r.p99 ∧ r.p99 ≤ r.max
  between : forall x, x ∈ samples -> r.min ≤ x ∧ x ≤ r.max
  lowerHalf : samples.length ≤ 2 * samples.countP (fun x => x ≤ r.med)
  upperHalf : samples.length ≤ 2 * samples.countP (fun x => r.med ≤ x)
  tail : 100 * samples.countP (fun x => r.p99 < x) < samples.length
  sum : samples.length * r.min ≤ samples.sum ∧ samples.sum ≤ samples.length * r.max
  total : forall s, r.sum = some s -> s = samples.sum

theorem Describes.of_perm {xs ys : List Int} {r : Report} (h : Describes xs r)
    (hperm : xs.Perm ys) : Describes ys r := by
  constructor
  · exact h.ordered
  · intro x hx
    exact h.between x (hperm.symm.subset hx)
  · rw [← hperm.length_eq, ← hperm.countP_eq]
    exact h.lowerHalf
  · rw [← hperm.length_eq, ← hperm.countP_eq]
    exact h.upperHalf
  · rw [← hperm.length_eq, ← hperm.countP_eq]
    exact h.tail
  · rw [← hperm.length_eq, ← hperm.sum_eq]
    exact h.sum
  · rw [← hperm.sum_eq]
    exact h.total

def figures (xs : List Int) (hpos : 0 < xs.length) : Report where
  min := xs[0]
  med := xs[xs.length / 2]
  p99 := xs[xs.length * 99 / 100]
  max := xs[xs.length - 1]
  sum := sumOf xs

theorem sum_between {xs : List Int} {low high : Int}
    (h : forall x, x ∈ xs -> low ≤ x ∧ x ≤ high) :
    xs.length * low ≤ xs.sum ∧ xs.sum ≤ xs.length * high := by
  have hlow := List.card_nsmul_le_sum xs low fun x hx => (h x hx).left
  have hhigh := List.sum_le_card_nsmul xs high fun x hx => (h x hx).right
  rw [Int.nsmul_eq_mul] at hlow hhigh
  exact ⟨hlow, hhigh⟩

theorem lower_half {n count : Nat} (h : n / 2 < count) : n ≤ 2 * count := by
  lia

theorem upper_half {n count : Nat} (h : n ≤ n / 2 + count) : n ≤ 2 * count := by
  lia

theorem tail_percent {n count : Nat} (h : count + n * 99 / 100 < n) : 100 * count < n := by
  lia

theorem describes_sorted {xs : List Int} (hsorted : xs.SortedLE) (hpos : 0 < xs.length) :
    Describes xs (figures xs hpos) := by
  have hbetween := fun x hx => OrderStatistics.between hsorted hpos (x := x) hx
  have hmed : xs.length / 2 < xs.length := by lia
  have hp99 : xs.length * 99 / 100 < xs.length := by lia
  constructor
  · refine ⟨?_, ?_, ?_⟩
    · exact hsorted.getElem_le_getElem_of_le (Nat.zero_le _)
    · exact hsorted.getElem_le_getElem_of_le (by lia)
    · exact hsorted.getElem_le_getElem_of_le (by lia)
  · exact hbetween
  · exact lower_half (OrderStatistics.lt_countP_le hsorted hmed)
  · exact upper_half (OrderStatistics.length_le_countP_ge hsorted hmed)
  · exact tail_percent (OrderStatistics.countP_gt_le hsorted hp99)
  · exact sum_between hbetween
  · intro total htotal
    exact sumOf_exact htotal

theorem report_eq {qsort : (Int -> Int -> Int) -> List Int -> List Int} {samples sorted : List Int}
    (hsort : qsort cmpI64 samples = sorted) (hpos : 0 < sorted.length)
    (hle : sorted.length ≤ 72057594037927936) :
    report qsort sorted.length samples = some (figures sorted hpos) := by
  unfold report
  rw [hsort, indices_eq hpos hle]
  simp only [Option.bind_eq_bind, Option.bind_some]
  rw [read_natCast (by lia), read_natCast (by lia), read_natCast (by lia)]
  have hfirst : read sorted 0 = some sorted[0] := read_natCast (i := 0) hpos
  rw [hfirst]
  simp only [Option.bind_some, Int.toNat_natCast, List.take_length]
  rfl

def Indices.Inside (places : Indices) (n : Nat) : Prop :=
  (0 ≤ places.min ∧ places.min < n) ∧ (0 ≤ places.med ∧ places.med < n) ∧
    (0 ≤ places.p99 ∧ places.p99 < n) ∧ (0 ≤ places.max ∧ places.max < n)

/-- The figures are the order statistics of the samples, in whatever order these were recorded. -/
theorem report_describes (qsort : (Int -> Int -> Int) -> List Int -> List Int)
    (samples : List Int) (hqsort : Sorts qsort)
    (hrange : forall x, x ∈ samples -> InRange int64Limit x)
    (hpos : 1 ≤ samples.length) (hle : samples.length ≤ 72057594037927936) :
    Comparator cmpI64 ∧
      (exists places, indices samples.length = some places ∧ places.Inside samples.length) ∧
      exists r, report qsort samples.length samples = some r ∧ Describes samples r ∧
        (r.sum = some samples.sum <-> PartialSumsFit (qsort cmpI64 samples)) ∧
        forall recorded, recorded.Perm samples ->
          report qsort recorded.length recorded = some r := by
  rcases sorted_samples hqsort hrange with ⟨hperm, hsorted⟩
  have hlength := hperm.length_eq
  refine ⟨comparator_cmpI64, ⟨_, indices_eq hpos hle, ?_⟩,
    figures (qsort cmpI64 samples) (by lia), ?_, ?_, ?_, ?_⟩
  · unfold Indices.Inside
    simp only
    lia
  · rw [← hlength]
    exact report_eq rfl (by lia) (by lia)
  · exact (describes_sorted hsorted (by lia)).of_perm hperm
  · rw [← sumOf_eq_some_iff, hperm.sum_eq]
    rfl
  · intro recorded h
    rw [h.length_eq, ← hlength]
    exact report_eq (sorted_eq_of_perm hqsort hrange h) (by lia) (by lia)

theorem sorts_mergeSort :
    Sorts (fun cmp xs => xs.mergeSort (fun x y => decide (cmp x y ≤ 0))) := by
  intro cmp xs hcmp _
  refine ⟨List.mergeSort_perm xs _, ?_⟩
  have hpairwise : (xs.mergeSort (fun x y => decide (cmp x y ≤ 0))).Pairwise
      (fun x y => decide (cmp x y ≤ 0) = true) := by
    apply List.pairwise_mergeSort
    · intro x y z hxy hyz
      exact decide_eq_true (hcmp.trans x y z (of_decide_eq_true hxy) (of_decide_eq_true hyz))
    · intro x y
      have hswap := hcmp.swap x y
      simp only [Bool.or_eq_true, decide_eq_true_eq]
      lia
  exact hpairwise.imp fun h => of_decide_eq_true h

theorem report_describes_three :
    exists r,
      report (fun cmp xs => xs.mergeSort (fun x y => decide (cmp x y ≤ 0))) 3 [7, 52, 7] =
        some r ∧
      r.min ≤ 7 ∧ 52 ≤ r.max ∧ r.sum = some 66 := by
  have hrange : forall x, x ∈ [7, 52, 7] -> InRange int64Limit x := by
    simp [InRange, int64Limit]
  have hdescribes := report_describes _ [7, 52, 7] sorts_mergeSort hrange (by simp) (by simp)
  rcases hdescribes with ⟨_, _, r, hr, hdescribes, hsum, _⟩
  have hperm := (sorted_samples sorts_mergeSort hrange).left
  refine ⟨r, hr, (hdescribes.between 7 (by simp)).left, (hdescribes.between 52 (by simp)).right,
    hsum.mpr (partialSumsFit_of_nonneg ?_ ?_)⟩
  · intro x hx
    have hin := hperm.subset hx
    simp only [List.mem_cons, List.not_mem_nil, or_false] at hin
    lia
  · rw [hperm.sum_eq]
    decide

end CpuIdleGovernor
end VidsContent
