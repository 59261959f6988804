import VidsContent.Lib.Checked

/-!
# Seconds and nanoseconds

The two functions of `main.c` on `struct timespec`, in signed 64-bit arithmetic
whose overflow is undefined.
-/

namespace VidsContent
namespace CpuIdleGovernor

open Checked

/-- The signed 64-bit types run from `-int64Limit` up to but not including it. -/
def int64Limit : Nat := 9223372036854775808

def nsPerSec : Int := 1000000000

structure Timespec where
  tvSec : Int
  tvNsec : Int
deriving DecidableEq

/-- `none` where one of the operations overflows. -/
def tsDiffNs (a b : Timespec) : Option Int := do
  let sec <- sub int64Limit a.tvSec b.tvSec
  let nsec <- sub int64Limit a.tvNsec b.tvNsec
  let secNs <- mul int64Limit sec nsPerSec
  add int64Limit secNs nsec

def tsAddNs (t : Timespec) (ns : Int) : Option Timespec := do
  let sec <- add int64Limit t.tvSec (ns.tdiv nsPerSec)
  let nsec <- add int64Limit t.tvNsec (ns.tmod nsPerSec)
  if nsPerSec ≤ nsec then
    let sec <- add int64Limit sec 1
    let nsec <- sub int64Limit nsec nsPerSec
    some ⟨sec, nsec⟩
  else
    some ⟨sec, nsec⟩

/-!
## The time they stand for
-/

def Timespec.toNs (t : Timespec) : Int := t.tvSec * nsPerSec + t.tvNsec

def Timespec.Normalised (t : Timespec) : Prop := 0 ≤ t.tvNsec ∧ t.tvNsec < nsPerSec

instance (t : Timespec) : Decidable t.Normalised := inferInstanceAs (Decidable (_ ∧ _))

theorem Timespec.Normalised.toNs_nonneg {t : Timespec} (h : t.Normalised)
    (hsec : 0 ≤ t.tvSec) : 0 ≤ t.toNs := by
  unfold Timespec.Normalised at h
  unfold Timespec.toNs nsPerSec
  lia

theorem tsDiffNs_exact {a b : Timespec} {d : Int} (h : tsDiffNs a b = some d) :
    d = a.toNs - b.toNs := by
  unfold tsDiffNs at h
  simp only [Option.bind_eq_bind, Option.bind_eq_some_iff, sub_eq_some_iff,
    mul_eq_some_iff, add_eq_some_iff] at h
  rcases h with ⟨sec, ⟨_, rfl⟩, nsec, ⟨_, rfl⟩, secNs, ⟨_, rfl⟩, _, rfl⟩
  unfold Timespec.toNs
  rw [Int.sub_mul]
  lia

def DiffFits (a b : Timespec) : Prop :=
  InRange int64Limit ((a.tvSec - b.tvSec) * nsPerSec) ∧
    InRange int64Limit (a.toNs - b.toNs)

instance (a b : Timespec) : Decidable (DiffFits a b) := inferInstanceAs (Decidable (_ ∧ _))

theorem tsDiffNs_of_fits {a b : Timespec} (ha : a.Normalised) (hb : b.Normalised)
    (h : DiffFits a b) : tsDiffNs a b = some (a.toNs - b.toNs) := by
  rcases h with ⟨hsecNs, htotal⟩
  have hsum : (a.tvSec - b.tvSec) * nsPerSec + (a.tvNsec - b.tvNsec) = a.toNs - b.toNs := by
    unfold Timespec.toNs
    rw [Int.sub_mul]
    lia
  have hsec : InRange int64Limit (a.tvSec - b.tvSec) := by
    unfold InRange int64Limit nsPerSec at *
    lia
  have hnsec : InRange int64Limit (a.tvNsec - b.tvNsec) := by
    unfold Timespec.Normalised nsPerSec at ha hb
    unfold InRange int64Limit
    lia
  rw [← hsum] at htotal
  unfold tsDiffNs
  rw [sub_of_inRange hsec, sub_of_inRange hnsec]
  simp only [Option.bind_eq_bind, Option.bind_some]
  rw [mul_of_inRange hsecNs]
  simp only [Option.bind_some]
  rw [add_of_inRange htotal, hsum]

theorem diffFits_of_readings {a b : Timespec} (ha : a.Normalised) (hb : b.Normalised)
    (hapos : 0 ≤ a.tvSec) (hbpos : 0 ≤ b.tvSec) (halt : a.toNs < int64Limit)
    (hblt : b.toNs < int64Limit) : DiffFits a b := by
  unfold Timespec.Normalised nsPerSec at ha hb
  unfold Timespec.toNs int64Limit nsPerSec at *
  unfold DiffFits InRange Timespec.toNs int64Limit nsPerSec
  lia

theorem divide_ns {ns : Int} (hns : 0 ≤ ns) :
    ns.tdiv nsPerSec * nsPerSec + ns.tmod nsPerSec = ns ∧
      0 ≤ ns.tdiv nsPerSec ∧ 0 ≤ ns.tmod nsPerSec ∧ ns.tmod nsPerSec < nsPerSec := by
  rw [Int.tdiv_eq_ediv_of_nonneg hns, Int.tmod_eq_emod_of_nonneg hns]
  unfold nsPerSec
  lia

/--
Adding a positive number of nanoseconds keeps a time normalised, and is exact
as long as the seconds of the result are in range.
-/
theorem tsAddNs_spec {t : Timespec} {ns : Int} (ht : t.Normalised)
    (hsec : InRange int64Limit t.tvSec) (hns : 0 ≤ ns)
    (hfits : t.toNs + ns < int64Limit * nsPerSec) :
    exists next, tsAddNs t ns = some next ∧ next.Normalised ∧
      InRange int64Limit next.tvSec ∧ next.toNs = t.toNs + ns := by
  rcases divide_ns hns with ⟨hsplit, hquot, hrem, hremLt⟩
  unfold tsAddNs
  generalize ns.tdiv nsPerSec = quot at hsplit hquot ⊢
  generalize ns.tmod nsPerSec = rem at hsplit hrem hremLt ⊢
  unfold Timespec.Normalised nsPerSec at ht
  unfold InRange int64Limit at hsec
  unfold Timespec.toNs int64Limit nsPerSec at hfits
  unfold nsPerSec at hsplit hremLt
  have hsecSum : InRange int64Limit (t.tvSec + quot) := by
    unfold InRange int64Limit
    lia
  have hnsecSum : InRange int64Limit (t.tvNsec + rem) := by
    unfold InRange int64Limit
    lia
  rw [add_of_inRange hsecSum, add_of_inRange hnsecSum]
  simp only [Option.bind_eq_bind, Option.bind_some]
  by_cases hcarry : nsPerSec ≤ t.tvNsec + rem
  · rw [if_pos hcarry]
    unfold nsPerSec at hcarry
    have hsecCarry : InRange int64Limit (t.tvSec + quot + 1) := by
      unfold InRange int64Limit
      lia
    have hnsecCarry : InRange int64Limit (t.tvNsec + rem - nsPerSec) := by
      unfold InRange int64Limit nsPerSec
      lia
    rw [add_of_inRange hsecCarry, sub_of_inRange hnsecCarry]
    refine ⟨_, rfl, ?_, hsecCarry, ?_⟩
    · unfold Timespec.Normalised nsPerSec
      lia
    · unfold Timespec.toNs nsPerSec
      lia
  · rw [if_neg hcarry]
    unfold nsPerSec at hcarry
    refine ⟨_, rfl, ?_, hsecSum, ?_⟩
    · unfold Timespec.Normalised nsPerSec
      lia
    · unfold Timespec.toNs nsPerSec
      lia

end CpuIdleGovernor
end VidsContent
