import Mathlib.Data.List.Basic
import VidsContent.CpuIdleGovernor.Timespec
import VidsContent.Lib.Transition

/-!
# The latency loop

`main` of the demonstration program: in every iteration it moves the deadline on
by the interval, sleeps until then as often as a signal interrupts the sleep,
and stores how much later than the deadline the clock is.
-/

namespace VidsContent
namespace CpuIdleGovernor

open Checked
open Transition

def eintr : Int := 4

inductive Pc where
  | nanosleep
  | gettime
  | measured
  | failed (rc : Int)
  | overflow
deriving DecidableEq

/-- `wakes` is history: the wake-up time of each finished iteration. -/
structure State where
  i : Nat
  next : Timespec
  samples : List Int
  wakes : List Timespec
  pc : Pc

/-- The result of `clock_nanosleep`, or the time that `clock_gettime` stores. -/
inductive Event where
  | sleep (rc : Int)
  | wake (woke : Timespec)

/-- The loop's test and `ts_add_ns(&next, (int64_t)interval_ms * 1000000L)`. -/
def loopHead (iterations intervalMs : Int) (s : State) : State :=
  if s.i < iterations then
    match (mul int64Limit intervalMs 1000000).bind (tsAddNs s.next) with
    | none => { s with pc := .overflow }
    | some next => { s with next := next, pc := .nanosleep }
  else
    { s with pc := .measured }

/-- What the loop is entered with: the first time, and the samples that `calloc` clears. -/
def entry (first : Timespec) (iterations : Int) : State where
  i := 0
  next := first
  samples := List.replicate iterations.toNat 0
  wakes := []
  pc := .measured

def start (first : Timespec) (iterations intervalMs : Int) : State :=
  match mul int64Limit iterations intervalMs with
  | none => { entry first iterations with pc := .overflow }
  | some _ => loopHead iterations intervalMs (entry first iterations)

def step (iterations intervalMs : Int) (s : State) : Event -> Option State
  | .sleep rc =>
      match s.pc with
      | .nanosleep =>
          if rc = eintr then
            some s
          else if rc ≠ 0 then
            some { s with pc := .failed rc }
          else
            some { s with pc := .gettime }
      | _ => none
  | .wake woke =>
      match s.pc with
      | .gettime =>
          match tsDiffNs woke s.next with
          | none => some { s with pc := .overflow }
          | some overshoot =>
              some (loopHead iterations intervalMs
                { s with
                  i := s.i + 1
                  samples := s.samples.set s.i overshoot
                  wakes := s.wakes ++ [woke] })
      | _ => none

theorem step_cases {iterations intervalMs : Int} {s next : State} {e : Event}
    (hstep : step iterations intervalMs s e = some next) :
    (s.pc = .nanosleep ∧
      (next = s ∨ (exists rc, next = { s with pc := .failed rc }) ∨
        next = { s with pc := .gettime })) ∨
    (exists woke, e = .wake woke ∧ s.pc = .gettime ∧ tsDiffNs woke s.next = none ∧
      next = { s with pc := .overflow }) ∨
    (exists woke overshoot, e = .wake woke ∧ s.pc = .gettime ∧
      tsDiffNs woke s.next = some overshoot ∧
      next = loopHead iterations intervalMs
        { s with
          i := s.i + 1
          samples := s.samples.set s.i overshoot
          wakes := s.wakes ++ [woke] }) := by
  cases e with
  | sleep rc =>
      cases hpc : s.pc with
      | nanosleep =>
          left
          simp only [step, hpc] at hstep
          split at hstep
          · exact ⟨rfl, Or.inl (Option.some.inj hstep).symm⟩
          · split at hstep
            · exact ⟨rfl, Or.inr (Or.inl ⟨rc, (Option.some.inj hstep).symm⟩)⟩
            · exact ⟨rfl, Or.inr (Or.inr (Option.some.inj hstep).symm)⟩
      | _ => simp [step, hpc] at hstep
  | wake woke =>
      right
      cases hpc : s.pc with
      | gettime =>
          simp only [step, hpc] at hstep
          cases hdiff : tsDiffNs woke s.next with
          | none =>
              rw [hdiff] at hstep
              exact Or.inl ⟨woke, rfl, rfl, hdiff, (Option.some.inj hstep).symm⟩
          | some overshoot =>
              rw [hdiff] at hstep
              exact Or.inr ⟨woke, overshoot, rfl, rfl, hdiff,
                (Option.some.inj hstep).symm⟩
      | _ => simp [step, hpc] at hstep

/-!
## Deadlines
-/

def deadlineNs (first : Timespec) (intervalMs : Int) (i : Nat) : Int :=
  first.toNs + (i + 1) * (intervalMs * 1000000)

structure DeadlinesFit (first : Timespec) (iterations intervalMs : Int) : Prop where
  normalised : first.Normalised
  inRange : InRange int64Limit first.tvSec
  positive : 0 < iterations ∧ 0 < intervalMs
  intervalNs : intervalMs * 1000000 < int64Limit
  last : first.toNs + iterations * (intervalMs * 1000000) < int64Limit * nsPerSec

def Measured (first : Timespec) (intervalMs : Int) (s : State) : Prop :=
  forall k woke, s.wakes[k]? = some woke ->
    s.samples[k]? = some (woke.toNs - deadlineNs first intervalMs k)

def Place (first : Timespec) (iterations intervalMs : Int) (s : State) : Prop :=
  match s.pc with
  | .nanosleep | .gettime =>
      s.i < iterations ∧ s.next.Normalised ∧ InRange int64Limit s.next.tvSec ∧
        s.next.toNs = deadlineNs first intervalMs s.i
  | .measured => s.i = iterations
  | _ => True

structure Inv (first : Timespec) (iterations intervalMs : Int) (s : State) : Prop where
  wakes : s.wakes.length = s.i
  slots : s.samples.length = iterations.toNat
  measured : Measured first intervalMs s
  place : Place first iterations intervalMs s

structure Headed (first : Timespec) (iterations intervalMs : Int) (s next : State) : Prop where
  place : Place first iterations intervalMs next
  noOverflow : next.pc ≠ .overflow
  i : next.i = s.i
  samples : next.samples = s.samples
  wakes : next.wakes = s.wakes

/--
The loop's head from the end of iteration `i`: its deadline is moved on, whatever
happened before.
-/
theorem loopHead_spec {first : Timespec} {iterations intervalMs : Int} {s : State}
    (hfit : DeadlinesFit first iterations intervalMs) (hle : s.i ≤ iterations)
    (hnormalised : s.next.Normalised) (hrange : InRange int64Limit s.next.tvSec)
    (hnext : s.next.toNs = first.toNs + s.i * (intervalMs * 1000000)) :
    Headed first iterations intervalMs s (loopHead iterations intervalMs s) := by
  unfold loopHead
  by_cases hmore : s.i < iterations
  · have hpositive : 0 ≤ intervalMs * 1000000 := by
      have hinterval := hfit.positive.right
      lia
    have hmul : InRange int64Limit (intervalMs * 1000000) := by
      have hintervalNs := hfit.intervalNs
      unfold InRange int64Limit at *
      lia
    have hstep : s.next.toNs + intervalMs * 1000000 = deadlineNs first intervalMs s.i := by
      unfold deadlineNs
      rw [hnext, Int.add_mul, Int.one_mul]
      lia
    have hbound : s.next.toNs + intervalMs * 1000000 < int64Limit * nsPerSec := by
      have hlast := hfit.last
      have hmono : (s.i + 1) * (intervalMs * 1000000) ≤
          iterations * (intervalMs * 1000000) :=
        Int.mul_le_mul_of_nonneg_right (by lia) hpositive
      rw [hstep]
      unfold deadlineNs
      lia
    rcases tsAddNs_spec hnormalised hrange hpositive hbound with
      ⟨next, hadd, hnextNormalised, hnextRange, hnextNs⟩
    rw [if_pos hmore, mul_of_inRange hmul, Option.bind_some, hadd]
    refine ⟨⟨hmore, hnextNormalised, hnextRange, ?_⟩, by simp, rfl, rfl, rfl⟩
    rw [← hstep]
    exact hnextNs
  · rw [if_neg hmore]
    refine ⟨?_, by simp, rfl, rfl, rfl⟩
    simp only [Place]
    lia

theorem headed_entry {first : Timespec} {iterations intervalMs : Int}
    (hfit : DeadlinesFit first iterations intervalMs) :
    Headed first iterations intervalMs (entry first iterations)
      (loopHead iterations intervalMs (entry first iterations)) :=
  loopHead_spec hfit (Int.le_of_lt hfit.positive.left) hfit.normalised hfit.inRange
    (by simp [entry])

theorem start_no_overflow {first : Timespec} {iterations intervalMs : Int}
    (hfit : DeadlinesFit first iterations intervalMs)
    (htotal : InRange int64Limit (iterations * intervalMs)) :
    (start first iterations intervalMs).pc ≠ .overflow := by
  unfold start
  rw [mul_of_inRange htotal]
  exact (headed_entry hfit).noOverflow

theorem headed_iteration {first : Timespec} {iterations intervalMs : Int} {s : State}
    (hfit : DeadlinesFit first iterations intervalMs) (hpc : s.pc = .gettime)
    (hplace : Place first iterations intervalMs s) (woke : Timespec) (overshoot : Int) :
    Headed first iterations intervalMs
      { s with
        i := s.i + 1
        samples := s.samples.set s.i overshoot
        wakes := s.wakes ++ [woke] }
      (loopHead iterations intervalMs
        { s with
          i := s.i + 1
          samples := s.samples.set s.i overshoot
          wakes := s.wakes ++ [woke] }) := by
  simp only [Place, hpc] at hplace
  rcases hplace with ⟨hi, hnormalised, hrange, hnext⟩
  apply loopHead_spec hfit
  · simp only
    lia
  · exact hnormalised
  · exact hrange
  · simp only
    rw [hnext]
    unfold deadlineNs
    push_cast
    rfl

theorem inv_start {first : Timespec} {iterations intervalMs : Int}
    (hfit : DeadlinesFit first iterations intervalMs) :
    Inv first iterations intervalMs (start first iterations intervalMs) := by
  unfold start
  cases mul int64Limit iterations intervalMs with
  | none =>
      constructor
      · rfl
      · exact List.length_replicate
      · intro k woke hk
        cases hk
      · trivial
  | some total =>
      have hhead := headed_entry hfit
      constructor
      · rw [hhead.wakes, hhead.i]
        rfl
      · rw [hhead.samples]
        exact List.length_replicate
      · intro k woke hk
        rw [hhead.wakes] at hk
        cases hk
      · exact hhead.place

theorem measured_set {first : Timespec} {intervalMs : Int} {s : State} {woke : Timespec}
    {overshoot : Int} (h : Measured first intervalMs s) (hwakes : s.wakes.length = s.i)
    (hslot : s.i < s.samples.length)
    (hovershoot : overshoot = woke.toNs - deadlineNs first intervalMs s.i) :
    forall k w, (s.wakes ++ [woke])[k]? = some w ->
      (s.samples.set s.i overshoot)[k]? = some (w.toNs - deadlineNs first intervalMs k) := by
  intro k w hk
  rcases Nat.lt_trichotomy k s.i with hlt | rfl | hgt
  · rw [List.getElem?_append_left (by lia)] at hk
    rw [List.getElem?_set_ne (by lia)]
    exact h k w hk
  · rw [List.getElem?_append_right (by lia), hwakes, Nat.sub_self] at hk
    cases hk
    rw [List.getElem?_set_self hslot, hovershoot]
  · rw [List.getElem?_eq_none (by rw [List.length_append, List.length_singleton]; lia)] at hk
    cases hk

theorem inv_step {first : Timespec} {iterations intervalMs : Int} {s next : State}
    {e : Event} (hfit : DeadlinesFit first iterations intervalMs)
    (h : Inv first iterations intervalMs s)
    (hstep : step iterations intervalMs s e = some next) :
    Inv first iterations intervalMs next := by
  rcases step_cases hstep with ⟨hpc, rfl | ⟨rc, rfl⟩ | rfl⟩ | ⟨woke, _, hpc, _, rfl⟩ |
    ⟨woke, overshoot, _, hpc, hdiff, rfl⟩
  · exact h
  · exact ⟨h.wakes, h.slots, h.measured, trivial⟩
  · have hplace := h.place
    simp only [Place, hpc] at hplace
    exact ⟨h.wakes, h.slots, h.measured, hplace⟩
  · exact ⟨h.wakes, h.slots, h.measured, trivial⟩
  · have hplace := h.place
    simp only [Place, hpc] at hplace
    rcases hplace with ⟨hi, _, _, hnext⟩
    have hslot : s.i < s.samples.length := by
      rw [h.slots]
      lia
    have hexact : overshoot = woke.toNs - deadlineNs first intervalMs s.i := by
      rw [← hnext]
      exact tsDiffNs_exact hdiff
    have hmeasured := measured_set h.measured h.wakes hslot hexact
    have hhead := headed_iteration hfit hpc h.place woke overshoot
    constructor
    · rw [hhead.wakes, hhead.i, List.length_append, h.wakes]
      rfl
    · rw [hhead.samples, List.length_set]
      exact h.slots
    · intro k w hk
      rw [hhead.wakes] at hk
      rw [hhead.samples]
      exact hmeasured k w hk
    · exact hhead.place

theorem inv_run {first : Timespec} {iterations intervalMs : Int} {s : State}
    {es : List Event} (hfit : DeadlinesFit first iterations intervalMs)
    (hrun : exec (step iterations intervalMs) (start first iterations intervalMs) es = some s) :
    Inv first iterations intervalMs s :=
  exec_invariant (fun h hstep => inv_step hfit h hstep) (inv_start hfit) hrun

/-!
## Wake-up times
-/

/-- The condition on a step: the difference to the deadline can be computed in 64 bits. -/
def WakeFits (s : State) : Event -> Prop
  | .sleep _ => True
  | .wake woke => s.pc = .gettime -> woke.Normalised ∧ DiffFits woke s.next

instance (s : State) : forall e, Decidable (WakeFits s e)
  | .sleep _ => isTrue trivial
  | .wake woke =>
      inferInstanceAs (Decidable (s.pc = .gettime -> woke.Normalised ∧ DiffFits woke s.next))

/-- A reading of a clock that counts its nanoseconds in 63 bits. -/
def IsReading : Event -> Prop
  | .sleep _ => True
  | .wake woke => woke.Normalised ∧ 0 ≤ woke.tvSec ∧ woke.toNs < int64Limit

theorem deadlineNs_bounds {first : Timespec} {iterations intervalMs : Int} {i : Nat}
    (hfit : DeadlinesFit first iterations intervalMs) (hi : i < iterations) :
    first.toNs ≤ deadlineNs first intervalMs i ∧
      deadlineNs first intervalMs i ≤ first.toNs + iterations * (intervalMs * 1000000) := by
  have hpositive : 0 ≤ intervalMs * 1000000 := by
    have hinterval := hfit.positive.right
    lia
  have hmono : (i + 1) * (intervalMs * 1000000) ≤ iterations * (intervalMs * 1000000) :=
    Int.mul_le_mul_of_nonneg_right (by lia) hpositive
  have hsum : 0 ≤ ((i : Int) + 1) * (intervalMs * 1000000) :=
    Int.mul_nonneg (by lia) hpositive
  unfold deadlineNs
  lia

theorem wakeFits_of_isReading {first : Timespec} {iterations intervalMs : Int}
    {s : State} {e : Event} (hfit : DeadlinesFit first iterations intervalMs)
    (hsec : 0 ≤ first.tvSec)
    (hlast : first.toNs + iterations * (intervalMs * 1000000) < int64Limit)
    (h : Inv first iterations intervalMs s) (he : IsReading e) : WakeFits s e := by
  cases e with
  | sleep rc => trivial
  | wake woke =>
      intro hpc
      rcases he with ⟨hwoke, hwokeSec, hwokeNs⟩
      have hplace := h.place
      simp only [Place, hpc] at hplace
      rcases hplace with ⟨hi, hnormalised, _, hnext⟩
      have hbounds := deadlineNs_bounds hfit hi
      have hfirst := hfit.normalised.toNs_nonneg hsec
      have hnextSec : 0 ≤ s.next.tvSec := by
        unfold Timespec.Normalised nsPerSec at hnormalised
        unfold Timespec.toNs nsPerSec at hnext hbounds hfirst
        lia
      exact ⟨hwoke, diffFits_of_readings hwoke hnormalised hwokeSec hnextSec hwokeNs
        (by lia)⟩

theorem no_overflow_step {first : Timespec} {iterations intervalMs : Int}
    {s next : State} {e : Event} (hfit : DeadlinesFit first iterations intervalMs)
    (h : Inv first iterations intervalMs s ∧ s.pc ≠ .overflow) (hwake : WakeFits s e)
    (hstep : step iterations intervalMs s e = some next) :
    Inv first iterations intervalMs next ∧ next.pc ≠ .overflow := by
  constructor
  · exact inv_step hfit h.left hstep
  · rcases step_cases hstep with ⟨_, rfl | ⟨rc, rfl⟩ | rfl⟩ | ⟨woke, rfl, hpc, hdiff, _⟩ |
      ⟨woke, overshoot, _, hpc, _, rfl⟩
    · exact h.right
    · simp
    · simp
    · have hplace := h.left.place
      simp only [Place, hpc] at hplace
      rcases hwake hpc with ⟨hwoke, hfits⟩
      rw [tsDiffNs_of_fits hwoke hplace.right.left hfits] at hdiff
      cases hdiff
    · exact (headed_iteration hfit hpc h.left.place woke overshoot).noOverflow

theorem no_overflow {first : Timespec} {iterations intervalMs : Int} {s : State}
    {es : List Event} (hfit : DeadlinesFit first iterations intervalMs)
    (htotal : InRange int64Limit (iterations * intervalMs))
    (hrun : exec (step iterations intervalMs) (start first iterations intervalMs) es = some s)
    (hwakes : AllSteps (step iterations intervalMs) WakeFits
      (start first iterations intervalMs) es) : s.pc ≠ .overflow := by
  have hlast := exec_guarded_invariant
    (fun h hwake hstep => no_overflow_step hfit h hwake hstep)
    ⟨inv_start hfit, start_no_overflow hfit htotal⟩ hwakes hrun
  exact hlast.right

theorem total_inRange {first : Timespec} {iterations intervalMs : Int}
    (hfit : DeadlinesFit first iterations intervalMs) (hsec : 0 ≤ first.tvSec)
    (hlast : first.toNs + iterations * (intervalMs * 1000000) < int64Limit) :
    InRange int64Limit (iterations * intervalMs) := by
  have hfirst := hfit.normalised.toNs_nonneg hsec
  have hpositive : 0 < iterations * intervalMs :=
    Int.mul_pos hfit.positive.left hfit.positive.right
  rw [← Int.mul_assoc] at hlast
  unfold InRange
  lia

/--
In every run the deadline of iteration `i` is exact and normalised, and every
stored sample is the exact difference to its own deadline.  No operation
overflows while the printed total and the differences to the wake-up times fit
in 64 bits, as they do for the readings of a clock that starts at zero.
-/
theorem deadlines_and_samples_exact (first : Timespec) (iterations intervalMs : Int)
    (s : State) (es : List Event) (hfit : DeadlinesFit first iterations intervalMs)
    (hrun : exec (step iterations intervalMs) (start first iterations intervalMs) es =
      some s) :
    (s.pc = .nanosleep ∨ s.pc = .gettime ->
        s.next.Normalised ∧ s.next.toNs = deadlineNs first intervalMs s.i) ∧
      (s.wakes.length = s.i ∧ Measured first intervalMs s) ∧
      (s.pc = .measured -> s.i = iterations ∧ s.samples.length = s.i) ∧
      (InRange int64Limit (iterations * intervalMs) ->
        AllSteps (step iterations intervalMs) WakeFits
          (start first iterations intervalMs) es -> s.pc ≠ .overflow) ∧
      (0 ≤ first.tvSec ->
        first.toNs + iterations * (intervalMs * 1000000) < int64Limit ->
        (forall e, e ∈ es -> IsReading e) -> s.pc ≠ .overflow) := by
  have hinv := inv_run hfit hrun
  have hplace := hinv.place
  refine ⟨?_, ⟨hinv.wakes, hinv.measured⟩, ?_, ?_, ?_⟩
  · intro hpc
    rcases hpc with hpc | hpc
    · simp only [Place, hpc] at hplace
      exact ⟨hplace.right.left, hplace.right.right.right⟩
    · simp only [Place, hpc] at hplace
      exact ⟨hplace.right.left, hplace.right.right.right⟩
  · intro hpc
    simp only [Place, hpc] at hplace
    exact ⟨hplace, by rw [hinv.slots]; lia⟩
  · intro htotal hwakes
    exact no_overflow hfit htotal hrun hwakes
  · intro hsec hlast hreadings
    apply no_overflow hfit (total_inRange hfit hsec hlast) hrun
    apply allSteps_of_invariant (I := Inv first iterations intervalMs) (D := IsReading)
    · intro s e next h hstep
      exact inv_step hfit h hstep
    · intro s e h he
      exact wakeFits_of_isReading hfit hsec hlast h he
    · exact inv_start hfit
    · exact hreadings

theorem deadlines_and_samples_exact_overrun :
    exists s,
      exec (step 2 100) (start ⟨5, 999000000⟩ 2 100)
        [.sleep 4, .sleep 0, .wake ⟨6, 300000000⟩, .sleep 0, .wake ⟨6, 300500000⟩] = some s ∧
      s.samples[1]? = some 101500000 := by
  have hrun : exists s,
      exec (step 2 100) (start ⟨5, 999000000⟩ 2 100)
        [.sleep 4, .sleep 0, .wake ⟨6, 300000000⟩, .sleep 0, .wake ⟨6, 300500000⟩] = some s ∧
      s.wakes[1]? = some ⟨6, 300500000⟩ :=
    ⟨_, rfl, rfl⟩
  rcases hrun with ⟨s, hrun, hwake⟩
  have hfit : DeadlinesFit ⟨5, 999000000⟩ 2 100 := by
    constructor <;> decide
  have hexact := deadlines_and_samples_exact ⟨5, 999000000⟩ 2 100 s _ hfit hrun
  exact ⟨s, hrun, hexact.right.left.right 1 _ hwake⟩

/-- A wake-up time whose difference to the deadline is no 64-bit number of nanoseconds. -/
theorem far_wake_overflows :
    DeadlinesFit ⟨0, 0⟩ 1 100 ∧
      ¬ InRange int64Limit ((⟨10000000000, 0⟩ : Timespec).toNs - deadlineNs ⟨0, 0⟩ 100 0) ∧
      exists s,
        exec (step 1 100) (start ⟨0, 0⟩ 1 100) [.sleep 0, .wake ⟨10000000000, 0⟩] = some s ∧
        s.pc = .overflow := by
  refine ⟨?_, by decide, _, rfl, rfl⟩
  constructor <;> decide

end CpuIdleGovernor
end VidsContent
