import VidsContent.TeeSplice.LlmTee

/-!
# A failing splice in the two-level tee loop

A splice that fails leaves the inner loop while bytes that `tee` has copied are
still in standard input, and the outer loop goes on.  The next tee starts with
those bytes again.
-/

namespace VidsContent
namespace TeeSplice
namespace LlmTee

open Transition

/--
The condition on a step: a tee that copies bytes finds all that was written to
standard output consumed.
-/
def Consumed (s : State alpha) : Event alpha -> Prop
  | .tee (some n) => 0 < n -> s.stdout.length ≤ s.copyLog.length
  | _ => True

instance (s : State alpha) : forall e, Decidable (Consumed s e)
  | .produce _ => isTrue trivial
  | .close => isTrue trivial
  | .tee none => isTrue trivial
  | .tee (some n) =>
      inferInstanceAs (Decidable (0 < n -> s.stdout.length ≤ s.copyLog.length))
  | .splice _ => isTrue trivial

structure Ahead (s : State alpha) : Prop where
  stream : s.produced = s.copyLog ++ s.stdin
  ahead : exists p, p ≤ s.stdin.length ∧ s.stdout = s.copyLog ++ s.stdin.take p ∧
    forall n, s.pc = .splice n -> n = p

theorem ahead_start : Ahead (start : State alpha) where
  stream := rfl
  ahead := ⟨0, Nat.le_refl 0, rfl, fun _ hpc => by cases hpc⟩

theorem Ahead.stdout_prefix {s : State alpha} (h : Ahead s) : s.stdout <+: s.produced := by
  rcases h.ahead with ⟨p, _, hstdout, _⟩
  rw [hstdout, h.stream]
  exact (List.prefix_append_right_inj s.copyLog).mpr (List.take_prefix p s.stdin)

theorem Ahead.move {s : State alpha} (h : Ahead s) {pc : Pc}
    (hpc : forall n, pc ≠ .splice n) : Ahead { s with pc := pc } where
  stream := h.stream
  ahead := by
    rcases h.ahead with ⟨p, hle, hstdout, _⟩
    exact ⟨p, hle, hstdout, fun n hsplice => absurd hsplice (hpc n)⟩

theorem ahead_produce {s : State alpha} (h : Ahead s) (bytes : List alpha) :
    Ahead { s with produced := s.produced ++ bytes, stdin := s.stdin ++ bytes } where
  stream := stream_produce h.stream bytes
  ahead := by
    rcases h.ahead with ⟨p, hle, hstdout, hpc⟩
    refine ⟨p, ?_, ?_, hpc⟩
    · rw [List.length_append]
      exact Nat.le_trans hle (Nat.le_add_right _ _)
    · rw [List.take_append_of_le_length hle]
      exact hstdout

theorem ahead_tee {s : State alpha} (h : Ahead s) {n : Nat} (hn : n ≤ s.stdin.length)
    (hconsumed : s.stdout.length ≤ s.copyLog.length) :
    Ahead { s with stdout := s.stdout ++ s.stdin.take n, pc := .splice n } where
  stream := h.stream
  ahead := by
    rcases h.ahead with ⟨p, hle, hstdout, _⟩
    have hnone : p = 0 := by
      rw [hstdout, List.length_append, List.length_take_of_le hle] at hconsumed
      lia
    refine ⟨n, hn, ?_, ?_⟩
    · simp only
      rw [hstdout, hnone, List.take_zero, List.append_nil]
    · intro m hpc
      cases hpc
      rfl

theorem ahead_splice {s : State alpha} (h : Ahead s) {n m : Nat} (hpc : s.pc = .splice n)
    (hm : m ≤ n) :
    Ahead
      { s with
        stdin := s.stdin.drop m
        copyLog := s.copyLog ++ s.stdin.take m
        pc := whileLeft (n - m) } where
  stream := stream_splice h.stream m
  ahead := by
    rcases h.ahead with ⟨p, hle, hstdout, hsame⟩
    have hp : n = p := hsame n hpc
    subst hp
    refine ⟨n - m, ?_, ?_, ?_⟩
    · rw [List.length_drop]
      lia
    · simp only
      rw [hstdout, List.append_assoc, ← List.take_add, Nat.add_sub_cancel' hm]
    · intro k hk
      rcases Nat.eq_zero_or_pos (n - m) with hzero | hpos
      · rw [hzero, whileLeft_zero] at hk
        cases hk
      · rw [whileLeft_of_pos hpos] at hk
        cases hk
        rfl

theorem ahead_step {s next : State alpha} {e : Event alpha} (h : Ahead s)
    (hcond : Consumed s e) (hstep : step s e = some next) : Ahead next := by
  rcases step_cases hstep with ⟨bytes, _, _, rfl⟩ | ⟨_, _, rfl⟩ | ⟨_, _, rfl⟩ |
    ⟨_, _, _, _, rfl⟩ | ⟨n, rfl, _, hpos, hn, rfl⟩ | ⟨_, _, _, _, _, rfl⟩ |
    ⟨n, m, _, hpc, _, hm, _, rfl⟩
  · exact ahead_produce h bytes
  · exact ⟨h.stream, h.ahead⟩
  · exact h.move (by simp)
  · exact h.move (by simp)
  · exact ahead_tee h hn (hcond hpos)
  · exact h.move (by simp)
  · exact ahead_splice h hpc hm

/-!
## Bytes that are written twice
-/

/-- The byte at the front of standard input is copied a second time. -/
theorem duplicate_of_not_consumed {s next : State alpha} {e : Event alpha} (h : Ahead s)
    (hmiss : ¬ Consumed s e) (hstep : step s e = some next) : ¬ next.stdout.Nodup := by
  rcases step_cases hstep with ⟨bytes, rfl, _⟩ | ⟨rfl, _⟩ | ⟨rfl, _⟩ |
    ⟨rfl, _⟩ | ⟨n, rfl, _, hpos, hn, rfl⟩ | ⟨_, _, rfl, _⟩ | ⟨_, _, rfl, _⟩
  · exact absurd trivial hmiss
  · exact absurd trivial hmiss
  · exact absurd trivial hmiss
  · exact absurd (fun hzero => absurd hzero (Nat.lt_irrefl 0)) hmiss
  · have hahead : s.copyLog.length < s.stdout.length := by
      apply Nat.lt_of_not_le
      exact fun hle => hmiss fun _ => hle
    rcases h.ahead with ⟨p, hle, hstdout, _⟩
    rw [hstdout, List.length_append, List.length_take_of_le hle] at hahead
    cases hstdin : s.stdin with
    | nil =>
        rw [hstdin, List.length_nil] at hn
        lia
    | cons b rest =>
        rw [hstdin] at hstdout
        simp only
        rw [hstdout]
        intro hnodup
        have hdisjoint := (List.nodup_append.mp hnodup).right.right
        have hfront : forall k, 0 < k -> b ∈ (b :: rest).take k := by
          intro k hk
          cases k with
          | zero => lia
          | succ k => exact List.mem_cons_self
        exact hdisjoint b (List.mem_append_right s.copyLog (hfront p (by lia)))
          b (hfront n hpos) rfl
  · exact absurd trivial hmiss
  · exact absurd trivial hmiss

theorem stdout_grows {s next : State alpha} {e : Event alpha}
    (hstep : step s e = some next) : s.stdout <+: next.stdout := by
  rcases step_cases hstep with ⟨_, _, _, rfl⟩ | ⟨_, _, rfl⟩ | ⟨_, _, rfl⟩ |
    ⟨_, _, _, _, rfl⟩ | ⟨n, _, _, _, _, rfl⟩ | ⟨_, _, _, _, _, rfl⟩ |
    ⟨_, _, _, _, _, _, _, rfl⟩
  · exact List.prefix_refl _
  · exact List.prefix_refl _
  · exact List.prefix_refl _
  · exact List.prefix_refl _
  · exact List.prefix_append _ _
  · exact List.prefix_refl _
  · exact List.prefix_refl _

theorem duplicate_stays {s next : State alpha} {e : Event alpha} (h : ¬ s.stdout.Nodup)
    (hstep : step s e = some next) : ¬ next.stdout.Nodup :=
  fun hnodup => h (hnodup.sublist (stdout_grows hstep).sublist)

/--
Standard output is a prefix of the stream throughout, whatever splices fail, as
long as each tee finds what was copied before it consumed.  On a stream without
repeated bytes that is the only way to a prefix.
-/
theorem stdout_prefix_of_consumed (s : State alpha) (es : List (Event alpha))
    (hrun : exec step start es = some s) :
    (AllSteps step Consumed start es ->
      AllStates step (fun t => t.stdout <+: t.produced) start es) ∧
      (s.produced.Nodup ->
        (s.stdout <+: s.produced <-> AllSteps step Consumed start es)) := by
  constructor
  · intro hsteps
    have hall : AllStates step Ahead start es :=
      allStates_of_allSteps ahead_step ahead_start hsteps
    exact hall.mono fun t ht => ht.stdout_prefix
  · intro hnodup
    constructor
    · intro hprefix
      have hend : AllSteps step Consumed start es ∨ ¬ s.stdout.Nodup :=
        allSteps_or_broken ahead_step duplicate_of_not_consumed duplicate_stays
          ahead_start hrun
      rcases hend with hsteps | hduplicate
      · exact hsteps
      · exact absurd (hnodup.sublist hprefix.sublist) hduplicate
    · intro hsteps
      have hlast : Ahead s := exec_guarded_invariant ahead_step ahead_start hsteps hrun
      exact hlast.stdout_prefix

theorem stdout_prefix_of_consumed_late_failure :
    exists s : State Nat,
      exec step start
        [.produce [1, 2], .close, .tee (some 2), .splice (some 1), .splice none] = some s ∧
      s.stdout <+: [1, 2] := by
  have hrun : exists s : State Nat,
      exec step start
        [.produce [1, 2], .close, .tee (some 2), .splice (some 1), .splice none] = some s ∧
      s.produced = [1, 2] :=
    ⟨_, rfl, rfl⟩
  rcases hrun with ⟨s, hrun, hproduced⟩
  have hall := (stdout_prefix_of_consumed s _ hrun).left (by decide)
  have hprefix := hall.last hrun
  rw [hproduced] at hprefix
  exact ⟨s, hrun, hprefix⟩

/-- The byte that a failed splice left behind is copied again. -/
theorem failed_splice_duplicates :
    exists s : State Nat,
      exec step start
        [.produce [1, 2], .close, .tee (some 2), .splice (some 1), .splice none,
          .tee (some 1)] = some s ∧
      s.produced = [1, 2] ∧ s.stdout = [1, 2, 2] ∧ ¬ s.stdout <+: s.produced :=
  ⟨_, rfl, rfl, rfl, by decide⟩

end LlmTee
end TeeSplice
end VidsContent
