import VidsContent.CopyFileRange.ReadWrite

/-!
# The copy_file_range copy

`main_with_copy_range.c` asks the kernel again and again to copy the next bytes
from one file to the other, as long as it reports a positive count.
-/

namespace VidsContent
namespace CopyFileRange
namespace CopyRange

open Transition

def uintMax : Nat := 4294967295

inductive Pc where
  | copy
  | exited
deriving DecidableEq

structure State (alpha : Type) where
  rest : List alpha
  output : List alpha
  pc : Pc

def start (input : List alpha) : State alpha where
  rest := input
  output := []
  pc := .copy

/-- A step is the result of `copy_file_range`, where `none` stands for `-1`. -/
def step (s : State alpha) (copiedBytes : Option Nat) : Option (State alpha) :=
  match s.pc, copiedBytes with
  | .copy, none => some { s with pc := .exited }
  | .copy, some 0 => if s.rest.isEmpty then some { s with pc := .exited } else none
  | .copy, some n =>
      if n ≤ uintMax ∧ n ≤ s.rest.length then
        some { s with rest := s.rest.drop n, output := s.output ++ s.rest.take n }
      else
        none
  | .exited, _ => none

theorem step_cases {s next : State alpha} {copiedBytes : Option Nat}
    (hstep : step s copiedBytes = some next) :
    s.pc = .copy ∧
      ((copiedBytes = none ∧ next = { s with pc := .exited }) ∨
        (copiedBytes = some 0 ∧ s.rest = [] ∧ next = { s with pc := .exited }) ∨
        (exists n, copiedBytes = some n ∧ 0 < n ∧ n ≤ s.rest.length ∧
          next = { s with rest := s.rest.drop n, output := s.output ++ s.rest.take n })) := by
  cases hpc : s.pc with
  | copy =>
      cases copiedBytes with
      | none =>
          simp only [step, hpc] at hstep
          exact ⟨rfl, Or.inl ⟨rfl, (Option.some.inj hstep).symm⟩⟩
      | some n =>
          cases n with
          | zero =>
              simp only [step, hpc] at hstep
              split at hstep
              · rename_i hend
                exact ⟨rfl, Or.inr (Or.inl ⟨rfl, List.isEmpty_iff.mp hend,
                  (Option.some.inj hstep).symm⟩)⟩
              · cases hstep
          | succ n =>
              simp only [step, hpc] at hstep
              split at hstep
              · rename_i hn
                exact ⟨rfl, Or.inr (Or.inr ⟨n + 1, rfl, n.succ_pos, hn.right,
                  (Option.some.inj hstep).symm⟩)⟩
              · cases hstep
  | exited => simp [step, hpc] at hstep

/-!
## Faithfulness and termination
-/

theorem split_step {input : List alpha} {s next : State alpha}
    {copiedBytes : Option Nat} (h : s.output ++ s.rest = input)
    (hstep : step s copiedBytes = some next) : next.output ++ next.rest = input := by
  rcases step_cases hstep with ⟨_, ⟨_, rfl⟩ | ⟨_, _, rfl⟩ | ⟨n, _, _, _, rfl⟩⟩
  · exact h
  · exact h
  · simp only
    rw [List.append_assoc, List.take_append_drop]
    exact h

def callsLeft (s : State alpha) : Nat :=
  match s.pc with
  | .copy => s.rest.length + 1
  | .exited => 0

theorem callsLeft_step {s next : State alpha} {copiedBytes : Option Nat}
    (hstep : step s copiedBytes = some next) : callsLeft next < callsLeft s := by
  rcases step_cases hstep with ⟨hpc, ⟨_, rfl⟩ | ⟨_, _, rfl⟩ | ⟨n, _, hpos, hle, rfl⟩⟩
  · simp [callsLeft, hpc]
  · simp [callsLeft, hpc]
  · simp only [callsLeft, hpc, List.length_drop]
    lia

theorem run_length_le {input : List alpha} {s : State alpha} {es : List (Option Nat)}
    (hrun : exec step (start input) es = some s) : es.length ≤ input.length + 1 := by
  have hlength : es.length + callsLeft s ≤ callsLeft (start input) :=
    exec_length_le callsLeft (fun h hstep => split_step h hstep)
      (fun _ hstep => callsLeft_step hstep) (List.nil_append input) hrun
  have hstart : callsLeft (start input) = input.length + 1 := rfl
  lia

/-- The condition on a step: a call fails only when nothing is left to copy. -/
def FailsAtEnd (s : State alpha) : Option Nat -> Prop
  | none => s.rest = []
  | some _ => True

instance (s : State alpha) : forall copiedBytes, Decidable (FailsAtEnd s copiedBytes)
  | none => inferInstanceAs (Decidable (s.rest = []))
  | some _ => isTrue trivial

def CopiesAll (input : List alpha) (s : State alpha) : Prop :=
  s.output <+: input ∧ (s.pc = .exited -> s.output = input)

structure Inv (input : List alpha) (s : State alpha) : Prop where
  split : s.output ++ s.rest = input
  finished : s.pc = .exited -> s.rest = []

theorem inv_start (input : List alpha) : Inv input (start input) where
  split := rfl
  finished := fun hexited => by cases hexited

theorem Inv.copiesAll {input : List alpha} {s : State alpha} (h : Inv input s) :
    CopiesAll input s := by
  constructor
  · exact ⟨s.rest, h.split⟩
  · intro hexited
    rw [← h.split, h.finished hexited, List.append_nil]

theorem inv_step {input : List alpha} {s next : State alpha} {copiedBytes : Option Nat}
    (h : Inv input s) (hcond : FailsAtEnd s copiedBytes)
    (hstep : step s copiedBytes = some next) : Inv input next := by
  constructor
  · exact split_step h.split hstep
  · rcases step_cases hstep with ⟨hpc, ⟨rfl, rfl⟩ | ⟨_, hend, rfl⟩ | ⟨n, _, _, _, rfl⟩⟩
    · exact fun _ => hcond
    · exact fun _ => hend
    · intro hexited
      rw [hpc] at hexited
      cases hexited

theorem not_copiesAll_of_failure {input : List alpha} {s next : State alpha}
    {copiedBytes : Option Nat} (h : Inv input s) (hmiss : ¬ FailsAtEnd s copiedBytes)
    (hstep : step s copiedBytes = some next) : ¬ CopiesAll input next := by
  rcases step_cases hstep with ⟨_, ⟨rfl, rfl⟩ | ⟨rfl, _⟩ | ⟨n, rfl, _⟩⟩
  · rintro ⟨_, hall⟩
    have hsame : s.output = input := hall rfl
    rw [← h.split, List.self_eq_append_right] at hsame
    exact hmiss hsame
  · exact absurd trivial hmiss
  · exact absurd trivial hmiss

/--
The loop ends after at most one call for every byte and one more, and it copies
all of the input exactly when no call fails with bytes left to copy.  Then its
output is that of every run of the read/write copy whose writes are complete.
-/
theorem copyRange_copiesAll_iff (input : List alpha) (s : State alpha)
    (es : List (Option Nat)) (hrun : exec step (start input) es = some s) :
    es.length ≤ input.length + 1 ∧
      (AllStates step (CopiesAll input) (start input) es <->
        AllSteps step FailsAtEnd (start input) es) ∧
      (AllSteps step FailsAtEnd (start input) es -> s.pc = .exited ->
        forall (bufSize : Nat) (buf : List alpha) (t : ReadWrite.State alpha)
            (calls : List ReadWrite.Event),
          exec (ReadWrite.step bufSize) (ReadWrite.start input buf) calls = some t ->
          AllSteps (ReadWrite.step bufSize) ReadWrite.Complete
            (ReadWrite.start input buf) calls ->
          t.pc = .exited -> t.output = s.output) := by
  refine ⟨run_length_le hrun, ?_, ?_⟩
  · exact allStates_iff_allSteps (fun _ h => h.copiesAll) inv_step not_copiesAll_of_failure
      (inv_start input) hrun
  · intro hsteps hexited bufSize buf t calls hcalls hcomplete htexited
    have hlast : Inv input s := exec_guarded_invariant inv_step (inv_start input) hsteps hrun
    have hfaithful : ReadWrite.Faithful input t :=
      exec_guarded_invariant ReadWrite.faithful_step (ReadWrite.faithful_start input buf)
        hcomplete hcalls
    simp only [ReadWrite.Faithful, htexited] at hfaithful
    rw [hfaithful, hlast.copiesAll.right hexited]

theorem copyRange_copiesAll_iff_abc :
    exists s : State Nat,
      exec step (start [1, 2, 3]) [some 2, some 1, some 0] = some s ∧
      s.output = [1, 2, 3] := by
  have hrun : exists s : State Nat,
      exec step (start [1, 2, 3]) [some 2, some 1, some 0] = some s ∧ s.pc = .exited :=
    ⟨_, rfl, rfl⟩
  rcases hrun with ⟨s, hrun, hexited⟩
  have hall := (copyRange_copiesAll_iff [1, 2, 3] s _ hrun).right.left.mpr (by decide)
  exact ⟨s, hrun, (hall.last hrun).right hexited⟩

/-- The second call fails: the loop ends as it does at the end of the input. -/
theorem failure_ends_copy :
    exists s : State Nat,
      exec step (start [1, 2, 3]) [some 1, none] = some s ∧
      s.pc = .exited ∧ s.output = [1] :=
  ⟨_, rfl, rfl, rfl⟩

end CopyRange
end CopyFileRange
end VidsContent
