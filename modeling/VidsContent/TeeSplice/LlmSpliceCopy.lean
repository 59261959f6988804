import VidsContent.Lib.Transition

/-!
# The splice copy

`llm_splice_copy.c` moves a file into a pipe and the pipe into another file.  It
takes what the first call reports for the length of the second and does not look
at the result of that one.
-/

namespace VidsContent
namespace TeeSplice
namespace LlmSpliceCopy

open Transition

def spliceSize : Nat := 65536

/-- The head of the loop, or its body with the result `n` of the first splice. -/
inductive Pc where
  | spliceIn
  | spliceOut (n : Nat)
  | exited
deriving DecidableEq

structure State (alpha : Type) where
  rest : List alpha
  pipe : List alpha
  output : List alpha
  pc : Pc

/-- The result of a call, where `none` stands for `-1`. -/
inductive Event where
  | spliceIn (n : Option Nat)
  | spliceOut (m : Option Nat)

def start (input : List alpha) : State alpha where
  rest := input
  pipe := []
  output := []
  pc := .spliceIn

def step (capacity : Nat) (s : State alpha) : Event -> Option (State alpha)
  | .spliceIn n =>
      match s.pc, n with
      | .spliceIn, none => some { s with pc := .exited }
      | .spliceIn, some 0 => if s.rest.isEmpty then some { s with pc := .exited } else none
      | .spliceIn, some n =>
          if n ≤ spliceSize ∧ n ≤ s.rest.length ∧ s.pipe.length + n ≤ capacity then
            some
              { s with
                rest := s.rest.drop n
                pipe := s.pipe ++ s.rest.take n
                pc := .spliceOut n }
          else
            none
      | _, _ => none
  | .spliceOut m =>
      match s.pc, m with
      -- the result is not looked at
      | .spliceOut _, none => some { s with pc := .spliceIn }
      | .spliceOut n, some m =>
          if 0 < m ∧ m ≤ n ∧ m ≤ s.pipe.length then
            some
              { s with
                pipe := s.pipe.drop m
                output := s.output ++ s.pipe.take m
                pc := .spliceIn }
          else
            none
      | _, _ => none

theorem step_cases {capacity : Nat} {s next : State alpha} {e : Event}
    (hstep : step capacity s e = some next) :
    (e = .spliceIn none ∧ s.pc = .spliceIn ∧ next = { s with pc := .exited }) ∨
    (e = .spliceIn (some 0) ∧ s.pc = .spliceIn ∧ s.rest = [] ∧
      next = { s with pc := .exited }) ∨
    (exists n, e = .spliceIn (some n) ∧ s.pc = .spliceIn ∧ 0 < n ∧ n ≤ s.rest.length ∧
      next =
        { s with
          rest := s.rest.drop n
          pipe := s.pipe ++ s.rest.take n
          pc := .spliceOut n }) ∨
    (exists n, e = .spliceOut none ∧ s.pc = .spliceOut n ∧
      next = { s with pc := .spliceIn }) ∨
    (exists n m, e = .spliceOut (some m) ∧ s.pc = .spliceOut n ∧ m ≤ n ∧
      next =
        { s with
          pipe := s.pipe.drop m
          output := s.output ++ s.pipe.take m
          pc := .spliceIn }) := by
  cases e with
  | spliceIn n =>
      cases hpc : s.pc with
      | spliceIn =>
          cases n with
          | none =>
              simp only [step, hpc] at hstep
              exact Or.inl ⟨rfl, rfl, (Option.some.inj hstep).symm⟩
          | some n =>
              right
              cases n with
              | zero =>
                  simp only [step, hpc] at hstep
                  split at hstep
                  · rename_i hend
                    exact Or.inl ⟨rfl, rfl, List.isEmpty_iff.mp hend,
                      (Option.some.inj hstep).symm⟩
                  · cases hstep
              | succ n =>
                  simp only [step, hpc] at hstep
                  split at hstep
                  · rename_i hn
                    exact Or.inr (Or.inl ⟨n + 1, rfl, rfl, n.succ_pos, hn.right.left,
                      (Option.some.inj hstep).symm⟩)
                  · cases hstep
      | _ => simp [step, hpc] at hstep
  | spliceOut m =>
      right; right; right
      cases hpc : s.pc with
      | spliceOut n =>
          cases m with
          | none =>
              simp only [step, hpc] at hstep
              exact Or.inl ⟨n, rfl, rfl, (Option.some.inj hstep).symm⟩
          | some m =>
              simp only [step, hpc] at hstep
              split at hstep
              · rename_i hm
                exact Or.inr ⟨n, m, rfl, rfl, hm.right.left, (Option.some.inj hstep).symm⟩
              · cases hstep
      | _ => simp [step, hpc] at hstep

/-!
## The pipe at the head of the loop
-/

/--
The condition on a step: the second splice moves all that the first one did, and
the first fails at most at the end of the file.
-/
def Drains (s : State alpha) : Event -> Prop
  | .spliceIn none => s.rest = []
  | .spliceIn (some _) => True
  | .spliceOut m => s.pc = .spliceOut (m.getD 0)

instance [DecidableEq alpha] (s : State alpha) : forall e, Decidable (Drains s e)
  | .spliceIn none => inferInstanceAs (Decidable (s.rest = []))
  | .spliceIn (some _) => isTrue trivial
  | .spliceOut m => inferInstanceAs (Decidable (s.pc = .spliceOut (m.getD 0)))

/-- At the head of the loop all that was read is in the output, and at the end the input. -/
def LeavesNothing (input : List alpha) (s : State alpha) : Prop :=
  (s.pc = .spliceIn -> s.pipe = [] ∧ s.output ++ s.rest = input) ∧
    (s.pc = .exited -> s.output = input)

def Place (input : List alpha) (s : State alpha) : Prop :=
  match s.pc with
  | .spliceIn => s.pipe = [] ∧ s.output ++ s.rest = input
  | .spliceOut n => 0 < n ∧ s.pipe.length = n ∧ s.output ++ (s.pipe ++ s.rest) = input
  | .exited => s.output = input

theorem place_start (input : List alpha) : Place input (start input) := ⟨rfl, rfl⟩

theorem Place.leavesNothing {input : List alpha} {s : State alpha} (h : Place input s) :
    LeavesNothing input s := by
  constructor
  · intro hpc
    simpa only [Place, hpc] using h
  · intro hpc
    simpa only [Place, hpc] using h

theorem place_step {capacity : Nat} {input : List alpha} {s next : State alpha} {e : Event}
    (h : Place input s) (hdrains : Drains s e) (hstep : step capacity s e = some next) :
    Place input next := by
  rcases step_cases hstep with ⟨rfl, hpc, rfl⟩ | ⟨_, hpc, hend, rfl⟩ |
    ⟨n, _, hpc, hpos, hle, rfl⟩ | ⟨n, rfl, hpc, rfl⟩ | ⟨n, m, rfl, hpc, _, rfl⟩
  · simp only [Place, hpc] at h
    have hend : s.rest = [] := hdrains
    rw [hend, List.append_nil] at h
    exact h.right
  · simp only [Place, hpc] at h
    rw [hend, List.append_nil] at h
    exact h.right
  · simp only [Place, hpc] at h
    rcases h with ⟨hempty, hsplit⟩
    refine ⟨hpos, ?_, ?_⟩
    · rw [hempty, List.nil_append, List.length_take_of_le hle]
    · rw [hempty, List.nil_append, List.take_append_drop]
      exact hsplit
  · simp only [Place, hpc] at h
    have hsame : s.pc = .spliceOut 0 := hdrains
    rw [hpc] at hsame
    cases hsame
    exact absurd h.left (Nat.lt_irrefl 0)
  · simp only [Place, hpc] at h
    have hsame : s.pc = .spliceOut m := hdrains
    rw [hpc] at hsame
    cases hsame
    rcases h with ⟨_, hlength, hsplit⟩
    rw [← List.append_assoc] at hsplit
    constructor
    · exact List.drop_eq_nil_of_le (Nat.le_of_eq hlength)
    · rw [List.take_of_length_le (Nat.le_of_eq hlength)]
      exact hsplit

theorem not_leavesNothing_of_not_drains {capacity : Nat} {input : List alpha}
    {s next : State alpha} {e : Event} (h : Place input s) (hmiss : ¬ Drains s e)
    (hstep : step capacity s e = some next) : ¬ LeavesNothing input next := by
  rcases step_cases hstep with ⟨rfl, hpc, rfl⟩ | ⟨rfl, _⟩ | ⟨n, rfl, _⟩ |
    ⟨n, rfl, hpc, rfl⟩ | ⟨n, m, rfl, hpc, hm, rfl⟩
  · rintro ⟨_, hall⟩
    simp only [Place, hpc] at h
    have hsame : s.output = input := hall rfl
    rw [← h.right, List.self_eq_append_right] at hsame
    exact hmiss hsame
  · exact absurd trivial hmiss
  · exact absurd trivial hmiss
  · rintro ⟨hhead, _⟩
    simp only [Place, hpc] at h
    have hempty : s.pipe = [] := (hhead rfl).left
    rw [hempty, List.length_nil] at h
    lia
  · rintro ⟨hhead, _⟩
    simp only [Place, hpc] at h
    have hempty : s.pipe.drop m = [] := (hhead rfl).left
    have hall : n ≤ m := by
      rw [List.drop_eq_nil_iff, h.right.left] at hempty
      exact hempty
    apply hmiss
    have hsame : n = m := Nat.le_antisymm hall hm
    simp only [Drains, hpc, hsame]
    rfl

/--
In every state of a run the pipe is empty at the head of the loop and the output
complete at the end exactly when each splice to the output drains the pipe.
-/
theorem leavesNothing_iff_drains (capacity : Nat) (input : List alpha) (s : State alpha)
    (es : List Event) (hrun : exec (step capacity) (start input) es = some s) :
    AllStates (step capacity) (LeavesNothing input) (start input) es <->
      AllSteps (step capacity) Drains (start input) es :=
  allStates_iff_allSteps (fun _ h => h.leavesNothing) place_step
    not_leavesNothing_of_not_drains (place_start input) hrun

theorem leavesNothing_iff_drains_abc :
    exists s : State Nat,
      exec (step 65536) (start [1, 2, 3])
        [.spliceIn (some 2), .spliceOut (some 2), .spliceIn (some 1), .spliceOut (some 1),
          .spliceIn (some 0)] = some s ∧
      s.output = [1, 2, 3] := by
  have hrun : exists s : State Nat,
      exec (step 65536) (start [1, 2, 3])
        [.spliceIn (some 2), .spliceOut (some 2), .spliceIn (some 1), .spliceOut (some 1),
          .spliceIn (some 0)] = some s ∧
      s.pc = .exited :=
    ⟨_, rfl, rfl⟩
  rcases hrun with ⟨s, hrun, hexited⟩
  have hall := (leavesNothing_iff_drains 65536 [1, 2, 3] s _ hrun).mpr (by decide)
  exact ⟨s, hrun, (hall.last hrun).right hexited⟩

/-- One short splice to the output, and the last byte is lost with the pipe. -/
theorem short_splice_leaves_residue :
    exists s : State Nat,
      exec (step 65536) (start [1, 2, 3])
        [.spliceIn (some 2), .spliceOut (some 1), .spliceIn (some 1), .spliceOut (some 1),
          .spliceIn (some 0)] = some s ∧
      s.pc = .exited ∧ s.pipe = [3] ∧ s.output = [1, 2] ∧
      ¬ AllStates (step 65536) (LeavesNothing [1, 2, 3]) (start [1, 2, 3])
        [.spliceIn (some 2), .spliceOut (some 1), .spliceIn (some 1), .spliceOut (some 1),
          .spliceIn (some 0)] := by
  refine ⟨_, rfl, rfl, rfl, rfl, ?_⟩
  intro hall
  have hlast := (hall.last rfl).right rfl
  cases hlast

end LlmSpliceCopy
end TeeSplice
end VidsContent
