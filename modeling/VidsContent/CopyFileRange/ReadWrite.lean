import Mathlib.Data.List.Basic
import VidsContent.Lib.Transition

/-!
# The read/write copy

`main.c` and `foo.c` are the same loop with buffers of different sizes: read a
chunk, check that the read did not fail, write the chunk, and stop once a read
has returned nothing.  What `write` returns is not looked at.
-/

namespace VidsContent
namespace CopyFileRange
namespace ReadWrite

open Transition

def mainBufSize : Nat := 128 * 1024

def fooBufSize : Nat := 4096

def intMax : Nat := 2147483647

def toInt (n : Int) : Int := Int.bmod n 4294967296

/-- The conversion of that `int` to the `size_t` that `write` takes. -/
def toSize (n : Int) : Nat := (n % 18446744073709551616).toNat

inductive Pc where
  | read
  | write (readSize : Int)
  | exited
  | aborted
deriving DecidableEq

/-- `rest` is what the reads have not consumed of the input file. -/
structure State (alpha : Type) where
  rest : List alpha
  buf : List alpha
  output : List alpha
  pc : Pc

/-- The result of a call, where `none` stands for `-1`. -/
inductive Event where
  | read (n : Option Nat)
  | write (n : Option Nat)

/-- The loop starts with whatever the stack left in `buf`. -/
def start (input buf : List alpha) : State alpha where
  rest := input
  buf := buf
  output := []
  pc := .read

def afterRead (readSize : Int) : Pc :=
  if readSize = -1 then .aborted else .write readSize

def afterWrite (readSize : Int) : Pc :=
  if 0 < readSize then .read else .exited

def step (bufSize : Nat) (s : State alpha) : Event -> Option (State alpha)
  | .read n =>
      match s.pc, n with
      | .read, none => some { s with pc := afterRead (toInt (-1)) }
      | .read, some n =>
          if n ≤ bufSize ∧ n ≤ s.rest.length ∧ (n = 0 -> s.rest.isEmpty) then
            some
              { s with
                rest := s.rest.drop n
                buf := s.rest.take n ++ s.buf.drop n
                pc := afterRead (toInt n) }
          else
            none
      | _, _ => none
  | .write n =>
      match s.pc, n with
      | .write readSize, none => some { s with pc := afterWrite readSize }
      | .write readSize, some n =>
          if n ≤ toSize readSize ∧ n ≤ s.buf.length then
            some
              { s with
                output := s.output ++ s.buf.take n
                pc := afterWrite readSize }
          else
            none
      | _, _ => none

theorem step_cases {bufSize : Nat} {s next : State alpha} {e : Event}
    (hstep : step bufSize s e = some next) :
    (e = .read none ∧ s.pc = .read ∧ next = { s with pc := .aborted }) ∨
    (exists n : Nat, e = .read (some n) ∧ s.pc = .read ∧ n ≤ bufSize ∧
      n ≤ s.rest.length ∧ (n = 0 -> s.rest = []) ∧
      next =
        { s with
          rest := s.rest.drop n
          buf := s.rest.take n ++ s.buf.drop n
          pc := afterRead (toInt n) }) ∨
    (exists readSize, e = .write none ∧ s.pc = .write readSize ∧
      next = { s with pc := afterWrite readSize }) ∨
    (exists (readSize : Int) (n : Nat), e = .write (some n) ∧ s.pc = .write readSize ∧
      n ≤ toSize readSize ∧ n ≤ s.buf.length ∧
      next =
        { s with
          output := s.output ++ s.buf.take n
          pc := afterWrite readSize }) := by
  cases e with
  | read n =>
      cases hpc : s.pc with
      | read =>
          cases n with
          | none =>
              simp only [step, hpc] at hstep
              exact Or.inl ⟨rfl, rfl, (Option.some.inj hstep).symm⟩
          | some n =>
              simp only [step, hpc] at hstep
              split at hstep
              · rename_i hn
                exact Or.inr (Or.inl ⟨n, rfl, rfl, hn.left, hn.right.left,
                  fun hzero => List.isEmpty_iff.mp (hn.right.right hzero),
                  (Option.some.inj hstep).symm⟩)
              · cases hstep
      | _ => simp [step, hpc] at hstep
  | write n =>
      right; right
      cases hpc : s.pc with
      | write readSize =>
          cases n with
          | none =>
              simp only [step, hpc] at hstep
              exact Or.inl ⟨readSize, rfl, rfl, (Option.some.inj hstep).symm⟩
          | some n =>
              simp only [step, hpc] at hstep
              split at hstep
              · rename_i hn
                exact Or.inr ⟨readSize, n, rfl, rfl, hn.left, hn.right,
                  (Option.some.inj hstep).symm⟩
              · cases hstep
      | _ => simp [step, hpc] at hstep

/-!
## Sizes
-/

theorem toInt_of_le {n : Nat} (hn : n ≤ intMax) : toInt n = n := by
  unfold intMax at hn
  unfold toInt
  apply Int.bmod_eq_of_le
  · lia
  · lia

theorem toSize_of_le {n : Nat} (hn : n ≤ intMax) : toSize n = n := by
  unfold intMax at hn
  unfold toSize
  lia

theorem afterRead_of_le {n : Nat} (hn : n ≤ intMax) :
    afterRead (toInt n) = .write n := by
  unfold afterRead
  rw [toInt_of_le hn, if_neg (by lia)]

theorem afterWrite_zero : afterWrite (0 : Nat) = .exited := rfl

theorem afterWrite_of_pos {n : Nat} (hpos : 0 < n) : afterWrite n = .read := by
  unfold afterWrite
  rw [if_pos (by lia)]

example : mainBufSize ≤ intMax ∧ fooBufSize ≤ intMax := by decide

/-!
## Complete writes
-/

/--
The condition on a step: a read returns no more than an `int` holds, and the
write after a read of some bytes writes them all.
-/
def Complete (s : State alpha) : Event -> Prop
  | .read (some n) => n ≤ intMax
  | .write n =>
      match s.pc with
      | .write readSize => 0 < readSize -> n = some readSize.toNat
      | _ => True
  | _ => True

instance (s : State alpha) : forall e, Decidable (Complete s e)
  | .read none => isTrue trivial
  | .read (some n) => inferInstanceAs (Decidable (n ≤ intMax))
  | .write n =>
      match hpc : s.pc with
      | .write readSize =>
          decidable_of_iff (0 < readSize -> n = some readSize.toNat) (by simp [Complete, hpc])
      | .read => isTrue (by simp [Complete, hpc])
      | .exited => isTrue (by simp [Complete, hpc])
      | .aborted => isTrue (by simp [Complete, hpc])

theorem complete_read (s : State alpha) (n : Nat) :
    Complete s (.read (some n)) <-> n ≤ intMax := Iff.rfl

def Faithful (input : List alpha) (s : State alpha) : Prop :=
  match s.pc with
  | .read => s.output ++ s.rest = input
  | .write readSize =>
      exists n : Nat, readSize = n ∧ n ≤ intMax ∧ n ≤ s.buf.length ∧
        (n = 0 -> s.rest = []) ∧ s.output ++ (s.buf.take n ++ s.rest) = input
  | .exited => s.output = input
  | .aborted => s.output ++ s.rest = input

/-- Some of the input was read and not written, and never will be. -/
def Damaged (input : List alpha) (s : State alpha) : Prop :=
  match s.pc with
  | .read => s.output.length + s.rest.length < input.length
  | .write readSize =>
      exists n : Nat, readSize = n ∧ n ≤ intMax ∧
        s.output.length + n + s.rest.length < input.length
  | .exited => s.output.length < input.length
  | .aborted => True

theorem faithful_read {input : List alpha} {s : State alpha} {n : Nat}
    (h : Faithful input s) (hpc : s.pc = .read) (hle : n ≤ s.rest.length)
    (hend : n = 0 -> s.rest = []) (hfits : n ≤ intMax) :
    Faithful input
      { s with
        rest := s.rest.drop n
        buf := s.rest.take n ++ s.buf.drop n
        pc := .write n } := by
  simp only [Faithful, hpc] at h
  have hlength : (s.rest.take n).length = n := List.length_take_of_le hle
  refine ⟨n, rfl, hfits, ?_, ?_, ?_⟩
  · rw [List.length_append, hlength]
    exact Nat.le_add_right n _
  · intro hzero
    rw [hend hzero, List.drop_nil]
  · rw [List.take_append_of_le_length (by lia), List.take_take, Nat.min_self,
      List.take_append_drop]
    exact h

theorem faithful_write {input : List alpha} {s : State alpha} {n : Nat}
    {output : List alpha} (h : Faithful input s) (hpc : s.pc = .write n)
    (houtput : output = s.output ++ s.buf.take n) :
    Faithful input { s with output := output, pc := afterWrite n } := by
  simp only [Faithful, hpc] at h
  rcases h with ⟨m, hm, _, _, hend, hsplit⟩
  have hnm : n = m := by lia
  subst hnm
  rw [← List.append_assoc, ← houtput] at hsplit
  rcases Nat.eq_zero_or_pos n with rfl | hpos
  · rw [afterWrite_zero]
    rw [hend rfl, List.append_nil] at hsplit
    exact hsplit
  · rw [afterWrite_of_pos hpos]
    exact hsplit

theorem faithful_step {bufSize : Nat} {input : List alpha} {s next : State alpha}
    {e : Event} (h : Faithful input s) (hcomplete : Complete s e)
    (hstep : step bufSize s e = some next) : Faithful input next := by
  rcases step_cases hstep with ⟨_, hpc, rfl⟩ | ⟨n, rfl, hpc, _, hle, hend, rfl⟩ |
    ⟨readSize, rfl, hpc, rfl⟩ | ⟨readSize, n, rfl, hpc, hle, hheld, rfl⟩
  · simp only [Faithful, hpc] at h
    exact h
  · have hfits : n ≤ intMax := (complete_read s n).mp hcomplete
    rw [afterRead_of_le hfits]
    exact faithful_read h hpc hle hend hfits
  · have hwrite := h
    simp only [Faithful, hpc] at hwrite
    rcases hwrite with ⟨n, rfl, _⟩
    simp only [Complete, hpc] at hcomplete
    have hzero : n = 0 := by
      apply Classical.byContradiction
      intro hne
      cases hcomplete (by lia)
    exact faithful_write h hpc (by rw [hzero, List.take_zero, List.append_nil])
  · have hwrite := h
    simp only [Faithful, hpc] at hwrite
    rcases hwrite with ⟨m, rfl, hfits, _⟩
    simp only [Complete, hpc] at hcomplete
    rw [toSize_of_le hfits] at hle
    have hall : n = m := by
      by_cases hzero : m = 0
      · lia
      · have hsome := Option.some.inj (hcomplete (by lia))
        lia
    subst hall
    exact faithful_write h hpc rfl

theorem damaged_write {input : List alpha} {s : State alpha} {n : Nat}
    {output : List alpha}
    (hless : output.length + s.rest.length < input.length) :
    Damaged input { s with output := output, pc := afterWrite n } := by
  rcases Nat.eq_zero_or_pos n with rfl | hpos
  · rw [afterWrite_zero]
    exact Nat.lt_of_le_of_lt (Nat.le_add_right _ _) hless
  · rw [afterWrite_of_pos hpos]
    exact hless

theorem damaged_step {bufSize : Nat} {input : List alpha} {s next : State alpha}
    {e : Event} (hbuf : bufSize ≤ intMax) (h : Damaged input s)
    (hstep : step bufSize s e = some next) : Damaged input next := by
  rcases step_cases hstep with ⟨_, hpc, rfl⟩ | ⟨n, rfl, hpc, hn, hle, _, rfl⟩ |
    ⟨readSize, rfl, hpc, rfl⟩ | ⟨readSize, n, rfl, hpc, hle, _, rfl⟩
  · trivial
  · have hfits : n ≤ intMax := Nat.le_trans hn hbuf
    simp only [Damaged, hpc] at h
    rw [afterRead_of_le hfits]
    exact ⟨n, rfl, hfits, by rw [List.length_drop]; lia⟩
  · simp only [Damaged, hpc] at h
    rcases h with ⟨n, rfl, _, hless⟩
    exact damaged_write (by lia)
  · simp only [Damaged, hpc] at h
    rcases h with ⟨m, rfl, hfits, hless⟩
    rw [toSize_of_le hfits] at hle
    apply damaged_write
    rw [List.length_append, List.length_take]
    lia

theorem damaged_of_not_complete {bufSize : Nat} {input : List alpha}
    {s next : State alpha} {e : Event} (hbuf : bufSize ≤ intMax)
    (h : Faithful input s) (hmiss : ¬ Complete s e)
    (hstep : step bufSize s e = some next) : Damaged input next := by
  rcases step_cases hstep with ⟨rfl, _, _⟩ | ⟨n, rfl, _, hn, _⟩ |
    ⟨readSize, rfl, hpc, rfl⟩ | ⟨readSize, n, rfl, hpc, hle, hheld, rfl⟩
  · exact absurd trivial hmiss
  · exact absurd ((complete_read s n).mpr (Nat.le_trans hn hbuf)) hmiss
  · simp only [Faithful, hpc] at h
    rcases h with ⟨n, rfl, _, hheld, _, hsplit⟩
    simp only [Complete, hpc] at hmiss
    apply damaged_write
    rw [← hsplit, List.length_append, List.length_append, List.length_take_of_le hheld]
    lia
  · simp only [Faithful, hpc] at h
    rcases h with ⟨m, rfl, hfits, hheld', _, hsplit⟩
    rw [toSize_of_le hfits] at hle
    have hshort : n < m := by
      apply Nat.lt_of_le_of_ne hle
      intro hall
      apply hmiss
      simp only [Complete, hpc]
      intro _
      rw [hall]
      rfl
    apply damaged_write
    rw [← hsplit, List.length_append, List.length_append, List.length_append,
      List.length_take_of_le hheld', List.length_take_of_le hheld]
    lia

theorem faithful_start (input buf : List alpha) : Faithful input (start input buf) := rfl

theorem Faithful.output_prefix {input : List alpha} {s : State alpha}
    (h : Faithful input s) : s.output <+: input := by
  unfold Faithful at h
  split at h
  · exact ⟨s.rest, h⟩
  · rcases h with ⟨n, _, _, _, _, hsplit⟩
    exact ⟨_, hsplit⟩
  · exact ⟨[], by rw [h, List.append_nil]⟩
  · exact ⟨s.rest, h⟩

/--
When every write is complete the output is a prefix of the input throughout and
the whole input at the exit.  With a buffer whose size an `int` holds, the exit
is reached with the whole input in no other way.
-/
theorem copy_identical_of_complete (bufSize : Nat) (input buf : List alpha)
    (s : State alpha) (es : List Event)
    (hrun : exec (step bufSize) (start input buf) es = some s) :
    (AllSteps (step bufSize) Complete (start input buf) es ->
      AllStates (step bufSize)
        (fun t => t.output <+: input ∧ (t.pc = .exited -> t.output = input))
        (start input buf) es) ∧
      (bufSize ≤ intMax -> s.pc = .exited ->
        (s.output = input <-> AllSteps (step bufSize) Complete (start input buf) es)) := by
  have hidentical : forall t : State alpha,
      Faithful input t -> t.pc = .exited -> t.output = input := by
    intro t ht hpc
    simp only [Faithful, hpc] at ht
    exact ht
  constructor
  · intro hsteps
    have hall : AllStates (step bufSize) (Faithful input) (start input buf) es :=
      allStates_of_allSteps faithful_step (faithful_start input buf) hsteps
    apply hall.mono
    intro t ht
    exact ⟨ht.output_prefix, hidentical t ht⟩
  · intro hbuf hexited
    constructor
    · intro houtput
      have hend : AllSteps (step bufSize) Complete (start input buf) es ∨ Damaged input s :=
        allSteps_or_broken faithful_step (damaged_of_not_complete hbuf) (damaged_step hbuf)
          (faithful_start input buf) hrun
      rcases hend with hsteps | hdamaged
      · exact hsteps
      · simp only [Damaged, hexited, houtput] at hdamaged
        exact absurd hdamaged (Nat.lt_irrefl _)
    · intro hsteps
      have hlast : Faithful input s :=
        exec_guarded_invariant faithful_step (faithful_start input buf) hsteps hrun
      exact hidentical s hlast hexited

theorem copy_identical_of_complete_abc :
    exists s : State Nat,
      exec (step fooBufSize) (start [1, 2, 3] [])
        [.read (some 2), .write (some 2), .read (some 1), .write (some 1),
          .read (some 0), .write (some 0)] = some s ∧
      s.output = [1, 2, 3] := by
  have hrun : exists s : State Nat,
      exec (step fooBufSize) (start [1, 2, 3] [])
        [.read (some 2), .write (some 2), .read (some 1), .write (some 1),
          .read (some 0), .write (some 0)] = some s ∧
      s.pc = .exited :=
    ⟨_, rfl, rfl⟩
  rcases hrun with ⟨s, hrun, hexited⟩
  have hall := (copy_identical_of_complete fooBufSize [1, 2, 3] [] s _ hrun).left (by decide)
  exact ⟨s, hrun, (hall.last hrun).right hexited⟩

/-- One short write in the middle, and every later call succeeds in full. -/
theorem short_write_unnoticed :
    exists s : State Nat,
      exec (step fooBufSize) (start [1, 2, 3] [])
        [.read (some 2), .write (some 1), .read (some 1), .write (some 1),
          .read (some 0), .write (some 0)] = some s ∧
      s.pc = .exited ∧ s.output = [1, 3] ∧ ¬ s.output <+: [1, 2, 3] :=
  ⟨_, rfl, rfl, rfl, by decide⟩

end ReadWrite
end CopyFileRange
end VidsContent
