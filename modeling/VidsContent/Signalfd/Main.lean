import Mathlib.Data.List.Basic
import Mathlib.Logic.Function.Basic
import VidsContent.Lib.Transition

/-!
# The signalfd event loop

One `poll` waits for standard input and for a descriptor that delivers blocked
signals.  Its flags are compared as a whole: the loop reads where they are
`POLLIN` and nothing else.
-/

namespace VidsContent
namespace Signalfd

open Transition

def pollIn : Nat := 0x001

def pollHup : Nat := 0x010

def readSize : Nat := 32

inductive Signal where
  | int
  | quit
deriving DecidableEq

/-- What `printf` is called with: the text behind `Stdin received: `, or a signal's name. -/
inductive Line where
  | stdin (text : List UInt8)
  | signal (signal : Signal)
deriving DecidableEq

inductive Pc where
  | poll
  | readStdin
  | readSignal
  | exited
deriving DecidableEq

/--
`held` is what the pipe on standard input holds.  `consumed` and `idle` are
history: the bytes read so far, and how often `poll` returned a positive count
in an iteration that read nothing.
-/
structure State where
  held : List UInt8
  closed : Bool
  pending : Signal -> Bool
  output : List Line
  consumed : List UInt8
  idle : Nat
  pc : Pc

inductive Event where
  | produce (bytes : List UInt8)
  | close
  | raise (signal : Signal)
  | poll
  | readStdin (n : Nat)
  | readSignal (signal : Signal)

def start : State where
  held := []
  closed := false
  pending := fun _ => false
  output := []
  consumed := []
  idle := 0
  pc := .poll

def stdinRevents (s : State) : Nat :=
  (if s.held.isEmpty then 0 else pollIn) ||| (if s.closed then pollHup else 0)

def signalRevents (s : State) : Nat :=
  if s.pending .int || s.pending .quit then pollIn else 0

/-- The bytes that `%s` prints. -/
def cString (bytes : List UInt8) : List UInt8 := bytes.takeWhile fun b => b ≠ 0

def step (s : State) : Event -> Option State
  | .produce bytes =>
      if s.closed then none else some { s with held := s.held ++ bytes }
  | .close => if s.closed then none else some { s with closed := true }
  | .raise signal =>
      some { s with pending := Function.update s.pending signal true }
  | .poll =>
      match s.pc with
      | .poll =>
          -- the timeout, with nothing to report
          if stdinRevents s = 0 ∧ signalRevents s = 0 then
            some s
          else if stdinRevents s = pollIn then
            some { s with pc := .readStdin }
          else if signalRevents s = pollIn then
            some { s with pc := .readSignal }
          else
            some { s with idle := s.idle + 1 }
      | _ => none
  | .readStdin n =>
      match s.pc with
      | .readStdin =>
          if 0 < n ∧ n ≤ readSize ∧ n ≤ s.held.length then
            some
              { s with
                held := s.held.drop n
                consumed := s.consumed ++ s.held.take n
                output := s.output ++ [.stdin (cString (s.held.take n ++ [0]))]
                pc := .poll }
          else
            none
      | _ => none
  | .readSignal signal =>
      match s.pc with
      | .readSignal =>
          if s.pending signal then
            some
              { s with
                pending := Function.update s.pending signal false
                output := s.output ++ [.signal signal]
                pc :=
                  match signal with
                  | .int => .poll
                  | .quit => .exited }
          else
            none
      | _ => none

def text (output : List Line) : List UInt8 :=
  output.flatMap fun line =>
    match line with
    | .stdin bytes => bytes
    | .signal _ => []

theorem text_append (xs ys : List Line) : text (xs ++ ys) = text xs ++ text ys :=
  List.flatMap_append

@[simp] theorem text_stdin (bytes : List UInt8) : text [.stdin bytes] = bytes :=
  List.append_nil bytes

@[simp] theorem text_signal (signal : Signal) : text [.signal signal] = [] := rfl

theorem cString_eq_iff (bytes : List UInt8) : cString (bytes ++ [0]) = bytes <-> 0 ∉ bytes := by
  induction bytes with
  | nil => simp [cString]
  | cons b bytes ih =>
      by_cases hb : b = 0
      · simp [cString, hb]
      · have hcons : cString (b :: bytes ++ [0]) = b :: cString (bytes ++ [0]) := by
          simp [cString, hb]
        rw [hcons, List.cons_inj_right, ih, List.mem_cons, not_or]
        simp [Ne.symm hb]

/-!
## What `poll` reports
-/

theorem stdinRevents_of_closed {s : State} (h : s.closed = true) :
    stdinRevents s ≠ 0 ∧ stdinRevents s ≠ pollIn := by
  unfold stdinRevents
  rw [h]
  split <;> decide

theorem stdinRevents_of_open {s : State} (h : s.closed = false) :
    stdinRevents s = 0 ∨ stdinRevents s = pollIn := by
  unfold stdinRevents
  rw [h]
  split
  · exact Or.inl rfl
  · exact Or.inr rfl

theorem signalRevents_eq_pollIn {s : State} :
    signalRevents s = pollIn <-> s.pending .int = true ∨ s.pending .quit = true := by
  unfold signalRevents
  split
  · rename_i h
    simpa using h
  · rename_i h
    simpa [pollIn] using h

theorem signalRevents_cases (s : State) : signalRevents s = 0 ∨ signalRevents s = pollIn := by
  unfold signalRevents
  split
  · exact Or.inr rfl
  · exact Or.inl rfl

/-!
## Steps
-/

theorem step_poll {s next : State} (hstep : step s .poll = some next) :
    (stdinRevents s = 0 ∧ signalRevents s = 0 ∧ next = s) ∨
      (stdinRevents s = pollIn ∧ next = { s with pc := .readStdin }) ∨
      (signalRevents s = pollIn ∧ next = { s with pc := .readSignal }) ∨
      ((stdinRevents s ≠ 0 ∨ signalRevents s ≠ 0) ∧ stdinRevents s ≠ pollIn ∧
        signalRevents s ≠ pollIn ∧ next = { s with idle := s.idle + 1 }) := by
  cases hpc : s.pc with
  | poll =>
      simp only [step, hpc] at hstep
      split at hstep
      · rename_i hnone
        exact Or.inl ⟨hnone.left, hnone.right, (Option.some.inj hstep).symm⟩
      · split at hstep
        · rename_i hstdin
          exact Or.inr (Or.inl ⟨hstdin, (Option.some.inj hstep).symm⟩)
        · split at hstep
          · rename_i hsignal
            exact Or.inr (Or.inr (Or.inl ⟨hsignal, (Option.some.inj hstep).symm⟩))
          · rename_i hready hstdin hsignal
            exact Or.inr (Or.inr (Or.inr ⟨not_and_or.mp hready, hstdin, hsignal,
              (Option.some.inj hstep).symm⟩))
  | _ => simp [step, hpc] at hstep

theorem step_readStdin {s next : State} {n : Nat}
    (hstep : step s (.readStdin n) = some next) :
    0 < n ∧ n ≤ s.held.length ∧
      next =
        { s with
          held := s.held.drop n
          consumed := s.consumed ++ s.held.take n
          output := s.output ++ [.stdin (cString (s.held.take n ++ [0]))]
          pc := .poll } := by
  cases hpc : s.pc with
  | readStdin =>
      simp only [step, hpc] at hstep
      rw [Option.ite_none_right_eq_some] at hstep
      rcases hstep with ⟨⟨hpos, _, hle⟩, hnext⟩
      exact ⟨hpos, hle, (Option.some.inj hnext).symm⟩
  | _ => simp [step, hpc] at hstep

theorem step_other {s next : State} {e : Event} (hstep : step s e = some next)
    (hpoll : e ≠ .poll) (hread : forall n, e ≠ .readStdin n) :
    next.idle = s.idle ∧ next.consumed = s.consumed ∧
      text next.output = text s.output := by
  cases e with
  | produce bytes =>
      simp only [step] at hstep
      split at hstep
      · cases hstep
      · cases hstep
        exact ⟨rfl, rfl, rfl⟩
  | close =>
      simp only [step] at hstep
      split at hstep
      · cases hstep
      · cases hstep
        exact ⟨rfl, rfl, rfl⟩
  | raise signal =>
      cases hstep
      exact ⟨rfl, rfl, rfl⟩
  | poll => exact absurd rfl hpoll
  | readStdin n => exact absurd rfl (hread n)
  | readSignal signal =>
      cases hpc : s.pc with
      | readSignal =>
          simp only [step, hpc] at hstep
          rw [Option.ite_none_right_eq_some] at hstep
          rcases hstep with ⟨_, hnext⟩
          cases hnext
          refine ⟨rfl, rfl, ?_⟩
          simp only
          rw [text_append, text_signal, List.append_nil]
      | _ => simp [step, hpc] at hstep

/-!
## Progress and input
-/

/--
The condition on a step: a call of `poll` after the writer has closed finds a
signal pending, and a read finds no NUL among the bytes it takes.
-/
def Served (s : State) : Event -> Prop
  | .poll => s.closed = true -> s.pending .int = true ∨ s.pending .quit = true
  | .readStdin n => 0 ∉ s.held.take n
  | _ => True

instance (s : State) : forall e, Decidable (Served s e)
  | .poll =>
      inferInstanceAs
        (Decidable (s.closed = true -> s.pending .int = true ∨ s.pending .quit = true))
  | .readStdin n => inferInstanceAs (Decidable (0 ∉ s.held.take n))
  | .produce _ => isTrue trivial
  | .close => isTrue trivial
  | .raise _ => isTrue trivial
  | .readSignal _ => isTrue trivial

/-- No iteration was idle, and the text printed is the input consumed. -/
def LosesNothing (s : State) : Prop := s.idle = 0 ∧ text s.output = s.consumed

theorem losesNothing_start : LosesNothing start := ⟨rfl, rfl⟩

theorem losesNothing_poll {s next : State} (h : LosesNothing s) (hserved : Served s .poll)
    (hstep : step s .poll = some next) : LosesNothing next := by
  rcases step_poll hstep with ⟨_, _, rfl⟩ | ⟨_, rfl⟩ | ⟨_, rfl⟩ | ⟨hready, hstdin, hsignal, _⟩
  · exact h
  · exact h
  · exact h
  · have hnone : signalRevents s = 0 := (signalRevents_cases s).resolve_right hsignal
    cases hclosed : s.closed with
    | true => exact absurd (signalRevents_eq_pollIn.mpr (hserved hclosed)) hsignal
    | false =>
        have hzero : stdinRevents s = 0 := (stdinRevents_of_open hclosed).resolve_right hstdin
        rcases hready with hready | hready
        · exact absurd hzero hready
        · exact absurd hnone hready

theorem losesNothing_step {s next : State} {e : Event} (h : LosesNothing s)
    (hserved : Served s e) (hstep : step s e = some next) : LosesNothing next := by
  cases e with
  | poll => exact losesNothing_poll h hserved hstep
  | readStdin n =>
      rcases step_readStdin hstep with ⟨_, _, rfl⟩
      constructor
      · exact h.left
      · simp only
        rw [text_append, text_stdin, (cString_eq_iff _).mpr hserved, h.right]
  | _ =>
      rcases step_other hstep (by simp) (by simp) with ⟨hidle, hconsumed, htext⟩
      exact ⟨by rw [hidle, h.left], by rw [hconsumed, htext, h.right]⟩

theorem not_losesNothing_of_not_served {s next : State} {e : Event} (h : LosesNothing s)
    (hmiss : ¬ Served s e) (hstep : step s e = some next) : ¬ LosesNothing next := by
  cases e with
  | poll =>
      have hmiss' : s.closed = true ∧ ¬ (s.pending .int = true ∨ s.pending .quit = true) :=
        Classical.not_imp.mp hmiss
      rcases hmiss' with ⟨hclosed, hpending⟩
      rcases stdinRevents_of_closed hclosed with ⟨hready, hnotIn⟩
      rcases step_poll hstep with ⟨hnone, _⟩ | ⟨hstdin, _⟩ | ⟨hsignal, _⟩ | ⟨_, _, _, rfl⟩
      · exact absurd hnone hready
      · exact absurd hstdin hnotIn
      · exact absurd (signalRevents_eq_pollIn.mp hsignal) hpending
      · rintro ⟨hidle, _⟩
        cases hidle
  | readStdin n =>
      rcases step_readStdin hstep with ⟨_, _, rfl⟩
      rintro ⟨_, hsame⟩
      simp only at hsame
      rw [text_append, text_stdin, h.right, List.append_cancel_left_eq, cString_eq_iff] at hsame
      exact hmiss hsame
  | _ => exact absurd trivial hmiss

/--
A run makes progress in every iteration with something to report, and prints all
that it consumes, exactly when every call of `poll` after the writer has closed
finds a signal pending and no read takes a NUL.
-/
theorem losesNothing_iff_served (s : State) (es : List Event)
    (hrun : exec step start es = some s) :
    AllStates step LosesNothing start es <-> AllSteps step Served start es :=
  allStates_iff_allSteps (fun _ h => h) losesNothing_step not_losesNothing_of_not_served
    losesNothing_start hrun

theorem losesNothing_iff_served_quit :
    exists s,
      exec step start
        [.produce [104, 105], .poll, .readStdin 1, .raise .int, .poll, .readStdin 1,
          .poll, .readSignal .int, .raise .quit, .poll, .readSignal .quit] = some s ∧
      s.pc = .exited ∧ LosesNothing s := by
  have hrun : exists s,
      exec step start
        [.produce [104, 105], .poll, .readStdin 1, .raise .int, .poll, .readStdin 1,
          .poll, .readSignal .int, .raise .quit, .poll, .readSignal .quit] = some s ∧
      s.pc = .exited :=
    ⟨_, rfl, rfl⟩
  rcases hrun with ⟨s, hrun, hexited⟩
  have hall := (losesNothing_iff_served s _ hrun).mpr (by decide)
  exact ⟨s, hrun, hexited, hall.last hrun⟩

/--
The writer closes while the pipe holds its bytes: `poll` reports both flags and
neither branch is taken.  A NUL among the bytes cuts off the text behind it.
-/
theorem hangup_and_nul_lose_input :
    (exists s,
      exec step start [.produce [104, 105], .close, .poll] = some s ∧
      s.idle = 1 ∧ s.held = [104, 105] ∧ s.consumed = []) ∧
    (exists s,
      exec step start [.produce [104, 0, 105], .poll, .readStdin 3] = some s ∧
      s.consumed = [104, 0, 105] ∧ text s.output = [104]) :=
  ⟨⟨_, rfl, rfl, rfl, rfl⟩, ⟨_, rfl, rfl, rfl⟩⟩

end Signalfd
end VidsContent
