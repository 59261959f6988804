import Mathlib.Data.List.Infix
import Mathlib.Logic.Function.Basic
import VidsContent.Lib.Transition

/-!
# The read/write tee

`tee_naive.c` reads a chunk of standard input into a buffer and writes the whole
of it to standard output and to each file.  The events of a run are the results
of the calls, `none` for a call that returned -1; a result that the call cannot
return in the state it is made in is no step.
-/

namespace VidsContent
namespace TeeSplice
namespace TeeNaive

open Transition

def bufSize : Nat := 1 <<< 20

/-- The descriptors that `write_all` is called on. -/
inductive Dest where
  | stdout
  | file (i : Nat)
deriving DecidableEq

def Dest.rank : Dest -> Nat
  | .stdout => 0
  | .file i => i + 1

/-- The first argument of the `die_if` in `write_all`. -/
def Dest.message : Dest -> String
  | .stdout => "write stdout"
  | .file _ => "write file"

inductive Pc where
  | read
  /-- In `write_all`, with `buf` moved by `offset` and `count` bytes to go. -/
  | write (dest : Dest) (offset count : Nat)
  | exited
  | failed (message : String)
deriving DecidableEq

structure State (alpha : Type) where
  stdin : List alpha
  /-- The bytes of the last read; their number is `read_size`. -/
  buf : List alpha
  received : Dest -> List alpha
  pc : Pc

inductive Event where
  | read (size : Option Nat)
  | write (written : Option Nat)
deriving DecidableEq

def start (input : List alpha) : State alpha where
  stdin := input
  buf := []
  received := fun _ => []
  pc := .read

/-- Where `main` continues when `write_all` may have more to write. -/
def afterWrite (fileCount readSize : Nat) (dest : Dest) (offset count : Nat) : Pc :=
  if 0 < count then
    .write dest offset count
  else if dest.rank < fileCount then
    .write (.file dest.rank) 0 readSize
  else
    .read

def step (fileCount : Nat) (s : State alpha) : Event -> Option (State alpha)
  | .read size =>
      match s.pc, size with
      | .read, none => some { s with pc := .failed "read" }
      | .read, some 0 =>
          if s.stdin.isEmpty then some { s with pc := .exited } else none
      | .read, some n =>
          if n ≤ bufSize ∧ n ≤ s.stdin.length then
            some
              { s with
                stdin := s.stdin.drop n
                buf := s.stdin.take n
                pc := .write .stdout 0 n }
          else
            none
      | _, _ => none
  | .write written =>
      match s.pc, written with
      | .write dest _ _, none => some { s with pc := .failed dest.message }
      | .write dest offset count, some n =>
          if 0 < n ∧ n ≤ count then
            some
              { s with
                received := Function.update s.received dest
                  (s.received dest ++ (s.buf.drop offset).take n)
                pc := afterWrite fileCount s.buf.length dest (offset + n) (count - n) }
          else
            none
      | _, _ => none

def Event.Failed : Event -> Prop
  | .read size => size = none
  | .write written => written = none

def Pc.Running : Pc -> Prop
  | .read => True
  | .write _ _ _ => True
  | .exited => False
  | .failed _ => False

theorem step_cases {fileCount : Nat} {s next : State alpha} {e : Event}
    (hstep : step fileCount s e = some next) :
    (exists message, e.Failed ∧ s.pc.Running ∧
      next = { s with pc := .failed message }) ∨
    (e = .read (some 0) ∧ s.pc = .read ∧ s.stdin = [] ∧
      next = { s with pc := .exited }) ∨
    (exists n, e = .read (some n) ∧ s.pc = .read ∧ 0 < n ∧ n ≤ s.stdin.length ∧
      next =
        { s with
          stdin := s.stdin.drop n
          buf := s.stdin.take n
          pc := .write .stdout 0 n }) ∨
    (exists dest offset count n, e = .write (some n) ∧
      s.pc = .write dest offset count ∧ 0 < n ∧ n ≤ count ∧
      next =
        { s with
          received := Function.update s.received dest
            (s.received dest ++ (s.buf.drop offset).take n)
          pc := afterWrite fileCount s.buf.length dest (offset + n) (count - n) }) := by
  cases e with
  | read size =>
      cases hpc : s.pc with
      | read =>
          cases size with
          | none =>
              simp only [step, hpc] at hstep
              exact Or.inl ⟨_, rfl, trivial, (Option.some.inj hstep).symm⟩
          | some n =>
              cases n with
              | zero =>
                  simp only [step, hpc] at hstep
                  split at hstep
                  · rename_i hempty
                    exact Or.inr (Or.inl ⟨rfl, rfl, List.isEmpty_iff.mp hempty,
                      (Option.some.inj hstep).symm⟩)
                  · cases hstep
              | succ n =>
                  simp only [step, hpc] at hstep
                  split at hstep
                  · rename_i hsize
                    exact Or.inr (Or.inr (Or.inl ⟨n + 1, rfl, rfl, Nat.succ_pos n,
                      hsize.right, (Option.some.inj hstep).symm⟩))
                  · cases hstep
      | write dest offset count => simp [step, hpc] at hstep
      | exited => simp [step, hpc] at hstep
      | failed message => simp [step, hpc] at hstep
  | write written =>
      cases hpc : s.pc with
      | write dest offset count =>
          cases written with
          | none =>
              simp only [step, hpc] at hstep
              exact Or.inl ⟨_, rfl, trivial, (Option.some.inj hstep).symm⟩
          | some n =>
              simp only [step, hpc] at hstep
              split at hstep
              · rename_i hn
                exact Or.inr (Or.inr (Or.inr ⟨dest, offset, count, n, rfl, rfl,
                  hn.left, hn.right, (Option.some.inj hstep).symm⟩))
              · cases hstep
      | read => simp [step, hpc] at hstep
      | exited => simp [step, hpc] at hstep
      | failed message => simp [step, hpc] at hstep

/-!
## The invariant

While a chunk is written, each destination has what came before the chunk and
its portion of the chunk: all of it, the first bytes, or nothing.
-/

def portion (buf : List alpha) (dest : Dest) (offset : Nat) (d : Dest) : List alpha :=
  if d.rank < dest.rank then
    buf
  else if d.rank = dest.rank then
    buf.take offset
  else
    []

def Inv (fileCount : Nat) (input : List alpha) (s : State alpha) : Prop :=
  match s.pc with
  | .read =>
      exists past, input = past ++ s.stdin ∧
        forall d : Dest, d.rank ≤ fileCount -> s.received d = past
  | .write dest offset count =>
      dest.rank ≤ fileCount ∧ 0 < count ∧ offset + count = s.buf.length ∧
        exists past, input = past ++ (s.buf ++ s.stdin) ∧
          forall d : Dest, d.rank ≤ fileCount ->
            s.received d = past ++ portion s.buf dest offset d
  | .exited => forall d : Dest, d.rank ≤ fileCount -> s.received d = input
  | .failed _ => forall d : Dest, d.rank ≤ fileCount -> s.received d <+: input

@[simp] theorem rank_stdout : Dest.stdout.rank = 0 := rfl

@[simp] theorem rank_file (i : Nat) : (Dest.file i).rank = i + 1 := rfl

theorem rank_injective {d e : Dest} (h : d.rank = e.rank) : d = e := by
  cases d <;> cases e <;> simp_all [Dest.rank]

theorem portion_isPrefix (buf : List alpha) (dest : Dest) (offset : Nat) (d : Dest) :
    portion buf dest offset d <+: buf := by
  unfold portion
  split
  · exact List.prefix_rfl
  · split
    · exact List.take_prefix offset buf
    · exact List.nil_prefix

theorem portion_start (buf : List alpha) (d : Dest) :
    portion buf .stdout 0 d = [] := by
  unfold portion
  rw [rank_stdout, if_neg (Nat.not_lt_zero d.rank), List.take_zero]
  exact ite_self []

theorem Inv.received_isPrefix {fileCount : Nat} {input : List alpha}
    {s : State alpha} (hinv : Inv fileCount input s) {d : Dest}
    (hd : d.rank ≤ fileCount) : s.received d <+: input := by
  unfold Inv at hinv
  split at hinv
  · rcases hinv with ⟨past, hinput, hreceived⟩
    rw [hreceived d hd, hinput]
    exact List.prefix_append past s.stdin
  · rcases hinv with ⟨_, _, _, past, hinput, hreceived⟩
    rw [hreceived d hd, hinput]
    apply (List.prefix_append_right_inj past).mpr
    exact (portion_isPrefix _ _ _ d).trans (List.prefix_append s.buf s.stdin)
  · rw [hinv d hd]
  · exact hinv d hd

theorem inv_start (fileCount : Nat) (input : List alpha) :
    Inv fileCount input (start input) :=
  ⟨[], rfl, fun _ _ => rfl⟩

theorem received_write {past buf : List alpha} {dest d : Dest} {offset n : Nat}
    {received : Dest -> List alpha}
    (hd : received d = past ++ portion buf dest offset d)
    (hdest : received dest = past ++ portion buf dest offset dest) :
    Function.update received dest (received dest ++ (buf.drop offset).take n) d =
      past ++ portion buf dest (offset + n) d := by
  by_cases heq : d = dest
  · subst heq
    rw [Function.update_self, hdest]
    simp [portion, List.take_add]
  · have hrank : d.rank ≠ dest.rank := fun h => heq (rank_injective h)
    rw [Function.update_of_ne heq, hd]
    simp [portion, hrank]

theorem portion_next (buf : List alpha) (dest d : Dest) :
    portion buf dest buf.length d = portion buf (.file dest.rank) 0 d := by
  unfold portion
  rw [rank_file, List.take_length, List.take_zero]
  split
  · rw [if_pos (by lia)]
  · split
    · rw [if_pos (by lia)]
    · rw [if_neg (by lia), ite_self]

theorem portion_last {fileCount : Nat} (buf : List alpha) {dest d : Dest}
    (hlast : ¬ dest.rank < fileCount) (hd : d.rank ≤ fileCount) :
    portion buf dest buf.length d = buf := by
  unfold portion
  split
  · rfl
  · rw [if_pos (by lia), List.take_length]

theorem inv_write {fileCount : Nat} {input : List alpha} {s : State alpha}
    {dest : Dest} {offset count n : Nat} (hpc : s.pc = .write dest offset count)
    (hn : n ≤ count) (hinv : Inv fileCount input s) :
    Inv fileCount input
      { s with
        received := Function.update s.received dest
          (s.received dest ++ (s.buf.drop offset).take n)
        pc := afterWrite fileCount s.buf.length dest (offset + n) (count - n) } := by
  simp only [Inv, hpc] at hinv
  rcases hinv with ⟨hdest, hcount, hsize, past, hinput, hreceived⟩
  have hwritten : forall d : Dest, d.rank ≤ fileCount ->
      Function.update s.received dest
          (s.received dest ++ (s.buf.drop offset).take n) d =
        past ++ portion s.buf dest (offset + n) d :=
    fun d hd => received_write (hreceived d hd) (hreceived dest hdest)
  unfold afterWrite
  split
  · rename_i hleft
    refine ⟨hdest, hleft, ?_, past, hinput, hwritten⟩
    show offset + n + (count - n) = s.buf.length
    lia
  · have hfull : offset + n = s.buf.length := by lia
    rw [hfull] at hwritten
    split
    · rename_i hmore
      refine ⟨hmore, by lia, Nat.zero_add _, past, hinput, ?_⟩
      intro d hd
      rw [← portion_next]
      exact hwritten d hd
    · rename_i hlast
      refine ⟨past ++ s.buf, ?_, ?_⟩
      · show input = past ++ s.buf ++ s.stdin
        rw [hinput, List.append_assoc]
      · intro d hd
        have hd' := hwritten d hd
        rw [portion_last s.buf hlast hd] at hd'
        exact hd'

theorem inv_read {fileCount : Nat} {input : List alpha} {s : State alpha} {n : Nat}
    (hpc : s.pc = .read) (hpos : 0 < n) (hn : n ≤ s.stdin.length)
    (hinv : Inv fileCount input s) :
    Inv fileCount input
      { s with
        stdin := s.stdin.drop n
        buf := s.stdin.take n
        pc := .write .stdout 0 n } := by
  simp only [Inv, hpc] at hinv
  rcases hinv with ⟨past, hinput, hreceived⟩
  refine ⟨Nat.zero_le _, hpos, ?_, past, ?_, ?_⟩
  · rw [List.length_take, Nat.zero_add, Nat.min_eq_left hn]
  · rw [List.take_append_drop]
    exact hinput
  · intro d hd
    rw [hreceived d hd, portion_start, List.append_nil]

theorem inv_step {fileCount : Nat} {input : List alpha} {s next : State alpha}
    {e : Event} (hinv : Inv fileCount input s)
    (hstep : step fileCount s e = some next) : Inv fileCount input next := by
  rcases step_cases hstep with ⟨message, _, _, rfl⟩ | ⟨_, hpc, hempty, rfl⟩ |
    ⟨n, _, hpc, hpos, hn, rfl⟩ | ⟨dest, offset, count, n, _, hpc, _, hn, rfl⟩
  · intro d hd
    exact hinv.received_isPrefix hd
  · simp only [Inv, hpc] at hinv
    rcases hinv with ⟨past, hinput, hreceived⟩
    intro d hd
    rw [hreceived d hd, hinput, hempty, List.append_nil]
  · exact inv_read hpc hpos hn hinv
  · exact inv_write hpc hn hinv

/-!
## Termination
-/

theorem exists_step {fileCount : Nat} {input : List alpha} {s : State alpha}
    (hinv : Inv fileCount input s) (hrunning : s.pc.Running) :
    exists e next, ¬ e.Failed ∧ step fileCount s e = some next := by
  cases hpc : s.pc with
  | read =>
      cases hstdin : s.stdin with
      | nil =>
          refine ⟨.read (some 0), { s with pc := .exited }, nofun, ?_⟩
          simp [step, hpc, hstdin]
      | cons b rest =>
          have hsize : 0 + 1 ≤ bufSize ∧ 0 + 1 ≤ s.stdin.length := by
            rw [hstdin]
            exact ⟨by decide, Nat.succ_le_succ (Nat.zero_le _)⟩
          exact ⟨.read (some 1), _, nofun, by simp only [step, hpc]; exact if_pos hsize⟩
  | write dest offset count =>
      simp only [Inv, hpc] at hinv
      have hone : 0 < 1 ∧ 1 ≤ count := ⟨Nat.one_pos, hinv.right.left⟩
      exact ⟨.write (some 1), _, nofun, by simp only [step, hpc]; exact if_pos hone⟩
  | exited => rw [hpc] at hrunning; cases hrunning
  | failed message => rw [hpc] at hrunning; cases hrunning

/-!
## Whole runs
-/

theorem received_of_exited {fileCount : Nat} {input : List alpha} {s : State alpha}
    {es : List Event} (hrun : exec (step fileCount) (start input) es = some s)
    (hexited : s.pc = .exited) {d : Dest} (hd : d.rank ≤ fileCount) :
    s.received d = input := by
  have hinv : Inv fileCount input s :=
    exec_invariant inv_step (inv_start fileCount input) hrun
  simp only [Inv, hexited] at hinv
  exact hinv d hd

end TeeNaive
end TeeSplice
end VidsContent
