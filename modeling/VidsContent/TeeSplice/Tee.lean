import VidsContent.TeeSplice.TeeNaive

/-!
# The splice tee

`tee.c` duplicates what standard input holds into one private pipe per file
with `tee`, moves each private pipe to its file with `splice`, and only then
consumes standard input with a `splice` of its own.  The producer writes into
the standard-input pipe between any two calls.
-/

namespace VidsContent
namespace TeeSplice
namespace Tee

open Transition

def bufSize : Nat := 1 <<< 20

inductive Pc where
  | tee (i : Nat)
  | spliceFile (i : Nat)
  | spliceStdin
  | exited
  | failed (message : String)
deriving DecidableEq

/--
`produced` and `copied` are history: what the producer has written so far, and
the value of `copied_size` in each iteration of this round's first loop.
-/
structure State (alpha : Type) where
  produced : List alpha
  closed : Bool
  stdin : List alpha
  ps : Nat -> List alpha
  fds : Nat -> List alpha
  stdout : List alpha
  copied : List Nat
  pc : Pc

inductive Event (alpha : Type) where
  | produce (bytes : List alpha)
  | close
  | tee (copiedSize : Option Nat)
  | spliceFile (splicedSize : Option Nat)
  | spliceStdin (splicedSize : Option Nat)

def roundStart (fileCount : Nat) : Pc :=
  if 0 < fileCount then .tee 0 else .spliceStdin

def afterTee (fileCount i : Nat) : Pc :=
  if i + 1 < fileCount then .tee (i + 1) else .spliceFile 0

def afterSpliceFile (fileCount i : Nat) : Pc :=
  if i + 1 < fileCount then .spliceFile (i + 1) else .spliceStdin

def start (fileCount : Nat) : State alpha where
  produced := []
  closed := false
  stdin := []
  ps := fun _ => []
  fds := fun _ => []
  stdout := []
  copied := []
  pc := roundStart fileCount

/-- A transfer of `n` bytes that a pipe holding `held` can make. -/
def Transfers (held : List alpha) (n : Nat) : Prop :=
  0 < n ∧ n ≤ bufSize ∧ n ≤ held.length

instance (held : List alpha) (n : Nat) : Decidable (Transfers held n) :=
  inferInstanceAs (Decidable (_ ∧ _ ∧ _))

def step (fileCount : Nat) (s : State alpha) : Event alpha -> Option (State alpha)
  | .produce bytes =>
      if s.closed then
        none
      else
        some { s with produced := s.produced ++ bytes, stdin := s.stdin ++ bytes }
  | .close => if s.closed then none else some { s with closed := true }
  | .tee copiedSize =>
      match s.pc, copiedSize with
      | .tee _, none => some { s with pc := .failed "tee" }
      | .tee _, some 0 =>
          if s.stdin.isEmpty ∧ s.closed then some { s with pc := .exited } else none
      | .tee i, some n =>
          if Transfers s.stdin n then
            some
              { s with
                ps := Function.update s.ps i (s.ps i ++ s.stdin.take n)
                copied := s.copied ++ [n]
                pc := afterTee fileCount i }
          else
            none
      | _, _ => none
  | .spliceFile splicedSize =>
      match s.pc, splicedSize with
      | .spliceFile _, none => some { s with pc := .failed "splice 2" }
      | .spliceFile i, some n =>
          if Transfers (s.ps i) n then
            some
              { s with
                ps := Function.update s.ps i ((s.ps i).drop n)
                fds := Function.update s.fds i (s.fds i ++ (s.ps i).take n)
                pc := afterSpliceFile fileCount i }
          else
            none
      | _, _ => none
  | .spliceStdin splicedSize =>
      match s.pc, splicedSize with
      | .spliceStdin, none => some { s with pc := .failed "splice 1" }
      | .spliceStdin, some n =>
          if Transfers s.stdin n then
            some
              { s with
                stdin := s.stdin.drop n
                stdout := s.stdout ++ s.stdin.take n
                copied := []
                pc := roundStart fileCount }
          else
            none
      | _, _ => none

theorem step_cases {fileCount : Nat} {s next : State alpha} {e : Event alpha}
    (hstep : step fileCount s e = some next) :
    (exists bytes, s.closed = false ∧
      next = { s with produced := s.produced ++ bytes, stdin := s.stdin ++ bytes }) ∨
    (s.closed = false ∧ next = { s with closed := true }) ∨
    (exists message, next = { s with pc := .failed message }) ∨
    (exists i, e = .tee (some 0) ∧ s.pc = .tee i ∧ s.stdin = [] ∧ s.closed = true ∧
      next = { s with pc := .exited }) ∨
    (exists i n, s.pc = .tee i ∧ Transfers s.stdin n ∧
      next =
        { s with
          ps := Function.update s.ps i (s.ps i ++ s.stdin.take n)
          copied := s.copied ++ [n]
          pc := afterTee fileCount i }) ∨
    (exists i n, s.pc = .spliceFile i ∧ Transfers (s.ps i) n ∧
      next =
        { s with
          ps := Function.update s.ps i ((s.ps i).drop n)
          fds := Function.update s.fds i (s.fds i ++ (s.ps i).take n)
          pc := afterSpliceFile fileCount i }) ∨
    (exists n, e = .spliceStdin (some n) ∧ s.pc = .spliceStdin ∧
      Transfers s.stdin n ∧
      next =
        { s with
          stdin := s.stdin.drop n
          stdout := s.stdout ++ s.stdin.take n
          copied := []
          pc := roundStart fileCount }) := by
  cases e with
  | produce bytes =>
      simp only [step] at hstep
      split at hstep
      · cases hstep
      · rename_i hopen
        exact Or.inl ⟨bytes, by simpa using hopen, (Option.some.inj hstep).symm⟩
  | close =>
      simp only [step] at hstep
      split at hstep
      · cases hstep
      · rename_i hopen
        exact Or.inr (Or.inl ⟨by simpa using hopen, (Option.some.inj hstep).symm⟩)
  | tee copiedSize =>
      right; right
      cases hpc : s.pc with
      | tee i =>
          cases copiedSize with
          | none =>
              simp only [step, hpc] at hstep
              exact Or.inl ⟨_, (Option.some.inj hstep).symm⟩
          | some n =>
              cases n with
              | zero =>
                  simp only [step, hpc] at hstep
                  split at hstep
                  · rename_i hend
                    exact Or.inr (Or.inl ⟨i, rfl, rfl, List.isEmpty_iff.mp hend.left,
                      hend.right, (Option.some.inj hstep).symm⟩)
                  · cases hstep
              | succ n =>
                  simp only [step, hpc] at hstep
                  split at hstep
                  · rename_i hn
                    exact Or.inr (Or.inr (Or.inl ⟨i, n + 1, rfl, hn,
                      (Option.some.inj hstep).symm⟩))
                  · cases hstep
      | _ => simp [step, hpc] at hstep
  | spliceFile splicedSize =>
      right; right
      cases hpc : s.pc with
      | spliceFile i =>
          cases splicedSize with
          | none =>
              simp only [step, hpc] at hstep
              exact Or.inl ⟨_, (Option.some.inj hstep).symm⟩
          | some n =>
              simp only [step, hpc] at hstep
              split at hstep
              · rename_i hn
                exact Or.inr (Or.inr (Or.inr (Or.inl ⟨i, n, rfl, hn,
                  (Option.some.inj hstep).symm⟩)))
              · cases hstep
      | _ => simp [step, hpc] at hstep
  | spliceStdin splicedSize =>
      right; right
      cases hpc : s.pc with
      | spliceStdin =>
          cases splicedSize with
          | none =>
              simp only [step, hpc] at hstep
              exact Or.inl ⟨_, (Option.some.inj hstep).symm⟩
          | some n =>
              simp only [step, hpc] at hstep
              split at hstep
              · rename_i hn
                exact Or.inr (Or.inr (Or.inr (Or.inr ⟨n, rfl, rfl, hn,
                  (Option.some.inj hstep).symm⟩)))
              · cases hstep
      | _ => simp [step, hpc] at hstep

/-!
## Standard input and output
-/

/--
What was written to standard output and what is still in standard input are
together what the producer has written; the program exits with nothing left.
-/
structure PassesStdin (s : State alpha) : Prop where
  stream : s.produced = s.stdout ++ s.stdin
  exited : s.pc = .exited -> s.closed = true ∧ s.stdin = []

theorem roundStart_ne_exited (fileCount : Nat) : roundStart fileCount ≠ .exited := by
  unfold roundStart
  split <;> simp

theorem afterTee_ne_exited (fileCount i : Nat) : afterTee fileCount i ≠ .exited := by
  unfold afterTee
  split <;> simp

theorem afterSpliceFile_ne_exited (fileCount i : Nat) :
    afterSpliceFile fileCount i ≠ .exited := by
  unfold afterSpliceFile
  split <;> simp

theorem passesStdin_start (fileCount : Nat) :
    PassesStdin (start fileCount : State alpha) where
  stream := rfl
  exited := fun hexited => absurd hexited (roundStart_ne_exited fileCount)

theorem PassesStdin.of_running {s next : State alpha} (h : PassesStdin s)
    (hproduced : next.produced = s.produced) (hstdin : next.stdin = s.stdin)
    (hstdout : next.stdout = s.stdout) (hpc : next.pc ≠ .exited) :
    PassesStdin next where
  stream := by
    rw [hproduced, hstdin, hstdout]
    exact h.stream
  exited := fun hexited => absurd hexited hpc

theorem passesStdin_step {fileCount : Nat} {s next : State alpha} {e : Event alpha}
    (h : PassesStdin s) (hstep : step fileCount s e = some next) :
    PassesStdin next := by
  rcases step_cases hstep with ⟨bytes, hopen, rfl⟩ | ⟨hopen, rfl⟩ | ⟨message, rfl⟩ |
    ⟨i, _, hpc, hempty, hclosed, rfl⟩ | ⟨i, n, hpc, _, rfl⟩ |
    ⟨i, n, hpc, _, rfl⟩ | ⟨n, _, hpc, _, rfl⟩
  · constructor
    · simp only
      rw [h.stream, List.append_assoc]
    · intro hexited
      rw [(h.exited hexited).left] at hopen
      cases hopen
  · exact ⟨h.stream, fun hexited => ⟨rfl, (h.exited hexited).right⟩⟩
  · exact h.of_running rfl rfl rfl (by simp)
  · exact ⟨h.stream, fun _ => ⟨hclosed, hempty⟩⟩
  · exact h.of_running rfl rfl rfl (afterTee_ne_exited fileCount i)
  · exact h.of_running rfl rfl rfl (afterSpliceFile_ne_exited fileCount i)
  · constructor
    · simp only
      rw [List.append_assoc, List.take_append_drop]
      exact h.stream
    · exact fun hexited => absurd hexited (roundStart_ne_exited fileCount)

/--
In every state of every run, whatever the counts, standard output is followed by
the bytes still in the pipe, and the normal exit leaves the whole closed stream
in standard output.
-/
theorem tee_passes_stdin (fileCount : Nat) (es : List (Event alpha)) :
    AllStates (step fileCount)
      (fun s =>
        s.stdout ++ s.stdin = s.produced ∧
          (s.pc = .exited -> s.closed = true ∧ s.stdout = s.produced))
      (start fileCount) es := by
  have hall : AllStates (step fileCount) PassesStdin (start fileCount) es :=
    allStates_of_invariant passesStdin_step (passesStdin_start fileCount)
  apply hall.mono
  intro s hs
  constructor
  · exact hs.stream.symm
  · intro hexited
    rcases hs.exited hexited with ⟨hclosed, hempty⟩
    constructor
    · exact hclosed
    · rw [hs.stream, hempty, List.append_nil]

theorem tee_passes_stdin_abc :
    exists s,
      exec (step 2) (start 2)
        [.produce [1, 2, 3], .tee (some 2), .tee (some 3), .spliceFile (some 1),
          .spliceFile (some 3), .spliceStdin (some 2), .close, .tee (some 1), .tee (some 1),
          .spliceFile (some 2), .spliceFile (some 1), .spliceStdin (some 1),
          .tee (some 0)] = some s ∧
      s.pc = .exited ∧ s.stdout = [1, 2, 3] := by
  have hrun : exists s,
      exec (step 2) (start 2)
        [.produce [1, 2, 3], .tee (some 2), .tee (some 3), .spliceFile (some 1),
          .spliceFile (some 3), .spliceStdin (some 2), .close, .tee (some 1), .tee (some 1),
          .spliceFile (some 2), .spliceFile (some 1), .spliceStdin (some 1),
          .tee (some 0)] = some s ∧
      s.pc = .exited ∧ s.produced = [1, 2, 3] :=
    ⟨_, rfl, rfl, rfl⟩
  rcases hrun with ⟨s, hrun, hexited, hproduced⟩
  have hpasses := (tee_passes_stdin 2 _).last hrun
  refine ⟨s, hrun, hexited, ?_⟩
  rw [← hproduced]
  exact (hpasses.right hexited).right

/-!
## The stream through the program
-/

/--
The condition on a step: the splice that consumes standard input moves the count
that every tee of the round copied, and the program ends with empty private pipes.
-/
def CountsAgree (fileCount : Nat) (s : State alpha) : Event alpha -> Prop
  | .spliceStdin (some m) => forall n, n ∈ s.copied -> n = m
  | .tee (some 0) => forall i, i < fileCount -> s.ps i = []
  | _ => True

instance (fileCount : Nat) (s : State alpha) :
    forall e, Decidable (CountsAgree fileCount s e)
  | .produce _ => isTrue trivial
  | .close => isTrue trivial
  | .tee none => isTrue trivial
  | .tee (some 0) =>
      inferInstanceAs (Decidable (forall i, i < fileCount -> s.ps i = []))
  | .tee (some (_ + 1)) => isTrue trivial
  | .spliceFile _ => isTrue trivial
  | .spliceStdin none => isTrue trivial
  | .spliceStdin (some m) =>
      inferInstanceAs (Decidable (forall n, n ∈ s.copied -> n = m))

def Place (fileCount : Nat) (s : State alpha) : Prop :=
  match s.pc with
  | .tee i => s.copied.length = i ∧ i < fileCount
  | .spliceFile i => s.copied.length = fileCount ∧ i < fileCount
  | .spliceStdin => s.copied.length = fileCount
  | .exited =>
      s.closed = true ∧ s.stdin = [] ∧ forall i, i < fileCount -> s.ps i = []
  | .failed _ => True

/--
A file and its private pipe hold what was consumed, and what the tee of this
round copied of the bytes that are still in standard input.
-/
structure Inv (fileCount : Nat) (s : State alpha) : Prop where
  stream : s.produced = s.stdout ++ s.stdin
  files : forall i, i < fileCount ->
    s.fds i ++ s.ps i = s.stdout ++ s.stdin.take (s.copied.getD i 0)
  counts : forall n, n ∈ s.copied -> n ≤ s.stdin.length
  place : Place fileCount s

theorem getD_append_singleton (xs : List Nat) (n i : Nat) :
    (xs ++ [n]).getD i 0 = if i = xs.length then n else xs.getD i 0 := by
  rw [List.getD_eq_getElem?_getD, List.getD_eq_getElem?_getD, List.getElem?_append]
  split
  · rw [if_neg (by lia)]
  · split
    · rename_i heq
      simp [heq]
    · rw [List.getElem?_eq_none (by simp; lia), List.getElem?_eq_none (by lia)]

theorem getD_le {xs : List Nat} {bound : Nat} (h : forall n, n ∈ xs -> n ≤ bound)
    (i : Nat) : xs.getD i 0 ≤ bound := by
  rw [List.getD_eq_getElem?_getD]
  cases hget : xs[i]? with
  | none => exact Nat.zero_le bound
  | some n => exact h n (List.mem_of_getElem? hget)

theorem place_roundStart {fileCount : Nat} {s : State alpha}
    (hcopied : s.copied = []) (hpc : s.pc = roundStart fileCount) :
    Place fileCount s := by
  unfold Place
  rw [hpc, hcopied]
  cases fileCount with
  | zero => exact rfl
  | succ n => exact ⟨rfl, Nat.succ_pos n⟩

theorem place_afterTee {fileCount i : Nat} {s : State alpha}
    (hround : s.copied.length = i + 1) (hi : i < fileCount)
    (hpc : s.pc = afterTee fileCount i) : Place fileCount s := by
  unfold Place
  rw [hpc]
  unfold afterTee
  by_cases hmore : i + 1 < fileCount
  · rw [if_pos hmore]
    exact ⟨hround, hmore⟩
  · rw [if_neg hmore]
    exact ⟨by lia, Nat.zero_lt_of_lt hi⟩

theorem place_afterSpliceFile {fileCount i : Nat} {s : State alpha}
    (hround : s.copied.length = fileCount) (hpc : s.pc = afterSpliceFile fileCount i) :
    Place fileCount s := by
  unfold Place
  rw [hpc]
  unfold afterSpliceFile
  by_cases hmore : i + 1 < fileCount
  · rw [if_pos hmore]
    exact ⟨hround, hmore⟩
  · rw [if_neg hmore]
    exact hround

theorem inv_start (fileCount : Nat) : Inv fileCount (start fileCount : State alpha) where
  stream := rfl
  files := fun _ _ => rfl
  counts := by simp [start]
  place := place_roundStart rfl rfl

theorem inv_produce {fileCount : Nat} {s : State alpha} (hinv : Inv fileCount s)
    (bytes : List alpha) (hopen : s.closed = false) :
    Inv fileCount
      { s with produced := s.produced ++ bytes, stdin := s.stdin ++ bytes } where
  stream := by
    simp only
    rw [hinv.stream, List.append_assoc]
  files := by
    intro i hi
    simp only
    rw [List.take_append_of_le_length (getD_le hinv.counts i)]
    exact hinv.files i hi
  counts := by
    intro n hn
    rw [List.length_append]
    exact Nat.le_trans (hinv.counts n hn) (Nat.le_add_right _ _)
  place := by
    have hplace := hinv.place
    unfold Place at hplace ⊢
    split at hplace
    all_goals simp_all

theorem inv_tee {fileCount i n : Nat} {s : State alpha} (hinv : Inv fileCount s)
    (hpc : s.pc = .tee i) (hn : Transfers s.stdin n) :
    Inv fileCount
      { s with
        ps := Function.update s.ps i (s.ps i ++ s.stdin.take n)
        copied := s.copied ++ [n]
        pc := afterTee fileCount i } := by
  have hplace := hinv.place
  simp only [Place, hpc] at hplace
  rcases hplace with ⟨hround, hi⟩
  constructor
  · exact hinv.stream
  · intro j hj
    have hfiles := hinv.files j hj
    simp only
    rw [getD_append_singleton, hround]
    by_cases hji : j = i
    · -- this file's tee is the new one, and it had copied nothing before
      subst hji
      have hnone : s.copied.getD j 0 = 0 := by
        rw [List.getD_eq_getElem?_getD, List.getElem?_eq_none (by lia)]
        rfl
      rw [hnone, List.take_zero, List.append_nil] at hfiles
      rw [Function.update_self, if_pos rfl, ← List.append_assoc, hfiles]
    · rw [Function.update_of_ne hji, if_neg hji]
      exact hfiles
  · intro m hm
    rcases List.mem_append.mp hm with hold | hnew
    · exact hinv.counts m hold
    · rw [List.mem_singleton] at hnew
      rw [hnew]
      exact hn.right.right
  · exact place_afterTee (by simp [hround]) hi rfl

theorem inv_spliceFile {fileCount i n : Nat} {s : State alpha}
    (hinv : Inv fileCount s) (hpc : s.pc = .spliceFile i) :
    Inv fileCount
      { s with
        ps := Function.update s.ps i ((s.ps i).drop n)
        fds := Function.update s.fds i (s.fds i ++ (s.ps i).take n)
        pc := afterSpliceFile fileCount i } := by
  have hplace := hinv.place
  simp only [Place, hpc] at hplace
  constructor
  · exact hinv.stream
  · intro j hj
    have hfiles := hinv.files j hj
    simp only
    by_cases hji : j = i
    · subst hji
      rw [Function.update_self, Function.update_self, List.append_assoc,
        List.take_append_drop]
      exact hfiles
    · rw [Function.update_of_ne hji, Function.update_of_ne hji]
      exact hfiles
  · exact hinv.counts
  · exact place_afterSpliceFile hplace.left rfl

theorem inv_spliceStdin {fileCount n : Nat} {s : State alpha}
    (hinv : Inv fileCount s) (hpc : s.pc = .spliceStdin)
    (hagree : forall m, m ∈ s.copied -> m = n) :
    Inv fileCount
      { s with
        stdin := s.stdin.drop n
        stdout := s.stdout ++ s.stdin.take n
        copied := []
        pc := roundStart fileCount } := by
  have hplace := hinv.place
  simp only [Place, hpc] at hplace
  constructor
  · simp only
    rw [List.append_assoc, List.take_append_drop]
    exact hinv.stream
  · intro i hi
    have hcopied : s.copied.getD i 0 = n := by
      have hlt : i < s.copied.length := by lia
      rw [List.getD_eq_getElem?_getD, List.getElem?_eq_getElem hlt]
      exact hagree _ (List.getElem_mem hlt)
    simp only [List.getD_nil, List.take_zero, List.append_nil]
    rw [hinv.files i hi, hcopied]
  · simp
  · exact place_roundStart rfl rfl

theorem inv_step {fileCount : Nat} {s next : State alpha} {e : Event alpha}
    (hinv : Inv fileCount s) (hagree : CountsAgree fileCount s e)
    (hstep : step fileCount s e = some next) : Inv fileCount next := by
  rcases step_cases hstep with ⟨bytes, hopen, rfl⟩ | ⟨hopen, rfl⟩ | ⟨message, rfl⟩ |
    ⟨i, rfl, hpc, hempty, hclosed, rfl⟩ | ⟨i, n, hpc, hn, rfl⟩ |
    ⟨i, n, hpc, _, rfl⟩ | ⟨n, rfl, hpc, _, rfl⟩
  · exact inv_produce hinv bytes hopen
  · refine ⟨hinv.stream, hinv.files, hinv.counts, ?_⟩
    have hplace := hinv.place
    unfold Place at hplace ⊢
    split at hplace
    all_goals simp_all
  · exact ⟨hinv.stream, hinv.files, hinv.counts, trivial⟩
  · exact ⟨hinv.stream, hinv.files, hinv.counts, hclosed, hempty, hagree⟩
  · exact inv_tee hinv hpc hn
  · exact inv_spliceFile hinv hpc
  · exact inv_spliceStdin hinv hpc hagree

/--
A run that keeps the counts of each round in agreement and exits normally leaves
in every file the whole stream that was written to standard input, which is
what the read/write tee leaves there.
-/
theorem tee_copies_of_countsAgree (fileCount : Nat) (s : State alpha)
    (es : List (Event alpha))
    (hrun : exec (step fileCount) (start fileCount) es = some s)
    (hagree : AllSteps (step fileCount) (CountsAgree fileCount) (start fileCount) es)
    (hexited : s.pc = .exited) :
    (forall i, i < fileCount -> s.fds i = s.produced) ∧
      forall (naive : TeeNaive.State alpha) calls,
        exec (TeeNaive.step fileCount) (TeeNaive.start s.produced) calls =
          some naive ->
        naive.pc = .exited ->
        forall i, i < fileCount -> naive.received (.file i) = s.fds i := by
  have hinv : Inv fileCount s :=
    exec_guarded_invariant inv_step (inv_start fileCount) hagree hrun
  have hplace := hinv.place
  simp only [Place, hexited] at hplace
  rcases hplace with ⟨_, hempty, hdrained⟩
  have hwhole : forall i, i < fileCount -> s.fds i = s.produced := by
    intro i hi
    have hfiles := hinv.files i hi
    rw [hdrained i hi, hempty, List.take_nil, List.append_nil, List.append_nil] at hfiles
    rw [hfiles, hinv.stream, hempty, List.append_nil]
  constructor
  · exact hwhole
  · intro naive calls hcalls hnaive i hi
    rw [hwhole i hi]
    exact TeeNaive.received_of_exited hcalls hnaive hi

theorem tee_copies_of_countsAgree_abc :
    exists s : State Nat,
      exec (step 1) (start 1)
        [.produce [1, 2], .tee (some 1), .produce [3], .spliceFile (some 1),
          .spliceStdin (some 1), .close, .tee (some 2), .spliceFile (some 2),
          .spliceStdin (some 2), .tee (some 0)] = some s ∧
      s.fds 0 = [1, 2, 3] := by
  have hrun : exists s : State Nat,
      exec (step 1) (start 1)
        [.produce [1, 2], .tee (some 1), .produce [3], .spliceFile (some 1),
          .spliceStdin (some 1), .close, .tee (some 2), .spliceFile (some 2),
          .spliceStdin (some 2), .tee (some 0)] = some s ∧
      s.pc = .exited ∧ s.produced = [1, 2, 3] :=
    ⟨_, rfl, rfl, rfl⟩
  rcases hrun with ⟨s, hrun, hexited, hproduced⟩
  refine ⟨s, hrun, ?_⟩
  rw [← hproduced]
  exact (tee_copies_of_countsAgree 1 s _ hrun (by decide) hexited).left 0 (by decide)

/--
The producer writes a second byte after the tee: the consuming splice takes both
bytes, and the file never gets the second.
-/
theorem tee_loses_late_byte :
    exists s : State Nat,
      exec (step 1) (start 1)
        [.produce [1], .tee (some 1), .produce [2], .spliceFile (some 1),
          .spliceStdin (some 2), .close, .tee (some 0)] = some s ∧
      s.pc = .exited ∧ s.produced = [1, 2] ∧ s.fds 0 = [1] :=
  ⟨_, rfl, rfl, rfl, rfl⟩

end Tee
end TeeSplice
end VidsContent
