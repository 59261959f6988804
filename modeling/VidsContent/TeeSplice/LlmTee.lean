import VidsContent.Lib.Transition

/-!
# The two-level tee loop

`llm_tee_example.c` copies what standard input holds into standard output with
`tee`, which consumes nothing, and then moves the same number of bytes from
standard input into `copy.log` with as many calls of `splice` as it takes.  The
producer writes into the standard-input pipe between any two calls.
-/

namespace VidsContent
namespace TeeSplice
namespace LlmTee

open Transition

def teeSize : Nat := 65536

/-- The head of the outer loop, or the inner loop with `n` bytes still to consume. -/
inductive Pc where
  | tee
  | splice (n : Nat)
  | exited
deriving DecidableEq

/-- `produced` is history: what the producer has written so far. -/
structure State (alpha : Type) where
  produced : List alpha
  closed : Bool
  stdin : List alpha
  stdout : List alpha
  copyLog : List alpha
  pc : Pc

/--
A write or the close of the producer, or the result of a call of the program,
where `none` stands for the result `-1`.
-/
inductive Event (alpha : Type) where
  | produce (bytes : List alpha)
  | close
  | tee (n : Option Nat)
  | splice (m : Option Nat)

def start : State alpha where
  produced := []
  closed := false
  stdin := []
  stdout := []
  copyLog := []
  pc := .tee

def whileLeft (n : Nat) : Pc :=
  if 0 < n then .splice n else .tee

def step (s : State alpha) : Event alpha -> Option (State alpha)
  | .produce bytes =>
      if s.closed then
        none
      else
        some { s with produced := s.produced ++ bytes, stdin := s.stdin ++ bytes }
  | .close => if s.closed then none else some { s with closed := true }
  | .tee n =>
      match s.pc, n with
      | .tee, none => some { s with pc := .exited }
      | .tee, some 0 =>
          if s.stdin.isEmpty ∧ s.closed then some { s with pc := .exited } else none
      | .tee, some n =>
          if n ≤ teeSize ∧ n ≤ s.stdin.length then
            some { s with stdout := s.stdout ++ s.stdin.take n, pc := whileLeft n }
          else
            none
      | _, _ => none
  | .splice m =>
      match s.pc, m with
      -- a result that is not positive leaves the inner loop with `n` as it stands
      | .splice _, none => some { s with pc := .tee }
      | .splice _, some 0 => some { s with pc := .tee }
      | .splice n, some m =>
          if m ≤ n ∧ m ≤ s.stdin.length then
            some
              { s with
                stdin := s.stdin.drop m
                copyLog := s.copyLog ++ s.stdin.take m
                pc := whileLeft (n - m) }
          else
            none
      | _, _ => none

theorem whileLeft_zero : whileLeft 0 = .tee := rfl

theorem whileLeft_of_pos {n : Nat} (hpos : 0 < n) : whileLeft n = .splice n := by
  unfold whileLeft
  rw [if_pos hpos]

theorem step_cases {s next : State alpha} {e : Event alpha}
    (hstep : step s e = some next) :
    (exists bytes, e = .produce bytes ∧ s.closed = false ∧
      next = { s with produced := s.produced ++ bytes, stdin := s.stdin ++ bytes }) ∨
    (e = .close ∧ s.closed = false ∧ next = { s with closed := true }) ∨
    (e = .tee none ∧ s.pc = .tee ∧ next = { s with pc := .exited }) ∨
    (e = .tee (some 0) ∧ s.pc = .tee ∧ s.stdin = [] ∧ s.closed = true ∧
      next = { s with pc := .exited }) ∨
    (exists n, e = .tee (some n) ∧ s.pc = .tee ∧ 0 < n ∧ n ≤ s.stdin.length ∧
      next = { s with stdout := s.stdout ++ s.stdin.take n, pc := .splice n }) ∨
    (exists n m, e = .splice m ∧ (m = none ∨ m = some 0) ∧ s.pc = .splice n ∧
      next = { s with pc := .tee }) ∨
    (exists n m, e = .splice (some m) ∧ s.pc = .splice n ∧ 0 < m ∧ m ≤ n ∧
      m ≤ s.stdin.length ∧
      next =
        { s with
          stdin := s.stdin.drop m
          copyLog := s.copyLog ++ s.stdin.take m
          pc := whileLeft (n - m) }) := by
  cases e with
  | produce bytes =>
      simp only [step] at hstep
      split at hstep
      · cases hstep
      · rename_i hopen
        exact Or.inl ⟨bytes, rfl, by simpa using hopen, (Option.some.inj hstep).symm⟩
  | close =>
      simp only [step] at hstep
      split at hstep
      · cases hstep
      · rename_i hopen
        exact Or.inr (Or.inl ⟨rfl, by simpa using hopen, (Option.some.inj hstep).symm⟩)
  | tee n =>
      right; right
      cases hpc : s.pc with
      | tee =>
          cases n with
          | none =>
              simp only [step, hpc] at hstep
              exact Or.inl ⟨rfl, rfl, (Option.some.inj hstep).symm⟩
          | some n =>
              cases n with
              | zero =>
                  simp only [step, hpc] at hstep
                  split at hstep
                  · rename_i hend
                    exact Or.inr (Or.inl ⟨rfl, rfl, List.isEmpty_iff.mp hend.left,
                      hend.right, (Option.some.inj hstep).symm⟩)
                  · cases hstep
              | succ n =>
                  simp only [step, hpc] at hstep
                  split at hstep
                  · rename_i hn
                    rw [whileLeft_of_pos n.succ_pos] at hstep
                    exact Or.inr (Or.inr (Or.inl ⟨n + 1, rfl, rfl, n.succ_pos, hn.right,
                      (Option.some.inj hstep).symm⟩))
                  · cases hstep
      | _ => simp [step, hpc] at hstep
  | splice m =>
      right; right
      cases hpc : s.pc with
      | splice n =>
          cases m with
          | none =>
              simp only [step, hpc] at hstep
              exact Or.inr (Or.inr (Or.inr (Or.inl ⟨n, none, rfl, Or.inl rfl, rfl,
                (Option.some.inj hstep).symm⟩)))
          | some m =>
              cases m with
              | zero =>
                  simp only [step, hpc] at hstep
                  exact Or.inr (Or.inr (Or.inr (Or.inl ⟨n, some 0, rfl, Or.inr rfl, rfl,
                    (Option.some.inj hstep).symm⟩)))
              | succ m =>
                  simp only [step, hpc] at hstep
                  split at hstep
                  · rename_i hm
                    exact Or.inr (Or.inr (Or.inr (Or.inr ⟨n, m + 1, rfl, rfl, m.succ_pos,
                      hm.left, hm.right, (Option.some.inj hstep).symm⟩)))
                  · cases hstep
      | _ => simp [step, hpc] at hstep

/-!
## The copies in step
-/

def State.consumed (s : State alpha) : List alpha :=
  s.produced.take (s.produced.length - s.stdin.length)

/-- Neither `tee` fails, nor `splice`, which has bytes to move. -/
def Succeeds : Event alpha -> Prop
  | .tee none => False
  | .splice none => False
  | .splice (some 0) => False
  | _ => True

instance : forall e : Event alpha, Decidable (Succeeds e)
  | .produce _ => isTrue trivial
  | .close => isTrue trivial
  | .tee none => isFalse id
  | .tee (some _) => isTrue trivial
  | .splice none => isFalse id
  | .splice (some 0) => isFalse id
  | .splice (some (_ + 1)) => isTrue trivial

theorem succeeds_tee (n : Nat) : Succeeds (.tee (some n) : Event alpha) := trivial

def Place (s : State alpha) : Prop :=
  match s.pc with
  | .tee => s.stdout = s.copyLog
  | .splice n =>
      0 < n ∧ n ≤ s.stdin.length ∧ s.stdout = s.copyLog ++ s.stdin.take n
  | .exited => s.stdout = s.copyLog ∧ s.closed = true ∧ s.stdin = []

structure Inv (s : State alpha) : Prop where
  stream : s.produced = s.copyLog ++ s.stdin
  place : Place s

theorem inv_start : Inv (start : State alpha) where
  stream := rfl
  place := rfl

theorem Inv.consumed_eq {s : State alpha} (h : Inv s) : s.consumed = s.copyLog := by
  unfold State.consumed
  rw [h.stream, List.length_append, Nat.add_sub_cancel, List.take_left]

theorem stream_produce {s : State alpha} (h : s.produced = s.copyLog ++ s.stdin)
    (bytes : List alpha) : s.produced ++ bytes = s.copyLog ++ (s.stdin ++ bytes) := by
  rw [h, List.append_assoc]

theorem stream_splice {s : State alpha} (h : s.produced = s.copyLog ++ s.stdin) (m : Nat) :
    s.produced = (s.copyLog ++ s.stdin.take m) ++ s.stdin.drop m := by
  rw [List.append_assoc, List.take_append_drop]
  exact h

theorem inv_produce {s : State alpha} (h : Inv s) (bytes : List alpha)
    (hopen : s.closed = false) :
    Inv { s with produced := s.produced ++ bytes, stdin := s.stdin ++ bytes } where
  stream := stream_produce h.stream bytes
  place := by
    have hplace := h.place
    unfold Place at hplace ⊢
    cases hpc : s.pc with
    | tee =>
        simpa [hpc] using hplace
    | splice n =>
        simp only [hpc] at hplace ⊢
        rcases hplace with ⟨hpos, hle, hstdout⟩
        rw [List.take_append_of_le_length hle]
        exact ⟨hpos, by rw [List.length_append]; lia, hstdout⟩
    | exited =>
        simp [hpc, hopen] at hplace

theorem inv_close {s : State alpha} (h : Inv s) : Inv { s with closed := true } where
  stream := h.stream
  place := by
    have hplace := h.place
    unfold Place at hplace ⊢
    cases hpc : s.pc with
    | tee => simpa [hpc] using hplace
    | splice n => simpa [hpc] using hplace
    | exited =>
        simp only [hpc] at hplace ⊢
        exact ⟨hplace.left, trivial, hplace.right.right⟩

theorem inv_splice {s : State alpha} (h : Inv s) {n m : Nat} (hpc : s.pc = .splice n)
    (hm : m ≤ n) :
    Inv
      { s with
        stdin := s.stdin.drop m
        copyLog := s.copyLog ++ s.stdin.take m
        pc := whileLeft (n - m) } where
  stream := stream_splice h.stream m
  place := by
    have hplace := h.place
    simp only [Place, hpc] at hplace
    rcases hplace with ⟨_, hle, hstdout⟩
    have hsplit : s.stdin.take n = s.stdin.take m ++ (s.stdin.drop m).take (n - m) := by
      rw [← List.take_add, Nat.add_sub_cancel' hm]
    rw [hsplit, ← List.append_assoc] at hstdout
    rcases Nat.eq_zero_or_pos (n - m) with hzero | hleft
    · rw [hzero, List.take_zero, List.append_nil] at hstdout
      rw [hzero, whileLeft_zero]
      exact hstdout
    · rw [whileLeft_of_pos hleft]
      exact ⟨hleft, by rw [List.length_drop]; lia, hstdout⟩

theorem inv_step {s next : State alpha} {e : Event alpha} (h : Inv s)
    (hcall : Succeeds e) (hstep : step s e = some next) : Inv next := by
  rcases step_cases hstep with ⟨bytes, _, hopen, rfl⟩ | ⟨_, hopen, rfl⟩ | ⟨rfl, _, _⟩ |
    ⟨_, hpc, hempty, hclosed, rfl⟩ | ⟨n, _, hpc, hpos, hle, rfl⟩ |
    ⟨n, m, rfl, hm, _, _⟩ | ⟨n, m, _, hpc, _, hm, _, rfl⟩
  · exact inv_produce h bytes hopen
  · exact inv_close h
  · exact hcall.elim
  · have hplace := h.place
    simp only [Place, hpc] at hplace
    exact ⟨h.stream, hplace, hclosed, hempty⟩
  · have hplace := h.place
    simp only [Place, hpc] at hplace
    constructor
    · exact h.stream
    · exact ⟨hpos, hle, by simp only; rw [hplace]⟩
  · rcases hm with rfl | rfl
    · exact hcall.elim
    · exact hcall.elim
  · exact inv_splice h hpc hm

/-!
## One run of the inner loop
-/

def IsTee : Event alpha -> Prop
  | .tee _ => True
  | _ => False

instance : forall e : Event alpha, Decidable (IsTee e)
  | .produce _ => isFalse id
  | .close => isFalse id
  | .tee _ => isTrue trivial
  | .splice _ => isFalse id

def IsSplice : Event alpha -> Bool
  | .splice _ => true
  | _ => false

def Pc.left : Pc -> Nat
  | .splice n => n
  | _ => 0

@[simp] theorem left_splice (n : Nat) : (Pc.splice n).left = n := rfl

@[simp] theorem whileLeft_left (n : Nat) : (whileLeft n).left = n := by
  rcases Nat.eq_zero_or_pos n with rfl | hpos
  · rfl
  · rw [whileLeft_of_pos hpos, left_splice]

theorem stdout_of_not_tee {s next : State alpha} {e : Event alpha}
    (hother : ¬ IsTee e) (hstep : step s e = some next) : next.stdout = s.stdout := by
  rcases step_cases hstep with ⟨_, _, _, rfl⟩ | ⟨_, _, rfl⟩ | ⟨rfl, _, _⟩ |
    ⟨rfl, _⟩ | ⟨n, rfl, _⟩ | ⟨_, _, _, _, _, rfl⟩ | ⟨_, _, _, _, _, _, _, rfl⟩
  · rfl
  · rfl
  · exact (hother trivial).elim
  · exact (hother trivial).elim
  · exact (hother trivial).elim
  · rfl
  · rfl

theorem left_of_not_tee {s next : State alpha} {e : Event alpha}
    (hother : ¬ IsTee e) (hcall : Succeeds e) (hstep : step s e = some next) :
    [e].countP IsSplice + next.pc.left ≤ s.pc.left := by
  rcases step_cases hstep with ⟨_, rfl, _, rfl⟩ | ⟨rfl, _, rfl⟩ | ⟨rfl, _, _⟩ |
    ⟨rfl, _⟩ | ⟨n, rfl, _⟩ | ⟨n, m, rfl, hm, _, _⟩ |
    ⟨n, m, rfl, hpc, hpos, hm, _, rfl⟩
  · simp [IsSplice]
  · simp [IsSplice]
  · exact (hother trivial).elim
  · exact (hother trivial).elim
  · exact (hother trivial).elim
  · rcases hm with rfl | rfl
    · exact hcall.elim
    · exact hcall.elim
  · simp only [whileLeft_left, hpc, left_splice, List.countP_singleton, IsSplice]
    lia

theorem inner_run {s t : State alpha} {es : List (Event alpha)}
    (hother : forall e, e ∈ es -> ¬ IsTee e) (hcalls : forall e, e ∈ es -> Succeeds e)
    (hrun : exec step s es = some t) :
    t.stdout = s.stdout ∧ es.countP IsSplice + t.pc.left ≤ s.pc.left := by
  induction es generalizing s with
  | nil =>
      cases hrun
      simp
  | cons e es ih =>
      rcases exec_cons hrun with ⟨next, hstep, hrest⟩
      have hnotTee := hother e List.mem_cons_self
      rcases ih (fun e' he' => hother e' (List.mem_cons_of_mem e he'))
        (fun e' he' => hcalls e' (List.mem_cons_of_mem e he')) hrest with
        ⟨hstdout, hcount⟩
      have hleft := left_of_not_tee hnotTee (hcalls e List.mem_cons_self) hstep
      constructor
      · rw [hstdout, stdout_of_not_tee hnotTee hstep]
      · rw [← List.singleton_append, List.countP_append]
        lia

theorem inv_exec {s t : State alpha} {es : List (Event alpha)} (h : Inv s)
    (hcalls : forall e, e ∈ es -> Succeeds e) (hrun : exec step s es = some t) :
    Inv t := by
  have hsteps : AllSteps step (fun _ e => Succeeds e) s es := allSteps_of_forall hcalls
  exact exec_guarded_invariant inv_step h hsteps hrun

theorem Inv.stdout_of_head {s : State alpha} (h : Inv s) (hpc : s.pc = .tee) :
    s.stdout = s.copyLog := by
  have hplace := h.place
  simpa only [Place, hpc] using hplace

theorem tee_result {s next : State alpha} {n : Nat}
    (hstep : step s (.tee (some n)) = some next) :
    s.pc = .tee ∧ next.stdout = s.stdout ++ s.stdin.take n ∧ next.pc.left ≤ n := by
  rcases step_cases hstep with ⟨_, he, _⟩ | ⟨he, _⟩ | ⟨he, _⟩ |
    ⟨he, hpc, _, _, rfl⟩ | ⟨n', he, hpc, _, _, rfl⟩ | ⟨_, _, he, _⟩ | ⟨_, _, he, _⟩
  all_goals cases he
  · exact ⟨hpc, by simp, Nat.le_refl 0⟩
  · exact ⟨hpc, rfl, Nat.le_refl n⟩

/-- From one head of the outer loop to the next. -/
theorem round_consumes {s t : State alpha} {n : Nat} {es : List (Event alpha)}
    (h : Inv s) (hes : forall e, e ∈ es -> Succeeds e ∧ ¬ IsTee e)
    (hrun : exec step s (.tee (some n) :: es) = some t) (htee : t.pc = .tee) :
    es.countP IsSplice ≤ n ∧ t.copyLog = s.copyLog ++ s.stdin.take n := by
  rcases exec_cons hrun with ⟨mid, hstep, hinner⟩
  rcases tee_result hstep with ⟨hpc, hmidStdout, hleft⟩
  have hmid : Inv mid := inv_step h (succeeds_tee n) hstep
  have hlast : Inv t := inv_exec hmid (fun e he => (hes e he).left) hinner
  rcases inner_run (fun e he => (hes e he).right) (fun e he => (hes e he).left) hinner with
    ⟨hstdout, hcount⟩
  constructor
  · lia
  · rw [← hlast.stdout_of_head htee, hstdout, hmidStdout, h.stdout_of_head hpc]

theorem splice_possible {s : State alpha} (h : Inv s) {n m : Nat}
    (hpc : s.pc = .splice n) (hpos : 0 < m) (hm : m ≤ n) :
    (step s (.splice (some m))).isSome := by
  have hplace := h.place
  simp only [Place, hpc] at hplace
  cases m with
  | zero => exact absurd hpos (Nat.lt_irrefl 0)
  | succ m =>
      simp only [step, hpc]
      rw [if_pos ⟨hm, by lia⟩]
      rfl

/--
At every head of the outer loop both copies are the consumed prefix of the
stream, and at the exit the whole stream.  In the inner loop the bytes it still
has to move are in the pipe, so that every count from one to `n` is possible;
each run of it between two heads takes at most as many splices as the tee
copied bytes, and consumes exactly those bytes.
-/
theorem copies_in_step (s : State alpha) (es : List (Event alpha))
    (hcalls : forall e, e ∈ es -> Succeeds e) (hrun : exec step start es = some s) :
    (s.pc = .tee -> s.stdout = s.consumed ∧ s.copyLog = s.consumed) ∧
      (s.pc = .exited ->
        s.closed = true ∧ s.stdout = s.produced ∧ s.copyLog = s.produced) ∧
      (forall n, s.pc = .splice n ->
        0 < n ∧ forall m, 0 < m -> m ≤ n -> (step s (.splice (some m))).isSome) ∧
      (forall (n : Nat) (t : State alpha) (fs : List (Event alpha)),
        (forall e, e ∈ fs -> Succeeds e ∧ ¬ IsTee e) ->
        exec step s (.tee (some n) :: fs) = some t -> t.pc = .tee ->
        fs.countP IsSplice ≤ n ∧ t.consumed = s.consumed ++ s.stdin.take n) := by
  have hinv : Inv s := inv_exec inv_start hcalls hrun
  have hplace := hinv.place
  refine ⟨?_, ?_, ?_, ?_⟩
  · intro hpc
    rw [hinv.consumed_eq]
    exact ⟨hinv.stdout_of_head hpc, rfl⟩
  · intro hpc
    simp only [Place, hpc] at hplace
    rcases hplace with ⟨hsame, hclosed, hempty⟩
    rw [hinv.stream, hempty, List.append_nil]
    exact ⟨hclosed, hsame, rfl⟩
  · intro n hpc
    simp only [Place, hpc] at hplace
    exact ⟨hplace.left, fun m hpos hm => splice_possible hinv hpc hpos hm⟩
  · intro n t fs hfs hround htee
    have hlast : Inv t := by
      rcases exec_cons hround with ⟨mid, hstep, hinner⟩
      exact inv_exec (inv_step hinv (succeeds_tee n) hstep) (fun e he => (hfs e he).left) hinner
    rw [hlast.consumed_eq, hinv.consumed_eq]
    exact round_consumes hinv hfs hround htee

theorem copies_in_step_late_producer :
    exists s : State Nat,
      exec step start
        [.produce [1, 2], .tee (some 2), .produce [3], .splice (some 1), .close,
          .splice (some 1), .tee (some 1), .splice (some 1), .tee (some 0)] = some s ∧
      s.stdout = [1, 2, 3] ∧ s.copyLog = [1, 2, 3] := by
  have hrun : exists s : State Nat,
      exec step start
        [.produce [1, 2], .tee (some 2), .produce [3], .splice (some 1), .close,
          .splice (some 1), .tee (some 1), .splice (some 1), .tee (some 0)] = some s ∧
      s.pc = .exited ∧ s.produced = [1, 2, 3] :=
    ⟨_, rfl, rfl, rfl⟩
  rcases hrun with ⟨s, hrun, hexited, hproduced⟩
  rw [← hproduced]
  have hcopies := (copies_in_step s _ (by decide) hrun).right.left hexited
  exact ⟨s, hrun, hcopies.right⟩

end LlmTee
end TeeSplice
end VidsContent
