import VidsContent.ForkVsVfork.Processes

/-!
# The tree of processes

How many processes the benchmark has does not depend on the order in which they run.
Every process stands for those that it will still bring about, and what a call of
`fork` or `execve` changes in one of these numbers it changes in another.
-/

namespace VidsContent
namespace ForkVsVfork

open Transition

variable {name : Type}

/--
The processes that a process with these arguments brings about in the iterations that
are left, itself included.
-/
def processes (setup : Setup name) : List name -> Nat -> Nat
  | [], left => Nat.pow 2 left
  | path :: rest, left =>
      match setup.image path with
      | .self => 1 + left * processes setup rest setup.children
      | .other => 1 + left
      | .missing => Nat.pow 2 left

def spawned (setup : Setup name) (argv : List name) (left : Nat) : Nat :=
  match imageOf setup argv with
  | .self => processes setup argv.tail setup.children
  | .other => 1
  | .missing => processes setup argv left

theorem processes_zero (setup : Setup name) (argv : List name) :
    processes setup argv 0 = 1 := by
  cases argv with
  | nil => rfl
  | cons path rest =>
      unfold processes
      split
      · rw [Nat.zero_mul]
      · rfl
      · rfl

theorem processes_succ (setup : Setup name) (argv : List name) (left : Nat) :
    processes setup argv (left + 1) = processes setup argv left + spawned setup argv left := by
  cases argv with
  | nil =>
      exact Nat.mul_two (Nat.pow 2 left)
  | cons path rest =>
      simp only [processes, spawned, imageOf]
      cases setup.image path with
      | self =>
          simp only [List.tail_cons]
          rw [Nat.succ_mul, Nat.add_assoc]
      | other =>
          simp only
          rw [Nat.add_assoc]
      | missing => exact Nat.mul_two (Nat.pow 2 left)

theorem processes_pos (setup : Setup name) (argv : List name) (left : Nat) :
    0 < processes setup argv left := by
  induction left with
  | zero =>
      rw [processes_zero]
      exact Nat.one_pos
  | succ left ih =>
      rw [processes_succ]
      exact Nat.add_pos_left ih _

theorem spawned_pos (setup : Setup name) (argv : List name) (left : Nat) :
    0 < spawned setup argv left := by
  unfold spawned
  split
  · exact processes_pos _ _ _
  · exact Nat.one_pos
  · exact processes_pos _ _ _

def weight (setup : Setup name) (proc : Process name) : Nat :=
  match proc.pc with
  | .loop i => processes setup proc.argv (setup.children - i)
  | .execve i => spawned setup proc.argv (setup.children - (i + 1))
  | _ => 1

theorem weight_waitHead (setup : Setup name) (parent : Option Nat) (argv : List name) (j : Nat) :
    weight setup ⟨parent, argv, waitHead setup.children j⟩ = 1 := by
  unfold waitHead
  split
  · rfl
  · rfl

theorem weight_loopHead (setup : Setup name) (parent : Option Nat) (argv : List name) (i : Nat) :
    weight setup ⟨parent, argv, loopHead setup.children i⟩ =
      processes setup argv (setup.children - i) := by
  unfold loopHead
  split
  · rfl
  · rename_i hend
    rw [weight_waitHead, Nat.sub_eq_zero_of_le (Nat.not_lt.mp hend), processes_zero]

theorem weight_pos (setup : Setup name) (proc : Process name) : 1 ≤ weight setup proc := by
  unfold weight
  split
  · exact processes_pos _ _ _
  · exact spawned_pos _ _ _
  · exact Nat.le_refl 1

/-- The processes there are and those that they will bring about. -/
def expected (setup : Setup name) (w : World name) : Nat := Totals.total (weight setup) w

theorem expected_put (setup : Setup name) {w : World name} {p : Nat} {proc : Process name}
    (hget : w[p]? = some proc) (pc : Pc) :
    expected setup (w.put p proc pc) + weight setup proc =
      expected setup w + weight setup { proc with pc := pc } :=
  Totals.total_set (weight setup) hget { proc with pc := pc }

theorem weight_loop {setup : Setup name} {proc : Process name} {i : Nat} (hpc : proc.pc = .loop i)
    (hi : i < setup.children) :
    weight setup proc = processes setup proc.argv (setup.children - (i + 1)) +
      spawned setup proc.argv (setup.children - (i + 1)) := by
  have hleft : setup.children - i = setup.children - (i + 1) + 1 := by lia
  simp only [weight, hpc]
  rw [hleft, processes_succ]

theorem weight_execve {setup : Setup name} {proc : Process name} {i : Nat}
    (hpc : proc.pc = .execve i) :
    weight setup proc = spawned setup proc.argv (setup.children - (i + 1)) := by
  simp only [weight, hpc]

theorem expected_step {setup : Setup name} {w next : World name} {e : Event}
    (h : Inv setup w) (hstep : step setup w e = some next) :
    expected setup next ≤ expected setup w ∧
      ((forall p, e ≠ .fork p false) -> expected setup next = expected setup w) := by
  rcases step_cases hstep with ⟨p, proc, hget, hcases⟩
  have hrange := h.inRange hget
  have hput := expected_put setup hget
  have hsame {m : Nat} (hm : expected setup next + m = expected setup w + m) :
      expected setup next ≤ expected setup w ∧
        ((forall p, e ≠ .fork p false) -> expected setup next = expected setup w) := by
    have heq := Nat.add_right_cancel hm
    exact ⟨Nat.le_of_eq heq, fun _ => heq⟩
  rcases hcases with ⟨i, _, hpc, rfl⟩ | ⟨i, he, hpc, rfl⟩ | ⟨i, hpc, himage, rfl⟩ |
    ⟨i, hpc, himage, rfl⟩ | ⟨i, hpc, himage, rfl⟩ | ⟨j, c, child, hpc, hchild, hparent, hexited, rfl⟩ |
    ⟨j, hpc, _, rfl⟩ | ⟨hpc, rfl⟩
  · rw [hpc] at hrange
    have hmoved := hput (loopHead setup.children (i + 1))
    rw [weight_loopHead setup proc.parent proc.argv, weight_loop hpc hrange] at hmoved
    apply hsame (m := processes setup proc.argv (setup.children - (i + 1)))
    have hchild : weight setup ⟨some p, proc.argv, .execve i⟩ =
        spawned setup proc.argv (setup.children - (i + 1)) := rfl
    unfold expected at hmoved ⊢
    rw [Totals.total_concat, hchild]
    lia
  · rw [hpc] at hrange
    have hmoved := hput (loopHead setup.children (i + 1))
    rw [weight_loopHead setup proc.parent proc.argv, weight_loop hpc hrange] at hmoved
    exact ⟨by lia, fun hno => absurd he (hno p)⟩
  · have hmoved := Totals.total_set (weight setup) hget
      ⟨proc.parent, proc.argv.tail, loopHead setup.children 0⟩
    rw [weight_loopHead, weight_execve hpc, spawned, himage] at hmoved
    exact hsame hmoved
  · have hmoved := hput .program
    rw [weight_execve hpc, spawned, himage] at hmoved
    exact hsame hmoved
  · have hmoved := hput (loopHead setup.children (i + 1))
    rw [weight_loopHead setup proc.parent proc.argv, weight_execve hpc, spawned, himage] at hmoved
    exact hsame hmoved
  · have hreaped := expected_put setup hchild .reaped
    have hmoved := expected_put setup (getElem?_reap hget hpc hchild hexited)
      (waitHead setup.children (j + 1))
    rw [weight_waitHead setup proc.parent proc.argv] at hmoved
    simp only [weight, hpc, hexited] at hreaped hmoved
    exact hsame (hmoved.trans hreaped)
  · have hmoved := hput (waitHead setup.children (j + 1))
    rw [weight_waitHead setup proc.parent proc.argv] at hmoved
    simp only [weight, hpc] at hmoved
    exact hsame hmoved
  · have hmoved := hput .exited
    simp only [weight, hpc] at hmoved
    exact hsame hmoved

theorem expected_start (setup : Setup name) (argv : List name) :
    expected setup (start setup argv) = processes setup argv setup.children :=
  weight_loopHead setup none argv 0

/-- Over a run the number can only become less, and only where a `fork` fails. -/
theorem expected_run {setup : Setup name} {argv : List name} {w : World name} {es : List Event}
    (hrun : exec (step setup) (start setup argv) es = some w) :
    expected setup w ≤ processes setup argv setup.children ∧
      ((forall p, .fork p false ∉ es) ->
        expected setup w = processes setup argv setup.children) := by
  rw [← expected_start setup argv]
  constructor
  · have hkeep {v next : World name} {e : Event}
        (hv : Inv setup v ∧ expected setup v ≤ expected setup (start setup argv))
        (hstep : step setup v e = some next) :
        Inv setup next ∧ expected setup next ≤ expected setup (start setup argv) :=
      ⟨inv_step hv.left hstep, Nat.le_trans (expected_step hv.left hstep).left hv.right⟩
    exact (exec_invariant hkeep ⟨inv_start setup argv, Nat.le_refl _⟩ hrun).right
  · intro hforks
    have hsteps : AllSteps (step setup) (fun _ e => forall p, e ≠ .fork p false)
        (start setup argv) es :=
      allSteps_of_forall fun e he p heq => hforks p (heq ▸ he)
    have hkeep {v next : World name} {e : Event}
        (hv : Inv setup v ∧ expected setup v = expected setup (start setup argv))
        (he : forall p, e ≠ .fork p false) (hstep : step setup v e = some next) :
        Inv setup next ∧ expected setup next = expected setup (start setup argv) :=
      ⟨inv_step hv.left hstep, ((expected_step hv.left hstep).right he).trans hv.right⟩
    exact (exec_guarded_invariant hkeep ⟨inv_start setup argv, rfl⟩ hsteps hrun).right

theorem length_eq_expected {setup : Setup name} {w : World name} {root : Process name}
    (hinv : Inv setup w) (hroot : w[0]? = some root) (hexited : root.pc = .exited) :
    w.length = expected setup w := by
  refine (Totals.total_eq_length fun proc hmem => ?_).symm
  rcases List.getElem?_of_mem hmem with ⟨c, hc⟩
  rcases Nat.eq_zero_or_pos c with rfl | hpos
  · rw [hroot] at hc
    cases hc
    simp only [weight, hexited]
  · simp only [weight, hinv.all_reaped hroot hexited hpos hc]

/-- `./fork /usr/bin/sleep sleep 0.1`, with the names that there are programs under. -/
def sleepSetup (children : Nat) : Setup String where
  children := children
  image := fun path =>
    if path = "./fork" then .self else if path = "/usr/bin/sleep" then .other else .missing
  suspends := false

def sleepArgv : List String := ["./fork", "/usr/bin/sleep", "sleep", "0.1"]

/-- The children of the benchmark run the benchmark. -/
example : processes (sleepSetup 10) sleepArgv 10 = 111 := rfl

end ForkVsVfork
end VidsContent
