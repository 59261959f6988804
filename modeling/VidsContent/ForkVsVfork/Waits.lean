import VidsContent.ForkVsVfork.Tree

/-!
# The benchmark comes to an end

Every run is finite, and as long as the first process has not ended some process can
go on: the youngest that has not ended has nobody to wait for.  So every run can be
led to an end, at which all processes that the arguments ask for have been there.
-/

namespace VidsContent
namespace ForkVsVfork

open Transition

variable {name : Type}

/-!
## How long a run can be
-/

def missingCalls (children : Nat) : Nat -> Nat
  | 0 => children
  | left + 1 => 2 + 2 * missingCalls children left

/-- The calls that are made in the iterations that are left and in the waits after them. -/
def calls (setup : Setup name) : List name -> Nat -> Nat
  | [], left => missingCalls setup.children left
  | path :: rest, left =>
      match setup.image path with
      | .self => left * (2 + calls setup rest setup.children) + setup.children
      | .other => left * 3 + setup.children
      | .missing => missingCalls setup.children left

def execveCalls (setup : Setup name) (argv : List name) (left : Nat) : Nat :=
  match imageOf setup argv with
  | .self => 1 + calls setup argv.tail setup.children
  | .other => 2
  | .missing => 1 + calls setup argv left

theorem calls_zero (setup : Setup name) (argv : List name) :
    calls setup argv 0 = setup.children := by
  cases argv with
  | nil => rfl
  | cons path rest =>
      unfold calls
      split
      · rw [Nat.zero_mul, Nat.zero_add]
      · rw [Nat.zero_mul, Nat.zero_add]
      · rfl

theorem calls_succ (setup : Setup name) (argv : List name) (left : Nat) :
    calls setup argv (left + 1) = calls setup argv left + execveCalls setup argv left + 1 := by
  cases argv with
  | nil =>
      simp only [calls, execveCalls, imageOf, missingCalls]
      lia
  | cons path rest =>
      simp only [calls, execveCalls, imageOf]
      cases setup.image path with
      | self =>
          simp only [List.tail_cons]
          rw [Nat.succ_mul]
          lia
      | other =>
          simp only
          lia
      | missing =>
          simp only [missingCalls]
          lia

def callsOf (setup : Setup name) (proc : Process name) : Nat :=
  match proc.pc with
  | .loop i => calls setup proc.argv (setup.children - i)
  | .execve i => execveCalls setup proc.argv (setup.children - (i + 1))
  | .waiting j => setup.children - j
  | .program => 1
  | .exited => 0
  | .reaped => 0

theorem callsOf_waitHead (setup : Setup name) (parent : Option Nat) (argv : List name)
    (j : Nat) : callsOf setup ⟨parent, argv, waitHead setup.children j⟩ = setup.children - j := by
  unfold waitHead
  split
  · rfl
  · simp only [callsOf]
    lia

theorem callsOf_loopHead (setup : Setup name) (parent : Option Nat) (argv : List name)
    (i : Nat) : callsOf setup ⟨parent, argv, loopHead setup.children i⟩ =
      calls setup argv (setup.children - i) := by
  unfold loopHead
  split
  · rfl
  · rename_i hend
    rw [callsOf_waitHead, Nat.sub_eq_zero_of_le (Nat.not_lt.mp hend), calls_zero, Nat.sub_zero]

theorem callsOf_loop {setup : Setup name} {proc : Process name} {i : Nat}
    (hpc : proc.pc = .loop i) (hi : i < setup.children) :
    callsOf setup proc = calls setup proc.argv (setup.children - (i + 1)) +
      execveCalls setup proc.argv (setup.children - (i + 1)) + 1 := by
  have hleft : setup.children - i = setup.children - (i + 1) + 1 := by lia
  simp only [callsOf, hpc]
  rw [hleft, calls_succ]

theorem callsOf_execve {setup : Setup name} {proc : Process name} {i : Nat}
    (hpc : proc.pc = .execve i) :
    callsOf setup proc = execveCalls setup proc.argv (setup.children - (i + 1)) := by
  simp only [callsOf, hpc]

def callsLeft (setup : Setup name) (w : World name) : Nat := Totals.total (callsOf setup) w

theorem callsLeft_put (setup : Setup name) {w : World name} {p : Nat} {proc : Process name}
    (hget : w[p]? = some proc) (pc : Pc) :
    callsLeft setup (w.put p proc pc) + callsOf setup proc =
      callsLeft setup w + callsOf setup { proc with pc := pc } :=
  Totals.total_set (callsOf setup) hget { proc with pc := pc }

theorem callsLeft_step {setup : Setup name} {w next : World name} {e : Event}
    (h : Inv setup w) (hstep : step setup w e = some next) :
    callsLeft setup next < callsLeft setup w := by
  rcases step_cases hstep with ⟨p, proc, hget, hcases⟩
  have hrange := h.inRange hget
  have hput := callsLeft_put setup hget
  rcases hcases with ⟨i, _, hpc, rfl⟩ | ⟨i, he, hpc, rfl⟩ | ⟨i, hpc, himage, rfl⟩ |
    ⟨i, hpc, himage, rfl⟩ | ⟨i, hpc, himage, rfl⟩ | ⟨j, c, child, hpc, hchild, hparent, hexited, rfl⟩ |
    ⟨j, hpc, _, rfl⟩ | ⟨hpc, rfl⟩
  · rw [hpc] at hrange
    have hmoved := hput (loopHead setup.children (i + 1))
    rw [callsOf_loopHead setup proc.parent proc.argv, callsOf_loop hpc hrange] at hmoved
    have hchild : callsOf setup ⟨some p, proc.argv, .execve i⟩ =
        execveCalls setup proc.argv (setup.children - (i + 1)) := rfl
    unfold callsLeft at hmoved ⊢
    rw [Totals.total_concat, hchild]
    lia
  · rw [hpc] at hrange
    have hmoved := hput (loopHead setup.children (i + 1))
    rw [callsOf_loopHead setup proc.parent proc.argv, callsOf_loop hpc hrange] at hmoved
    lia
  · have hmoved := Totals.total_set (callsOf setup) hget
      ⟨proc.parent, proc.argv.tail, loopHead setup.children 0⟩
    rw [callsOf_loopHead, callsOf_execve hpc, execveCalls, himage] at hmoved
    simp only [Nat.sub_zero] at hmoved
    unfold callsLeft
    lia
  · have hmoved := hput .program
    rw [callsOf_execve hpc, execveCalls, himage] at hmoved
    simp only [callsOf] at hmoved
    lia
  · have hmoved := hput (loopHead setup.children (i + 1))
    rw [callsOf_loopHead setup proc.parent proc.argv, callsOf_execve hpc, execveCalls,
      himage] at hmoved
    simp only at hmoved
    lia
  · have hreaped := callsLeft_put setup hchild .reaped
    have hmoved := callsLeft_put setup (getElem?_reap hget hpc hchild hexited)
      (waitHead setup.children (j + 1))
    rw [callsOf_waitHead setup proc.parent proc.argv] at hmoved
    rw [hpc] at hrange
    simp only [callsOf, hpc, hexited, InRange] at hreaped hmoved hrange
    lia
  · have hmoved := hput (waitHead setup.children (j + 1))
    rw [callsOf_waitHead setup proc.parent proc.argv] at hmoved
    rw [hpc] at hrange
    simp only [callsOf, hpc, InRange] at hmoved hrange
    lia
  · have hmoved := hput .exited
    simp only [callsOf, hpc] at hmoved
    lia

/-!
## Who can go on
-/

def ended : Pc -> Bool
  | .exited => true
  | .reaped => true
  | _ => false

/-- Whether the arguments lead to another program. -/
def findsProgram (setup : Setup name) : List name -> Bool
  | [] => false
  | path :: rest =>
      match setup.image path with
      | .self => findsProgram setup rest
      | .other => true
      | .missing => false

theorem findsProgram_tail {setup : Setup name} {argv : List name}
    (hself : imageOf setup argv = .self) (h : findsProgram setup argv = true) :
    findsProgram setup argv.tail = true := by
  cases argv with
  | nil => cases h
  | cons path rest =>
      have himage : setup.image path = .self := hself
      rw [findsProgram, himage] at h
      exact h

theorem findsProgram_of_missing {setup : Setup name} {argv : List name}
    (hmissing : imageOf setup argv = .missing) : findsProgram setup argv = false := by
  cases argv with
  | nil => rfl
  | cons path rest =>
      have himage : setup.image path = .missing := hmissing
      rw [findsProgram, himage]

def Finds (setup : Setup name) (w : World name) : Prop :=
  forall proc, proc ∈ w -> findsProgram setup proc.argv = true

theorem finds_set {setup : Setup name} {w : World name} (h : Finds setup w) (p : Nat)
    {new : Process name} (hnew : findsProgram setup new.argv = true) :
    Finds setup (w.set p new) := by
  intro proc hmem
  rcases List.mem_or_eq_of_mem_set hmem with hin | rfl
  · exact h proc hin
  · exact hnew

theorem finds_step {setup : Setup name} {w next : World name} {e : Event}
    (h : Finds setup w) (hstep : step setup w e = some next) : Finds setup next := by
  rcases step_cases hstep with ⟨p, proc, hget, hcases⟩
  have hproc := h proc (List.mem_of_getElem? hget)
  have hput (pc : Pc) : Finds setup (w.put p proc pc) := finds_set h p hproc
  rcases hcases with ⟨i, _, _, rfl⟩ | ⟨i, _, _, rfl⟩ | ⟨i, _, himage, rfl⟩ |
    ⟨i, _, _, rfl⟩ | ⟨i, _, _, rfl⟩ | ⟨j, c, child, _, hchild, _, _, rfl⟩ | ⟨j, _, _, rfl⟩ |
    ⟨_, rfl⟩
  · intro q hmem
    rcases List.mem_append.mp hmem with hin | hnew
    · exact hput _ q hin
    · rw [List.mem_singleton.mp hnew]
      exact hproc
  · exact hput _
  · exact finds_set h p (findsProgram_tail himage hproc)
  · exact hput _
  · exact hput _
  · have hreaped : Finds setup (w.put c child .reaped) :=
      finds_set h c (h child (List.mem_of_getElem? hchild))
    exact finds_set hreaped p hproc
  · exact hput _
  · exact hput _

theorem exists_youngest {w : World name} {p : Nat} {proc : Process name}
    (hget : w[p]? = some proc) (hlive : ended proc.pc = false) :
    exists (q : Nat) (youngest : Process name), w[q]? = some youngest ∧
      ended youngest.pc = false ∧
      forall (c : Nat) (child : Process name), q < c -> w[c]? = some child ->
        ended child.pc = true := by
  by_cases hyounger : exists (c : Nat) (child : Process name),
      p < c ∧ w[c]? = some child ∧ ended child.pc = false
  · rcases hyounger with ⟨c, child, hlt, hc, hchild⟩
    have hbound := (List.getElem?_eq_some_iff.mp hc).1
    exact exists_youngest hc hchild
  · refine ⟨p, proc, hget, hlive, ?_⟩
    intro c child hlt hc
    by_contra hnot
    exact hyounger ⟨c, child, hlt, hc, eq_false_of_ne_true hnot⟩
termination_by w.length - p

theorem suspended_youngest {setup : Setup name} {w : World name} (h : Inv setup w) {p : Nat}
    (hothers : forall (c : Nat) (child : Process name), p < c -> w[c]? = some child ->
      ended child.pc = true) : suspended setup w p = false := by
  have hnobody : (w.any fun child => child.parent == some p && isExecve child.pc) = false := by
    rw [List.any_eq_false]
    intro child hmem hchild
    rw [Bool.and_eq_true, beq_iff_eq] at hchild
    rcases hchild with ⟨hparent, hexecve⟩
    rcases List.getElem?_of_mem hmem with ⟨c, hc⟩
    have hended := hothers c child (h.parent_lt hc hparent) hc
    cases hpc : child.pc with
    | execve i =>
        rw [hpc] at hended
        cases hended
    | _ =>
        rw [hpc] at hexecve
        cases hexecve
  rw [suspended, hnobody, Bool.and_false]

/-- As long as the first process has not ended, the youngest that has not can go on. -/
theorem exists_step {setup : Setup name} {w : World name} (h : Inv setup w)
    (hfinds : setup.suspends = true -> Finds setup w) {root : Process name}
    (hroot : w[0]? = some root) (hlive : ended root.pc = false) :
    exists e next, step setup w e = some next := by
  rcases exists_youngest hroot hlive with ⟨p, proc, hget, hproc, hothers⟩
  have hfree := suspended_youngest h hothers
  cases hpc : proc.pc with
  | loop i =>
      refine ⟨.fork p false, w.put p proc (loopHead setup.children (i + 1)), ?_⟩
      simp [step, Event.process, hget, hfree, stepFork, hpc]
  | execve i =>
      cases himage : imageOf setup proc.argv with
      | self =>
          refine ⟨.execve p, w.set p ⟨proc.parent, proc.argv.tail, loopHead setup.children 0⟩, ?_⟩
          simp [step, Event.process, hget, hfree, stepExecve, hpc, himage]
      | other =>
          refine ⟨.execve p, w.put p proc .program, ?_⟩
          simp [step, Event.process, hget, hfree, stepExecve, hpc, himage]
      | missing =>
          have hsuspends : setup.suspends = false := by
            refine eq_false_of_ne_true fun hvfork => ?_
            have hfound := hfinds hvfork proc (List.mem_of_getElem? hget)
            rw [findsProgram_of_missing himage] at hfound
            cases hfound
          refine ⟨.execve p, w.put p proc (loopHead setup.children (i + 1)), ?_⟩
          simp [step, Event.process, hget, hfree, stepExecve, hpc, himage, hsuspends]
  | waiting j =>
      by_cases hnone : Totals.total (unreaped p) w = 0
      · refine ⟨.wait p none, w.put p proc (waitHead setup.children (j + 1)), ?_⟩
        simp [step, Event.process, hget, hfree, stepWait, hpc, hnone]
      · -- The child that is not waited for is younger, and so it has ended.
        rcases Totals.exists_pos_of_total_pos (Nat.pos_of_ne_zero hnone) with ⟨c, child, hc, hpos⟩
        have hchild : child.parent = some p ∧ child.pc ≠ .reaped := by
          by_contra hnot
          rw [unreaped, if_neg hnot] at hpos
          exact Nat.lt_irrefl 0 hpos
        have hended := hothers c child (h.parent_lt hc hchild.left) hc
        have hexited : child.pc = .exited := by
          cases hcpc : child.pc with
          | exited => rfl
          | reaped => exact absurd hcpc hchild.right
          | _ =>
              rw [hcpc] at hended
              cases hended
        refine ⟨.wait p (some c),
          (w.put c child .reaped).put p proc (waitHead setup.children (j + 1)), ?_⟩
        simp [step, Event.process, hget, hfree, stepWait, hpc, hc, hchild.left, hexited]
  | program =>
      refine ⟨.finish p, w.put p proc .exited, ?_⟩
      simp [step, Event.process, hget, hfree, stepFinish, hpc]
  | exited =>
      rw [hpc] at hproc
      cases hproc
  | reaped =>
      rw [hpc] at hproc
      cases hproc

/-!
## The first process
-/

def Rooted (w : World name) : Prop :=
  exists root rest, w = root :: rest ∧ root.parent = none ∧ root.pc ≠ .reaped

theorem rooted_set {w : World name} {p : Nat} {old new : Process name} (h : Rooted w)
    (hget : w[p]? = some old) (hparent : new.parent = old.parent)
    (hnew : new.pc ≠ .reaped ∨ old.parent ≠ none) : Rooted (w.set p new) := by
  rcases h with ⟨root, rest, rfl, hroot, hlive⟩
  cases p with
  | zero =>
      cases hget
      refine ⟨new, rest, rfl, hparent.trans hroot, ?_⟩
      rcases hnew with hnew | hchild
      · exact hnew
      · exact absurd hroot hchild
  | succ p => exact ⟨root, rest.set p new, rfl, hroot, hlive⟩

theorem rooted_step {setup : Setup name} {w next : World name} {e : Event}
    (h : Rooted w) (hstep : step setup w e = some next) : Rooted next := by
  rcases step_cases hstep with ⟨p, proc, hget, hcases⟩
  have hput {pc : Pc} (hpc : pc ≠ .reaped) : Rooted (w.put p proc pc) :=
    rooted_set h hget rfl (.inl hpc)
  rcases hcases with ⟨i, _, _, rfl⟩ | ⟨i, _, _, rfl⟩ | ⟨i, _, _, rfl⟩ | ⟨i, _, _, rfl⟩ |
    ⟨i, _, _, rfl⟩ | ⟨j, c, child, hpc, hchild, hparent, hexited, rfl⟩ | ⟨j, _, _, rfl⟩ | ⟨_, rfl⟩
  · rcases hput (loopHead_ne_reaped setup.children (i + 1)) with ⟨root, rest, heq, hroot⟩
    refine ⟨root, rest ++ [⟨some p, proc.argv, .execve i⟩], ?_, hroot⟩
    rw [heq, List.cons_append]
  · exact hput (loopHead_ne_reaped _ _)
  · exact rooted_set h hget rfl (.inl (loopHead_ne_reaped _ _))
  · exact hput Pc.noConfusion
  · exact hput (loopHead_ne_reaped _ _)
  · have hreaped : Rooted (w.put c child .reaped) :=
      rooted_set h hchild rfl (.inr (by simp [hparent]))
    exact rooted_set hreaped (getElem?_reap hget hpc hchild hexited) rfl
      (.inl (waitHead_ne_reaped _ _))
  · exact hput (waitHead_ne_reaped _ _)
  · exact hput Pc.noConfusion

theorem rooted_start (setup : Setup name) (argv : List name) : Rooted (start setup argv) :=
  ⟨_, [], rfl, rfl, loopHead_ne_reaped _ _⟩

/-!
## Every run
-/

theorem finds_run {setup : Setup name} {argv : List name} {w : World name} {es : List Event}
    (hargv : findsProgram setup argv = true)
    (hrun : exec (step setup) (start setup argv) es = some w) : Finds setup w := by
  have hstart : Finds setup (start setup argv) := by
    intro proc hmem
    rw [List.mem_singleton.mp hmem]
    exact hargv
  exact exec_invariant finds_step hstart hrun

/-- Everybody has ended, and all but the first process have been waited for. -/
def Over (w : World name) : Prop :=
  exists root rest, w = root :: rest ∧ root.pc = .exited ∧
    forall child, child ∈ rest -> child.pc = .reaped

theorem over_of_stuck {setup : Setup name} {argv : List name} {w : World name} {es : List Event}
    (hargv : setup.suspends = true -> findsProgram setup argv = true)
    (hrun : exec (step setup) (start setup argv) es = some w)
    (hstuck : forall e, step setup w e = none) : Over w := by
  have hinv := inv_run hrun
  rcases exec_invariant rooted_step (rooted_start setup argv) hrun with ⟨root, rest, rfl, _, hlive⟩
  have hended : ended root.pc = true := by
    by_contra hnot
    rcases exists_step hinv (fun hvfork => finds_run (hargv hvfork) hrun) rfl
      (eq_false_of_ne_true hnot) with ⟨e, next, hstep⟩
    rw [hstuck e] at hstep
    cases hstep
  have hexited : root.pc = .exited := by
    cases hpc : root.pc with
    | exited => rfl
    | reaped => exact absurd hpc hlive
    | _ =>
        rw [hpc] at hended
        cases hended
  refine ⟨root, rest, rfl, hexited, fun child hmem => ?_⟩
  rcases List.getElem?_of_mem hmem with ⟨c, hc⟩
  exact hinv.all_reaped rfl hexited (Nat.succ_pos c) hc

theorem Over.stuck {w : World name} (h : Over w) (setup : Setup name) (e : Event) :
    step setup w e = none := by
  rcases h with ⟨root, rest, rfl, hroot, hrest⟩
  have hended : forall proc, proc ∈ root :: rest -> ended proc.pc = true := by
    intro proc hmem
    rcases List.mem_cons.mp hmem with rfl | hin
    · rw [hroot]
      rfl
    · rw [hrest proc hin]
      rfl
  cases hstep : step setup (root :: rest) e with
  | none => rfl
  | some next =>
      rcases step_cases hstep with ⟨p, proc, hget, hcases⟩
      have hlive := hended proc (List.mem_of_getElem? hget)
      rcases hcases with ⟨_, _, hpc, _⟩ | ⟨_, _, hpc, _⟩ | ⟨_, hpc, _⟩ | ⟨_, hpc, _⟩ |
        ⟨_, hpc, _⟩ | ⟨_, _, _, hpc, _⟩ | ⟨_, hpc, _⟩ | ⟨hpc, _⟩
      all_goals
        rw [hpc] at hlive
        cases hlive

/--
There are never more processes of the benchmark's than the arguments say; and when
nobody can go on and no `fork` has failed, there have been exactly as many, in
whatever order the processes ran.
-/
theorem fork_counts (setup : Setup name) (argv : List name) (es : List Event) (w : World name)
    (hargv : setup.suspends = true -> findsProgram setup argv = true)
    (hrun : exec (step setup) (start setup argv) es = some w) :
    w.length ≤ processes setup argv setup.children ∧
      ((forall p, .fork p false ∉ es) ->
        (forall e, step setup w e = none) ∨ (exists root, w[0]? = some root ∧ root.pc = .exited) ->
        w.length = processes setup argv setup.children) := by
  rcases expected_run hrun with ⟨hle, heq⟩
  constructor
  · exact Nat.le_trans (Totals.length_le_total fun proc _ => weight_pos setup proc) hle
  · intro hforks hend
    have hexited : exists root, w[0]? = some root ∧ root.pc = .exited := by
      rcases hend with hstuck | hexited
      · rcases over_of_stuck hargv hrun hstuck with ⟨root, rest, rfl, hroot, _⟩
        exact ⟨root, rfl, hroot⟩
      · exact hexited
    rcases hexited with ⟨root, hroot, hpc⟩
    rw [← heq hforks]
    exact length_eq_expected (inv_run hrun) hroot hpc

theorem fork_counts_sleep :
    exists w, exec (step (sleepSetup 1)) (start (sleepSetup 1) sleepArgv)
      [.fork 0 true, .execve 1, .fork 1 true, .execve 2, .finish 2, .wait 1 (some 2),
        .wait 0 (some 1)] = some w ∧ w.length = processes (sleepSetup 1) sleepArgv 1 := by
  have hrun : exists w, exec (step (sleepSetup 1)) (start (sleepSetup 1) sleepArgv)
      [.fork 0 true, .execve 1, .fork 1 true, .execve 2, .finish 2, .wait 1 (some 2),
        .wait 0 (some 1)] = some w ∧ exists root, w[0]? = some root ∧ root.pc = .exited :=
    ⟨_, rfl, _, rfl, rfl⟩
  rcases hrun with ⟨w, hrun, hended⟩
  exact ⟨w, hrun, (fork_counts _ _ _ w (fun _ => rfl) hrun).right (by simp) (.inr hended)⟩

/--
The calls of a run are bounded by the arguments; no process ends before it has waited
for its children; and nothing can go on any more exactly where the first process has
ended and everybody else has been waited for.
-/
theorem fork_waits (setup : Setup name) (argv : List name) (es : List Event) (w : World name)
    (hargv : setup.suspends = true -> findsProgram setup argv = true)
    (hrun : exec (step setup) (start setup argv) es = some w) :
    es.length ≤ calls setup argv setup.children ∧
      (forall (p c : Nat) (proc child : Process name), w[p]? = some proc ->
        ended proc.pc = true -> w[c]? = some child -> child.parent = some p ->
        child.pc = .reaped) ∧
      ((forall e, step setup w e = none) <-> Over w) := by
  have hinv := inv_run hrun
  refine ⟨?_, ?_, over_of_stuck hargv hrun, fun hover => hover.stuck setup⟩
  · have hlength := exec_length_le (callsLeft setup) inv_step callsLeft_step
      (inv_start setup argv) hrun
    have hstart : callsLeft setup (start setup argv) = calls setup argv setup.children :=
      callsOf_loopHead setup none argv 0
    lia
  · intro p c proc child hget hended hc hparent
    refine hinv.children_reaped hget ?_ hc hparent
    cases hpc : proc.pc with
    | exited => exact .inl rfl
    | reaped => exact .inr rfl
    | _ =>
        rw [hpc] at hended
        cases hended

def sleepVfork : Setup String := { sleepSetup 1 with suspends := true }

theorem fork_waits_sleep :
    exists w, exec (step sleepVfork) (start sleepVfork sleepArgv)
      [.fork 0 true, .execve 1, .fork 1 true, .execve 2, .finish 2, .wait 1 (some 2),
        .wait 0 (some 1)] = some w ∧ 7 ≤ calls sleepVfork sleepArgv 1 ∧
      forall e, step sleepVfork w e = none := by
  have hrun : exists w, exec (step sleepVfork) (start sleepVfork sleepArgv)
      [.fork 0 true, .execve 1, .fork 1 true, .execve 2, .finish 2, .wait 1 (some 2),
        .wait 0 (some 1)] = some w ∧ Over w :=
    ⟨_, rfl, _, _, rfl, rfl, by simp⟩
  rcases hrun with ⟨w, hrun, hover⟩
  rcases fork_waits sleepVfork sleepArgv _ w (fun _ => rfl) hrun with ⟨hlength, _, hend⟩
  exact ⟨w, hrun, hlength, hend.mpr hover⟩

end ForkVsVfork
end VidsContent
