import VidsContent.Lib.Totals
import VidsContent.Lib.Transition

/-!
# The processes of the fork benchmark

`fork.c` forks its children in a loop and waits as often.  Each child runs
`execve(argv[0], argv + 1, ...)`: it becomes the program that its own first argument
names, with one argument less.  Where there is no such program the child goes on in
the loop of its parent, and has children itself.  `vfork.c` differs in that a parent
is suspended until its child has called `execve`.
-/

namespace VidsContent
namespace ForkVsVfork

open Transition

inductive Image where
  | self
  | other
  | missing
deriving DecidableEq

structure Setup (name : Type) where
  /-- `CHILDREN`. -/
  children : Nat
  image : name -> Image
  /-- Whether the parent is suspended, as it is by `vfork`. -/
  suspends : Bool

/-- `loop` is the call of `fork` in the `i`th iteration, `waiting` the call of `wait`. -/
inductive Pc where
  | loop (i : Nat)
  | execve (i : Nat)
  | waiting (j : Nat)
  | program
  | exited
  | reaped
deriving DecidableEq

structure Process (name : Type) where
  parent : Option Nat
  argv : List name
  pc : Pc

/-- A process's number is its place in the list. -/
abbrev World (name : Type) := List (Process name)

inductive Event where
  | fork (p : Nat) (succeeds : Bool)
  | execve (p : Nat)
  | wait (p : Nat) (child : Option Nat)
  | finish (p : Nat)

variable {name : Type}

/-- `argv[0]` is a null pointer when there are no arguments. -/
def imageOf (setup : Setup name) : List name -> Image
  | [] => .missing
  | path :: _ => setup.image path

def waitHead (children j : Nat) : Pc :=
  if j < children then .waiting j else .exited

def loopHead (children i : Nat) : Pc :=
  if i < children then .loop i else waitHead children 0

def unreaped (p : Nat) (child : Process name) : Nat :=
  if child.parent = some p ∧ child.pc ≠ .reaped then 1 else 0

def isExecve : Pc -> Bool
  | .execve _ => true
  | _ => false

/-- A parent that waits for its child to call `execve`. -/
def suspended (setup : Setup name) (w : World name) (p : Nat) : Bool :=
  setup.suspends && w.any fun child => child.parent == some p && isExecve child.pc

def World.put (w : World name) (p : Nat) (proc : Process name) (pc : Pc) : World name :=
  w.set p { proc with pc := pc }

def stepFork (setup : Setup name) (w : World name) (p : Nat) (proc : Process name)
    (succeeds : Bool) : Option (World name) :=
  match proc.pc with
  | .loop i =>
      if succeeds then
        some (w.put p proc (loopHead setup.children (i + 1)) ++ [⟨some p, proc.argv, .execve i⟩])
      else
        some (w.put p proc (loopHead setup.children (i + 1)))
  | _ => none

/-- A child of `vfork` that goes on in its parent's frame is left out. -/
def stepExecve (setup : Setup name) (w : World name) (p : Nat) (proc : Process name) :
    Option (World name) :=
  match proc.pc with
  | .execve i =>
      match imageOf setup proc.argv with
      | .self => some (w.set p ⟨proc.parent, proc.argv.tail, loopHead setup.children 0⟩)
      | .other => some (w.put p proc .program)
      | .missing =>
          if setup.suspends then none else some (w.put p proc (loopHead setup.children (i + 1)))
  | _ => none

def stepWait (setup : Setup name) (w : World name) (p : Nat) (proc : Process name) :
    Option Nat -> Option (World name)
  | some c =>
      match proc.pc, w[c]? with
      | .waiting j, some child =>
          if child.parent = some p ∧ child.pc = .exited then
            some ((w.put c child .reaped).put p proc (waitHead setup.children (j + 1)))
          else
            none
      | _, _ => none
  | none =>
      match proc.pc with
      | .waiting j =>
          if Totals.total (unreaped p) w = 0 then
            some (w.put p proc (waitHead setup.children (j + 1)))
          else
            none
      | _ => none

def stepFinish (w : World name) (p : Nat) (proc : Process name) : Option (World name) :=
  match proc.pc with
  | .program => some (w.put p proc .exited)
  | _ => none

def Event.process : Event -> Nat
  | .fork p _ => p
  | .execve p => p
  | .wait p _ => p
  | .finish p => p

def step (setup : Setup name) (w : World name) (e : Event) : Option (World name) :=
  match w[e.process]? with
  | none => none
  | some proc =>
      if suspended setup w e.process then
        none
      else
        match e with
        | .fork p succeeds => stepFork setup w p proc succeeds
        | .execve p => stepExecve setup w p proc
        | .wait p child => stepWait setup w p proc child
        | .finish p => stepFinish w p proc

def start (setup : Setup name) (argv : List name) : World name :=
  [⟨none, argv, loopHead setup.children 0⟩]

theorem step_cases {setup : Setup name} {w next : World name} {e : Event}
    (h : step setup w e = some next) :
    exists p proc, w[p]? = some proc ∧
      ((exists i, e = .fork p true ∧ proc.pc = .loop i ∧
          next = w.put p proc (loopHead setup.children (i + 1)) ++
            [⟨some p, proc.argv, .execve i⟩]) ∨
        (exists i, e = .fork p false ∧ proc.pc = .loop i ∧
          next = w.put p proc (loopHead setup.children (i + 1))) ∨
        (exists i, proc.pc = .execve i ∧ imageOf setup proc.argv = .self ∧
          next = w.set p ⟨proc.parent, proc.argv.tail, loopHead setup.children 0⟩) ∨
        (exists i, proc.pc = .execve i ∧ imageOf setup proc.argv = .other ∧
          next = w.put p proc .program) ∨
        (exists i, proc.pc = .execve i ∧ imageOf setup proc.argv = .missing ∧
          next = w.put p proc (loopHead setup.children (i + 1))) ∨
        (exists j c child, proc.pc = .waiting j ∧ w[c]? = some child ∧
          child.parent = some p ∧ child.pc = .exited ∧
          next = (w.put c child .reaped).put p proc (waitHead setup.children (j + 1))) ∨
        (exists j, proc.pc = .waiting j ∧ Totals.total (unreaped p) w = 0 ∧
          next = w.put p proc (waitHead setup.children (j + 1))) ∨
        (proc.pc = .program ∧ next = w.put p proc .exited)) := by
  unfold step at h
  cases hget : w[e.process]? with
  | none =>
      rw [hget] at h
      cases h
  | some proc =>
      rw [hget] at h
      rcases Option.ite_none_left_eq_some.mp h with ⟨_, h⟩
      refine ⟨e.process, proc, hget, ?_⟩
      cases e with
      | fork p succeeds =>
          simp only [stepFork] at h
          split at h
          · rename_i i hpc
            cases succeeds with
            | true => exact .inl ⟨i, rfl, hpc, (Option.some.inj h).symm⟩
            | false => exact .inr (.inl ⟨i, rfl, hpc, (Option.some.inj h).symm⟩)
          · cases h
      | execve p =>
          right; right
          simp only [stepExecve] at h
          split at h
          · rename_i i hpc
            split at h
            · rename_i himage
              exact .inl ⟨i, hpc, himage, (Option.some.inj h).symm⟩
            · rename_i himage
              exact .inr (.inl ⟨i, hpc, himage, (Option.some.inj h).symm⟩)
            · rename_i himage
              rcases Option.ite_none_left_eq_some.mp h with ⟨_, hnext⟩
              exact .inr (.inr (.inl ⟨i, hpc, himage, (Option.some.inj hnext).symm⟩))
          · cases h
      | wait p child =>
          right; right; right; right; right
          cases child with
          | some c =>
              simp only [stepWait] at h
              split at h
              · rename_i j child hpc hchild
                rcases Option.ite_none_right_eq_some.mp h with ⟨⟨hparent, hexited⟩, hnext⟩
                exact .inl ⟨j, c, child, hpc, hchild, hparent, hexited,
                  (Option.some.inj hnext).symm⟩
              · cases h
          | none =>
              simp only [stepWait] at h
              split at h
              · rename_i j hpc
                rcases Option.ite_none_right_eq_some.mp h with ⟨hnone, hnext⟩
                exact .inr (.inl ⟨j, hpc, hnone, (Option.some.inj hnext).symm⟩)
              · cases h
      | finish p =>
          right; right; right; right; right; right; right
          simp only [stepFinish] at h
          split at h
          · rename_i hpc
            exact ⟨hpc, (Option.some.inj h).symm⟩
          · cases h

/-!
## Children and waits
-/

def allowed (children : Nat) : Pc -> Nat
  | .loop i => i
  | .waiting j => children - j
  | _ => 0

def InRange (children : Nat) : Pc -> Prop
  | .loop i => i < children
  | .execve i => i < children
  | .waiting j => j < children
  | _ => True

/--
A parent is older than its children, and never has more of them than the calls of
`wait` that it has still to make.
-/
structure Inv (setup : Setup name) (w : World name) : Prop where
  parent_lt : forall {c p : Nat} {child : Process name}, w[c]? = some child ->
    child.parent = some p -> p < c
  root : forall {c : Nat} {child : Process name}, w[c]? = some child -> child.parent = none ->
    c = 0
  unreaped_le : forall {p : Nat} {proc : Process name}, w[p]? = some proc ->
    Totals.total (unreaped p) w ≤ allowed setup.children proc.pc
  inRange : forall {p : Nat} {proc : Process name}, w[p]? = some proc ->
    InRange setup.children proc.pc

theorem inRange_waitHead (children j : Nat) : InRange children (waitHead children j) := by
  unfold waitHead
  split
  · assumption
  · trivial

theorem inRange_loopHead (children i : Nat) : InRange children (loopHead children i) := by
  unfold loopHead
  split
  · assumption
  · exact inRange_waitHead children 0

theorem allowed_waitHead (children j : Nat) :
    allowed children (waitHead children j) = children - j := by
  unfold waitHead
  split
  · rfl
  · simp only [allowed]
    lia

theorem allowed_loopHead {children i : Nat} (hi : i ≤ children) :
    allowed children (loopHead children i) = i := by
  unfold loopHead
  split
  · rfl
  · rw [allowed_waitHead]
    lia

theorem waitHead_ne_reaped (children j : Nat) : waitHead children j ≠ .reaped := by
  unfold waitHead
  split
  · exact Pc.noConfusion
  · exact Pc.noConfusion

theorem loopHead_ne_reaped (children i : Nat) : loopHead children i ≠ .reaped := by
  unfold loopHead
  split
  · exact Pc.noConfusion
  · exact waitHead_ne_reaped children 0

theorem unreaped_le_one (q : Nat) (child : Process name) : unreaped q child ≤ 1 := by
  unfold unreaped
  split
  · exact Nat.le_refl 1
  · exact Nat.zero_le 1

theorem unreaped_congr {q : Nat} {old new : Process name} (hparent : new.parent = old.parent)
    (hold : old.pc ≠ .reaped) (hnew : new.pc ≠ .reaped) : unreaped q new = unreaped q old := by
  have hlive : (new.pc ≠ .reaped) = (old.pc ≠ .reaped) := propext ⟨fun _ => hold, fun _ => hnew⟩
  simp only [unreaped, hparent, hlive]

theorem total_unreaped_set {w : World name} {p : Nat} {old new : Process name}
    (hget : w[p]? = some old) (hparent : new.parent = old.parent) (hold : old.pc ≠ .reaped)
    (hnew : new.pc ≠ .reaped) (q : Nat) :
    Totals.total (unreaped q) (w.set p new) = Totals.total (unreaped q) w := by
  have hset := Totals.total_set (unreaped q) hget new
  rw [unreaped_congr hparent hold hnew] at hset
  lia

theorem total_unreaped_put {w : World name} {p : Nat} {proc : Process name} {pc : Pc}
    (hget : w[p]? = some proc) (hold : proc.pc ≠ .reaped) (hnew : pc ≠ .reaped) (q : Nat) :
    Totals.total (unreaped q) (w.put p proc pc) = Totals.total (unreaped q) w := by
  have hparent : { proc with pc := pc }.parent = proc.parent := rfl
  exact total_unreaped_set hget hparent hold hnew q

theorem getElem?_set_cases {w : World name} {p c : Nat} {new child : Process name}
    (hget : (w.set p new)[c]? = some child) :
    (c = p ∧ child = new) ∨ (c ≠ p ∧ w[c]? = some child) := by
  by_cases hc : c = p
  · subst hc
    rw [List.getElem?_set_self'] at hget
    cases hw : w[c]? with
    | none =>
        rw [hw] at hget
        cases hget
    | some old =>
        rw [hw] at hget
        exact .inl ⟨rfl, (Option.some.inj hget).symm⟩
  · rw [List.getElem?_set_ne (Ne.symm hc)] at hget
    exact .inr ⟨hc, hget⟩

theorem inv_set {setup : Setup name} {w : World name} {p : Nat} {old new : Process name}
    (h : Inv setup w) (hget : w[p]? = some old) (hparent : new.parent = old.parent)
    (hold : old.pc ≠ .reaped) (hnew : new.pc ≠ .reaped)
    (hallowed : Totals.total (unreaped p) w ≤ allowed setup.children new.pc)
    (hrange : InRange setup.children new.pc) : Inv setup (w.set p new) := by
  constructor
  · intro c child q hc hq
    rcases getElem?_set_cases hc with ⟨rfl, rfl⟩ | ⟨_, hc⟩
    · exact h.parent_lt hget (hparent.symm.trans hq)
    · exact h.parent_lt hc hq
  · intro c child hc hnone
    rcases getElem?_set_cases hc with ⟨rfl, rfl⟩ | ⟨_, hc⟩
    · exact h.root hget (hparent.symm.trans hnone)
    · exact h.root hc hnone
  · intro q proc hq
    rw [total_unreaped_set hget hparent hold hnew]
    rcases getElem?_set_cases hq with ⟨rfl, rfl⟩ | ⟨_, hq⟩
    · exact hallowed
    · exact h.unreaped_le hq
  · intro q proc hq
    rcases getElem?_set_cases hq with ⟨rfl, rfl⟩ | ⟨_, hq⟩
    · exact hrange
    · exact h.inRange hq

theorem inv_put {setup : Setup name} {w : World name} {p : Nat} {proc : Process name} {pc : Pc}
    (h : Inv setup w) (hget : w[p]? = some proc) (hold : proc.pc ≠ .reaped) (hnew : pc ≠ .reaped)
    (hallowed : Totals.total (unreaped p) w ≤ allowed setup.children pc)
    (hrange : InRange setup.children pc) : Inv setup (w.put p proc pc) :=
  show Inv setup (w.set p { proc with pc := pc }) from
    inv_set h hget rfl hold hnew hallowed hrange

theorem getElem?_put {w : World name} {p : Nat} {proc : Process name} (hget : w[p]? = some proc)
    (pc : Pc) : (w.put p proc pc)[p]? = some { proc with pc := pc } :=
  List.getElem?_set_self (List.getElem?_eq_some_iff.mp hget).1

theorem getElem?_reap {w : World name} {p c j : Nat} {proc child : Process name}
    (hget : w[p]? = some proc) (hpc : proc.pc = .waiting j) (hchild : w[c]? = some child)
    (hexited : child.pc = .exited) : (w.put c child .reaped)[p]? = some proc := by
  have hne : c ≠ p := by
    intro heq
    subst heq
    rw [hget] at hchild
    cases hchild
    rw [hpc] at hexited
    cases hexited
  unfold World.put
  rw [List.getElem?_set_ne hne]
  exact hget

theorem total_unreaped_fresh {setup : Setup name} {w : World name} (h : Inv setup w) :
    Totals.total (unreaped w.length) w = 0 := by
  refine Nat.eq_zero_of_not_pos fun hpos => ?_
  rcases Totals.exists_pos_of_total_pos hpos with ⟨c, child, hc, hchild⟩
  have hparent : child.parent = some w.length := by
    by_contra hnot
    simp [unreaped, hnot] at hchild
  have hlt := h.parent_lt hc hparent
  have hbound := (List.getElem?_eq_some_iff.mp hc).1
  lia

theorem inv_concat {setup : Setup name} {w : World name} {p : Nat} {proc child : Process name}
    (h : Inv setup w) (hget : w[p]? = some proc) (hparent : child.parent = some p)
    (hlive : child.pc ≠ .reaped)
    (hallowed : Totals.total (unreaped p) w + 1 ≤ allowed setup.children proc.pc)
    (hrange : InRange setup.children child.pc) : Inv setup (w ++ [child]) := by
  have hp : p < w.length := (List.getElem?_eq_some_iff.mp hget).1
  have hcases {c : Nat} {q : Process name} (hc : (w ++ [child])[c]? = some q) :
      w[c]? = some q ∨ (c = w.length ∧ q = child) := by
    rcases Nat.lt_or_ge c w.length with hlt | hge
    · rw [List.getElem?_append_left hlt] at hc
      exact .inl hc
    · rw [List.getElem?_append_right hge] at hc
      rcases List.getElem?_eq_some_iff.mp hc with ⟨hlt, hq⟩
      have heq : c = w.length := by
        simp only [List.length_cons, List.length_nil] at hlt
        lia
      subst heq
      simp only [Nat.sub_self, List.getElem_cons_zero] at hq
      exact .inr ⟨rfl, hq.symm⟩
  constructor
  · intro c q r hc hq
    rcases hcases hc with hc | ⟨rfl, rfl⟩
    · exact h.parent_lt hc hq
    · rw [hparent] at hq
      cases hq
      exact hp
  · intro c q hc hq
    rcases hcases hc with hc | ⟨rfl, rfl⟩
    · exact h.root hc hq
    · rw [hparent] at hq
      cases hq
  · intro q r hq
    rw [Totals.total_concat]
    rcases hcases hq with hq | ⟨rfl, rfl⟩
    · by_cases hqp : q = p
      · subst hqp
        rw [hget] at hq
        cases hq
        have hone := unreaped_le_one q child
        lia
      · have hnone : unreaped q child = 0 := by
          simp [unreaped, hparent, Ne.symm hqp]
        rw [hnone, Nat.add_zero]
        exact h.unreaped_le hq
    · have hnone : unreaped w.length r = 0 := by
        simp [unreaped, hparent, Nat.ne_of_lt hp]
      rw [total_unreaped_fresh h, hnone]
      exact Nat.zero_le _
  · intro q r hq
    rcases hcases hq with hq | ⟨rfl, rfl⟩
    · exact h.inRange hq
    · exact hrange

theorem total_unreaped_reap {w : World name} {c p : Nat} {child : Process name}
    (hget : w[c]? = some child) (hparent : child.parent = some p) (hexited : child.pc = .exited)
    (q : Nat) :
    Totals.total (unreaped q) (w.put c child .reaped) + (if q = p then 1 else 0) =
      Totals.total (unreaped q) w := by
  have hset := Totals.total_set (unreaped q) hget { child with pc := .reaped }
  have hnew : unreaped q { child with pc := .reaped } = 0 := by
    simp [unreaped]
  have hold : unreaped q child = if q = p then 1 else 0 := by
    simp [unreaped, hparent, hexited, eq_comm]
  rw [hnew, hold] at hset
  exact hset

theorem inv_reap {setup : Setup name} {w : World name} {c p : Nat} {child : Process name}
    (h : Inv setup w) (hget : w[c]? = some child) (hparent : child.parent = some p)
    (hexited : child.pc = .exited) : Inv setup (w.put c child .reaped) := by
  have hle (q : Nat) : Totals.total (unreaped q) (w.put c child .reaped) ≤
      Totals.total (unreaped q) w := by
    rw [← total_unreaped_reap hget hparent hexited q]
    exact Nat.le_add_right _ _
  constructor
  · intro d q r hd hr
    rcases getElem?_set_cases hd with ⟨rfl, rfl⟩ | ⟨_, hd⟩
    · exact h.parent_lt hget hr
    · exact h.parent_lt hd hr
  · intro d r hd hnone
    rcases getElem?_set_cases hd with ⟨rfl, rfl⟩ | ⟨_, hd⟩
    · exact h.root hget hnone
    · exact h.root hd hnone
  · intro q r hq
    refine Nat.le_trans (hle q) ?_
    rcases getElem?_set_cases hq with ⟨rfl, rfl⟩ | ⟨_, hq⟩
    · have hchild := h.unreaped_le hget
      rw [hexited] at hchild
      exact hchild
    · exact h.unreaped_le hq
  · intro q r hq
    rcases getElem?_set_cases hq with ⟨rfl, rfl⟩ | ⟨_, hq⟩
    · trivial
    · exact h.inRange hq

theorem inv_step {setup : Setup name} {w next : World name} {e : Event}
    (h : Inv setup w) (hstep : step setup w e = some next) : Inv setup next := by
  rcases step_cases hstep with ⟨p, proc, hget, hcases⟩
  have hle := h.unreaped_le hget
  have hrange := h.inRange hget
  rcases hcases with ⟨i, _, hpc, rfl⟩ | ⟨i, _, hpc, rfl⟩ | ⟨i, hpc, _, rfl⟩ | ⟨i, hpc, _, rfl⟩ |
    ⟨i, hpc, _, rfl⟩ | ⟨j, c, child, hpc, hchild, hparent, hexited, rfl⟩ | ⟨j, hpc, hnone, rfl⟩ |
    ⟨hpc, rfl⟩
  · rw [hpc] at hle hrange
    have hallowed := allowed_loopHead (Nat.succ_le_of_lt hrange)
    have hmoved := inv_put h hget (by simp [hpc]) (loopHead_ne_reaped _ _)
      (Nat.le_trans (Nat.le_succ_of_le hle) (Nat.le_of_eq hallowed.symm))
      (inRange_loopHead setup.children (i + 1))
    have hsame := total_unreaped_put hget (by simp [hpc])
      (loopHead_ne_reaped setup.children (i + 1)) p
    apply inv_concat hmoved (getElem?_put hget _) rfl Pc.noConfusion _ hrange
    simp only
    rw [hallowed, hsame]
    exact Nat.succ_le_succ hle
  · rw [hpc] at hle hrange
    exact inv_put h hget (by simp [hpc]) (loopHead_ne_reaped _ _)
      (Nat.le_trans (Nat.le_succ_of_le hle)
        (Nat.le_of_eq (allowed_loopHead (Nat.succ_le_of_lt hrange)).symm))
      (inRange_loopHead _ _)
  · rw [hpc] at hle
    exact inv_set h hget rfl (by simp [hpc]) (loopHead_ne_reaped _ _)
      (Nat.le_trans hle (Nat.zero_le _)) (inRange_loopHead _ _)
  · rw [hpc] at hle
    exact inv_put h hget (by simp [hpc]) Pc.noConfusion hle trivial
  · rw [hpc] at hle
    exact inv_put h hget (by simp [hpc]) (loopHead_ne_reaped _ _)
      (Nat.le_trans hle (Nat.zero_le _)) (inRange_loopHead _ _)
  · rw [hpc] at hle hrange
    have hreaped := total_unreaped_reap hchild hparent hexited p
    rw [if_pos rfl] at hreaped
    refine inv_put (inv_reap h hchild hparent hexited) (getElem?_reap hget hpc hchild hexited)
      (by simp [hpc]) (waitHead_ne_reaped _ _) ?_ (inRange_waitHead _ _)
    rw [allowed_waitHead]
    simp only [allowed] at hle
    lia
  · exact inv_put h hget (by simp [hpc]) (waitHead_ne_reaped _ _)
      (Nat.le_trans (Nat.le_of_eq hnone) (Nat.zero_le _)) (inRange_waitHead _ _)
  · rw [hpc] at hle
    exact inv_put h hget (by simp [hpc]) Pc.noConfusion hle trivial

theorem inv_start (setup : Setup name) (argv : List name) : Inv setup (start setup argv) := by
  have hcases {c : Nat} {q : Process name} (hc : (start setup argv)[c]? = some q) :
      c = 0 ∧ q = ⟨none, argv, loopHead setup.children 0⟩ := by
    cases c with
    | zero => exact ⟨rfl, (Option.some.inj hc).symm⟩
    | succ c => cases hc
  constructor
  · intro c p q hc hq
    rw [(hcases hc).right] at hq
    cases hq
  · intro c q hc _
    exact (hcases hc).left
  · intro p q hq
    exact Nat.zero_le _
  · intro p q hq
    rw [(hcases hq).right]
    exact inRange_loopHead _ _

theorem inv_run {setup : Setup name} {argv : List name} {w : World name} {es : List Event}
    (hrun : exec (step setup) (start setup argv) es = some w) : Inv setup w :=
  exec_invariant inv_step (inv_start setup argv) hrun

theorem Inv.children_reaped {setup : Setup name} {w : World name} (h : Inv setup w)
    {p c : Nat} {proc child : Process name} (hget : w[p]? = some proc)
    (hended : proc.pc = .exited ∨ proc.pc = .reaped) (hc : w[c]? = some child)
    (hparent : child.parent = some p) : child.pc = .reaped := by
  have hle := h.unreaped_le hget
  have hnone : allowed setup.children proc.pc = 0 := by
    rcases hended with hpc | hpc <;> rw [hpc] <;> rfl
  have hchild := Totals.le_total (unreaped p) (List.mem_of_getElem? hc)
  by_contra hlive
  have hone : unreaped p child = 1 := if_pos ⟨hparent, hlive⟩
  lia

/-- When the first process has ended, it and its children have waited for all others. -/
theorem Inv.all_reaped {setup : Setup name} {w : World name} (h : Inv setup w)
    {root : Process name} (hroot : w[0]? = some root) (hended : root.pc = .exited)
    {c : Nat} {child : Process name} (hpos : 0 < c) (hc : w[c]? = some child) :
    child.pc = .reaped := by
  induction c using Nat.strongRecOn generalizing child with
  | ind c ih =>
      cases hparent : child.parent with
      | none => exact absurd (h.root hc hparent) (Nat.ne_of_gt hpos)
      | some p =>
          have hlt := h.parent_lt hc hparent
          rcases Nat.eq_zero_or_pos p with rfl | hp
          · exact h.children_reaped hroot (.inl hended) hc hparent
          · have hbound : p < w.length :=
              Nat.lt_trans hlt (List.getElem?_eq_some_iff.mp hc).1
            have hget := List.getElem?_eq_getElem hbound
            exact h.children_reaped hget (.inr (ih p hlt hp hget)) hc hparent

end ForkVsVfork
end VidsContent
