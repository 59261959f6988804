import VidsContent.TeeSplice.Broadcaster

/-!
# The splice/tee broadcaster

`proxy.c` splices a chunk of the source into the pipe `main_p`, duplicates it
with `tee` into the pipe `sub_p`, and drains `sub_p` to the first subscriber and
`main_p` to the second one.  The pipes hold `capacity` bytes each.
-/

namespace VidsContent
namespace TeeSplice
namespace Proxy

open Transition Broadcaster

inductive Call where
  | spliceSource
  | tee
  | spliceSub0
  | spliceSub1
deriving DecidableEq

structure State (alpha : Type) extends Streams alpha where
  mainP : List alpha
  subP : List alpha
  n : Option Nat
  pc : Pc Call

def start (input : List alpha) : State alpha where
  source := input
  sub0 := []
  sub1 := []
  mainP := []
  subP := []
  n := some 0
  pc := .call .spliceSource

/-- `n = splice(source, NULL, main_p[1], NULL, CHUNK, SPLICE_F_MOVE)`, and the loop test. -/
def spliceSource (capacity : Nat) (s : State alpha) : Option Nat -> Option (State alpha)
  | none => some { s with n := none, pc := .call .tee }
  | some 0 =>
      if s.source.isEmpty then some { s with n := some 0, pc := .exited } else none
  | some n =>
      if n ≤ chunk ∧ n ≤ s.source.length ∧ s.mainP.length + n ≤ capacity then
        some
          { s with
            source := s.source.drop n
            mainP := s.mainP ++ s.source.take n
            n := some n
            pc := .call .tee }
      else
        none

/-- What `tee` can copy at most: the count asked for, what `main_p` holds, the room in `sub_p`. -/
def teeLimit (capacity : Nat) (s : State alpha) : Nat :=
  min (toSize s.n) (min s.mainP.length (capacity - s.subP.length))

def tee (capacity : Nat) (s : State alpha) (t : Option Nat) : Option (State alpha) :=
  match transfer s.mainP (teeLimit capacity s) t with
  | none => none
  | some (copied, _) =>
      some
        { s with
          subP := s.subP ++ copied
          pc := assertEq "t == n" t s.n .spliceSub0 }

def spliceSub0 (s : State alpha) (r : Option Nat) : Option (State alpha) :=
  match transfer s.subP (min (toSize s.n) s.subP.length) r with
  | none => none
  | some (moved, left) =>
      some
        { s with
          subP := left
          sub0 := s.sub0 ++ moved
          pc := assertEq "s == n" r s.n .spliceSub1 }

def spliceSub1 (s : State alpha) (r : Option Nat) : Option (State alpha) :=
  match transfer s.mainP (min (toSize s.n) s.mainP.length) r with
  | none => none
  | some (moved, left) =>
      some
        { s with
          mainP := left
          sub1 := s.sub1 ++ moved
          pc := assertEq "s == n" r s.n .spliceSource }

def step (capacity : Nat) (s : State alpha) (e : Event Call) : Option (State alpha) :=
  if s.pc = .call e.call then
    match e.call with
    | .spliceSource => spliceSource capacity s e.result
    | .tee => tee capacity s e.result
    | .spliceSub0 => spliceSub0 s e.result
    | .spliceSub1 => spliceSub1 s e.result
  else
    none

/-!
## Everything a step can do
-/

theorem spliceSource_cases {capacity : Nat} {s next : State alpha} {r : Option Nat}
    (h : spliceSource capacity s r = some next) :
    (r = none ∧ next = { s with n := none, pc := .call .tee }) ∨
    (r = some 0 ∧ s.source = [] ∧ next = { s with n := some 0, pc := .exited }) ∨
    (exists n, r = some n ∧ n ≤ s.source.length ∧ s.mainP.length + n ≤ capacity ∧
      next =
        { s with
          source := s.source.drop n
          mainP := s.mainP ++ s.source.take n
          n := some n
          pc := .call .tee }) := by
  cases r with
  | none => exact Or.inl ⟨rfl, (Option.some.inj h).symm⟩
  | some n =>
      right
      cases n with
      | zero =>
          rcases Option.ite_none_right_eq_some.mp h with ⟨hempty, hnext⟩
          cases hnext
          exact Or.inl ⟨rfl, List.isEmpty_iff.mp hempty, rfl⟩
      | succ n =>
          rcases Option.ite_none_right_eq_some.mp h with ⟨hn, hnext⟩
          cases hnext
          exact Or.inr ⟨n + 1, rfl, hn.right.left, hn.right.right, rfl⟩

theorem tee_cases {capacity : Nat} {s next : State alpha} {t : Option Nat}
    (h : tee capacity s t = some next) :
    exists copied left,
      transfer s.mainP (teeLimit capacity s) t = some (copied, left) ∧
      next =
        { s with
          subP := s.subP ++ copied
          pc := assertEq "t == n" t s.n .spliceSub0 } := by
  cases ht : transfer s.mainP (teeLimit capacity s) t with
  | none => simp [tee, ht] at h
  | some p =>
      simp only [tee, ht] at h
      exact ⟨p.1, p.2, rfl, (Option.some.inj h).symm⟩

theorem spliceSub0_cases {s next : State alpha} {r : Option Nat}
    (h : spliceSub0 s r = some next) :
    exists moved left,
      transfer s.subP (min (toSize s.n) s.subP.length) r = some (moved, left) ∧
      next =
        { s with
          subP := left
          sub0 := s.sub0 ++ moved
          pc := assertEq "s == n" r s.n .spliceSub1 } := by
  cases hr : transfer s.subP (min (toSize s.n) s.subP.length) r with
  | none => simp [spliceSub0, hr] at h
  | some p =>
      simp only [spliceSub0, hr] at h
      exact ⟨p.1, p.2, rfl, (Option.some.inj h).symm⟩

theorem spliceSub1_cases {s next : State alpha} {r : Option Nat}
    (h : spliceSub1 s r = some next) :
    exists moved left,
      transfer s.mainP (min (toSize s.n) s.mainP.length) r = some (moved, left) ∧
      next =
        { s with
          mainP := left
          sub1 := s.sub1 ++ moved
          pc := assertEq "s == n" r s.n .spliceSource } := by
  cases hr : transfer s.mainP (min (toSize s.n) s.mainP.length) r with
  | none => simp [spliceSub1, hr] at h
  | some p =>
      simp only [spliceSub1, hr] at h
      exact ⟨p.1, p.2, rfl, (Option.some.inj h).symm⟩

theorem step_cases {capacity : Nat} {s next : State alpha} {e : Event Call}
    (h : step capacity s e = some next) :
    (e.call = .spliceSource ∧ s.pc = .call .spliceSource ∧
      spliceSource capacity s e.result = some next) ∨
    (e.call = .tee ∧ s.pc = .call .tee ∧ tee capacity s e.result = some next) ∨
    (e.call = .spliceSub0 ∧ s.pc = .call .spliceSub0 ∧
      spliceSub0 s e.result = some next) ∨
    (e.call = .spliceSub1 ∧ s.pc = .call .spliceSub1 ∧
      spliceSub1 s e.result = some next) := by
  rcases Option.ite_none_right_eq_some.mp h with ⟨hpc, hstep⟩
  cases hcall : e.call with
  | spliceSource =>
      rw [hcall] at hpc hstep
      exact Or.inl ⟨rfl, hpc, hstep⟩
  | tee =>
      rw [hcall] at hpc hstep
      exact Or.inr (Or.inl ⟨rfl, hpc, hstep⟩)
  | spliceSub0 =>
      rw [hcall] at hpc hstep
      exact Or.inr (Or.inr (Or.inl ⟨rfl, hpc, hstep⟩))
  | spliceSub1 =>
      rw [hcall] at hpc hstep
      exact Or.inr (Or.inr (Or.inr ⟨rfl, hpc, hstep⟩))

/-!
## Delivery
-/

/--
The chunk is first in `main_p` alone, then in both pipes, then in `main_p` and at
the first subscriber; between two rounds both pipes are empty.
-/
def Inv (capacity : Nat) (input : List alpha) (s : State alpha) : Prop :=
  match s.pc with
  | .call .spliceSource =>
      s.mainP = [] ∧ s.subP = [] ∧ input = s.sub0 ++ s.source ∧ s.sub1 = s.sub0
  | .call .tee =>
      Counts s.n s.mainP ∧ s.mainP.length ≤ capacity ∧ s.subP = [] ∧
        input = s.sub0 ++ (s.mainP ++ s.source) ∧ s.sub1 = s.sub0
  | .call .spliceSub0 =>
      Counts s.n s.mainP ∧ s.subP = s.mainP ∧
        input = s.sub0 ++ (s.mainP ++ s.source) ∧ s.sub1 = s.sub0
  | .call .spliceSub1 =>
      Counts s.n s.mainP ∧ s.subP = [] ∧
        input = s.sub0 ++ s.source ∧ s.sub0 = s.sub1 ++ s.mainP
  | .exited => s.sub0 = input ∧ s.sub1 = input
  | .aborted _ => s.sub0 <+: input ∧ s.sub1 <+: input

theorem Inv.delivers {capacity : Nat} {input : List alpha} {s : State alpha}
    (hinv : Inv capacity input s) : Delivers input .spliceSource s.toStreams s.pc := by
  unfold Inv at hinv
  split at hinv <;> rename_i hpc <;> rw [hpc]
  · exact delivers_at_head hinv.right.right.left hinv.right.right.right
  · rcases hinv with ⟨_, _, _, hinput, hsub⟩
    exact Delivers.of_isPrefix ⟨s.mainP ++ s.source, hinput.symm⟩
      ⟨s.mainP ++ s.source, by rw [hsub, hinput]⟩ nofun nofun
  · rcases hinv with ⟨_, _, hinput, hsub⟩
    exact Delivers.of_isPrefix ⟨s.mainP ++ s.source, hinput.symm⟩
      ⟨s.mainP ++ s.source, by rw [hsub, hinput]⟩ nofun nofun
  · rcases hinv with ⟨_, _, hinput, hsub⟩
    exact Delivers.of_isPrefix ⟨s.source, hinput.symm⟩
      ⟨s.mainP ++ s.source, by rw [hinput, hsub, List.append_assoc]⟩ nofun nofun
  · exact delivers_at_exit hinv.left hinv.right
  · exact Delivers.of_isPrefix hinv.left hinv.right nofun nofun

theorem inv_start (capacity : Nat) (input : List alpha) :
    Inv capacity input (start input) :=
  ⟨rfl, rfl, rfl, rfl⟩

theorem inv_spliceSource {capacity : Nat} {input : List alpha} {s next : State alpha}
    {r : Option Nat} (hinv : Inv capacity input s) (hpc : s.pc = .call .spliceSource)
    (h : spliceSource capacity s r = some next) : Inv capacity input next := by
  simp only [Inv, hpc] at hinv
  rcases hinv with ⟨hmain, hsubP, hinput, hsub⟩
  rcases spliceSource_cases h with ⟨_, rfl⟩ | ⟨_, hempty, rfl⟩ |
    ⟨n, _, hn, hroom, rfl⟩
  · refine ⟨hmain, ?_, hsubP, ?_, hsub⟩
    · simp [hmain]
    · simpa [hmain] using hinput
  · rw [hempty, List.append_nil] at hinput
    exact ⟨hinput.symm, by rw [hsub, hinput]⟩
  · rw [hmain, List.length_nil, Nat.zero_add] at hroom
    have hlength : (s.source.take n).length = n := List.length_take_of_le hn
    refine ⟨?_, ?_, hsubP, ?_, hsub⟩
    · show (s.mainP ++ s.source.take n).length = n
      rw [hmain, List.nil_append, hlength]
    · show (s.mainP ++ s.source.take n).length ≤ capacity
      rw [hmain, List.nil_append, hlength]
      exact hroom
    · show input = s.sub0 ++ ((s.mainP ++ s.source.take n) ++ s.source.drop n)
      rw [hmain, List.nil_append, List.take_append_drop]
      exact hinput

theorem inv_tee {capacity : Nat} {input : List alpha} {s next : State alpha}
    {t : Option Nat} (hinv : Inv capacity input s) (hpc : s.pc = .call .tee)
    (h : tee capacity s t = some next) : Inv capacity input next := by
  have hdelivers := hinv.delivers
  simp only [Inv, hpc] at hinv
  rcases hinv with ⟨hcounts, _, hsubP, hinput, hsub⟩
  rcases tee_cases h with ⟨copied, left, htransfer, rfl⟩
  rcases assertEq_cases "t == n" t s.n Call.spliceSub0 with ⟨heq, hnext⟩ | ⟨_, hnext⟩
  · subst heq
    simp only [Inv, hnext]
    refine ⟨hcounts, ?_, hinput, hsub⟩
    rw [hsubP, List.nil_append, (transfer_all hcounts htransfer).left]
  · simp only [Inv, hnext]
    exact ⟨hdelivers.sub0_isPrefix, hdelivers.sub1_isPrefix⟩

theorem inv_spliceSub0 {capacity : Nat} {input : List alpha} {s next : State alpha}
    {r : Option Nat} (hinv : Inv capacity input s) (hpc : s.pc = .call .spliceSub0)
    (h : spliceSub0 s r = some next) : Inv capacity input next := by
  have hdelivers := hinv.delivers
  simp only [Inv, hpc] at hinv
  rcases hinv with ⟨hcounts, hsubP, hinput, hsub⟩
  rcases spliceSub0_cases h with ⟨moved, left, htransfer, rfl⟩
  rcases assertEq_cases "s == n" r s.n Call.spliceSub1 with ⟨heq, hnext⟩ | ⟨_, hnext⟩
  · subst heq
    rw [hsubP] at htransfer
    rcases transfer_all hcounts htransfer with ⟨rfl, rfl⟩
    simp only [Inv, hnext]
    refine ⟨hcounts, trivial, ?_, ?_⟩
    · rw [List.append_assoc]
      exact hinput
    · rw [hsub]
  · simp only [Inv, hnext]
    constructor
    · rw [hinput, ← hsubP, ← transfer_split htransfer]
      apply (List.prefix_append_right_inj s.sub0).mpr
      rw [List.append_assoc]
      exact List.prefix_append _ _
    · exact hdelivers.sub1_isPrefix

theorem inv_spliceSub1 {capacity : Nat} {input : List alpha} {s next : State alpha}
    {r : Option Nat} (hinv : Inv capacity input s) (hpc : s.pc = .call .spliceSub1)
    (h : spliceSub1 s r = some next) : Inv capacity input next := by
  have hdelivers := hinv.delivers
  simp only [Inv, hpc] at hinv
  rcases hinv with ⟨hcounts, hsubP, hinput, hsub⟩
  rcases spliceSub1_cases h with ⟨moved, left, htransfer, rfl⟩
  rcases assertEq_cases "s == n" r s.n Call.spliceSource with ⟨heq, hnext⟩ | ⟨_, hnext⟩
  · subst heq
    rcases transfer_all hcounts htransfer with ⟨rfl, rfl⟩
    simp only [Inv, hnext]
    exact ⟨trivial, hsubP, hinput, hsub.symm⟩
  · simp only [Inv, hnext]
    constructor
    · exact hdelivers.sub0_isPrefix
    · rw [hinput, hsub, ← transfer_split htransfer, List.append_assoc, List.append_assoc]
      apply (List.prefix_append_right_inj s.sub1).mpr
      exact List.prefix_append _ _

theorem inv_step {capacity : Nat} {input : List alpha} {s next : State alpha}
    {e : Event Call} (hinv : Inv capacity input s)
    (hstep : step capacity s e = some next) : Inv capacity input next := by
  rcases step_cases hstep with ⟨_, hpc, h⟩ | ⟨_, hpc, h⟩ | ⟨_, hpc, h⟩ | ⟨_, hpc, h⟩
  · exact inv_spliceSource hinv hpc h
  · exact inv_tee hinv hpc h
  · exact inv_spliceSub0 hinv hpc h
  · exact inv_spliceSub1 hinv hpc h

theorem inv_run {capacity : Nat} {input : List alpha} {s : State alpha}
    {es : List (Event Call)}
    (hrun : exec (step capacity) (start input) es = some s) : Inv capacity input s :=
  exec_invariant inv_step (inv_start capacity input) hrun

theorem pipes_empty {capacity : Nat} {input : List alpha} {s : State alpha}
    {es : List (Event Call)}
    (hrun : exec (step capacity) (start input) es = some s)
    (hpc : s.pc = .call .spliceSource) : s.mainP = [] ∧ s.subP = [] := by
  have hinv := inv_run hrun
  simp only [Inv, hpc] at hinv
  exact ⟨hinv.left, hinv.right.left⟩

/-!
## Failed calls
-/

theorem loopStep {capacity : Nat} {s next : State alpha} {e : Event Call}
    (hstep : step capacity s e = some next) :
    LoopStep .spliceSource e s.n s.pc next.n next.pc := by
  rcases step_cases hstep with ⟨hcall, hpc, h⟩ | ⟨hcall, hpc, h⟩ | ⟨hcall, hpc, h⟩ |
    ⟨hcall, hpc, h⟩
  · rcases spliceSource_cases h with ⟨hr, rfl⟩ | ⟨hr, _, rfl⟩ | ⟨n, hr, _, _, rfl⟩ <;>
      exact ⟨by rw [hpc, hcall], Or.inl ⟨hcall, hr.symm⟩⟩
  · rcases tee_cases h with ⟨copied, left, _, rfl⟩
    exact ⟨by rw [hpc, hcall],
      Or.inr ⟨by simp [hcall], rfl, "t == n", .spliceSub0, rfl⟩⟩
  · rcases spliceSub0_cases h with ⟨moved, left, _, rfl⟩
    exact ⟨by rw [hpc, hcall],
      Or.inr ⟨by simp [hcall], rfl, "s == n", .spliceSub1, rfl⟩⟩
  · rcases spliceSub1_cases h with ⟨moved, left, _, rfl⟩
    exact ⟨by rw [hpc, hcall],
      Or.inr ⟨by simp [hcall], rfl, "s == n", .spliceSource, rfl⟩⟩

theorem failureAborts {capacity : Nat} {input : List alpha} {s : State alpha}
    {es : List (Event Call)}
    (hrun : exec (step capacity) (start input) es = some s)
    (hsource : SourceSucceeds .spliceSource es) : FailureAborts es s.pc :=
  failureAborts_of_loopStep loopStep rfl hrun hsource

/-!
## The tee assertion
-/

/-- No call fails, and `tee` copies as much as it can. -/
def FullTee (capacity : Nat) (s : State alpha) (e : Event Call) : Prop :=
  ¬ e.Failed ∧ (e.call = .tee -> e.result = some (teeLimit capacity s))

instance (capacity : Nat) (s : State alpha) (e : Event Call) :
    Decidable (FullTee capacity s e) :=
  inferInstanceAs (Decidable (_ ∧ _))

theorem teeLimit_eq {capacity n : Nat} {s : State alpha} (hn : s.n = some n)
    (hcounts : Counts s.n s.mainP) (hroom : s.mainP.length ≤ capacity)
    (hsubP : s.subP = []) : teeLimit capacity s = n := by
  rw [hn] at hcounts
  have hlength : s.mainP.length = n := hcounts
  simp only [teeLimit, hn, toSize, hsubP, List.length_nil]
  lia

theorem tee_assertion_step {capacity : Nat} {input : List alpha} {s next : State alpha}
    {e : Event Call}
    (hinv : Inv capacity input s ∧ HasCount .spliceSource s.n s.pc ∧ s.pc ≠ .aborted "t == n")
    (hfull : FullTee capacity s e) (hstep : step capacity s e = some next) :
    Inv capacity input next ∧ HasCount .spliceSource next.n next.pc ∧
      next.pc ≠ .aborted "t == n" := by
  rcases hinv with ⟨hinv, hcount, _⟩
  refine ⟨inv_step hinv hstep,
    hasCount_loopStep hcount (fun _ => hfull.left) (loopStep hstep), ?_⟩
  rcases step_cases hstep with ⟨_, _, h⟩ | ⟨hcall, hpc, h⟩ | ⟨_, _, h⟩ | ⟨_, _, h⟩
  · rcases spliceSource_cases h with ⟨_, rfl⟩ | ⟨_, _, rfl⟩ |
      ⟨n, _, _, _, rfl⟩ <;> nofun
  · simp only [Inv, hpc] at hinv
    rcases hinv with ⟨hcounts, hroom, hsubP, _⟩
    have hn : s.n ≠ none := hcount.later (by simp [hpc])
    rcases Option.ne_none_iff_exists'.mp hn with ⟨n, hn⟩
    have hresult : e.result = s.n := by
      rw [hfull.right hcall, teeLimit_eq hn hcounts hroom hsubP, hn]
    rw [hresult] at h
    rcases tee_cases h with ⟨copied, left, _, rfl⟩
    simp [assertEq]
  · rcases spliceSub0_cases h with ⟨moved, left, _, rfl⟩
    simp only [assertEq]
    split <;> simp
  · rcases spliceSub1_cases h with ⟨moved, left, _, rfl⟩
    simp only [assertEq]
    split <;> simp

theorem tee_assertion_holds {capacity : Nat} {input : List alpha} {s : State alpha}
    {es : List (Event Call)}
    (hrun : exec (step capacity) (start input) es = some s)
    (hfull : AllSteps (step capacity) (FullTee capacity) (start input) es) :
    s.pc ≠ .aborted "t == n" :=
  (exec_guarded_invariant tee_assertion_step
    ⟨inv_start capacity input, Or.inl rfl, nofun⟩ hfull hrun).right.right

end Proxy
end TeeSplice
end VidsContent
