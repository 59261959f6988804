import VidsContent.Lib.Transition

/-!
# The two broadcasters

`proxy.c` and `proxy_naive.c` send every byte of one source to two subscribers.
Both loop over a call that takes a chunk from the source, which ends the loop
when it returns 0, and calls whose results are asserted equal to the chunk's
count.  This module has what the two programs share: results, assertions, the
streams, and what a run of a broadcaster is meant to do.
-/

namespace VidsContent
namespace TeeSplice
namespace Broadcaster

open Transition

def chunk : Nat := 1 <<< 16

def ssizeMax : Nat := (1 <<< 63) - 1

/-- A result passed on as a count: -1, which is `none`, becomes the largest `size_t`. -/
def toSize : Option Nat -> Nat
  | none => (1 <<< 64) - 1
  | some n => n

inductive Pc (call : Type) where
  | call (c : call)
  | exited
  | aborted (assertion : String)
deriving DecidableEq

def Pc.Aborted {call : Type} (pc : Pc call) : Prop :=
  exists assertion, pc = .aborted assertion

/-- `assert(x == n)` before the call `next`. -/
def assertEq {call : Type} (assertion : String) (x n : Option Nat) (next : call) :
    Pc call :=
  if x = n then .call next else .aborted assertion

structure Event (call : Type) where
  call : call
  result : Option Nat
deriving DecidableEq

def Event.Failed {call : Type} (e : Event call) : Prop :=
  e.result = none

instance {call : Type} (e : Event call) : Decidable e.Failed :=
  inferInstanceAs (Decidable (e.result = none))

structure Streams (alpha : Type) where
  source : List alpha
  sub0 : List alpha
  sub1 : List alpha

/--
The bytes that a call with this result moves out of `held`, and the bytes that
stay.  A result over the limit cannot be returned.
-/
def transfer (held : List alpha) (limit : Nat) :
    Option Nat -> Option (List alpha × List alpha)
  | none => some ([], held)
  | some n => if n ≤ limit then some (held.take n, held.drop n) else none

/-!
## What a broadcaster is meant to do
-/

/-- Both subscribers get the source, in order, and nothing else. -/
structure Delivers {call : Type} (input : List alpha) (head : call)
    (s : Streams alpha) (pc : Pc call) : Prop where
  sub0_isPrefix : s.sub0 <+: input
  sub1_isPrefix : s.sub1 <+: input
  at_head : pc = .call head -> input = s.sub0 ++ s.source ∧ s.sub1 = s.sub0
  at_exit : pc = .exited -> s.sub0 = input ∧ s.sub1 = input

theorem Delivers.of_isPrefix {call : Type} {input : List alpha} {head : call}
    {s : Streams alpha} {pc : Pc call} (hsub0 : s.sub0 <+: input)
    (hsub1 : s.sub1 <+: input) (hhead : pc ≠ .call head) (hexit : pc ≠ .exited) :
    Delivers input head s pc where
  sub0_isPrefix := hsub0
  sub1_isPrefix := hsub1
  at_head := fun hpc => absurd hpc hhead
  at_exit := fun hpc => absurd hpc hexit

theorem delivers_at_head {call : Type} {input : List alpha} {head : call}
    {s : Streams alpha} (hinput : input = s.sub0 ++ s.source) (hsub : s.sub1 = s.sub0) :
    Delivers input head s (.call head) where
  sub0_isPrefix := ⟨s.source, hinput.symm⟩
  sub1_isPrefix := ⟨s.source, by rw [hsub, hinput]⟩
  at_head := fun _ => ⟨hinput, hsub⟩
  at_exit := nofun

theorem delivers_at_exit {call : Type} {input : List alpha} {head : call}
    {s : Streams alpha} (hsub0 : s.sub0 = input) (hsub1 : s.sub1 = input) :
    Delivers input head s .exited where
  sub0_isPrefix := ⟨[], by rw [hsub0, List.append_nil]⟩
  sub1_isPrefix := ⟨[], by rw [hsub1, List.append_nil]⟩
  at_head := nofun
  at_exit := fun _ => ⟨hsub0, hsub1⟩

/-- A run with a failed call ends at a failed assertion. -/
def FailureAborts {call : Type} (es : List (Event call)) (pc : Pc call) : Prop :=
  (exists e, e ∈ es ∧ e.Failed) -> pc.Aborted

def SourceSucceeds {call : Type} (head : call) (es : List (Event call)) : Prop :=
  forall e, e ∈ es -> e.call = head -> ¬ e.Failed

/-!
## Transfers and assertions
-/

/-- A chunk's count, and the bytes it counts: after a failed call there are none. -/
def Counts : Option Nat -> List alpha -> Prop
  | none, held => held = []
  | some n, held => held.length = n

theorem transfer_split {held moved left : List alpha} {limit : Nat} {r : Option Nat}
    (h : transfer held limit r = some (moved, left)) : moved ++ left = held := by
  cases r with
  | none =>
      cases h
      rfl
  | some n =>
      rcases Option.ite_none_right_eq_some.mp h with ⟨_, hmoved⟩
      cases hmoved
      exact List.take_append_drop n held

theorem transfer_all {held moved left : List alpha} {limit : Nat} {n : Option Nat}
    (hcounts : Counts n held) (h : transfer held limit n = some (moved, left)) :
    moved = held ∧ left = [] := by
  cases n with
  | none =>
      cases h
      exact ⟨hcounts.symm, hcounts⟩
  | some n =>
      rcases Option.ite_none_right_eq_some.mp h with ⟨_, hmoved⟩
      cases hmoved
      exact ⟨List.take_of_length_le (Nat.le_of_eq hcounts),
        List.drop_of_length_le (Nat.le_of_eq hcounts)⟩

theorem assertEq_cases {call : Type} (assertion : String) (x n : Option Nat)
    (next : call) :
    (x = n ∧ assertEq assertion x n next = .call next) ∨
    (x ≠ n ∧ assertEq assertion x n next = .aborted assertion) := by
  unfold assertEq
  split
  · rename_i heq
    exact Or.inl ⟨heq, rfl⟩
  · rename_i hne
    exact Or.inr ⟨hne, rfl⟩

/-!
## Failed calls
-/

/--
How a step of a broadcaster treats the chunk's count `n`: the call at the head of
the loop sets it to its result, the result of every other call is asserted equal
to it.
-/
def LoopStep {call : Type} (head : call) (e : Event call) (n : Option Nat)
    (pc : Pc call) (n' : Option Nat) (pc' : Pc call) : Prop :=
  pc = .call e.call ∧
    ((e.call = head ∧ n' = e.result) ∨
      (e.call ≠ head ∧ n' = n ∧
        exists assertion next, pc' = assertEq assertion e.result n next))

def HasCount {call : Type} (head : call) (n : Option Nat) (pc : Pc call) : Prop :=
  pc = .call head ∨ n ≠ none

theorem HasCount.later {call : Type} {head : call} {n : Option Nat} {pc : Pc call}
    (h : HasCount head n pc) (hpc : pc ≠ .call head) : n ≠ none := by
  rcases h with hhead | hn
  · exact absurd hhead hpc
  · exact hn

theorem hasCount_loopStep {call : Type} {head : call} {e : Event call}
    {n n' : Option Nat} {pc pc' : Pc call} (hcount : HasCount head n pc)
    (hsource : e.call = head -> ¬ e.Failed) (h : LoopStep head e n pc n' pc') :
    HasCount head n' pc' := by
  rcases h with ⟨hpc, ⟨hcall, hn⟩ | ⟨hcall, hn, _⟩⟩
  · right
    rw [hn]
    exact hsource hcall
  · right
    rw [hn]
    exact hcount.later (by simpa [hpc] using hcall)

theorem aborted_of_failed {call : Type} {head : call} {e : Event call}
    {n n' : Option Nat} {pc pc' : Pc call} (hcount : HasCount head n pc)
    (hsource : e.call = head -> ¬ e.Failed) (hfailed : e.Failed)
    (h : LoopStep head e n pc n' pc') : pc'.Aborted := by
  rcases h with ⟨hpc, ⟨hcall, _⟩ | ⟨hcall, _, assertion, next, hnext⟩⟩
  · exact absurd hfailed (hsource hcall)
  · have hn : n ≠ none := hcount.later (by simpa [hpc] using hcall)
    have hresult : e.result = none := hfailed
    rw [hnext, hresult]
    exact ⟨assertion, if_neg hn.symm⟩

/-- A loop whose source call never fails lets no other failure pass. -/
theorem failureAborts_of_loopStep {call state : Type}
    {step : state -> Event call -> Option state} {head : call}
    {n : state -> Option Nat} {pc : state -> Pc call}
    (hloop : forall {s e next}, step s e = some next ->
      LoopStep head e (n s) (pc s) (n next) (pc next))
    {s t : state} {es : List (Event call)} (hstart : pc s = .call head)
    (hrun : exec step s es = some t) (hsource : SourceSucceeds head es) :
    FailureAborts es (pc t) := by
  refine exec_stops (I := fun s => HasCount head (n s) (pc s))
    (F := fun s => (pc s).Aborted) ?_ ?_ ?_ (Or.inl hstart) hsource hrun
  · intro s e next hcount hC _ hstep
    exact hasCount_loopStep hcount hC (hloop hstep)
  · intro s e next hcount hC hfailed hstep
    exact aborted_of_failed hcount hC hfailed (hloop hstep)
  · intro s e haborted
    cases hstep : step s e with
    | none => rfl
    | some next =>
        rcases haborted with ⟨assertion, hpc⟩
        have hcall : pc s = .call e.call := (hloop hstep).left
        rw [hpc] at hcall
        cases hcall

theorem failureAborts_exited_iff {call : Type} {head : call} {es : List (Event call)}
    (haborts : SourceSucceeds head es -> FailureAborts es .exited) :
    FailureAborts es .exited <-> SourceSucceeds head es := by
  constructor
  · intro h e he _ hfailed
    rcases h ⟨e, he, hfailed⟩ with ⟨assertion, hpc⟩
    cases hpc
  · exact haborts

end Broadcaster
end TeeSplice
end VidsContent
