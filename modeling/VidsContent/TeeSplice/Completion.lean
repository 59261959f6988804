import VidsContent.TeeSplice.Delivery

/-!
# The broadcasters come to an end

A broadcaster whose source call never fails makes a bounded number of calls, and
from every state it has not aborted in it can still deliver the whole source.
-/

namespace VidsContent
namespace TeeSplice

open Transition Broadcaster

/-!
## What is expected of a call
-/

theorem transfer_chunk (held : List alpha) {limit : Nat} {n : Option Nat}
    (hlimit : forall m, n = some m -> m ≤ limit) :
    exists moved left, transfer held limit n = some (moved, left) := by
  cases n with
  | none => exact ⟨_, _, rfl⟩
  | some m =>
      simp only [transfer]
      rw [if_pos (hlimit m rfl)]
      exact ⟨_, _, rfl⟩

theorem counts_le_min {held : List alpha} {n : Option Nat} (hcounts : Counts n held) :
    forall m, n = some m -> m ≤ min (toSize n) held.length := by
  intro m hm
  rw [hm] at hcounts ⊢
  exact Nat.le_min.mpr ⟨Nat.le_refl m, Nat.le_of_eq hcounts.symm⟩

theorem assertEq_self {call : Type} (assertion : String) (n : Option Nat) (next : call) :
    assertEq assertion n n next = .call next :=
  if_pos rfl

theorem not_aborted_of_call {call : Type} {pc : Pc call} {c : call} (hpc : pc = .call c) :
    ¬ pc.Aborted := by
  rintro ⟨assertion, haborted⟩
  rw [hpc] at haborted
  cases haborted

theorem not_aborted_of_exited {call : Type} {pc : Pc call} (hpc : pc = .exited) :
    ¬ pc.Aborted := by
  rintro ⟨assertion, haborted⟩
  rw [hpc] at haborted
  cases haborted

/-!
## Loops that come to an end

A measure of the calls that are left, which every call decreases when the source call
does not fail, and a next call from every state that is not aborted.
-/

section

variable {call state : Type} {step : state -> Event call -> Option state} {head : call}
  {n : state -> Option Nat} {pc : state -> Pc call} {callsLeft : state -> Nat}
  {I : state -> Prop}

theorem length_le_of_callsLeft
    (hless : forall {s e next}, (e.call = head -> ¬ e.Failed) -> step s e = some next ->
      callsLeft next < callsLeft s)
    {s t : state} {es : List (Event call)} (hrun : exec step s es = some t)
    (hsource : SourceSucceeds head es) : es.length ≤ callsLeft s := by
  have hcount := exec_countP_le (I := fun _ => True) (fun _ => true) callsLeft
    (fun _ _ _ => trivial) (fun _ hC _ hstep => hless hC hstep)
    (fun _ _ hcounted _ => absurd hcounted.symm Bool.false_ne_true) trivial hsource hrun
  rw [List.countP_true] at hcount
  exact Nat.le_trans (Nat.le_add_right _ _) hcount

structure Running (head : call) (n : state -> Option Nat) (pc : state -> Pc call)
    (I : state -> Prop) (s : state) : Prop where
  inv : I s
  count : HasCount head (n s) (pc s)
  not_aborted : ¬ (pc s).Aborted

theorem completes_of_callsLeft
    (hloop : forall {s e next}, step s e = some next ->
      LoopStep head e (n s) (pc s) (n next) (pc next))
    (hkeep : forall {s e next}, I s -> step s e = some next -> I next)
    (hless : forall {s e next}, (e.call = head -> ¬ e.Failed) -> step s e = some next ->
      callsLeft next < callsLeft s)
    (hpossible : forall {s}, I s -> HasCount head (n s) (pc s) -> ¬ (pc s).Aborted ->
      pc s = .exited ∨ exists e next, ¬ e.Failed ∧ step s e = some next ∧ ¬ (pc next).Aborted)
    {s t : state} {es : List (Event call)} (hinit : I s) (hstart : pc s = .call head)
    (hrun : exec step s es = some t) (hsource : SourceSucceeds head es)
    (hrunning : ¬ (pc t).Aborted) :
    exists calls u, (forall e, e ∈ calls -> ¬ e.Failed) ∧ exec step t calls = some u ∧
      I u ∧ pc u = .exited := by
  have hsteps : AllSteps step (fun _ e => e.call = head -> ¬ e.Failed) s es :=
    allSteps_of_forall hsource
  have hcount : HasCount head (n t) (pc t) :=
    exec_guarded_invariant (fun h hC hstep => hasCount_loopStep h hC (hloop hstep))
      (.inl hstart) hsteps hrun
  have hprogress {s : state} (hs : Running head n pc I s) :
      pc s = .exited ∨
        exists e next, ¬ e.Failed ∧ step s e = some next ∧ Running head n pc I next ∧
          callsLeft next < callsLeft s := by
    rcases hpossible hs.inv hs.count hs.not_aborted with
      hexited | ⟨e, next, hsucceeds, hstep, hnext⟩
    · exact .inl hexited
    · have hlater := hasCount_loopStep hs.count (fun _ => hsucceeds) (hloop hstep)
      exact .inr ⟨e, next, hsucceeds, hstep, ⟨hkeep hs.inv hstep, hlater, hnext⟩,
        hless (fun _ => hsucceeds) hstep⟩
  rcases exists_exec_of_progress callsLeft hprogress
    ⟨exec_invariant hkeep hinit hrun, hcount, hrunning⟩ with
    ⟨calls, u, hcalls, hexec, hu, hexited⟩
  exact ⟨calls, u, hcalls, hexec, hu.inv, hexited⟩

end

/-!
## The splice/tee broadcaster
-/

namespace Proxy

/-- The calls that are left when every call moves one byte. -/
def callsLeft (s : State alpha) : Nat :=
  match s.pc with
  | .call .spliceSource => 4 * s.source.length + 1
  | .call .tee => 4 * s.source.length + 4
  | .call .spliceSub0 => 4 * s.source.length + 3
  | .call .spliceSub1 => 4 * s.source.length + 2
  | .exited => 0
  | .aborted _ => 0

theorem spliceSource_pos {capacity n : Nat} {s next : State alpha}
    (h : spliceSource capacity s (some n) = some next) (hpc : next.pc ≠ .exited) : 0 < n := by
  cases n with
  | zero =>
      rcases Option.ite_none_right_eq_some.mp h with ⟨_, hnext⟩
      cases hnext
      exact absurd rfl hpc
  | succ n => exact Nat.succ_pos n

theorem callsLeft_step {capacity : Nat} {s next : State alpha} {e : Event Call}
    (hsource : e.call = .spliceSource -> ¬ e.Failed)
    (hstep : step capacity s e = some next) : callsLeft next < callsLeft s := by
  rcases step_cases hstep with ⟨hcall, hpc, h⟩ | ⟨_, hpc, h⟩ | ⟨_, hpc, h⟩ | ⟨_, hpc, h⟩
  · rcases spliceSource_cases h with ⟨hr, _⟩ | ⟨_, _, rfl⟩ | ⟨n, hr, hn, _, rfl⟩
    · exact absurd hr (hsource hcall)
    · simp [callsLeft, hpc]
    · rw [hr] at h
      have hpos := spliceSource_pos h (by simp)
      simp only [callsLeft, hpc, List.length_drop]
      lia
  · rcases tee_cases h with ⟨copied, left, _, rfl⟩
    rcases assertEq_cases "t == n" e.result s.n Call.spliceSub0 with ⟨_, hnext⟩ | ⟨_, hnext⟩ <;>
      simp [callsLeft, hpc, hnext]
  · rcases spliceSub0_cases h with ⟨moved, left, _, rfl⟩
    rcases assertEq_cases "s == n" e.result s.n Call.spliceSub1 with ⟨_, hnext⟩ | ⟨_, hnext⟩ <;>
      simp [callsLeft, hpc, hnext]
  · rcases spliceSub1_cases h with ⟨moved, left, _, rfl⟩
    rcases assertEq_cases "s == n" e.result s.n Call.spliceSource with ⟨_, hnext⟩ | ⟨_, hnext⟩ <;>
      simp [callsLeft, hpc, hnext]

def nextCount (s : State alpha) : Nat := min 1 s.source.length

theorem step_spliceSource {capacity : Nat} {s : State alpha} (hcapacity : 0 < capacity)
    (hpc : s.pc = .call .spliceSource) (hmain : s.mainP = []) :
    exists next, step capacity s ⟨.spliceSource, some (nextCount s)⟩ = some next ∧
      ¬ next.pc.Aborted := by
  cases hsource : s.source with
  | nil =>
      refine ⟨{ s with n := some 0, pc := .exited }, ?_, not_aborted_of_exited rfl⟩
      simp [step, hpc, nextCount, spliceSource, hsource]
  | cons byte rest =>
      refine ⟨{ s with
        source := s.source.drop 1
        mainP := s.mainP ++ s.source.take 1
        n := some 1
        pc := .call .tee }, ?_, not_aborted_of_call rfl⟩
      have hone : 1 ≤ chunk ∧ 1 ≤ s.source.length ∧ s.mainP.length + 1 ≤ capacity := by
        refine ⟨by decide, ?_, ?_⟩
        · rw [hsource]
          exact Nat.succ_pos _
        · rw [hmain]
          exact hcapacity
      have hcount : nextCount s = 1 := Nat.min_eq_left hone.right.left
      simp only [step, hpc, if_pos, spliceSource, hcount]
      rw [if_pos hone]

theorem step_tee {capacity : Nat} {s : State alpha} (hpc : s.pc = .call .tee)
    (hlimit : forall m, s.n = some m -> m ≤ teeLimit capacity s) :
    exists next, step capacity s ⟨.tee, s.n⟩ = some next ∧ ¬ next.pc.Aborted := by
  rcases transfer_chunk s.mainP hlimit with ⟨copied, left, htransfer⟩
  refine ⟨{ s with subP := s.subP ++ copied, pc := .call .spliceSub0 }, ?_,
    not_aborted_of_call rfl⟩
  simp only [step, hpc, if_pos, tee, htransfer, assertEq_self]

theorem step_spliceSub0 {capacity : Nat} {s : State alpha} (hpc : s.pc = .call .spliceSub0)
    (hcounts : Counts s.n s.subP) :
    exists next, step capacity s ⟨.spliceSub0, s.n⟩ = some next ∧ ¬ next.pc.Aborted := by
  rcases transfer_chunk s.subP (counts_le_min hcounts) with ⟨moved, left, htransfer⟩
  refine ⟨{ s with subP := left, sub0 := s.sub0 ++ moved, pc := .call .spliceSub1 }, ?_,
    not_aborted_of_call rfl⟩
  simp only [step, hpc, if_pos, spliceSub0, htransfer, assertEq_self]

theorem step_spliceSub1 {capacity : Nat} {s : State alpha} (hpc : s.pc = .call .spliceSub1)
    (hcounts : Counts s.n s.mainP) :
    exists next, step capacity s ⟨.spliceSub1, s.n⟩ = some next ∧ ¬ next.pc.Aborted := by
  rcases transfer_chunk s.mainP (counts_le_min hcounts) with ⟨moved, left, htransfer⟩
  refine ⟨{ s with mainP := left, sub1 := s.sub1 ++ moved, pc := .call .spliceSource }, ?_,
    not_aborted_of_call rfl⟩
  simp only [step, hpc, if_pos, spliceSub1, htransfer, assertEq_self]

/-- Where the program has not aborted, the next call can do what is expected of it. -/
theorem call_possible {capacity : Nat} {input : List alpha} {s : State alpha}
    (hcapacity : 0 < capacity) (hinv : Inv capacity input s)
    (hcount : HasCount .spliceSource s.n s.pc) (hrunning : ¬ s.pc.Aborted) :
    s.pc = .exited ∨
      exists e next, ¬ e.Failed ∧ step capacity s e = some next ∧ ¬ next.pc.Aborted := by
  cases hpc : s.pc with
  | exited => exact .inl rfl
  | aborted assertion => exact absurd ⟨assertion, hpc⟩ hrunning
  | call c =>
      right
      simp only [Inv, hpc] at hinv
      rw [hpc] at hcount
      cases c with
      | spliceSource =>
          rcases step_spliceSource hcapacity hpc hinv.left with ⟨next, hstep⟩
          exact ⟨⟨.spliceSource, some (nextCount s)⟩, next, Option.some_ne_none _, hstep⟩
      | tee =>
          rcases hinv with ⟨hcounts, hroom, hsub, _⟩
          rcases step_tee hpc fun m hm => Nat.le_of_eq (teeLimit_eq hm hcounts hroom hsub).symm with
            ⟨next, hstep⟩
          exact ⟨⟨.tee, s.n⟩, next, hcount.later (by simp), hstep⟩
      | spliceSub0 =>
          rcases hinv with ⟨hcounts, hsub, _⟩
          rcases step_spliceSub0 hpc (hsub ▸ hcounts) with ⟨next, hstep⟩
          exact ⟨⟨.spliceSub0, s.n⟩, next, hcount.later (by simp), hstep⟩
      | spliceSub1 =>
          rcases step_spliceSub1 hpc hinv.left with ⟨next, hstep⟩
          exact ⟨⟨.spliceSub1, s.n⟩, next, hcount.later (by simp), hstep⟩

end Proxy

/-!
## The read/write broadcaster
-/

namespace ProxyNaive

def callsLeft (s : State alpha) : Nat :=
  match s.pc with
  | .call .read => 3 * s.source.length + 1
  | .call .write0 => 3 * s.source.length + 3
  | .call .write1 => 3 * s.source.length + 2
  | .exited => 0
  | .aborted _ => 0

theorem read_bounds {n : Nat} {s next : State alpha} (h : read s (some n) = some next)
    (hpc : next.pc ≠ .exited) : 0 < n ∧ n ≤ chunk ∧ n ≤ s.source.length := by
  cases n with
  | zero =>
      rcases Option.ite_none_right_eq_some.mp h with ⟨_, hnext⟩
      cases hnext
      exact absurd rfl hpc
  | succ n =>
      rcases Option.ite_none_right_eq_some.mp h with ⟨hn, _⟩
      exact ⟨Nat.succ_pos n, hn.left, hn.right⟩

theorem callsLeft_step {s next : State alpha} {e : Event Call}
    (hsource : e.call = .read -> ¬ e.Failed) (hstep : step s e = some next) :
    callsLeft next < callsLeft s := by
  rcases step_cases hstep with ⟨hcall, hpc, h⟩ | ⟨_, hpc, h⟩ | ⟨_, hpc, h⟩
  · rcases read_cases h with ⟨hr, _⟩ | ⟨_, _, rfl⟩ | ⟨n, hr, rfl⟩
    · exact absurd hr (hsource hcall)
    · simp [callsLeft, hpc]
    · rw [hr] at h
      rcases read_bounds h (by simp) with ⟨hpos, _, hle⟩
      simp only [callsLeft, hpc, List.length_drop]
      lia
  · rcases write0_cases h with ⟨moved, left, _, rfl⟩
    rcases assertEq_cases "w == n" e.result s.n Call.write1 with ⟨_, hnext⟩ | ⟨_, hnext⟩ <;>
      simp [callsLeft, hpc, hnext]
  · rcases write1_cases h with ⟨moved, left, _, rfl⟩
    rcases assertEq_cases "w == n" e.result s.n Call.read with ⟨_, hnext⟩ | ⟨_, hnext⟩ <;>
      simp [callsLeft, hpc, hnext]

/-- The count is that of a chunk: no write is asked for more than it can send. -/
def CountLe (s : State alpha) : Prop :=
  forall n, s.n = some n -> n ≤ chunk

theorem countLe_step {s next : State alpha} {e : Event Call} (h : CountLe s)
    (hstep : step s e = some next) : CountLe next := by
  rcases step_cases hstep with ⟨_, _, hread⟩ | ⟨_, _, hwrite⟩ | ⟨_, _, hwrite⟩
  · rcases read_cases hread with ⟨_, rfl⟩ | ⟨_, _, rfl⟩ | ⟨n, hr, rfl⟩
    · intro m hm
      cases hm
    · intro m hm
      cases hm
      exact Nat.zero_le _
    · rw [hr] at hread
      intro m hm
      cases hm
      exact (read_bounds hread (by simp)).right.left
  · rcases write0_cases hwrite with ⟨_, _, _, rfl⟩
    exact h
  · rcases write1_cases hwrite with ⟨_, _, _, rfl⟩
    exact h

structure Sound (input : List alpha) (s : State alpha) : Prop where
  inv : Inv input s
  countLe : CountLe s

theorem sound_start (input : List alpha) : Sound input (start input) where
  inv := inv_start input
  countLe := by
    intro n hn
    cases hn
    exact Nat.zero_le _

theorem sound_step {input : List alpha} {s next : State alpha} {e : Event Call}
    (h : Sound input s) (hstep : step s e = some next) : Sound input next where
  inv := inv_step h.inv hstep
  countLe := countLe_step h.countLe hstep

theorem written_chunk {s : State alpha} (h : CountLe s) :
    exists moved left, written s s.n = some (moved, left) := by
  unfold written
  cases hn : s.n with
  | none => exact ⟨[], s.buf, rfl⟩
  | some n =>
      have hle : n ≤ ssizeMax := Nat.le_trans (h n hn) (by decide)
      rw [if_neg fun hmore => absurd hle (Nat.not_le.mpr hmore.left)]
      exact transfer_chunk s.buf fun m hm => Nat.le_of_eq (Option.some.inj hm).symm

def nextCount (s : State alpha) : Nat := min 1 s.source.length

theorem step_read {s : State alpha} (hpc : s.pc = .call .read) :
    exists next, step s ⟨.read, some (nextCount s)⟩ = some next ∧ ¬ next.pc.Aborted := by
  cases hsource : s.source with
  | nil =>
      refine ⟨{ s with n := some 0, pc := .exited }, ?_, not_aborted_of_exited rfl⟩
      simp [step, hpc, nextCount, read, hsource]
  | cons byte rest =>
      refine ⟨{ s with
        source := s.source.drop 1
        buf := s.source.take 1
        n := some 1
        pc := .call .write0 }, ?_, not_aborted_of_call rfl⟩
      have hone : 1 ≤ chunk ∧ 1 ≤ s.source.length := by
        refine ⟨by decide, ?_⟩
        rw [hsource]
        exact Nat.succ_pos _
      have hcount : nextCount s = 1 := Nat.min_eq_left hone.right
      simp only [step, hpc, if_pos, read, hcount]
      rw [if_pos hone]

theorem step_write0 {s : State alpha} (hpc : s.pc = .call .write0) (hn : CountLe s) :
    exists next, step s ⟨.write0, s.n⟩ = some next ∧ ¬ next.pc.Aborted := by
  rcases written_chunk hn with ⟨moved, left, hwritten⟩
  refine ⟨{ s with sub0 := s.sub0 ++ moved, pc := .call .write1 }, ?_, not_aborted_of_call rfl⟩
  simp only [step, hpc, if_pos, write0, hwritten, assertEq_self]

theorem step_write1 {s : State alpha} (hpc : s.pc = .call .write1) (hn : CountLe s) :
    exists next, step s ⟨.write1, s.n⟩ = some next ∧ ¬ next.pc.Aborted := by
  rcases written_chunk hn with ⟨moved, left, hwritten⟩
  refine ⟨{ s with sub1 := s.sub1 ++ moved, pc := .call .read }, ?_, not_aborted_of_call rfl⟩
  simp only [step, hpc, if_pos, write1, hwritten, assertEq_self]

theorem call_possible {input : List alpha} {s : State alpha} (hsound : Sound input s)
    (hcount : HasCount .read s.n s.pc) (hrunning : ¬ s.pc.Aborted) :
    s.pc = .exited ∨
      exists e next, ¬ e.Failed ∧ step s e = some next ∧ ¬ next.pc.Aborted := by
  cases hpc : s.pc with
  | exited => exact .inl rfl
  | aborted assertion => exact absurd ⟨assertion, hpc⟩ hrunning
  | call c =>
      right
      rw [hpc] at hcount
      cases c with
      | read =>
          rcases step_read hpc with ⟨next, hstep⟩
          exact ⟨⟨.read, some (nextCount s)⟩, next, Option.some_ne_none _, hstep⟩
      | write0 =>
          rcases step_write0 hpc hsound.countLe with ⟨next, hstep⟩
          exact ⟨⟨.write0, s.n⟩, next, hcount.later (by simp), hstep⟩
      | write1 =>
          rcases step_write1 hpc hsound.countLe with ⟨next, hstep⟩
          exact ⟨⟨.write1, s.n⟩, next, hcount.later (by simp), hstep⟩

end ProxyNaive

/--
A broadcaster whose source call does not fail makes at most four calls, or three, for
each byte of the source and one for its end; and as long as it has not aborted, calls
that succeed are possible that end it with the whole source at both subscribers.
-/
theorem broadcasters_complete (capacity : Nat) (input : List alpha) (hcapacity : 0 < capacity) :
    (forall (es : List (Event Proxy.Call)) (s : Proxy.State alpha),
      exec (Proxy.step capacity) (Proxy.start input) es = some s ->
        SourceSucceeds .spliceSource es ->
        es.length ≤ 4 * input.length + 1 ∧
        (¬ s.pc.Aborted ->
          exists calls t, (forall e, e ∈ calls -> ¬ e.Failed) ∧
            exec (Proxy.step capacity) s calls = some t ∧ t.pc = .exited ∧
            t.sub0 = input ∧ t.sub1 = input)) ∧
    (forall (es : List (Event ProxyNaive.Call)) (s : ProxyNaive.State alpha),
      exec ProxyNaive.step (ProxyNaive.start input) es = some s ->
        SourceSucceeds .read es ->
        es.length ≤ 3 * input.length + 1 ∧
        (¬ s.pc.Aborted ->
          exists calls t, (forall e, e ∈ calls -> ¬ e.Failed) ∧
            exec ProxyNaive.step s calls = some t ∧ t.pc = .exited ∧
            t.sub0 = input ∧ t.sub1 = input)) := by
  constructor
  · intro es s hrun hsource
    refine ⟨length_le_of_callsLeft Proxy.callsLeft_step hrun hsource, fun hrunning => ?_⟩
    rcases completes_of_callsLeft Proxy.loopStep Proxy.inv_step Proxy.callsLeft_step
      (Proxy.call_possible hcapacity) (Proxy.inv_start capacity input) rfl hrun hsource hrunning
      with ⟨calls, t, hcalls, hexec, hinv, hexited⟩
    exact ⟨calls, t, hcalls, hexec, hexited, hinv.delivers.at_exit hexited⟩
  · intro es s hrun hsource
    refine ⟨length_le_of_callsLeft ProxyNaive.callsLeft_step hrun hsource, fun hrunning => ?_⟩
    rcases completes_of_callsLeft ProxyNaive.loopStep ProxyNaive.sound_step
      ProxyNaive.callsLeft_step ProxyNaive.call_possible (ProxyNaive.sound_start input) rfl hrun
      hsource hrunning with ⟨calls, t, hcalls, hexec, hsound, hexited⟩
    exact ⟨calls, t, hcalls, hexec, hexited, hsound.inv.delivers.at_exit hexited⟩

theorem broadcasters_complete_seven :
    exists s : Proxy.State Nat,
      exec (Proxy.step chunk) (Proxy.start [7, 8, 9])
        [⟨.spliceSource, some 2⟩, ⟨.tee, some 2⟩] = some s ∧
        exists calls t, (forall e, e ∈ calls -> ¬ e.Failed) ∧
          exec (Proxy.step chunk) s calls = some t ∧ t.pc = .exited ∧
          t.sub0 = [7, 8, 9] ∧ t.sub1 = [7, 8, 9] := by
  have hrun : exists s : Proxy.State Nat,
      exec (Proxy.step chunk) (Proxy.start [7, 8, 9])
        [⟨.spliceSource, some 2⟩, ⟨.tee, some 2⟩] = some s ∧ s.pc = .call .spliceSub0 :=
    ⟨_, rfl, rfl⟩
  rcases hrun with ⟨s, hrun, hpc⟩
  have hcomplete := broadcasters_complete chunk [7, 8, 9] (by decide)
  have hsource : SourceSucceeds Proxy.Call.spliceSource
      [⟨.spliceSource, some 2⟩, ⟨.tee, some 2⟩] := by
    simp [SourceSucceeds, Event.Failed]
  exact ⟨s, hrun, (hcomplete.left _ s hrun hsource).right (not_aborted_of_call hpc)⟩

end TeeSplice
end VidsContent
