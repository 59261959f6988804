import VidsContent.TeeSplice.ProxyNaive
import VidsContent.TeeSplice.Proxy

/-!
# The broadcasters side by side

The two broadcasters deliver the same streams, and fail in the same way: an
assertion compares the result of a call with the chunk's count, so a call that
fails after the source call failed passes it.
-/

namespace VidsContent
namespace TeeSplice

open Transition Broadcaster

/-!
## The same streams
-/

/--
Every run of either broadcaster delivers its source to both subscribers.  In the
splice/tee broadcaster nothing is left in the pipes between two rounds, and the
assertion after `tee` holds where no call fails and `tee` copies all it can.
-/
theorem broadcasters_deliver (capacity : Nat) (input : List alpha) :
    (forall (es : List (Event Proxy.Call)) (s : Proxy.State alpha),
      exec (Proxy.step capacity) (Proxy.start input) es = some s ->
        (s.pc = .call .spliceSource -> s.mainP = [] ∧ s.subP = []) ∧
        (AllSteps (Proxy.step capacity) (Proxy.FullTee capacity)
          (Proxy.start input) es -> s.pc ≠ .aborted "t == n") ∧
        Delivers input .spliceSource s.toStreams s.pc) ∧
    (forall (es : List (Event ProxyNaive.Call)) (s : ProxyNaive.State alpha),
      exec ProxyNaive.step (ProxyNaive.start input) es = some s ->
        Delivers input .read s.toStreams s.pc) := by
  constructor
  · intro es s hrun
    have hdelivers := (Proxy.inv_run hrun).delivers
    exact ⟨Proxy.pipes_empty hrun, Proxy.tee_assertion_holds hrun, hdelivers⟩
  · intro es s hrun
    exact ProxyNaive.delivers hrun

def threeSpliced : List (Event Proxy.Call) :=
  [⟨.spliceSource, some 2⟩, ⟨.tee, some 2⟩, ⟨.spliceSub0, some 2⟩, ⟨.spliceSub1, some 2⟩,
    ⟨.spliceSource, some 1⟩, ⟨.tee, some 1⟩, ⟨.spliceSub0, some 1⟩, ⟨.spliceSub1, some 1⟩,
    ⟨.spliceSource, some 0⟩]

def threeWritten : List (Event ProxyNaive.Call) :=
  [⟨.read, some 1⟩, ⟨.write0, some 1⟩, ⟨.write1, some 1⟩, ⟨.read, some 2⟩,
    ⟨.write0, some 2⟩, ⟨.write1, some 2⟩, ⟨.read, some 0⟩]

theorem broadcasters_deliver_abc :
    (exists s, exec (Proxy.step chunk) (Proxy.start [1, 2, 3]) threeSpliced = some s ∧
      s.pc = .exited ∧ s.sub0 = [1, 2, 3] ∧ s.sub1 = [1, 2, 3]) ∧
    (exists s, exec (Proxy.step chunk) (Proxy.start [1, 2, 3]) (threeSpliced.take 6) = some s ∧
      s.pc ≠ .aborted "t == n") ∧
    (exists t, exec ProxyNaive.step (ProxyNaive.start [1, 2, 3]) threeWritten = some t ∧
      t.pc = .exited ∧ t.sub0 = [1, 2, 3] ∧ t.sub1 = [1, 2, 3]) := by
  have hproxy : exists s,
      exec (Proxy.step chunk) (Proxy.start [1, 2, 3]) threeSpliced = some s ∧ s.pc = .exited :=
    ⟨_, rfl, rfl⟩
  have htee : exists s,
      exec (Proxy.step chunk) (Proxy.start [1, 2, 3]) (threeSpliced.take 6) = some s :=
    ⟨_, rfl⟩
  have hnaive : exists t,
      exec ProxyNaive.step (ProxyNaive.start [1, 2, 3]) threeWritten = some t ∧ t.pc = .exited :=
    ⟨_, rfl, rfl⟩
  have hdeliver := broadcasters_deliver chunk [1, 2, 3]
  refine ⟨?_, ?_, ?_⟩
  · rcases hproxy with ⟨s, hs, hexited⟩
    have hboth := (hdeliver.left _ s hs).right.right.at_exit hexited
    exact ⟨s, hs, hexited, hboth.left, hboth.right⟩
  · rcases htee with ⟨s, hs⟩
    exact ⟨s, hs, (hdeliver.left _ s hs).right.left (by decide)⟩
  · rcases hnaive with ⟨t, ht, hexited⟩
    have hboth := (hdeliver.right _ t ht).at_exit hexited
    exact ⟨t, ht, hexited, hboth.left, hboth.right⟩

/-!
## Failed transfers
-/

/--
In every run of either broadcaster whose source call never fails, a failed call
ends the run at a failed assertion.  A run that reaches the normal exit has lost
a failure exactly when its source call failed.
-/
theorem failed_transfer_aborts (capacity : Nat) (input : List alpha) :
    (forall (es : List (Event Proxy.Call)) (s : Proxy.State alpha),
      exec (Proxy.step capacity) (Proxy.start input) es = some s ->
        (SourceSucceeds .spliceSource es -> FailureAborts es s.pc) ∧
        (s.pc = .exited ->
          (FailureAborts es s.pc <-> SourceSucceeds .spliceSource es))) ∧
    (forall (es : List (Event ProxyNaive.Call)) (s : ProxyNaive.State alpha),
      exec ProxyNaive.step (ProxyNaive.start input) es = some s ->
        (SourceSucceeds .read es -> FailureAborts es s.pc) ∧
        (s.pc = .exited -> (FailureAborts es s.pc <-> SourceSucceeds .read es))) := by
  constructor
  · intro es s hrun
    have haborts := Proxy.failureAborts hrun
    constructor
    · exact haborts
    · intro hexited
      rw [hexited] at haborts ⊢
      exact failureAborts_exited_iff haborts
  · intro es s hrun
    have haborts := ProxyNaive.failureAborts hrun
    constructor
    · exact haborts
    · intro hexited
      rw [hexited] at haborts ⊢
      exact failureAborts_exited_iff haborts

theorem failed_transfer_aborts_seven :
    (exists s,
      exec (Proxy.step chunk) (Proxy.start [7])
        [⟨.spliceSource, some 1⟩, ⟨.tee, some 1⟩, ⟨.spliceSub0, none⟩] = some s ∧
      s.pc.Aborted) ∧
    (exists t,
      exec ProxyNaive.step (ProxyNaive.start [7]) [⟨.read, some 1⟩, ⟨.write0, none⟩] = some t ∧
      t.pc.Aborted) := by
  have hproxy : exists s,
      exec (Proxy.step chunk) (Proxy.start [7])
        [⟨.spliceSource, some 1⟩, ⟨.tee, some 1⟩, ⟨.spliceSub0, none⟩] = some s :=
    ⟨_, rfl⟩
  have hnaive : exists t,
      exec ProxyNaive.step (ProxyNaive.start [7]) [⟨.read, some 1⟩, ⟨.write0, none⟩] = some t :=
    ⟨_, rfl⟩
  have haborts := failed_transfer_aborts chunk [7]
  constructor
  · rcases hproxy with ⟨s, hs⟩
    refine ⟨s, hs, (haborts.left _ s hs).left ?_ ?_⟩
    · simp [SourceSucceeds, Event.Failed]
    · exact ⟨⟨.spliceSub0, none⟩, by simp, rfl⟩
  · rcases hnaive with ⟨t, ht⟩
    refine ⟨t, ht, (haborts.right _ t ht).left ?_ ?_⟩
    · simp [SourceSucceeds, Event.Failed]
    · exact ⟨⟨.write0, none⟩, by simp, rfl⟩

/--
The source call fails and so do the calls that are passed its result; the next
round reads the whole source and the one after it finds the end.
-/
theorem failed_source_exits :
    (exists (es : List (Event Proxy.Call)) (s : Proxy.State Nat),
      exec (Proxy.step chunk) (Proxy.start [7]) es = some s ∧
        s.pc = .exited ∧ ¬ FailureAborts es s.pc) ∧
    (exists (es : List (Event ProxyNaive.Call)) (s : ProxyNaive.State Nat),
      exec ProxyNaive.step (ProxyNaive.start [7]) es = some s ∧
        s.pc = .exited ∧ ¬ FailureAborts es s.pc) := by
  constructor
  · refine ⟨[⟨.spliceSource, none⟩, ⟨.tee, none⟩, ⟨.spliceSub0, none⟩,
      ⟨.spliceSub1, none⟩, ⟨.spliceSource, some 1⟩, ⟨.tee, some 1⟩,
      ⟨.spliceSub0, some 1⟩, ⟨.spliceSub1, some 1⟩, ⟨.spliceSource, some 0⟩],
      _, rfl, rfl, ?_⟩
    intro haborts
    rcases haborts ⟨⟨.spliceSource, none⟩, by simp, rfl⟩ with ⟨assertion, hpc⟩
    cases hpc
  · refine ⟨[⟨.read, none⟩, ⟨.write0, none⟩, ⟨.write1, none⟩, ⟨.read, some 1⟩,
      ⟨.write0, some 1⟩, ⟨.write1, some 1⟩, ⟨.read, some 0⟩], _, rfl, rfl, ?_⟩
    intro haborts
    rcases haborts ⟨⟨.read, none⟩, by simp, rfl⟩ with ⟨assertion, hpc⟩
    cases hpc

end TeeSplice
end VidsContent
