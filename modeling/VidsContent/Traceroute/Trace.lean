import VidsContent.Traceroute.Attribution

/-!
# The trace as a whole

Whatever the network does, `main` sends a probe for one `ttl` after the other, prints a
line for each, and comes to an end.  Where every datagram is in time the lines
are the route.
-/

namespace VidsContent
namespace Traceroute

open Transition

def isCall : Event -> Bool
  | .send _ => true
  | .recv _ => true
  | _ => false

def Line.ttl : Line -> Nat
  | .timeout ttl => ttl
  | .received ttl _ => ttl

/-!
## What a step does to the trace
-/

theorem step_network {source destination : UInt32} {s next : State} {e : Event}
    (hnetwork : isCall e = false) (hstep : step source destination s e = some next) :
    next.output = s.output ∧ next.sent = s.sent ∧ next.pc = s.pc := by
  cases e with
  | send err => cases hnetwork
  | recv packet => cases hnetwork
  | answer probe node bytes =>
      rcases Option.ite_none_right_eq_some.mp hstep with ⟨_, hnext⟩
      cases hnext
      exact ⟨rfl, rfl, rfl⟩
  | deliver i =>
      simp only [step] at hstep
      split at hstep
      · cases hstep
      · rcases Option.ite_none_right_eq_some.mp hstep with ⟨_, hnext⟩
        cases hnext
        exact ⟨rfl, rfl, rfl⟩
  | lose i =>
      rcases Option.ite_none_right_eq_some.mp hstep with ⟨_, hnext⟩
      cases hnext
      exact ⟨rfl, rfl, rfl⟩
  | foreign src bytes =>
      rcases Option.ite_none_right_eq_some.mp hstep with ⟨_, hnext⟩
      cases hnext
      exact ⟨rfl, rfl, rfl⟩

theorem step_send {source destination : UInt32} {s next : State} {err : Int}
    (hstep : step source destination s (.send err) = some next) :
    exists ttl, s.pc = .send ttl ∧ next.output = s.output ∧
      ((exists assertion, next.sent = s.sent ∧ next.pc = .aborted assertion) ∨
        (next.sent = s.sent ++ [probeOf source destination ttl] ∧ next.pc = .recv ttl)) := by
  cases hpc : s.pc with
  | send ttl =>
      simp only [step, hpc] at hstep
      split at hstep
      · cases hstep
        exact ⟨ttl, rfl, rfl, .inl ⟨_, rfl, rfl⟩⟩
      · cases hstep
        exact ⟨ttl, rfl, rfl, .inr ⟨rfl, rfl⟩⟩
  | _ => simp [step, hpc] at hstep

def Prints (s : State) (ttl : Nat) (next : State) : Prop :=
  next.sent = s.sent ∧
    ((exists assertion, next.output = s.output ∧ next.pc = .aborted assertion) ∨
      (exists line, line.ttl = ttl ∧ next.output = s.output ++ [line] ∧
        (next.pc = nextTtl ttl ∨
          exists d, next.pc = .exited (some d) ∧ line = .received ttl d.src)))

theorem prints_afterRecvfrom (s : State) (ttl : Nat) (packet : List UInt8)
    (datagram : Option Datagram) : Prints s ttl (afterRecvfrom s ttl packet datagram) := by
  unfold afterRecvfrom
  split
  · exact ⟨rfl, .inl ⟨_, rfl, rfl⟩⟩
  · rename_i ret hret
    split
    · exact ⟨rfl, .inr ⟨.timeout ttl, rfl, rfl, .inl rfl⟩⟩
    · rename_i hanswer
      cases datagram with
      | none =>
          -- without a datagram the result is always -1
          exact absurd (Except.ok.inj hret).symm hanswer
      | some d =>
          refine ⟨rfl, .inr ⟨.received ttl d.src, rfl, rfl, ?_⟩⟩
          simp only
          split
          · exact .inr ⟨d, rfl, rfl⟩
          · exact .inl rfl

theorem step_recv {source destination : UInt32} {s next : State} {packet : List UInt8}
    (hstep : step source destination s (.recv packet) = some next) :
    exists ttl, s.pc = .recv ttl ∧ Prints s ttl next := by
  cases hpc : s.pc with
  | recv ttl =>
      simp only [step, hpc] at hstep
      refine ⟨ttl, rfl, ?_⟩
      rw [← Option.some.inj hstep]
      unfold recv
      split
      · exact prints_afterRecvfrom s ttl packet none
      · rename_i d rest _
        exact prints_afterRecvfrom { s with socket := rest } ttl packet (some d)
  | _ => simp [step, hpc] at hstep

/-!
## The numbers of the lines
-/

/-- The loop variable counts the lines, and a probe is ahead of its line. -/
def Place (s : State) : Prop :=
  match s.pc with
  | .send ttl => ttl = s.output.length + 1 ∧ s.sent.length = s.output.length ∧ ttl < 32
  | .recv ttl => ttl = s.output.length + 1 ∧ s.sent.length = s.output.length + 1 ∧ ttl < 32
  | .exited none => s.output.length = 31 ∧ s.sent.length = 31
  | .exited (some d) =>
      s.sent.length = s.output.length ∧ s.output.length < 32 ∧
        s.output.getLast? = some (.received s.output.length d.src)
  | .aborted _ =>
      s.output.length ≤ s.sent.length ∧ s.sent.length ≤ s.output.length + 1 ∧ s.sent.length < 32

structure Numbered (source destination : UInt32) (s : State) : Prop where
  lines : s.output.map Line.ttl = List.range' 1 s.output.length
  probes : s.sent = (List.range' 1 s.sent.length).map (probeOf source destination)
  place : Place s

theorem numbered_start (source destination : UInt32) : Numbered source destination start where
  lines := rfl
  probes := rfl
  place := ⟨rfl, rfl, by decide⟩

theorem place_nextTtl {s : State} {ttl : Nat} (hpc : s.pc = nextTtl ttl)
    (houtput : s.output.length = ttl) (hsent : s.sent.length = ttl) (hlt : ttl < 32) : Place s := by
  unfold nextTtl at hpc
  unfold Place
  split at hpc
  · rw [hpc]
    exact ⟨by lia, by lia, by assumption⟩
  · rw [hpc]
    exact ⟨by lia, by lia⟩

theorem range'_concat_map {beta : Type} (f : Nat -> beta) (n : Nat) :
    (List.range' 1 (n + 1)).map f = (List.range' 1 n).map f ++ [f (n + 1)] := by
  rw [List.range'_1_concat, List.map_append, Nat.add_comm 1 n]
  rfl

theorem numbered_step {source destination : UInt32} {s next : State} {e : Event}
    (h : Numbered source destination s) (hstep : step source destination s e = some next) :
    Numbered source destination next := by
  have hplace := h.place
  cases hcall : isCall e with
  | false =>
      rcases step_network hcall hstep with ⟨houtput, hsent, hpc⟩
      unfold Place at hplace
      constructor
      · rw [houtput]
        exact h.lines
      · rw [hsent]
        exact h.probes
      · unfold Place
        rw [houtput, hsent, hpc]
        exact hplace
  | true =>
      cases e with
      | send err =>
          rcases step_send hstep with ⟨ttl, hpc, houtput, hcases⟩
          simp only [Place, hpc] at hplace
          rcases hplace with ⟨rfl, hsent, hlt⟩
          have hlines : next.output.map Line.ttl = List.range' 1 next.output.length := by
            rw [houtput]
            exact h.lines
          rcases hcases with ⟨assertion, hsame, hnext⟩ | ⟨hmore, hnext⟩
          · refine ⟨hlines, by rw [hsame]; exact h.probes, ?_⟩
            simp only [Place, hnext, houtput, hsame]
            lia
          · have hlength : next.sent.length = s.output.length + 1 := by
              rw [hmore, List.length_append, hsent]
              rfl
            refine ⟨hlines, ?_, ?_⟩
            · rw [hlength, range'_concat_map, hmore, h.probes, hsent]
            · simp only [Place, hnext, houtput, hlength]
              exact ⟨trivial, trivial, hlt⟩
      | recv packet =>
          rcases step_recv hstep with ⟨ttl, hpc, hsent, hcases⟩
          simp only [Place, hpc] at hplace
          rcases hplace with ⟨rfl, hahead, hlt⟩
          have hprobes : next.sent =
              (List.range' 1 next.sent.length).map (probeOf source destination) := by
            rw [hsent]
            exact h.probes
          rcases hcases with ⟨assertion, houtput, hnext⟩ | ⟨line, hline, houtput, hgoes⟩
          · refine ⟨by rw [houtput]; exact h.lines, hprobes, ?_⟩
            simp only [Place, hnext, houtput, hsent]
            lia
          · have hlength : next.output.length = s.output.length + 1 := by
              rw [houtput, List.length_append]
              rfl
            refine ⟨?_, hprobes, ?_⟩
            · rw [hlength, List.range'_1_concat, houtput, List.map_append, h.lines,
                Nat.add_comm 1, ← hline]
              rfl
            · rcases hgoes with hnext | ⟨d, hnext, rfl⟩
              · exact place_nextTtl hnext hlength (by rw [hsent, hahead]) hlt
              · simp only [Place, hnext, hlength]
                refine ⟨by rw [hsent, hahead], hlt, ?_⟩
                rw [houtput, List.getLast?_append]
                rfl
      | _ => cases hcall

theorem numbered_run {source destination : UInt32} {s : State} {es : List Event}
    (hrun : exec (step source destination) start es = some s) : Numbered source destination s :=
  exec_invariant numbered_step (numbered_start source destination) hrun

/-!
## The end
-/

def callsLeft (s : State) : Nat :=
  match s.pc with
  | .send ttl => 2 * (32 - ttl)
  | .recv ttl => 2 * (32 - ttl) - 1
  | _ => 0

theorem callsLeft_nextTtl {s : State} {ttl : Nat} (hpc : s.pc = nextTtl ttl) :
    callsLeft s ≤ 2 * (31 - ttl) := by
  unfold nextTtl at hpc
  unfold callsLeft
  split at hpc
  · rw [hpc]
    simp only
    lia
  · rw [hpc]
    exact Nat.zero_le _

theorem callsLeft_call {source destination : UInt32} {s next : State} {e : Event}
    (h : Numbered source destination s) (hcall : isCall e = true)
    (hstep : step source destination s e = some next) : callsLeft next < callsLeft s := by
  have hplace := h.place
  cases e with
  | send err =>
      rcases step_send hstep with ⟨ttl, hpc, _, ⟨_, _, hnext⟩ | ⟨_, hnext⟩⟩
      · simp only [Place, hpc] at hplace
        simp only [callsLeft, hpc, hnext]
        lia
      · simp only [Place, hpc] at hplace
        simp only [callsLeft, hpc, hnext]
        lia
  | recv packet =>
      rcases step_recv hstep with ⟨ttl, hpc, _, hcases⟩
      simp only [Place, hpc] at hplace
      have hnow : callsLeft s = 2 * (32 - ttl) - 1 := by
        simp only [callsLeft, hpc]
      rcases hcases with ⟨_, _, hnext⟩ | ⟨_, _, _, hnext | ⟨_, hnext, _⟩⟩
      · simp only [callsLeft, hnext] at hnow ⊢
        lia
      · have hless := callsLeft_nextTtl hnext
        lia
      · simp only [callsLeft, hnext] at hnow ⊢
        lia
  | _ => cases hcall

theorem exists_call {source destination : UInt32} {s : State} (hrunning : s.pc.isRunning = true) :
    exists e, isCall e = true ∧ (step source destination s e).isSome = true := by
  cases hpc : s.pc with
  | send ttl =>
      refine ⟨.send 0, rfl, ?_⟩
      simp only [step, hpc]
      rfl
  | recv ttl =>
      refine ⟨.recv [], rfl, ?_⟩
      simp only [step, hpc]
      rfl
  | _ =>
      rw [hpc] at hrunning
      cases hrunning

/--
In every run the lines are numbered from 1 on without a gap, each for the probe with its
number; the program makes at most 62 calls, and it stops only by an assertion,
after 31 lines, or behind the line of the datagram that broke the loop.
-/
theorem trace_numbered (source destination : UInt32) (es : List Event) (s : State)
    (hrun : exec (step source destination) start es = some s) :
    s.output.map Line.ttl = List.range' 1 s.output.length ∧
      s.sent = (List.range' 1 s.sent.length).map (probeOf source destination) ∧
      s.output.length ≤ s.sent.length ∧ s.sent.length ≤ s.output.length + 1 ∧
      s.sent.length ≤ 31 ∧ es.countP isCall ≤ 62 ∧
      ((forall e, isCall e = true -> step source destination s e = none) ->
        (exists assertion, s.pc = .aborted assertion) ∨
          (s.pc = .exited none ∧ s.output.length = 31) ∨
          exists d, s.pc = .exited (some d) ∧
            s.output.getLast? = some (.received s.output.length d.src)) := by
  have hnumbered := numbered_run hrun
  have hplace := hnumbered.place
  have hcalls : es.countP isCall + callsLeft s ≤ callsLeft start := by
    have hnone (e : Event) (_ : e ∈ es) : True := trivial
    have hother {v next : State} {e : Event} (hcall : isCall e = false)
        (hstep : step source destination v e = some next) : callsLeft next ≤ callsLeft v := by
      unfold callsLeft
      rw [(step_network hcall hstep).right.right]
    exact exec_countP_le isCall callsLeft (fun h _ hstep => numbered_step h hstep)
      (fun h _ hcall hstep => callsLeft_call h hcall hstep)
      (fun _ _ hcall hstep => hother hcall hstep) (numbered_start source destination) hnone hrun
  have hsizes : s.output.length ≤ s.sent.length ∧ s.sent.length ≤ s.output.length + 1 ∧
      s.sent.length ≤ 31 := by
    unfold Place at hplace
    split at hplace <;> lia
  refine ⟨hnumbered.lines, hnumbered.probes, hsizes.left, hsizes.right.left, hsizes.right.right,
    Nat.le_trans (Nat.le_add_right _ _) hcalls, fun hstuck => ?_⟩
  cases hpc : s.pc with
  | aborted assertion => exact .inl ⟨assertion, rfl⟩
  | exited last =>
      cases last with
      | none =>
          simp only [Place, hpc] at hplace
          exact .inr (.inl ⟨rfl, hplace.left⟩)
      | some d =>
          simp only [Place, hpc] at hplace
          exact .inr (.inr ⟨d, rfl, hplace.right.right⟩)
  | _ =>
      have hrunning : s.pc.isRunning = true := by
        rw [hpc]
        rfl
      have hcall : exists e, isCall e = true ∧ (step source destination s e).isSome = true :=
        exists_call hrunning
      rcases hcall with ⟨e, he, hstep⟩
      rw [hstuck e he] at hstep
      cases hstep

theorem trace_numbered_three :
    exists es s, exec (step 0x0a01a8c0 0x08080808) start es = some s ∧
      s.output.map Line.ttl = List.range' 1 s.output.length ∧ s.output.length = 3 ∧
      es.countP isCall ≤ 62 := by
  have hrun : exists s, exec (step 0x0a01a8c0 0x08080808) start
      [.send 28, .recv [], .send 28,
        .answer (probeOf 0x0a01a8c0 0x08080808 2) 0x0101a8c0
          (answerBytes icmpTimeExceeded 0x0101a8c0 (probeOf 0x0a01a8c0 0x08080808 2)),
        .deliver 0, .recv [], .send 28,
        .answer (probeOf 0x0a01a8c0 0x08080808 3) 0x08080808
          (answerBytes icmpEchoreply 0x08080808 (probeOf 0x0a01a8c0 0x08080808 3)),
        .deliver 0, .recv []] = some s ∧ s.output.length = 3 :=
    ⟨_, rfl, by decide⟩
  rcases hrun with ⟨s, hrun, hthree⟩
  rcases trace_numbered _ _ _ s hrun with ⟨hlines, _, _, _, _, hcalls, _⟩
  exact ⟨_, s, hrun, hlines, hthree, hcalls⟩


/-!
## The route
-/

/-- A probe is answered by the node that its `ttl` reaches. -/
def AnsweredOn (route : Nat -> UInt32) : Event -> Prop
  | .answer probe node _ => node = route probe.ip.ttl.toNat
  | _ => True

def OnRoute (route : Nat -> UInt32) (s : State) : Prop :=
  forall d, d ∈ s.answers -> forall probe, d.probe = some probe ->
    d.src = route probe.ip.ttl.toNat

theorem answers_of_answer {source destination : UInt32} {s next : State} {e : Event}
    (hstep : step source destination s e = some next) :
    next.answers = s.answers ∨
      exists probe node bytes, e = .answer probe node bytes ∧
        next.answers = s.answers ++ [⟨node, bytes, some probe⟩] := by
  cases e with
  | answer probe node bytes =>
      rcases Option.ite_none_right_eq_some.mp hstep with ⟨_, hnext⟩
      cases hnext
      exact .inr ⟨probe, node, bytes, rfl, rfl⟩
  | send err =>
      left
      cases hpc : s.pc with
      | send ttl =>
          simp only [step, hpc] at hstep
          split at hstep
          · cases hstep
            rfl
          · cases hstep
            rfl
      | _ => simp [step, hpc] at hstep
  | recv packet =>
      left
      have hkept (v : State) (ttl : Nat) (datagram : Option Datagram) :
          (afterRecvfrom v ttl packet datagram).answers = v.answers := by
        unfold afterRecvfrom
        split
        · rfl
        · split
          · rfl
          · rfl
      cases hpc : s.pc with
      | recv ttl =>
          simp only [step, hpc] at hstep
          rw [← Option.some.inj hstep]
          unfold recv
          split
          · exact hkept s ttl none
          · rename_i d rest _
            exact hkept { s with socket := rest } ttl (some d)
      | _ => simp [step, hpc] at hstep
  | deliver i =>
      left
      simp only [step] at hstep
      split at hstep
      · cases hstep
      · rcases Option.ite_none_right_eq_some.mp hstep with ⟨_, hnext⟩
        cases hnext
        rfl
  | lose i =>
      left
      rcases Option.ite_none_right_eq_some.mp hstep with ⟨_, hnext⟩
      cases hnext
      rfl
  | foreign src bytes =>
      left
      rcases Option.ite_none_right_eq_some.mp hstep with ⟨_, hnext⟩
      cases hnext
      rfl

theorem onRoute_step {source destination : UInt32} {route : Nat -> UInt32} {s next : State}
    {e : Event} (h : OnRoute route s) (he : AnsweredOn route e)
    (hstep : step source destination s e = some next) : OnRoute route next := by
  rcases answers_of_answer hstep with hsame | ⟨probe, node, bytes, rfl, hmore⟩
  · unfold OnRoute
    rw [hsame]
    exact h
  · intro d hd other hother
    rw [hmore] at hd
    rcases List.mem_append.mp hd with hin | hnew
    · exact h d hin other hother
    · rw [List.mem_singleton.mp hnew] at hother ⊢
      rw [← Option.some.inj hother]
      exact he

theorem ttl_probeOf (source destination : UInt32) {ttl : Nat} (hlt : ttl < 32) :
    (probeOf source destination ttl).ip.ttl.toNat = ttl := by
  have hfield : (probeOf source destination ttl).ip.ttl =
      (Int32.ofNat ttl).toUInt32.toUInt8 := rfl
  rw [hfield]
  have hsmall : forall n : Fin 32, (Int32.ofNat n).toUInt32.toUInt8.toNat = n := by decide
  exact hsmall ⟨ttl, hlt⟩

/--
When every datagram that reaches the socket is in time and every probe is answered by
the node that its `ttl` reaches, each line is the route's node at its place or a
timeout.
-/
theorem trace_follows_route (source destination : UInt32) (route : Nat -> UInt32)
    (es : List Event) (s : State)
    (hpunctual : AllSteps (step source destination) (Punctual source destination) start es)
    (hroute : forall e, e ∈ es -> AnsweredOn route e)
    (hrun : exec (step source destination) start es = some s) :
    forall (i : Nat) (line : Line), s.output[i]? = some line ->
      line = .timeout (i + 1) ∨ line = .received (i + 1) (route (i + 1)) := by
  intro i line hline
  have hnumbered := numbered_run hrun
  have hattributes := (allStates_of_allSteps inv_step (inv_start source destination)
    hpunctual).last hrun
  have hanswers : AllSteps (step source destination) (fun _ e => AnsweredOn route e) start es :=
    allSteps_of_forall hroute
  have hon : OnRoute route s :=
    exec_guarded_invariant onRoute_step (fun d hd => absurd hd List.not_mem_nil) hanswers hrun
  have hbound := (List.getElem?_eq_some_iff.mp hline).1
  have hplace := hnumbered.place
  have hshort : s.output.length < 32 := by
    unfold Place at hplace
    split at hplace <;> lia
  have hnumber : line.ttl = i + 1 := by
    have hmap := congrArg (fun ttls => ttls[i]?) hnumbered.lines
    simp only [List.getElem?_map, hline, List.getElem?_range' hbound] at hmap
    simpa [Nat.add_comm] using hmap
  cases line with
  | timeout ttl =>
      left
      rw [← hnumber]
      rfl
  | received ttl src =>
      right
      have hmem := List.mem_of_getElem? hline
      rcases hattributes.attributes.received ttl src hmem with ⟨d, hd, hprobe, hsrc⟩
      have httl : ttl = i + 1 := hnumber
      have hnode := hon d hd _ hprobe
      rw [ttl_probeOf source destination (by lia), hsrc] at hnode
      rw [hnode, httl]

def lanRoute : Nat -> UInt32
  | 1 => 0x0101a8c0
  | _ => 0x08080808

theorem trace_follows_route_lan :
    exists es s, exec (step 0x0a01a8c0 0x08080808) start es = some s ∧ s.output.length = 2 ∧
      forall (i : Nat) (line : Line), s.output[i]? = some line ->
        line = .timeout (i + 1) ∨ line = .received (i + 1) (lanRoute (i + 1)) := by
  have hrun : exists s, exec (step 0x0a01a8c0 0x08080808) start
      [.send 28,
        .answer (probeOf 0x0a01a8c0 0x08080808 1) 0x0101a8c0
          (answerBytes icmpTimeExceeded 0x0101a8c0 (probeOf 0x0a01a8c0 0x08080808 1)),
        .deliver 0, .recv [], .send 28,
        .answer (probeOf 0x0a01a8c0 0x08080808 2) 0x08080808
          (answerBytes icmpEchoreply 0x08080808 (probeOf 0x0a01a8c0 0x08080808 2)),
        .deliver 0, .recv []] = some s ∧ s.output.length = 2 :=
    ⟨_, rfl, by decide⟩
  rcases hrun with ⟨s, hrun, htwo⟩
  refine ⟨_, s, hrun, htwo,
    trace_follows_route 0x0a01a8c0 0x08080808 lanRoute _ s (by decide) ?_ hrun⟩
  intro e he
  simp only [List.mem_cons, List.not_mem_nil, or_false] at he
  rcases he with rfl | rfl | rfl | rfl | rfl | rfl | rfl | rfl
  · trivial
  · rfl
  · trivial
  · trivial
  · trivial
  · rfl
  · trivial
  · trivial

end Traceroute
end VidsContent
