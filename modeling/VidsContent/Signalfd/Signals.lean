import VidsContent.Signalfd.Main

/-!
# What becomes of a signal

A signal that is pending already does not become pending twice, and standard input is
read before any signal is.  So a signal is printed at most as often as it was sent, and
a `SIGQUIT` ends the program as soon as the writer leaves it alone.
-/

namespace VidsContent
namespace Signalfd

open Transition

def isCall : Event -> Bool
  | .poll => true
  | .readStdin _ => true
  | .readSignal _ => true
  | _ => false

def raises (signal : Signal) : Event -> Bool
  | .raise other => other == signal
  | _ => false

/-- The `break` after `Received SIGQUIT`. -/
def afterSignal : Signal -> Pc
  | .int => .poll
  | .quit => .exited

theorem step_readSignal {s next : State} {signal : Signal}
    (hstep : step s (.readSignal signal) = some next) :
    s.pc = .readSignal ∧ s.pending signal = true ∧
      next =
        { s with
          pending := Function.update s.pending signal false
          output := s.output ++ [.signal signal]
          pc := afterSignal signal } := by
  cases hpc : s.pc with
  | readSignal =>
      simp only [step, hpc] at hstep
      rcases Option.ite_none_right_eq_some.mp hstep with ⟨hpending, hnext⟩
      refine ⟨rfl, hpending, ?_⟩
      rw [← Option.some.inj hnext]
      cases signal with
      | int => rfl
      | quit => rfl
  | _ => simp [step, hpc] at hstep

theorem pc_of_readStdin {s next : State} {n : Nat} (hstep : step s (.readStdin n) = some next) :
    s.pc = .readStdin := by
  cases hpc : s.pc with
  | readStdin => rfl
  | _ => simp [step, hpc] at hstep

theorem pc_of_poll {s next : State} (hstep : step s .poll = some next) : s.pc = .poll := by
  cases hpc : s.pc with
  | poll => rfl
  | _ => simp [step, hpc] at hstep

/-!
## How often a signal is printed
-/

/-- What has become of the arrivals of a signal. -/
def known (signal : Signal) (s : State) : Nat :=
  s.output.count (.signal signal) + if s.pending signal then 1 else 0

theorem known_of_same {signal : Signal} {s next : State}
    (houtput : next.output.count (.signal signal) = s.output.count (.signal signal))
    (hpending : next.pending signal = s.pending signal) : known signal next = known signal s := by
  unfold known
  rw [houtput, hpending]

theorem known_step {s next : State} {e : Event} (signal : Signal)
    (hstep : step s e = some next) :
    (raises signal e = false ∧ known signal next = known signal s) ∨
      (raises signal e = true ∧ known signal s ≤ known signal next ∧
        known signal next ≤ known signal s + 1 ∧ 1 ≤ known signal next) := by
  cases e with
  | produce bytes =>
      rcases Option.ite_none_left_eq_some.mp hstep with ⟨_, hnext⟩
      cases hnext
      exact .inl ⟨rfl, rfl⟩
  | close =>
      rcases Option.ite_none_left_eq_some.mp hstep with ⟨_, hnext⟩
      cases hnext
      exact .inl ⟨rfl, rfl⟩
  | raise other =>
      cases hstep
      by_cases hother : other = signal
      · right
        subst hother
        simp only [known, raises, Function.update_self, beq_self_eq_true, if_true]
        split <;> lia
      · left
        refine ⟨by simp [raises, hother], known_of_same rfl ?_⟩
        exact Function.update_of_ne (Ne.symm hother) _ _
  | poll =>
      left
      rcases step_poll hstep with ⟨_, _, rfl⟩ | ⟨_, rfl⟩ | ⟨_, rfl⟩ | ⟨_, _, _, rfl⟩
      · exact ⟨rfl, rfl⟩
      · exact ⟨rfl, rfl⟩
      · exact ⟨rfl, rfl⟩
      · exact ⟨rfl, rfl⟩
  | readStdin n =>
      rcases step_readStdin hstep with ⟨_, _, rfl⟩
      exact .inl ⟨rfl, known_of_same (by simp) rfl⟩
  | readSignal other =>
      rcases step_readSignal hstep with ⟨_, hpending, rfl⟩
      refine .inl ⟨rfl, ?_⟩
      by_cases hother : other = signal
      · subst hother
        simp [known, hpending]
      · simp [known, hother, Ne.symm hother]

/-!
## Where the program stands
-/

structure Place (s : State) : Prop where
  stdin : s.pc = .readStdin -> s.held ≠ []
  signal : s.pc = .readSignal -> exists signal, s.pending signal = true
  exited : s.pc = .exited <-> Line.signal .quit ∈ s.output

theorem place_start : Place start where
  stdin := nofun
  signal := nofun
  exited := by simp [start]

theorem held_of_pollIn {s : State} (h : stdinRevents s = pollIn) : s.held ≠ [] := by
  intro hempty
  unfold stdinRevents at h
  rw [hempty] at h
  split at h
  · split at h <;> cases h
  · rename_i hnot
    exact hnot rfl

theorem place_step {s next : State} {e : Event} (h : Place s) (hstep : step s e = some next) :
    Place next := by
  cases e with
  | produce bytes =>
      rcases Option.ite_none_left_eq_some.mp hstep with ⟨_, hnext⟩
      cases hnext
      exact ⟨fun hpc => by simp [h.stdin hpc], h.signal, h.exited⟩
  | close =>
      rcases Option.ite_none_left_eq_some.mp hstep with ⟨_, hnext⟩
      cases hnext
      exact ⟨h.stdin, h.signal, h.exited⟩
  | raise other =>
      cases hstep
      refine ⟨h.stdin, fun hpc => ⟨other, ?_⟩, h.exited⟩
      exact Function.update_self _ _ _
  | poll =>
      have hpc := pc_of_poll hstep
      have hrunning : Line.signal .quit ∉ s.output := by
        rw [← h.exited, hpc]
        exact Pc.noConfusion
      rcases step_poll hstep with ⟨_, _, rfl⟩ | ⟨hstdin, rfl⟩ | ⟨hsignal, rfl⟩ | ⟨_, _, _, rfl⟩
      · exact h
      · exact ⟨fun _ => held_of_pollIn hstdin, nofun, nofun, fun hquit => absurd hquit hrunning⟩
      · refine ⟨nofun, fun _ => ?_, nofun, fun hquit => absurd hquit hrunning⟩
        rcases signalRevents_eq_pollIn.mp hsignal with hint | hquit
        · exact ⟨.int, hint⟩
        · exact ⟨.quit, hquit⟩
      · exact ⟨h.stdin, h.signal, h.exited⟩
  | readStdin n =>
      have hpc := pc_of_readStdin hstep
      have hrunning : Line.signal .quit ∉ s.output := by
        rw [← h.exited, hpc]
        exact Pc.noConfusion
      rcases step_readStdin hstep with ⟨_, _, rfl⟩
      refine ⟨nofun, nofun, nofun, fun hquit => ?_⟩
      rcases List.mem_append.mp hquit with hbefore | hnew
      · exact absurd hbefore hrunning
      · cases List.mem_singleton.mp hnew
  | readSignal other =>
      rcases step_readSignal hstep with ⟨hpc, _, rfl⟩
      have hrunning : Line.signal .quit ∉ s.output := by
        rw [← h.exited, hpc]
        exact Pc.noConfusion
      cases other with
      | int =>
          refine ⟨nofun, nofun, nofun, fun hquit => ?_⟩
          rcases List.mem_append.mp hquit with hbefore | hnew
          · exact absurd hbefore hrunning
          · cases List.mem_singleton.mp hnew
      | quit => exact ⟨nofun, nofun, fun _ => by simp, fun _ => rfl⟩

/-!
## How soon a SIGQUIT ends the program
-/

def isPending (s : State) (signal : Signal) : Nat := if s.pending signal then 1 else 0

def toRead (s : State) : Nat := s.held.length + isPending s .int + isPending s .quit

/-- Everything that is read takes a call of `poll` before it. -/
def callsLeft (s : State) : Nat :=
  match s.pc with
  | .poll => 2 * toRead s
  | .exited => 0
  | _ => 2 * toRead s - 1

def Quitting (s : State) : Prop := Place s ∧ (s.pc = .exited ∨ s.pending .quit = true)

theorem isPending_of_pending {s : State} {signal : Signal} (h : s.pending signal = true) :
    isPending s signal = 1 := if_pos h

theorem toRead_pos {s : State} (h : s.pending .quit = true) : 0 < toRead s := by
  have hquit := isPending_of_pending h
  unfold toRead
  lia

theorem toRead_readSignal {s : State} {signal : Signal} (h : s.pending signal = true)
    (output : List Line) (pc : Pc) :
    toRead { s with
      pending := Function.update s.pending signal false
      output := output
      pc := pc } + 1 = toRead s := by
  have hone := isPending_of_pending h
  cases signal with
  | int =>
      simp only [toRead, isPending] at hone ⊢
      simp
      lia
  | quit =>
      simp only [toRead, isPending] at hone ⊢
      simp
      lia

theorem quitting_step {s next : State} {e : Event} (h : Quitting s) (hcall : isCall e = true)
    (hstep : step s e = some next) : Quitting next ∧ callsLeft next < callsLeft s := by
  have hplace := place_step h.left hstep
  cases e with
  | poll =>
      have hpc := pc_of_poll hstep
      have hquit : s.pending .quit = true := by
        rcases h.right with hexited | hquit
        · rw [hpc] at hexited
          cases hexited
        · exact hquit
      have hready : signalRevents s = pollIn := signalRevents_eq_pollIn.mpr (.inr hquit)
      have hpos := toRead_pos hquit
      have hnow : callsLeft s = 2 * toRead s := by
        simp only [callsLeft, hpc]
      rcases step_poll hstep with ⟨_, hnone, _⟩ | ⟨_, rfl⟩ | ⟨_, rfl⟩ | ⟨_, _, hnone, _⟩
      · rw [hready] at hnone
        cases hnone
      · refine ⟨⟨hplace, .inr hquit⟩, ?_⟩
        have hnext : callsLeft { s with pc := .readStdin } = 2 * toRead s - 1 := rfl
        lia
      · refine ⟨⟨hplace, .inr hquit⟩, ?_⟩
        have hnext : callsLeft { s with pc := .readSignal } = 2 * toRead s - 1 := rfl
        lia
      · exact absurd hready hnone
  | readStdin n =>
      have hpc := pc_of_readStdin hstep
      have hquit : s.pending .quit = true := by
        rcases h.right with hexited | hquit
        · rw [hpc] at hexited
          cases hexited
        · exact hquit
      rcases step_readStdin hstep with ⟨hpos, hle, rfl⟩
      refine ⟨⟨hplace, .inr hquit⟩, ?_⟩
      simp only [callsLeft, hpc, toRead, isPending, List.length_drop]
      lia
  | readSignal signal =>
      rcases step_readSignal hstep with ⟨hpc, hpending, rfl⟩
      have hone := toRead_readSignal hpending (s.output ++ [.signal signal]) (afterSignal signal)
      cases signal with
      | int =>
          refine ⟨⟨hplace, .inr ?_⟩, ?_⟩
          · rcases h.right with hexited | hquit
            · rw [hpc] at hexited
              cases hexited
            · exact hquit
          · simp only [callsLeft, hpc, afterSignal] at hone ⊢
            lia
      | quit =>
          refine ⟨⟨hplace, .inl rfl⟩, ?_⟩
          simp only [callsLeft, hpc, afterSignal]
          lia
  | _ => cases hcall

theorem exists_call {s : State} (h : Place s) (hrunning : s.pc ≠ .exited) :
    exists e, isCall e = true ∧ (step s e).isSome = true := by
  cases hpc : s.pc with
  | poll =>
      refine ⟨.poll, rfl, ?_⟩
      simp only [step, hpc]
      split
      · rfl
      · split
        · rfl
        · split
          · rfl
          · rfl
  | readStdin =>
      have hpos := List.length_pos_iff.mpr (h.stdin hpc)
      refine ⟨.readStdin 1, rfl, ?_⟩
      simp only [step, hpc]
      rw [if_pos ⟨Nat.one_pos, by decide, hpos⟩]
      rfl
  | readSignal =>
      rcases h.signal hpc with ⟨signal, hsignal⟩
      refine ⟨.readSignal signal, rfl, ?_⟩
      simp only [step, hpc]
      rw [if_pos hsignal]
      rfl
  | exited => exact absurd hpc hrunning

/--
No signal is printed more often than it was sent, and one that was sent is printed or
pending; the program ends where it has printed a `SIGQUIT`; and from any state in
which one is pending its own calls lead it there, two for each byte or signal
that it finds.
-/
theorem signals_served (es : List Event) (s : State) (hrun : exec step start es = some s) :
    (forall signal, s.output.count (.signal signal) + isPending s signal ≤
        es.countP (raises signal) ∧
      (.raise signal ∈ es -> 1 ≤ s.output.count (.signal signal) + isPending s signal)) ∧
      (s.pc = .exited <-> .signal .quit ∈ s.output) ∧
      (s.pending .quit = true -> forall fs t, (forall e, e ∈ fs -> isCall e = true) ->
        exec step s fs = some t -> fs.length ≤ 2 * (s.held.length + 2) ∧
          ((forall e, isCall e = true -> step t e = none) -> t.pc = .exited)) := by
  have hplace : Place s := exec_invariant place_step place_start hrun
  refine ⟨?_, hplace.exited, ?_⟩
  · intro signal
    constructor
    · have hgain {v next : State} {e : Event} (hstep : step v e = some next) :
          known signal next ≤ known signal v + if raises signal e then 1 else 0 := by
        rcases known_step signal hstep with ⟨he, heq⟩ | ⟨he, _, hle, _⟩
        · rw [heq]
          exact Nat.le_add_right _ _
        · rw [if_pos he]
          exact hle
      have hcount := exec_le_add_countP (raises signal) (known signal) hgain hrun
      have hstart : known signal start = 0 := rfl
      rw [hstart, Nat.zero_add] at hcount
      exact hcount
    · intro hraised
      have hcause {v next : State} (hstep : step v (.raise signal) = some next) :
          1 ≤ known signal next := by
        rcases known_step signal hstep with ⟨he, _⟩ | ⟨_, _, _, hone⟩
        · simp [raises] at he
        · exact hone
      have hkeep {v next : State} {e : Event} (hone : 1 ≤ known signal v)
          (hstep : step v e = some next) : 1 ≤ known signal next := by
        rcases known_step signal hstep with ⟨_, heq⟩ | ⟨_, hle, _, _⟩
        · rw [heq]
          exact hone
        · exact Nat.le_trans hone hle
      exact exec_establishes hcause hkeep hraised hrun
  · intro hquit fs t hcalls hmore
    have hquitting : Quitting s := ⟨hplace, .inr hquit⟩
    have hkeep {v next : State} {e : Event} (h : Quitting v) (he : isCall e = true)
        (hstep : step v e = some next) : Quitting next := (quitting_step h he hstep).left
    constructor
    · have hcount := exec_countP_le (fun _ => true) callsLeft hkeep
        (fun h he _ hstep => (quitting_step h he hstep).right) (fun _ _ hfalse _ => by cases hfalse)
        hquitting hcalls hmore
      have hlength : fs.countP (fun _ => true) = fs.length :=
        List.countP_eq_length.mpr fun _ _ => rfl
      have hpending (signal : Signal) : isPending s signal ≤ 1 := by
        unfold isPending
        split
        · exact Nat.le_refl 1
        · exact Nat.zero_le 1
      have hint := hpending .int
      have hquits := hpending .quit
      have hstart : callsLeft s ≤ 2 * toRead s := by
        unfold callsLeft
        split
        · exact Nat.le_refl _
        · exact Nat.zero_le _
        · exact Nat.sub_le _ _
      unfold toRead at hstart
      lia
    · intro hstuck
      have hsteps : AllSteps step (fun _ e => isCall e = true) s fs := allSteps_of_forall hcalls
      have hlast : Quitting t := exec_guarded_invariant hkeep hquitting hsteps hmore
      by_contra hrunning
      rcases exists_call hlast.left hrunning with ⟨e, he, hstep⟩
      rw [hstuck e he] at hstep
      cases hstep

/-- Two interrupts that arrive as one, and a quit behind the input. -/
theorem signals_served_quit :
    exists s, exec step start
      [.raise .int, .raise .int, .poll, .readSignal .int, .produce [104, 105], .raise .quit,
        .poll] = some s ∧ s.output.count (.signal .int) ≤ 2 ∧
      forall fs t, (forall e, e ∈ fs -> isCall e = true) -> exec step s fs = some t ->
        fs.length ≤ 8 := by
  have hrun : exists s, exec step start
      [.raise .int, .raise .int, .poll, .readSignal .int, .produce [104, 105], .raise .quit,
        .poll] = some s ∧ s.pending .quit = true ∧ s.held.length = 2 :=
    ⟨_, rfl, rfl, rfl⟩
  rcases hrun with ⟨s, hrun, hquit, hheld⟩
  rcases signals_served _ s hrun with ⟨hprinted, _, hends⟩
  have hint := (hprinted .int).left
  refine ⟨s, hrun, Nat.le_trans (Nat.le_add_right _ _) hint, fun fs t hcalls hmore => ?_⟩
  have hlength := (hends hquit fs t hcalls hmore).left
  rw [hheld] at hlength
  exact hlength

end Signalfd
end VidsContent
