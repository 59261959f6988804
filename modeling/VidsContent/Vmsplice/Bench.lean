import VidsContent.Vmsplice.BenchNaive

/-!
# The vmsplice sender

`bench.c` maps the same buffer into a pipe with `vmsplice` and drains the pipe
into the socket with as many calls of `splice` as it takes, before it counts the
bytes as sent.
-/

namespace VidsContent
namespace Vmsplice
namespace Bench

open Transition

/-- `in_pipe` and `drained` are `ssize_t`. -/
inductive Pc where
  | vmsplice (want : UInt64)
  | splice (inPipe drained : Int)
  | exited
  | failed (message : String)
deriving DecidableEq

structure State (alpha : Type) where
  sent : UInt64
  pipe : List alpha
  socket : List alpha
  pc : Pc

inductive Event where
  | vmsplice (inPipe : Int)
  | splice (m : Int)

/-- The outer loop's test and the computation of `want`. -/
def loopHead (total chunk sent : UInt64) : Pc :=
  if sent < total then .vmsplice (want total chunk sent) else .exited

/-- The inner loop's test, and the end of the outer loop's body. -/
def drainHead (total chunk : UInt64) (inPipe drained : Int) (s : State alpha) :
    State alpha :=
  if drained < inPipe then
    { s with pc := .splice inPipe drained }
  else
    { s with
      sent := s.sent + UInt64.ofInt inPipe
      pc := loopHead total chunk (s.sent + UInt64.ofInt inPipe) }

def start (total chunk : UInt64) : State alpha where
  sent := 0
  pipe := []
  socket := []
  pc := loopHead total chunk 0

def step (total chunk : UInt64) (fill : alpha) (s : State alpha) :
    Event -> Option (State alpha)
  | .vmsplice inPipe =>
      match s.pc with
      | .vmsplice want =>
          if inPipe ≤ 0 then
            some { s with pc := .failed "vmsplice" }
          else if inPipe ≤ want.toNat then
            some (drainHead total chunk inPipe 0
              { s with pipe := s.pipe ++ (data chunk fill).take inPipe.toNat })
          else
            none
      | _ => none
  | .splice m =>
      match s.pc with
      | .splice inPipe drained =>
          if m ≤ 0 then
            some { s with pc := .failed "splice" }
          else if m ≤ (UInt64.ofInt (inPipe - drained)).toNat ∧ m ≤ s.pipe.length then
            some (drainHead total chunk inPipe (drained + m)
              { s with
                pipe := s.pipe.drop m.toNat
                socket := s.socket ++ s.pipe.take m.toNat })
          else
            none
      | _ => none

theorem step_cases {total chunk : UInt64} {fill : alpha} {s next : State alpha}
    {e : Event} (hstep : step total chunk fill s e = some next) :
    (exists message, s.pc ≠ .exited ∧ (forall text, s.pc ≠ .failed text) ∧
      next = { s with pc := .failed message }) ∨
    (exists (w : UInt64) (inPipe : Int), s.pc = .vmsplice w ∧ 0 < inPipe ∧ inPipe ≤ w.toNat ∧
      next = drainHead total chunk inPipe 0
        { s with pipe := s.pipe ++ (data chunk fill).take inPipe.toNat }) ∨
    (exists inPipe drained m : Int, s.pc = .splice inPipe drained ∧ 0 < m ∧
      m ≤ (UInt64.ofInt (inPipe - drained)).toNat ∧ m ≤ s.pipe.length ∧
      next = drainHead total chunk inPipe (drained + m)
        { s with
          pipe := s.pipe.drop m.toNat
          socket := s.socket ++ s.pipe.take m.toNat }) := by
  cases e with
  | vmsplice inPipe =>
      cases hpc : s.pc with
      | vmsplice w =>
          simp only [step, hpc] at hstep
          split at hstep
          · exact Or.inl ⟨_, by simp, by simp, (Option.some.inj hstep).symm⟩
          · split at hstep
            · rename_i hpos hle
              exact Or.inr (Or.inl ⟨w, inPipe, rfl, by lia, hle,
                (Option.some.inj hstep).symm⟩)
            · cases hstep
      | _ => simp [step, hpc] at hstep
  | splice m =>
      cases hpc : s.pc with
      | splice inPipe drained =>
          simp only [step, hpc] at hstep
          split at hstep
          · exact Or.inl ⟨_, by simp, by simp, (Option.some.inj hstep).symm⟩
          · split at hstep
            · rename_i hpos hm
              exact Or.inr (Or.inr ⟨inPipe, drained, m, rfl, by lia, hm.left, hm.right,
                (Option.some.inj hstep).symm⟩)
            · cases hstep
      | _ => simp [step, hpc] at hstep

/-!
## The pipe and the socket
-/

/--
Between the calls of the inner loop the pipe holds what it has still to drain,
and the socket is ahead of `sent` by what it has drained.
-/
def Place (total chunk : UInt64) (fill : alpha) (s : State alpha) : Prop :=
  match s.pc with
  | .vmsplice w =>
      s.sent < total ∧ w = want total chunk s.sent ∧ s.pipe = [] ∧
        s.socket = List.replicate s.sent.toNat fill
  | .splice inPipe drained =>
      s.sent < total ∧ inPipe ≤ (want total chunk s.sent).toNat ∧
        0 ≤ drained ∧ drained < inPipe ∧
        s.pipe = List.replicate (inPipe - drained).toNat fill ∧
        s.socket = List.replicate (s.sent.toNat + drained.toNat) fill
  | .exited =>
      s.sent = total ∧ s.pipe = [] ∧ s.socket = List.replicate s.sent.toNat fill
  | .failed _ => s.pipe.length ≤ chunk.toNat

theorem place_loopHead {total chunk : UInt64} {fill : alpha} {s : State alpha}
    (hle : s.sent.toNat ≤ total.toNat) (hpipe : s.pipe = [])
    (hsocket : s.socket = List.replicate s.sent.toNat fill)
    (hpc : s.pc = loopHead total chunk s.sent) : Place total chunk fill s := by
  unfold Place
  rw [hpc]
  unfold loopHead
  by_cases hlt : s.sent < total
  · rw [if_pos hlt]
    exact ⟨hlt, rfl, hpipe, hsocket⟩
  · rw [if_neg hlt]
    rw [UInt64.lt_iff_toNat_lt] at hlt
    exact ⟨UInt64.toNat_inj.mp (by lia), hpipe, hsocket⟩

/-- The inner loop's test keeps the account: it drains on, or `sent` catches up. -/
theorem place_drainHead {total chunk : UInt64} {fill : alpha} {inPipe drained : Int}
    {s : State alpha} (hchunk : 0 < chunk) (hlt : s.sent < total) (hpos : 0 < inPipe)
    (hle : inPipe ≤ (want total chunk s.sent).toNat)
    (hdrained : 0 ≤ drained) (hinPipe : drained ≤ inPipe)
    (hpipe : s.pipe = List.replicate (inPipe - drained).toNat fill)
    (hsocket : s.socket = List.replicate (s.sent.toNat + drained.toNat) fill) :
    Place total chunk fill (drainHead total chunk inPipe drained s) := by
  unfold drainHead
  by_cases hmore : drained < inPipe
  · rw [if_pos hmore]
    exact ⟨hlt, hle, hdrained, hmore, hpipe, hsocket⟩
  · have hall : drained = inPipe := by lia
    have hsum := sent_add_toNat hchunk hlt hpos hle
    have hwant := want_spec hchunk hlt
    rw [if_neg hmore]
    apply place_loopHead
    · simp only
      lia
    · simp only
      rw [hpipe, hall, Int.sub_self]
      rfl
    · simp only
      rw [hsocket, hsum, hall]
    · rfl

theorem place_start (total chunk : UInt64) (fill : alpha) :
    Place total chunk fill (start total chunk) :=
  place_loopHead (Nat.zero_le _) rfl rfl rfl

theorem pipe_le {total chunk : UInt64} {fill : alpha} {s : State alpha}
    (hchunk : 0 < chunk) (h : Place total chunk fill s) :
    s.pipe.length ≤ chunk.toNat := by
  unfold Place at h
  split at h
  · rw [h.right.right.left]
    exact Nat.zero_le _
  · rcases h with ⟨hlt, hle, hdrained, _, hpipe, _⟩
    have hwant := want_spec hchunk hlt
    rw [hpipe, List.length_replicate]
    lia
  · rw [h.right.left]
    exact Nat.zero_le _
  · exact h

theorem place_vmsplice {total chunk : UInt64} {fill : alpha} {s : State alpha}
    {w : UInt64} {inPipe : Int} (hchunk : 0 < chunk) (h : Place total chunk fill s)
    (hpc : s.pc = .vmsplice w) (hpos : 0 < inPipe) (hle : inPipe ≤ w.toNat) :
    Place total chunk fill (drainHead total chunk inPipe 0
      { s with pipe := s.pipe ++ (data chunk fill).take inPipe.toNat }) := by
  simp only [Place, hpc] at h
  rcases h with ⟨hlt, rfl, hempty, hsocket⟩
  have hwant := want_spec hchunk hlt
  have hpipe : s.pipe ++ (data chunk fill).take inPipe.toNat =
      List.replicate (inPipe - 0).toNat fill := by
    rw [hempty, List.nil_append, data_take fill (by lia), Int.sub_zero]
  apply place_drainHead hchunk
  · exact hlt
  · exact hpos
  · exact hle
  · exact Int.le_refl 0
  · exact Int.le_of_lt hpos
  · exact hpipe
  · exact hsocket

theorem place_splice {total chunk : UInt64} {fill : alpha} {s : State alpha}
    {inPipe drained m : Int} (hchunk : 0 < chunk) (h : Place total chunk fill s)
    (hpc : s.pc = .splice inPipe drained) (hpos : 0 < m) (hm : m ≤ s.pipe.length) :
    Place total chunk fill (drainHead total chunk inPipe (drained + m)
      { s with
        pipe := s.pipe.drop m.toNat
        socket := s.socket ++ s.pipe.take m.toNat }) := by
  simp only [Place, hpc] at h
  rcases h with ⟨hlt, hle, hdrained, hmore, hpipe, hsocket⟩
  rw [hpipe, List.length_replicate] at hm
  have hrest : s.pipe.drop m.toNat = List.replicate (inPipe - (drained + m)).toNat fill := by
    rw [hpipe, List.drop_replicate]
    congr 1
    lia
  have hmoved : s.socket ++ s.pipe.take m.toNat =
      List.replicate (s.sent.toNat + (drained + m).toNat) fill := by
    rw [hpipe, hsocket, List.take_replicate, List.replicate_append_replicate]
    congr 1
    lia
  apply place_drainHead hchunk
  · exact hlt
  · lia
  · exact hle
  · lia
  · lia
  · exact hrest
  · exact hmoved

theorem place_step {total chunk : UInt64} {fill : alpha} {s next : State alpha}
    {e : Event} (hchunk : 0 < chunk) (h : Place total chunk fill s)
    (hstep : step total chunk fill s e = some next) : Place total chunk fill next := by
  rcases step_cases hstep with ⟨message, _, _, rfl⟩ | ⟨w, inPipe, hpc, hpos, hle, rfl⟩ |
    ⟨inPipe, drained, m, hpc, hpos, _, hm, rfl⟩
  · have hsmall := pipe_le hchunk h
    exact hsmall
  · exact place_vmsplice hchunk h hpc hpos hle
  · exact place_splice hchunk h hpc hpos hm

theorem place_run {total chunk : UInt64} {fill : alpha} {s : State alpha}
    {es : List Event} (hchunk : 0 < chunk)
    (hrun : exec (step total chunk fill) (start total chunk) es = some s) :
    Place total chunk fill s :=
  exec_invariant (fun h hstep => place_step hchunk h hstep) (place_start total chunk fill) hrun

/-!
## Termination
-/

/--
Every byte that is still to be sent may take one call of each kind, and every
byte in the pipe one more call of `splice`.
-/
def callsLeft (total : UInt64) (s : State alpha) : Nat :=
  match s.pc with
  | .vmsplice _ => 2 * (total.toNat - s.sent.toNat)
  | .splice inPipe drained =>
      2 * (total.toNat - s.sent.toNat - inPipe.toNat) + (inPipe - drained).toNat
  | _ => 0

theorem callsLeft_loopHead {total chunk : UInt64} {s : State alpha}
    (hpc : s.pc = loopHead total chunk s.sent) :
    callsLeft total s ≤ 2 * (total.toNat - s.sent.toNat) := by
  unfold loopHead at hpc
  by_cases hlt : s.sent < total
  · rw [if_pos hlt] at hpc
    simp [callsLeft, hpc]
  · rw [if_neg hlt] at hpc
    simp [callsLeft, hpc]

theorem callsLeft_drainHead {total chunk : UInt64} {inPipe drained : Int}
    {s : State alpha} (hchunk : 0 < chunk) (hlt : s.sent < total) (hpos : 0 < inPipe)
    (hle : inPipe ≤ (want total chunk s.sent).toNat) :
    callsLeft total (drainHead total chunk inPipe drained s) ≤
      2 * (total.toNat - s.sent.toNat - inPipe.toNat) + (inPipe - drained).toNat := by
  unfold drainHead
  by_cases hmore : drained < inPipe
  · rw [if_pos hmore]
    exact Nat.le_refl _
  · have hsum := sent_add_toNat hchunk hlt hpos hle
    rw [if_neg hmore]
    apply Nat.le_trans (callsLeft_loopHead rfl)
    simp only
    lia

theorem callsLeft_step {total chunk : UInt64} {fill : alpha} {s next : State alpha}
    {e : Event} (hchunk : 0 < chunk) (h : Place total chunk fill s)
    (hstep : step total chunk fill s e = some next) :
    callsLeft total next < callsLeft total s := by
  rcases step_cases hstep with ⟨message, hexited, hfailed, rfl⟩ |
    ⟨w, inPipe, hpc, hpos, hle, rfl⟩ | ⟨inPipe, drained, m, hpc, hpos, _, hm, rfl⟩
  · cases hpc : s.pc with
    | vmsplice w =>
        simp only [Place, hpc] at h
        have hlt := h.left
        rw [UInt64.lt_iff_toNat_lt] at hlt
        simp only [callsLeft, hpc]
        lia
    | splice inPipe drained =>
        simp only [Place, hpc] at h
        simp only [callsLeft, hpc]
        lia
    | exited => exact absurd hpc hexited
    | failed text => exact absurd hpc (hfailed text)
  · simp only [Place, hpc] at h
    rcases h with ⟨hlt, rfl, _, _⟩
    have hwant := want_spec hchunk hlt
    have hnext : callsLeft total (drainHead total chunk inPipe 0
        { s with pipe := s.pipe ++ (data chunk fill).take inPipe.toNat }) ≤
        2 * (total.toNat - s.sent.toNat - inPipe.toNat) + (inPipe - 0).toNat :=
      callsLeft_drainHead hchunk hlt hpos hle
    have hnow : callsLeft total s = 2 * (total.toNat - s.sent.toNat) := by
      simp only [callsLeft, hpc]
    lia
  · simp only [Place, hpc] at h
    rcases h with ⟨hlt, hle, hdrained, hmore, hpipe, _⟩
    rw [hpipe, List.length_replicate] at hm
    have hnext : callsLeft total (drainHead total chunk inPipe (drained + m)
        { s with
          pipe := s.pipe.drop m.toNat
          socket := s.socket ++ s.pipe.take m.toNat }) ≤
        2 * (total.toNat - s.sent.toNat - inPipe.toNat) +
          (inPipe - (drained + m)).toNat :=
      callsLeft_drainHead hchunk hlt (by lia) hle
    have hnow : callsLeft total s =
        2 * (total.toNat - s.sent.toNat - inPipe.toNat) + (inPipe - drained).toNat := by
      simp only [callsLeft, hpc]
    lia

theorem run_length_le {total chunk : UInt64} {fill : alpha} {s : State alpha}
    {es : List Event} (hchunk : 0 < chunk)
    (hrun : exec (step total chunk fill) (start total chunk) es = some s) :
    es.length ≤ 2 * total.toNat := by
  have hlength :
      es.length + callsLeft total s ≤ callsLeft total (start total chunk : State alpha) :=
    exec_length_le (callsLeft total) (fun h hstep => place_step hchunk h hstep)
      (fun h hstep => callsLeft_step hchunk h hstep) (place_start total chunk fill) hrun
  have hstart : callsLeft total (start total chunk : State alpha) ≤ 2 * total.toNat :=
    callsLeft_loopHead rfl
  lia

/-!
## Delivery
-/

structure Delivers (total chunk : UInt64) (fill : alpha) (s : State alpha) : Prop where
  bounded : s.pipe.length ≤ chunk.toNat
  /-- At the head of a turn the subtraction is exact, and every count up to `want` may come. -/
  turn : forall w, s.pc = .vmsplice w ->
    s.pipe = [] ∧ s.sent.toNat < total.toNat ∧
      (remaining total s.sent).toNat = total.toNat - s.sent.toNat ∧
      0 < w ∧ w ≤ chunk ∧
      forall n : Int, 0 < n -> n ≤ w.toNat ->
        (step total chunk fill s (.vmsplice n)).isSome
  /-- The pipe holds all that the inner loop asks for. -/
  drains : forall inPipe drained, s.pc = .splice inPipe drained ->
    0 ≤ drained ∧ drained < inPipe ∧
      forall m : Int, 0 < m -> m ≤ inPipe - drained ->
        (step total chunk fill s (.splice m)).isSome
  finished : s.pc = .exited ->
    s.sent = total ∧ s.pipe = [] ∧ s.socket = List.replicate total.toNat fill

theorem delivers_of_place {total chunk : UInt64} {fill : alpha} {s : State alpha}
    (hchunk : 0 < chunk) (h : Place total chunk fill s) :
    Delivers total chunk fill s where
  bounded := pipe_le hchunk h
  turn := by
    intro w hpc
    simp only [Place, hpc] at h
    rcases h with ⟨hlt, rfl, hempty, _⟩
    rcases want_spec hchunk hlt with ⟨hpos, hle, _⟩
    refine ⟨hempty, UInt64.lt_iff_toNat_lt.mp hlt, remaining_toNat hlt,
      UInt64.lt_iff_toNat_lt.mpr hpos, UInt64.le_iff_toNat_le.mpr hle, ?_⟩
    intro n hn hnle
    simp only [step, hpc]
    rw [if_neg (by lia), if_pos hnle]
    rfl
  drains := by
    intro inPipe drained hpc
    simp only [Place, hpc] at h
    rcases h with ⟨hlt, hle, hdrained, hmore, hpipe, _⟩
    refine ⟨hdrained, hmore, ?_⟩
    intro m hm hmle
    have hasked : (UInt64.ofInt (inPipe - drained)).toNat = (inPipe - drained).toNat :=
      toNat_ofInt_of_le (by lia)
        (by lia : inPipe - drained ≤ ((want total chunk s.sent).toNat : Int))
    simp only [step, hpc]
    rw [hasked, hpipe, List.length_replicate, if_neg (by lia),
      if_pos ⟨by lia, by lia⟩]
    rfl
  finished := by
    intro hpc
    simp only [Place, hpc] at h
    rcases h with ⟨hall, hempty, hsocket⟩
    exact ⟨hall, hempty, by rw [hsocket, hall]⟩

def Positive : Event -> Prop
  | .vmsplice inPipe => 0 < inPipe
  | .splice m => 0 < m

instance : forall e, Decidable (Positive e)
  | .vmsplice inPipe => inferInstanceAs (Decidable (0 < inPipe))
  | .splice m => inferInstanceAs (Decidable (0 < m))

theorem drainHead_unfailed (total chunk : UInt64) (inPipe drained : Int) (s : State alpha) :
    forall message, (drainHead total chunk inPipe drained s).pc ≠ .failed message := by
  intro message
  unfold drainHead
  split
  · exact nofun
  · simp only [loopHead]
    split
    · exact nofun
    · exact nofun

theorem unfailed_step {total chunk : UInt64} {fill : alpha} {s next : State alpha} {e : Event}
    (hpos : Positive e) (hstep : step total chunk fill s e = some next) :
    forall message, next.pc ≠ .failed message := by
  cases e with
  | vmsplice inPipe =>
      cases hpc : s.pc with
      | vmsplice w =>
          simp only [step, hpc] at hstep
          rw [if_neg (Int.not_le.mpr hpos)] at hstep
          rcases Option.ite_none_right_eq_some.mp hstep with ⟨_, hnext⟩
          cases hnext
          exact drainHead_unfailed total chunk inPipe 0 _
      | _ => simp [step, hpc] at hstep
  | splice m =>
      cases hpc : s.pc with
      | splice inPipe drained =>
          simp only [step, hpc] at hstep
          rw [if_neg (Int.not_le.mpr hpos)] at hstep
          rcases Option.ite_none_right_eq_some.mp hstep with ⟨_, hnext⟩
          cases hnext
          exact drainHead_unfailed total chunk inPipe (drained + m) _
      | _ => simp [step, hpc] at hstep

theorem unfailed_run {total chunk : UInt64} {fill : alpha} {s : State alpha} {es : List Event}
    (hpos : forall e, e ∈ es -> Positive e)
    (hrun : exec (step total chunk fill) (start total chunk) es = some s) :
    forall message, s.pc ≠ .failed message := by
  refine exec_guarded_invariant (I := fun s => forall message, s.pc ≠ .failed message)
    ?_ ?_ (allSteps_of_forall hpos) hrun
  · intro s e next _ he hstep
    exact unfailed_step he hstep
  · intro message
    simp only [start, loopHead]
    split
    · exact nofun
    · exact nofun

theorem Delivers.exists_step {total chunk : UInt64} {fill : alpha} {s : State alpha}
    (h : Delivers total chunk fill s) (hfailed : forall message, s.pc ≠ .failed message)
    (hexited : s.pc ≠ .exited) :
    exists e next, Positive e ∧ step total chunk fill s e = some next := by
  cases hpc : s.pc with
  | vmsplice w =>
      rcases h.turn w hpc with ⟨_, _, _, hw, _, hcounts⟩
      rw [UInt64.lt_iff_toNat_lt] at hw
      have hone : ((1 : Nat) : Int) ≤ w.toNat := Int.ofNat_le.mpr hw
      rcases Option.isSome_iff_exists.mp (hcounts 1 Int.one_pos hone) with ⟨next, hnext⟩
      exact ⟨.vmsplice 1, next, Int.one_pos, hnext⟩
  | splice inPipe drained =>
      rcases h.drains inPipe drained hpc with ⟨_, hmore, hcounts⟩
      rcases Option.isSome_iff_exists.mp (hcounts 1 Int.one_pos (by lia)) with ⟨next, hnext⟩
      exact ⟨.splice 1, next, Int.one_pos, hnext⟩
  | exited => exact absurd hpc hexited
  | failed message => exact absurd hpc (hfailed message)

/--
Both senders stop within a bounded number of calls whatever counts these return.  With
positive counts neither fails nor is ever stuck before its exit, where each has sent
exactly `total` bytes, so that the two sockets receive the same stream.
-/
theorem senders_deliver_total (total chunk : UInt64) (fill : alpha) (hchunk : 0 < chunk) :
    (forall (s : State alpha) (es : List Event),
      exec (step total chunk fill) (start total chunk) es = some s ->
      es.length ≤ 2 * total.toNat ∧ Delivers total chunk fill s ∧
        ((forall e, e ∈ es -> Positive e) ->
          (forall message, s.pc ≠ .failed message) ∧
            (s.pc ≠ .exited ->
              exists e next, Positive e ∧ step total chunk fill s e = some next))) ∧
      (forall (s : BenchNaive.State alpha) (ns : List Int),
        exec (BenchNaive.step total chunk fill) (BenchNaive.start total chunk) ns = some s ->
        ns.length ≤ total.toNat ∧ BenchNaive.Delivers total chunk fill s ∧
          ((forall n, n ∈ ns -> 0 < n) ->
            (forall message, s.pc ≠ .failed message) ∧
              (s.pc ≠ .exited ->
                exists n next, 0 < n ∧ BenchNaive.step total chunk fill s n = some next))) ∧
      (forall (s : State alpha) (naive : BenchNaive.State alpha) (es : List Event)
          (ns : List Int),
        exec (step total chunk fill) (start total chunk) es = some s ->
        exec (BenchNaive.step total chunk fill) (BenchNaive.start total chunk) ns =
          some naive ->
        s.pc = .exited -> naive.pc = .exited -> s.socket = naive.socket) := by
  have hdelivers : forall (s : State alpha) (es : List Event),
      exec (step total chunk fill) (start total chunk) es = some s ->
      Delivers total chunk fill s :=
    fun s es hrun => delivers_of_place hchunk (place_run hchunk hrun)
  refine ⟨?_, ?_, ?_⟩
  · intro s es hrun
    refine ⟨run_length_le hchunk hrun, hdelivers s es hrun, fun hpos => ?_⟩
    have hfailed := unfailed_run hpos hrun
    exact ⟨hfailed, (hdelivers s es hrun).exists_step hfailed⟩
  · intro s ns hrun
    have hnaive := BenchNaive.delivers_of_run hchunk hrun
    refine ⟨BenchNaive.run_length_le hchunk hrun, hnaive, fun hpos => ?_⟩
    have hfailed := BenchNaive.unfailed_run hpos hrun
    exact ⟨hfailed, hnaive.exists_step hfailed⟩
  · intro s naive es ns hrun hnaive hexited hnaiveExited
    rw [((hdelivers s es hrun).finished hexited).right.right,
      ((BenchNaive.delivers_of_run hchunk hnaive).finished hnaiveExited).right]

theorem senders_deliver_total_three :
    exists (s : State Char) (naive : BenchNaive.State Char),
      exec (step 3 2 'a') (start 3 2)
        [.vmsplice 2, .splice 1, .splice 1, .vmsplice 1, .splice 1] = some s ∧
      exec (BenchNaive.step 3 2 'a') (BenchNaive.start 3 2) [1, 2] = some naive ∧
      s.pc = .exited ∧ naive.pc = .exited ∧
      s.socket = ['a', 'a', 'a'] ∧ naive.socket = ['a', 'a', 'a'] := by
  have hrun : exists s : State Char,
      exec (step 3 2 'a') (start 3 2)
        [.vmsplice 2, .splice 1, .splice 1, .vmsplice 1, .splice 1] = some s ∧
      s.pc = .exited :=
    ⟨_, rfl, rfl⟩
  have hnaive : exists naive : BenchNaive.State Char,
      exec (BenchNaive.step 3 2 'a') (BenchNaive.start 3 2) [1, 2] = some naive ∧
      naive.pc = .exited :=
    ⟨_, rfl, rfl⟩
  rcases hrun with ⟨s, hrun, hexited⟩
  rcases hnaive with ⟨naive, hnaive, hnaiveExited⟩
  rcases senders_deliver_total 3 2 'a' (by decide) with ⟨hsender, _, hsame⟩
  have hsocket := ((hsender s _ hrun).right.left.finished hexited).right.right
  have hequal := hsame s naive _ _ hrun hnaive hexited hnaiveExited
  exact ⟨s, naive, hrun, hnaive, hexited, hnaiveExited, hsocket, hequal.symm.trans hsocket⟩

end Bench
end Vmsplice
end VidsContent
