import VidsContent.Lib.Connections
import VidsContent.Vmsplice.SharedPages

/-!
# The receiver of the benchmark

`recv.c` accepts one connection after the other and reads each until `recv` gives it
nothing more.  Its clients are runs of `bench.c` and `bench_naive.c`, as many as there
may be and in any order.
-/

namespace VidsContent
namespace Vmsplice

open Transition Connections

def recvScratch : Nat := 1048576

inductive Sender (alpha : Type) where
  | vmsplice (s : Bench.Shared alpha)
  | write (s : BenchNaive.State alpha)

inductive Call where
  | vmsplice (e : Bench.Event)
  | write (n : Int)

/-- What a socket holds: a page of the sender's buffer, or a byte that was copied. -/
inductive Held (alpha : Type) where
  | page (i : Nat)
  | copy (x : alpha)

/-- `exit` and the end of `main` close the socket. -/
def Sender.closed : Sender alpha -> Bool
  | .vmsplice s =>
      match s.state.pc with
      | .exited => true
      | .failed _ => true
      | _ => false
  | .write s =>
      match s.pc with
      | .exited => true
      | .failed _ => true
      | _ => false

def Sender.sent : Sender alpha -> List (Held alpha)
  | .vmsplice s => s.state.socket.map .page
  | .write s => s.socket.map .copy

def senderStep (total chunk : UInt64) (fill : alpha) : Sender alpha -> Call ->
    Option (Sender alpha)
  | .vmsplice s, .vmsplice e => (Bench.stepShared total chunk s e).map .vmsplice
  | .write s, .write n => (BenchNaive.step total chunk fill s n).map .write
  | _, _ => none

def Sender.load (chunk : UInt64) (zero fill : alpha) : Sender alpha -> Held alpha -> alpha
  | _, .copy x => x
  | .vmsplice s, .page i => s.memory i
  | .write _, .page i => Bench.memset (fun _ => zero) fill chunk.toNat i

def Call.Fine : Call -> Prop
  | .vmsplice (.vmsplice inPipe) => 0 < inPipe
  | .vmsplice (.splice m) => 0 < m
  | .write n => 0 < n

def senders (total chunk : UInt64) (zero fill : alpha) :
    Program (Sender alpha) Call (Held alpha) alpha where
  step := senderStep total chunk fill
  sent := Sender.sent
  load := Sender.load chunk zero fill
  closed := Sender.closed
  fine := Call.Fine

/-- The two programs behind their `memset`. -/
def IsStart (total chunk : UInt64) (zero fill : alpha) (s : Sender alpha) : Prop :=
  s = .vmsplice (Bench.startShared total chunk zero fill) ∨
    s = .write (BenchNaive.start total chunk)

/-!
## The vmsplice sender on its connection
-/

namespace Bench

structure SharedInv (total chunk : UInt64) (fill : alpha) (s : Shared alpha) : Prop where
  filled : Filled chunk fill s
  place : Place total chunk fill s.bytes
  socket : s.bytes.socket <+: List.replicate total.toNat fill

theorem socket_of_place {total chunk : UInt64} {fill : alpha} {s : State alpha}
    (hchunk : 0 < chunk) (h : Place total chunk fill s)
    (hpc : forall message, s.pc ≠ .failed message) :
    s.socket <+: List.replicate total.toNat fill := by
  have hprefix {n : Nat} (hn : n ≤ total.toNat) :
      List.replicate n fill <+: List.replicate total.toNat fill :=
    ⟨List.replicate (total.toNat - n) fill, by
      rw [List.replicate_append_replicate, Nat.add_sub_cancel' hn]⟩
  unfold Place at h
  split at h
  · rw [h.right.right.right]
    exact hprefix (Nat.le_of_lt (UInt64.lt_iff_toNat_lt.mp h.left))
  · rcases h with ⟨hlt, hle, hdrained, hmore, _, hsocket⟩
    have hwant := want_spec hchunk hlt
    rw [hsocket]
    exact hprefix (by lia)
  · exact ⟨[], by rw [List.append_nil, h.right.right, h.left]⟩
  · rename_i message hfailed
    exact absurd hfailed (hpc message)

theorem drainHead_ne_failed (total chunk : UInt64) (inPipe drained : Int) (s : State alpha)
    (message : String) : (drainHead total chunk inPipe drained s).pc ≠ .failed message := by
  unfold drainHead loopHead
  split
  · exact Pc.noConfusion
  · split
    · exact Pc.noConfusion
    · exact Pc.noConfusion

theorem sharedInv_start {total chunk : UInt64} (zero fill : alpha) :
    SharedInv total chunk fill (startShared total chunk zero fill) where
  filled := filled_start total chunk zero fill
  place := place_start total chunk fill
  socket := List.nil_prefix

theorem sharedInv_step {total chunk : UInt64} {fill : alpha} {s next : Shared alpha} {e : Event}
    (hchunk : 0 < chunk) (h : SharedInv total chunk fill s)
    (hstep : stepShared total chunk s e = some next) : SharedInv total chunk fill next := by
  have hbytes : step total chunk fill s.bytes e = some next.bytes := by
    rw [← stepShared_bytes h.filled e, hstep]
    rfl
  have hplace := place_step hchunk h.place hbytes
  constructor
  · intro i hi
    rw [stepShared_memory hstep]
    exact h.filled i hi
  · exact hplace
  · rcases step_cases hbytes with ⟨_, _, _, hnext⟩ | ⟨w, inPipe, _, _, _, hnext⟩ |
      ⟨inPipe, drained, m, _, _, _, _, hnext⟩
    · rw [hnext]
      exact h.socket
    · refine socket_of_place hchunk hplace fun message => ?_
      rw [hnext]
      exact drainHead_ne_failed _ _ _ _ _ message
    · refine socket_of_place hchunk hplace fun message => ?_
      rw [hnext]
      exact drainHead_ne_failed _ _ _ _ _ message

theorem drainHead_socket (total chunk : UInt64) (inPipe drained : Int) (s : State alpha) :
    (drainHead total chunk inPipe drained s).socket = s.socket := by
  unfold drainHead
  split
  · rfl
  · rfl

/-- Only `splice` moves references to the socket. -/
def moved : Event -> Nat
  | .vmsplice _ => 0
  | .splice m => m.toNat

theorem stepShared_socket {total chunk : UInt64} {s next : Shared alpha} {e : Event}
    (hstep : stepShared total chunk s e = some next) :
    exists added, next.state.socket = s.state.socket ++ added ∧ added.length ≤ moved e := by
  cases e with
  | vmsplice inPipe =>
      simp only [stepShared] at hstep
      split at hstep
      · split at hstep
        · cases hstep
          exact ⟨[], (List.append_nil _).symm, Nat.le_refl _⟩
        · rcases Option.ite_none_right_eq_some.mp hstep with ⟨_, hnext⟩
          cases hnext
          refine ⟨[], ?_, Nat.le_refl _⟩
          rw [drainHead_socket, List.append_nil]
      · cases hstep
  | splice m =>
      simp only [stepShared] at hstep
      split at hstep
      · split at hstep
        · cases hstep
          exact ⟨[], (List.append_nil _).symm, Nat.zero_le _⟩
        · rcases Option.ite_none_right_eq_some.mp hstep with ⟨_, hnext⟩
          cases hnext
          exact ⟨s.state.pipe.take m.toNat, drainHead_socket _ _ _ _ _, List.length_take_le _ _⟩
      · cases hstep

theorem exists_stepShared {total chunk : UInt64} {fill : alpha} {s : Shared alpha}
    (hchunk : 0 < chunk) (h : SharedInv total chunk fill s)
    (hopen : (Sender.vmsplice s).closed = false) :
    exists e next, Call.Fine (.vmsplice e) ∧ stepShared total chunk s e = some next ∧
      moved e ≤ 1 := by
  have hdelivers := delivers_of_place hchunk h.place
  have hpossible {e : Event} (hstep : (step total chunk fill s.bytes e).isSome = true) :
      exists next, stepShared total chunk s e = some next := by
    rw [← stepShared_bytes h.filled e, Option.isSome_map] at hstep
    exact Option.isSome_iff_exists.mp hstep
  cases hpc : s.state.pc with
  | vmsplice want =>
      rcases hdelivers.turn want hpc with ⟨_, _, _, hpos, _, hany⟩
      have hwant := UInt64.lt_iff_toNat_lt.mp hpos
      rw [UInt64.toNat_zero] at hwant
      rcases hpossible (hany 1 Int.one_pos (by lia)) with ⟨next, hnext⟩
      exact ⟨.vmsplice 1, next, Int.one_pos, hnext, Nat.zero_le 1⟩
  | splice inPipe drained =>
      rcases hdelivers.drains inPipe drained hpc with ⟨_, hmore, hany⟩
      rcases hpossible (hany 1 Int.one_pos (by lia)) with ⟨next, hnext⟩
      exact ⟨.splice 1, next, Int.one_pos, hnext, Nat.le_refl 1⟩
  | exited =>
      simp only [Sender.closed, hpc] at hopen
      cases hopen
  | failed message =>
      simp only [Sender.closed, hpc] at hopen
      cases hopen

theorem stepShared_stops {total chunk : UInt64} {s : Shared alpha} (e : Event)
    (hclosed : (Sender.vmsplice s).closed = true) : stepShared total chunk s e = none := by
  cases hpc : s.state.pc with
  | vmsplice want =>
      simp only [Sender.closed, hpc] at hclosed
      cases hclosed
  | splice inPipe drained =>
      simp only [Sender.closed, hpc] at hclosed
      cases hclosed
  | _ => cases e <;> simp only [stepShared, hpc]

theorem stepShared_fine {total chunk : UInt64} {s next : Shared alpha} {e : Event}
    (he : Call.Fine (.vmsplice e))
    (hstep : stepShared total chunk s e = some next) :
    forall message, next.state.pc ≠ .failed message := by
  cases e with
  | vmsplice inPipe =>
      have hpos : ¬ inPipe ≤ 0 := Int.not_le.mpr he
      simp only [stepShared] at hstep
      split at hstep
      · rw [if_neg hpos] at hstep
        rcases Option.ite_none_right_eq_some.mp hstep with ⟨_, hnext⟩
        cases hnext
        exact drainHead_ne_failed _ _ _ _ _
      · cases hstep
  | splice m =>
      have hpos : ¬ m ≤ 0 := Int.not_le.mpr he
      simp only [stepShared] at hstep
      split at hstep
      · rw [if_neg hpos] at hstep
        rcases Option.ite_none_right_eq_some.mp hstep with ⟨_, hnext⟩
        cases hnext
        exact drainHead_ne_failed _ _ _ _ _
      · cases hstep

end Bench

/-!
## The write sender on its connection
-/

namespace BenchNaive

theorem sent_le_of_inv {total chunk : UInt64} {fill : alpha} {s : State alpha}
    (h : Inv total chunk fill s) : s.sent.toNat ≤ total.toNat := by
  have hplace := h.place
  unfold Place at hplace
  split at hplace
  · exact Nat.le_of_lt (UInt64.lt_iff_toNat_lt.mp hplace.left)
  · exact Nat.le_of_eq (congrArg UInt64.toNat hplace)
  · exact Nat.le_of_lt (UInt64.lt_iff_toNat_lt.mp hplace)

theorem step_socket {total chunk : UInt64} {fill : alpha} {s next : State alpha} {n : Int}
    (hstep : step total chunk fill s n = some next) :
    exists added, next.socket = s.socket ++ added ∧ added.length ≤ n.toNat := by
  rcases step_cases hstep with ⟨w, _, ⟨_, rfl⟩ | ⟨_, _, rfl⟩⟩
  · exact ⟨[], (List.append_nil _).symm, Nat.zero_le _⟩
  · exact ⟨(data chunk fill).take n.toNat, rfl, List.length_take_le _ _⟩

theorem exists_step {total chunk : UInt64} {fill : alpha} {s : State alpha} (hchunk : 0 < chunk)
    (h : Inv total chunk fill s) (hopen : (Sender.write s).closed = false) :
    exists next, step total chunk fill s 1 = some next := by
  cases hpc : s.pc with
  | write want =>
      rcases (delivers_of_inv hchunk h).turn want hpc with ⟨_, _, hpos, _, hany⟩
      have hwant := UInt64.lt_iff_toNat_lt.mp hpos
      rw [UInt64.toNat_zero] at hwant
      exact Option.isSome_iff_exists.mp (hany 1 Int.one_pos (by lia))
  | exited =>
      simp only [Sender.closed, hpc] at hopen
      cases hopen
  | failed message =>
      simp only [Sender.closed, hpc] at hopen
      cases hopen

theorem step_stops {total chunk : UInt64} {fill : alpha} {s : State alpha} (n : Int)
    (hclosed : (Sender.write s).closed = true) : step total chunk fill s n = none := by
  cases hpc : s.pc with
  | write want =>
      simp only [Sender.closed, hpc] at hclosed
      cases hclosed
  | _ => simp only [step, hpc]

theorem step_fine {total chunk : UInt64} {fill : alpha} {s next : State alpha} {n : Int}
    (hn : 0 < n) (hstep : step total chunk fill s n = some next) :
    forall message, next.pc ≠ .failed message := by
  rcases step_cases hstep with ⟨w, _, ⟨hfail, _⟩ | ⟨_, _, rfl⟩⟩
  · exact absurd hn (Int.not_lt.mpr hfail)
  · intro message
    unfold loopHead
    simp only
    split
    · exact Pc.noConfusion
    · exact Pc.noConfusion

end BenchNaive

/-!
## Any number of senders
-/

def SenderInv (total chunk : UInt64) (fill : alpha) : Sender alpha -> Prop
  | .vmsplice s => Bench.SharedInv total chunk fill s
  | .write s => BenchNaive.Inv total chunk fill s

def senderCalls (total : UInt64) : Sender alpha -> Nat
  | .vmsplice s => Bench.callsLeft total s.bytes
  | .write s => BenchNaive.left total s

theorem senderInv_of_isStart {total chunk : UInt64} {zero fill : alpha} {s : Sender alpha}
    (h : IsStart total chunk zero fill s) : SenderInv total chunk fill s := by
  rcases h with rfl | rfl
  · exact Bench.sharedInv_start zero fill
  · exact BenchNaive.inv_start total chunk fill

theorem senderStep_cases {total chunk : UInt64} {fill : alpha} {s next : Sender alpha} {e : Call}
    (h : senderStep total chunk fill s e = some next) :
    (exists b a n, s = .vmsplice b ∧ e = .vmsplice a ∧ next = .vmsplice n ∧
      Bench.stepShared total chunk b a = some n) ∨
    (exists b a n, s = .write b ∧ e = .write a ∧ next = .write n ∧
      BenchNaive.step total chunk fill b a = some n) := by
  cases s with
  | vmsplice b =>
      cases e with
      | vmsplice a =>
          rcases Option.map_eq_some_iff.mp h with ⟨n, hstep, rfl⟩
          exact .inl ⟨b, a, n, rfl, rfl, rfl, hstep⟩
      | write a => cases h
  | write b =>
      cases e with
      | vmsplice a => cases h
      | write a =>
          rcases Option.map_eq_some_iff.mp h with ⟨n, hstep, rfl⟩
          exact .inr ⟨b, a, n, rfl, rfl, rfl, hstep⟩

/-- What the receiver finds in a sender's socket, whenever it looks. -/
theorem sent_part {total chunk : UInt64} (zero : alpha) {fill : alpha} {s : Sender alpha}
    (h : SenderInv total chunk fill s) :
    s.sent.map (s.load chunk zero fill) <+: List.replicate total.toNat fill := by
  cases s with
  | vmsplice s =>
      have hmap : (Sender.vmsplice s).sent.map ((Sender.vmsplice s).load chunk zero fill) =
          s.bytes.socket := by
        simp only [Sender.sent, List.map_map]
        rfl
      rw [hmap]
      exact Bench.SharedInv.socket h
  | write s =>
      have hmap : (Sender.write s).sent.map ((Sender.write s).load chunk zero fill) =
          s.socket := by
        simp only [Sender.sent, List.map_map]
        exact List.map_id _
      have hinv : BenchNaive.Inv total chunk fill s := h
      have hle := BenchNaive.sent_le_of_inv hinv
      rw [hmap, hinv.socket]
      exact ⟨List.replicate (total.toNat - s.sent.toNat) fill, by
        rw [List.replicate_append_replicate, Nat.add_sub_cancel' hle]⟩

theorem senders_reliable {total chunk : UInt64} (zero fill : alpha) (hchunk : 0 < chunk) :
    Reliable (senders total chunk zero fill) (SenderInv total chunk fill) (senderCalls total)
      total.toNat where
  keep := by
    intro s next e h hstep
    rcases senderStep_cases hstep with ⟨b, a, n, rfl, rfl, rfl, hb⟩ | ⟨b, a, n, rfl, rfl, rfl, hb⟩
    · exact Bench.sharedInv_step hchunk h hb
    · exact BenchNaive.inv_step hchunk h hb
  append := by
    intro s next e h hstep
    rcases senderStep_cases hstep with ⟨b, a, n, rfl, rfl, rfl, hb⟩ | ⟨b, a, n, rfl, rfl, rfl, hb⟩
    · rcases Bench.stepShared_socket hb with ⟨added, hadded, _⟩
      exact ⟨added.map .page, by simp only [senders, Sender.sent, hadded, List.map_append]⟩
    · rcases BenchNaive.step_socket hb with ⟨added, hadded, _⟩
      exact ⟨added.map .copy, by simp only [senders, Sender.sent, hadded, List.map_append]⟩
  stable := by
    intro s next e h hstep held _
    rcases senderStep_cases hstep with ⟨b, a, n, rfl, rfl, rfl, hb⟩ | ⟨b, a, n, rfl, rfl, rfl, hb⟩
    · cases held with
      | page i => exact congrFun (Bench.stepShared_memory hb) i
      | copy x => rfl
    · cases held with
      | page i => rfl
      | copy x => rfl
  stops := by
    intro s e hclosed
    cases s with
    | vmsplice b =>
        cases e with
        | vmsplice a => exact congrArg (Option.map _) (Bench.stepShared_stops a hclosed)
        | write a => rfl
    | write b =>
        cases e with
        | vmsplice a => rfl
        | write a => exact congrArg (Option.map _) (BenchNaive.step_stops a hclosed)
  less := by
    intro s next e h hstep
    rcases senderStep_cases hstep with ⟨b, a, n, rfl, rfl, rfl, hb⟩ | ⟨b, a, n, rfl, rfl, rfl, hb⟩
    · have hinv : Bench.SharedInv total chunk fill b := h
      have hbytes : Bench.step total chunk fill b.bytes a = some n.bytes := by
        rw [← Bench.stepShared_bytes hinv.filled a, hb]
        rfl
      exact Bench.callsLeft_step hchunk hinv.place hbytes
    · exact BenchNaive.left_step hchunk h hb
  bounded := by
    intro s h
    have hlength := (sent_part zero h).length_le
    rw [List.length_map, List.length_replicate] at hlength
    exact hlength
  goes := by
    intro s h hopen
    cases s with
    | vmsplice b =>
        rcases Bench.exists_stepShared hchunk h hopen with ⟨a, n, hfine, hb, hmoved⟩
        rcases Bench.stepShared_socket hb with ⟨added, hadded, hlength⟩
        refine ⟨.vmsplice a, .vmsplice n, hfine, congrArg (Option.map _) hb, ?_⟩
        simp only [senders, Sender.sent, hadded, List.length_map, List.length_append]
        lia
    | write b =>
        rcases BenchNaive.exists_step hchunk h hopen with ⟨n, hb⟩
        rcases BenchNaive.step_socket hb with ⟨added, hadded, hlength⟩
        refine ⟨.write 1, .write n, Int.one_pos, congrArg (Option.map _) hb, ?_⟩
        simp only [senders, Sender.sent, hadded, List.length_map, List.length_append]
        lia

def Sender.Sound : Sender alpha -> Prop
  | .vmsplice s => forall message, s.state.pc ≠ .failed message
  | .write s => forall message, s.pc ≠ .failed message

theorem sound_step {total chunk : UInt64} {fill : alpha} {s next : Sender alpha} {e : Call}
    (he : Call.Fine e) (hstep : senderStep total chunk fill s e = some next) : next.Sound := by
  rcases senderStep_cases hstep with ⟨b, a, n, rfl, rfl, rfl, hb⟩ | ⟨b, a, n, rfl, rfl, rfl, hb⟩
  · exact Bench.stepShared_fine he hb
  · exact BenchNaive.step_fine he hb

theorem sound_of_isStart {total chunk : UInt64} {zero fill : alpha} {s : Sender alpha}
    (h : IsStart total chunk zero fill s) : s.Sound := by
  rcases h with rfl | rfl
  · intro message
    simp only [Bench.startShared, Bench.start, Bench.loopHead]
    split
    · exact Bench.Pc.noConfusion
    · exact Bench.Pc.noConfusion
  · intro message
    simp only [BenchNaive.start, BenchNaive.loopHead]
    split
    · exact BenchNaive.Pc.noConfusion
    · exact BenchNaive.Pc.noConfusion

theorem sent_of_closed {total chunk : UInt64} (zero : alpha) {fill : alpha} {s : Sender alpha}
    (hchunk : 0 < chunk) (h : SenderInv total chunk fill s) (hsound : s.Sound)
    (hclosed : s.closed = true) :
    s.sent.map (s.load chunk zero fill) = List.replicate total.toNat fill := by
  refine (sent_part zero h).eq_of_length ?_
  rw [List.length_map, List.length_replicate]
  cases s with
  | vmsplice s =>
      have hplace := Bench.SharedInv.place h
      cases hpc : s.state.pc with
      | exited =>
          have hsocket := ((Bench.delivers_of_place hchunk hplace).finished hpc).right.right
          have hlength := congrArg List.length hsocket
          rw [List.length_replicate] at hlength
          rw [← hlength]
          simp only [Sender.sent, Bench.Shared.bytes, List.length_map]
      | failed message => exact absurd hpc (hsound message)
      | _ =>
          simp only [Sender.closed, hpc] at hclosed
          cases hclosed
  | write s =>
      cases hpc : s.pc with
      | exited =>
          have hsocket := ((BenchNaive.delivers_of_inv hchunk h).finished hpc).right
          simp only [Sender.sent, List.length_map, hsocket, List.length_replicate]
      | failed message => exact absurd hpc (hsound message)
      | _ =>
          simp only [Sender.closed, hpc] at hclosed
          cases hclosed

theorem senderCalls_start {total chunk : UInt64} {zero fill : alpha} {s : Sender alpha}
    (h : IsStart total chunk zero fill s) : senderCalls total s ≤ 2 * total.toNat := by
  rcases h with rfl | rfl
  · exact Bench.callsLeft_loopHead rfl
  · have hleft : BenchNaive.left total (BenchNaive.start total chunk : BenchNaive.State alpha) ≤
        total.toNat := by
      unfold BenchNaive.left
      split
      · exact Nat.sub_le _ _
      · exact Nat.zero_le _
    exact Nat.le_trans hleft (Nat.le_mul_of_pos_left _ Nat.two_pos)

/--
The receiver never reads anything but a part of the stream; every run of it and of its
clients comes to an end, and where it ends without failures every client has
been served and received whole.
-/
theorem recv_serves (total chunk : UInt64) (zero fill : alpha) (capacity : Nat)
    (clients : List (Sender alpha)) (es : List (Event Call)) (w : World (Sender alpha) alpha)
    (hchunk : 0 < chunk) (hcapacity : 0 < capacity)
    (hclients : forall s, s ∈ clients -> IsStart total chunk zero fill s)
    (hrun : exec (step (senders total chunk zero fill) capacity recvScratch) (start clients) es =
      some w) :
    (forall c, c ∈ w.connections -> c.received <+: List.replicate total.toNat fill) ∧
      es.length ≤ clients.length * (3 * total.toNat + 3) + 1 ∧
      ((forall e, e ∈ es -> Event.Fine (senders total chunk zero fill) e) ->
        (forall e, Event.Fine (senders total chunk zero fill) e ->
          step (senders total chunk zero fill) capacity recvScratch w e = none) ->
        w.connections.length = clients.length ∧
          forall c, c ∈ w.connections -> c.received = List.replicate total.toNat fill) := by
  have hprog : Reliable (senders total chunk zero fill) (SenderInv total chunk fill)
      (senderCalls total) total.toNat := senders_reliable zero fill hchunk
  have hstarts : forall s, s ∈ clients -> SenderInv total chunk fill s :=
    fun s hs => senderInv_of_isStart (hclients s hs)
  have hinv := inv_run hprog hstarts hrun
  refine ⟨?_, ?_, ?_⟩
  · intro c hc
    have hbrought := hinv.brought c hc
    exact hbrought.received.trans (sent_part zero hbrought.sender)
  · have hlength := run_length_le hprog hstarts hrun
    have hbound : Totals.total (fun s => senderCalls total s + total.toNat + 3) clients ≤
        clients.length * (3 * total.toNat + 3) := by
      apply Totals.total_le
      intro s hs
      have hcalls := senderCalls_start (hclients s hs)
      lia
    lia
  · intro hfine hstuck
    have hserved : Served w := by
      rcases exists_step hprog hcapacity (by decide : 0 < recvScratch) hinv with
        hserved | ⟨e, he, hstep⟩
      · exact hserved
      · rw [hstuck e he] at hstep
        cases hstep
    have hall := senders_length hrun
    rw [hserved.left, List.length_nil, Nat.zero_add] at hall
    refine ⟨hall, fun c hc => ?_⟩
    have hsound := senders_run (J := Sender.Sound) (fun _ he hstep => sound_step he hstep)
      (fun s hs => sound_of_isStart (hclients s hs)) hfine hrun c hc
    rcases received_of_served hprog hstarts hfine hrun hserved hc with ⟨hclosed, hreceived⟩
    rw [hreceived]
    exact sent_of_closed zero hchunk (hinv.brought c hc).sender hsound hclosed

def twoClients : List (Sender Nat) :=
  [.vmsplice (Bench.startShared 2 2 0 7), .write (BenchNaive.start 2 2)]

theorem recv_serves_two :
    exists es w, exec (step (senders 2 2 0 7) 2 recvScratch) (start twoClients) es = some w ∧
      es.length ≤ 19 ∧ w.connections.length = 2 ∧
      forall c, c ∈ w.connections -> c.received <+: [7, 7] := by
  have hrun : exists w : World (Sender Nat) Nat,
      exec (step (senders 2 2 0 7) 2 recvScratch) (start twoClients)
        [.connect, .accept, .send 0 (.vmsplice (.vmsplice 2)), .send 0 (.vmsplice (.splice 1)),
          .connect, .recv 1, .send 1 (.write 2), .send 0 (.vmsplice (.splice 1)), .recv 1,
          .recv 0, .accept, .recv 2, .recv 0] = some w ∧ w.connections.length = 2 :=
    ⟨_, rfl, rfl⟩
  rcases hrun with ⟨w, hrun, htwo⟩
  have hstarts : forall s, s ∈ twoClients -> IsStart 2 2 0 7 s := by
    intro s hs
    rcases List.mem_pair.mp hs with rfl | rfl
    · exact .inl rfl
    · exact .inr rfl
  rcases recv_serves 2 2 0 7 2 twoClients _ w (by decide) (by decide) hstarts hrun with
    ⟨hreceived, hlength, _⟩
  exact ⟨_, w, hrun, hlength, htwo, hreceived⟩

end Vmsplice
end VidsContent
