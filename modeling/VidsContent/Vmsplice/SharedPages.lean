import VidsContent.Vmsplice.Bench

/-!
# The vmsplice sender and its pages

`vmsplice` copies nothing: the pipe refers to the program's own pages, and so does the
socket until the receiver has read them.  What `Bench.step` says of the bytes is what
these references come to, for the program never stores to `data` after its `memset`.
-/

namespace VidsContent
namespace Vmsplice
namespace Bench

open Transition

/-- The pipe and the socket hold places in `data`. -/
structure Shared (alpha : Type) where
  memory : Nat -> alpha
  state : State Nat

def memset (memory : Nat -> alpha) (fill : alpha) (size : Nat) : Nat -> alpha :=
  fun i => if i < size then fill else memory i

def startShared (total chunk : UInt64) (zero fill : alpha) : Shared alpha where
  memory := memset (fun _ => zero) fill chunk.toNat
  state := start total chunk

def stepShared (total chunk : UInt64) (s : Shared alpha) : Event -> Option (Shared alpha)
  | .vmsplice inPipe =>
      match s.state.pc with
      | .vmsplice want =>
          if inPipe ≤ 0 then
            some { s with state := { s.state with pc := .failed "vmsplice" } }
          else if inPipe ≤ want.toNat then
            some
              { s with
                state := drainHead total chunk inPipe 0
                  { s.state with
                    pipe := s.state.pipe ++ (List.range chunk.toNat).take inPipe.toNat } }
          else
            none
      | _ => none
  | .splice m =>
      match s.state.pc with
      | .splice inPipe drained =>
          if m ≤ 0 then
            some { s with state := { s.state with pc := .failed "splice" } }
          else if m ≤ (UInt64.ofInt (inPipe - drained)).toNat ∧ m ≤ s.state.pipe.length then
            some
              { s with
                state := drainHead total chunk inPipe (drained + m)
                  { s.state with
                    pipe := s.state.pipe.drop m.toNat
                    socket := s.state.socket ++ s.state.pipe.take m.toNat } }
          else
            none
      | _ => none

def Shared.bytes (s : Shared alpha) : State alpha where
  sent := s.state.sent
  pipe := s.state.pipe.map s.memory
  socket := s.state.socket.map s.memory
  pc := s.state.pc

def Filled (chunk : UInt64) (fill : alpha) (s : Shared alpha) : Prop :=
  forall i, i < chunk.toNat -> s.memory i = fill

theorem filled_start (total chunk : UInt64) (zero fill : alpha) :
    Filled chunk fill (startShared total chunk zero fill) :=
  fun _ hi => if_pos hi

theorem bytes_drainHead (total chunk : UInt64) (inPipe drained : Int) (memory : Nat -> alpha)
    (s : State Nat) :
    Shared.bytes ⟨memory, drainHead total chunk inPipe drained s⟩ =
      drainHead total chunk inPipe drained (Shared.bytes ⟨memory, s⟩) := by
  unfold drainHead
  split
  · rfl
  · rfl

theorem given_bytes {chunk : UInt64} {fill : alpha} {s : Shared alpha} (h : Filled chunk fill s)
    (n : Nat) : ((List.range chunk.toNat).take n).map s.memory = (data chunk fill).take n := by
  have hall : (List.range chunk.toNat).map s.memory = data chunk fill := by
    rw [List.map_congr_left fun i hi => h i (List.mem_range.mp hi)]
    simp [data]
  rw [List.map_take, hall]

theorem stepShared_memory {total chunk : UInt64} {s next : Shared alpha} {e : Event}
    (hstep : stepShared total chunk s e = some next) : next.memory = s.memory := by
  cases e with
  | vmsplice inPipe =>
      simp only [stepShared] at hstep
      split at hstep
      · split at hstep
        · cases hstep
          rfl
        · rcases Option.ite_none_right_eq_some.mp hstep with ⟨_, hnext⟩
          cases hnext
          rfl
      · cases hstep
  | splice m =>
      simp only [stepShared] at hstep
      split at hstep
      · split at hstep
        · cases hstep
          rfl
        · rcases Option.ite_none_right_eq_some.mp hstep with ⟨_, hnext⟩
          cases hnext
          rfl
      · cases hstep

/-- The references do what the bytes do. -/
theorem stepShared_bytes {total chunk : UInt64} {fill : alpha} {s : Shared alpha}
    (h : Filled chunk fill s) (e : Event) :
    (stepShared total chunk s e).map Shared.bytes = step total chunk fill s.bytes e := by
  cases e with
  | vmsplice inPipe =>
      simp only [stepShared, step]
      cases hpc : s.state.pc with
      | vmsplice want =>
          have hbytes : s.bytes.pc = .vmsplice want := hpc
          simp only [hbytes]
          split
          · rfl
          · split
            · simp only [Option.map_some, bytes_drainHead]
              congr 2
              simp only [Shared.bytes, List.map_append, given_bytes h]
            · rfl
      | _ =>
          have hbytes : s.bytes.pc = s.state.pc := rfl
          simp only [hbytes, hpc]
          rfl
  | splice m =>
      simp only [stepShared, step]
      cases hpc : s.state.pc with
      | splice inPipe drained =>
          have hbytes : s.bytes.pc = .splice inPipe drained := hpc
          have hlength : s.bytes.pipe.length = s.state.pipe.length := List.length_map _
          simp only [hbytes, hlength]
          split
          · rfl
          · split
            · simp only [Option.map_some, bytes_drainHead]
              congr 2
              simp only [Shared.bytes, List.map_append, List.map_take, List.map_drop]
            · rfl
      | _ =>
          have hbytes : s.bytes.pc = s.state.pc := rfl
          simp only [hbytes, hpc]
          rfl

end Bench
end Vmsplice
end VidsContent
