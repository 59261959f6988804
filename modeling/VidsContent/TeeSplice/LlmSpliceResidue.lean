import VidsContent.Lib.Buffers
import VidsContent.TeeSplice.LlmSpliceCopy

/-!
# What the splice copy leaves in its pipe

The second call of the loop may move less than the first one did.  What it leaves stays
in the pipe, in front of what the next round brings, until the program ends and drops
it, or until no buffer of the pipe is free and the program waits for itself.  A buffer
holds a page at most and is free again when all of it is taken, so that happens with as
many bytes in the pipe as it has buffers, or with more.
-/

namespace VidsContent
namespace TeeSplice
namespace LlmSpliceCopy

open Transition

def movedIn : Event -> Nat
  | .spliceIn (some n) => n
  | _ => 0

def movedOut : Event -> Nat
  | .spliceOut (some m) => m
  | _ => 0

def Succeeds : Event -> Prop
  | .spliceIn none => False
  | .spliceOut none => False
  | _ => True

instance : forall e : Event, Decidable (Succeeds e)
  | .spliceIn none => isFalse id
  | .spliceIn (some _) => isTrue trivial
  | .spliceOut none => isFalse id
  | .spliceOut (some _) => isTrue trivial

/-- The bytes keep their order on the way, and a second call finds what the first brought. -/
structure Keeps (input : List alpha) (s : State alpha) : Prop where
  order : s.output ++ (s.pipe ++ s.rest) = input
  brought : forall n, s.pc = .spliceOut n -> 0 < n ∧ n ≤ s.pipe.length

theorem keeps_start (input : List alpha) : Keeps input (start input) where
  order := rfl
  brought := nofun

theorem keeps_step {capacity : Nat} {input : List alpha} {s next : State alpha} {e : Event}
    (h : Keeps input s) (hstep : step capacity s e = some next) :
    Keeps input next ∧ next.pipe.length + movedOut e = s.pipe.length + movedIn e := by
  rcases step_cases hstep with ⟨rfl, _, rfl⟩ | ⟨rfl, _, _, rfl⟩ | ⟨n, rfl, hpc, hpos, hle, rfl⟩ |
    ⟨n, rfl, _, rfl⟩ | ⟨n, m, rfl, hpc, hm, rfl⟩
  · exact ⟨⟨h.order, nofun⟩, rfl⟩
  · exact ⟨⟨h.order, nofun⟩, rfl⟩
  · have hlength : (s.pipe ++ s.rest.take n).length = s.pipe.length + n := by
      rw [List.length_append, List.length_take_of_le hle]
    refine ⟨⟨?_, ?_⟩, hlength⟩
    · rw [List.append_assoc, List.take_append_drop]
      exact h.order
    · intro k hk
      cases hk
      rw [hlength]
      exact ⟨hpos, Nat.le_add_left _ _⟩
  · exact ⟨⟨h.order, nofun⟩, rfl⟩
  · have hbrought := h.brought n hpc
    refine ⟨⟨?_, nofun⟩, ?_⟩
    · have hsplit : s.pipe.take m ++ (s.pipe.drop m ++ s.rest) = s.pipe ++ s.rest := by
        rw [← List.append_assoc, List.take_append_drop]
      rw [List.append_assoc, hsplit]
      exact h.order
    · simp only [List.length_drop, movedOut, movedIn]
      lia

def callsLeft (s : State alpha) : Nat :=
  match s.pc with
  | .spliceIn => 2 * s.rest.length + 1
  | .spliceOut _ => 2 * s.rest.length + 2
  | .exited => 0

theorem callsLeft_step {capacity : Nat} {s next : State alpha} {e : Event}
    (hstep : step capacity s e = some next) : callsLeft next < callsLeft s := by
  rcases step_cases hstep with ⟨_, hpc, rfl⟩ | ⟨_, hpc, _, rfl⟩ | ⟨n, _, hpc, hpos, hle, rfl⟩ |
    ⟨n, _, hpc, rfl⟩ | ⟨n, m, _, hpc, _, rfl⟩
  · simp only [callsLeft, hpc]
    lia
  · simp only [callsLeft, hpc]
    lia
  · simp only [callsLeft, hpc, List.length_drop]
    lia
  · simp only [callsLeft, hpc]
    lia
  · simp only [callsLeft, hpc]
    lia

theorem pipe_run {capacity : Nat} {input : List alpha} {s t : State alpha} {es : List Event}
    (h : Keeps input s) (hrun : exec (step capacity) s es = some t) :
    t.pipe.length + Totals.total movedOut es = s.pipe.length + Totals.total movedIn es := by
  induction es generalizing s with
  | nil =>
      cases hrun
      rfl
  | cons e es ih =>
      rcases exec_cons hrun with ⟨next, hstep, hrest⟩
      rcases keeps_step h hstep with ⟨hnext, hmoved⟩
      have htail := ih hnext hrest
      rw [Totals.total_cons, Totals.total_cons]
      lia

def EndsAtEnd (s : State alpha) : Prop := s.pc = .exited -> s.rest = []

theorem endsAtEnd_step {capacity : Nat} {s next : State alpha} {e : Event}
    (_ : EndsAtEnd s) (he : Succeeds e) (hstep : step capacity s e = some next) :
    EndsAtEnd next := by
  rcases step_cases hstep with ⟨rfl, _, rfl⟩ | ⟨_, _, hend, rfl⟩ | ⟨n, _, _, _, _, rfl⟩ |
    ⟨n, _, _, rfl⟩ | ⟨n, m, _, _, _, rfl⟩
  · cases he
  · exact fun _ => hend
  · exact nofun
  · exact nofun
  · exact nofun

end LlmSpliceCopy

namespace LlmSpliceResidue

open Transition LlmSpliceCopy Buffers

/-- What a buffer holds at most. -/
def pageSize : Nat := 4096

structure State (alpha : Type) where
  bytes : LlmSpliceCopy.State alpha
  buffers : List Nat

/-- What comes from the file comes in buffers of its own. -/
inductive Event where
  | spliceIn (n : Option Nat) (buffers : List Nat)
  | spliceOut (m : Option Nat)

def Event.bytes : Event -> LlmSpliceCopy.Event
  | .spliceIn n _ => .spliceIn n
  | .spliceOut m => .spliceOut m

def start (input : List alpha) : State alpha where
  bytes := LlmSpliceCopy.start input
  buffers := []

/-- The splice from the file waits for a free buffer, at the end of the file too. -/
def Fits (slots : Nat) (s : State alpha) : Event -> Prop
  | .spliceIn none buffers => buffers = []
  | .spliceIn (some n) buffers =>
      s.buffers.length < slots ∧ s.buffers.length + buffers.length ≤ slots ∧
        (forall b, b ∈ buffers -> 0 < b ∧ b ≤ pageSize) ∧ held buffers = n
  | .spliceOut _ => True

instance (slots : Nat) (s : State alpha) : forall e, Decidable (Fits slots s e)
  | .spliceIn none buffers => inferInstanceAs (Decidable (buffers = []))
  | .spliceIn (some _) _ => inferInstanceAs (Decidable (_ ∧ _ ∧ _ ∧ _))
  | .spliceOut _ => isTrue trivial

def buffersAfter (s : State alpha) : Event -> List Nat
  | .spliceIn _ buffers => s.buffers ++ buffers
  | .spliceOut none => s.buffers
  | .spliceOut (some m) => rest m s.buffers

def step (slots : Nat) (s : State alpha) (e : Event) : Option (State alpha) :=
  if Fits slots s e then
    (LlmSpliceCopy.step (slots * pageSize) s.bytes e.bytes).map
      (fun bytes => { bytes := bytes, buffers := buffersAfter s e })
  else
    none

theorem step_eq_some {slots : Nat} {s next : State alpha} {e : Event}
    (h : step slots s e = some next) :
    Fits slots s e ∧ exists bytes,
      LlmSpliceCopy.step (slots * pageSize) s.bytes e.bytes = some bytes ∧
      next = { bytes := bytes, buffers := buffersAfter s e } := by
  rcases Option.ite_none_right_eq_some.mp h with ⟨hfits, hmap⟩
  rcases Option.map_eq_some_iff.mp hmap with ⟨bytes, hbytes, hnext⟩
  exact ⟨hfits, bytes, hbytes, hnext.symm⟩

theorem step_isSome {slots : Nat} {s : State alpha} {e : Event} (hfits : Fits slots s e)
    (hbytes : (LlmSpliceCopy.step (slots * pageSize) s.bytes e.bytes).isSome = true) :
    (step slots s e).isSome = true := by
  rw [step, if_pos hfits, Option.isSome_map]
  exact hbytes

/-- A run is one of the splice copy whose pipe has room for as many pages. -/
theorem exec_bytes {slots : Nat} {s t : State alpha} {es : List Event}
    (hrun : exec (step slots) s es = some t) :
    exec (LlmSpliceCopy.step (slots * pageSize)) s.bytes (es.map Event.bytes) =
      some t.bytes := by
  induction es generalizing s with
  | nil =>
      cases hrun
      rfl
  | cons e es ih =>
      rcases exec_cons hrun with ⟨next, hstep, hrest⟩
      rcases step_eq_some hstep with ⟨_, bytes, hbytes, rfl⟩
      rw [List.map_cons, exec_cons_of_step _ hbytes]
      exact ih hrest

/-!
## Buffers in use
-/

structure Buffered (slots : Nat) (s : State alpha) : Prop where
  holds : Holds s.buffers s.bytes.pipe.length
  small : forall b, b ∈ s.buffers -> b ≤ pageSize
  bounded : s.buffers.length ≤ slots

theorem buffered_start (slots : Nat) (input : List alpha) : Buffered slots (start input) where
  holds := .nil
  small := nofun
  bounded := Nat.zero_le slots

theorem buffered_step {slots : Nat} {s next : State alpha} {e : Event}
    (h : Buffered slots s) (hstep : step slots s e = some next) : Buffered slots next := by
  rcases step_eq_some hstep with ⟨hfits, bytes, hbytes, rfl⟩
  cases e with
  | spliceIn n buffers =>
      cases n with
      | none =>
          cases hfits
          rcases step_cases hbytes with ⟨_, _, rfl⟩ | ⟨he, _⟩ | ⟨_, he, _⟩ | ⟨_, he, _⟩ |
            ⟨_, _, he, _⟩
          · simp only [buffersAfter, List.append_nil]
            exact ⟨h.holds, h.small, h.bounded⟩
          all_goals cases he
      | some n =>
          rcases hfits with ⟨_, hroom, hpages, hsum⟩
          have hbrought : bytes.pipe.length = s.bytes.pipe.length + n := by
            rcases step_cases hbytes with ⟨he, _⟩ | ⟨he, _, _, rfl⟩ | ⟨k, he, _, _, hle, rfl⟩ |
              ⟨_, he, _⟩ | ⟨_, _, he, _⟩
            · cases he
            · cases he
              rfl
            · cases he
              simp only [List.length_append, List.length_take_of_le hle]
            · cases he
            · cases he
          constructor
          · rw [hbrought]
            exact h.holds.append ⟨fun b hb => (hpages b hb).left, hsum⟩
          · intro b hb
            rcases List.mem_append.mp hb with hold | hnew
            · exact h.small b hold
            · exact (hpages b hnew).right
          · rw [buffersAfter, List.length_append]
            exact hroom
  | spliceOut m =>
      rcases step_cases hbytes with ⟨he, _⟩ | ⟨he, _⟩ | ⟨_, he, _⟩ | ⟨n, he, _, rfl⟩ |
        ⟨n, m, he, _, _, rfl⟩
      · cases he
      · cases he
      · cases he
      · cases he
        exact ⟨h.holds, h.small, h.bounded⟩
      · cases he
        constructor
        · simp only [List.length_drop]
          exact h.holds.rest m
        · exact fun b hb => le_of_mem_rest h.small hb
        · exact Nat.le_trans (length_rest_le m s.buffers) h.bounded

/-- All buffers of the pipe are in use, and nobody else reads it. -/
def WaitsForItself (slots : Nat) (s : State alpha) : Prop :=
  s.bytes.pc = .spliceIn ∧ s.buffers.length = slots

theorem exists_call {slots : Nat} {input : List alpha} {s : State alpha}
    (hkeeps : Keeps input s.bytes) (h : Buffered slots s) (hrunning : s.bytes.pc ≠ .exited)
    (hfree : s.bytes.pc = .spliceIn -> s.buffers.length < slots) :
    exists e : Event, Succeeds e.bytes ∧ (step slots s e).isSome = true := by
  cases hpc : s.bytes.pc with
  | spliceIn =>
      have hroom := hfree hpc
      by_cases hend : s.bytes.rest = []
      · refine ⟨.spliceIn (some 0) [], trivial, step_isSome ?_ ?_⟩
        · exact ⟨hroom, h.bounded, nofun, rfl⟩
        · simp only [Event.bytes, LlmSpliceCopy.step, hpc]
          rw [if_pos (List.isEmpty_iff.mpr hend)]
          rfl
      · -- a page is free, so that the pipe has room for the byte
        have hheld : s.bytes.pipe.length ≤ s.buffers.length * pageSize := by
          rw [← h.holds.held_eq]
          exact Totals.total_le h.small
        have hpages := Nat.mul_le_mul_right pageSize (Nat.succ_le_of_lt hroom)
        rw [Nat.succ_mul] at hpages
        have hpage : 1 ≤ pageSize := by decide
        have hpos := List.length_pos_iff.mpr hend
        refine ⟨.spliceIn (some 1) [1], trivial, step_isSome ?_ ?_⟩
        · refine ⟨hroom, hroom, fun b hb => ?_, rfl⟩
          rw [List.mem_singleton.mp hb]
          exact ⟨Nat.one_pos, hpage⟩
        · simp only [Event.bytes, LlmSpliceCopy.step, hpc]
          rw [if_pos ⟨by decide, hpos, by lia⟩]
          rfl
  | spliceOut n =>
      rcases hkeeps.brought n hpc with ⟨hpos, hle⟩
      refine ⟨.spliceOut (some 1), trivial, step_isSome trivial ?_⟩
      simp only [Event.bytes, LlmSpliceCopy.step, hpc]
      rw [if_pos ⟨Nat.one_pos, hpos, by lia⟩]
      rfl
  | exited => exact absurd hpc hrunning

theorem no_call_of_exited {slots : Nat} {s : State alpha} (hpc : s.bytes.pc = .exited)
    (e : Event) : step slots s e = none := by
  cases e with
  | spliceIn n buffers => simp [step, Event.bytes, LlmSpliceCopy.step, hpc]
  | spliceOut m => simp [step, Event.bytes, LlmSpliceCopy.step, hpc]

theorem no_call_of_waits {slots : Nat} {s : State alpha} (h : WaitsForItself slots s)
    {e : Event} (he : Succeeds e.bytes) : step slots s e = none := by
  rcases h with ⟨hpc, hfull⟩
  cases e with
  | spliceIn n buffers =>
      cases n with
      | none => cases he
      | some n =>
          apply if_neg
          rintro ⟨hroom, _⟩
          exact absurd hfull (Nat.ne_of_lt hroom)
  | spliceOut m => simp [step, Event.bytes, LlmSpliceCopy.step, hpc]

/--
In every run the output, the pipe and the rest of the file are the input in this order,
the pipe holds by what the splices to the output fell short, and the calls are bounded.
Without a failure the program ends with the pipe's bytes missing at the end of the
output.  No call can return without one exactly when the program has ended or when all
buffers of its own pipe are in use before the splice from the file; each of them holds a
byte at least.
-/
theorem residue_of_run (slots : Nat) (input : List alpha) (s : State alpha)
    (es : List Event) (hrun : exec (step slots) (start input) es = some s) :
    s.bytes.output ++ (s.bytes.pipe ++ s.bytes.rest) = input ∧
      s.bytes.pipe.length + Totals.total movedOut (es.map Event.bytes) =
        Totals.total movedIn (es.map Event.bytes) ∧
      es.length ≤ 2 * input.length + 1 ∧
      ((forall e, e ∈ es -> Succeeds e.bytes) -> s.bytes.pc = .exited ->
        s.bytes.output ++ s.bytes.pipe = input) ∧
      ((forall e : Event, Succeeds e.bytes -> step slots s e = none) <->
        s.bytes.pc = .exited ∨ WaitsForItself slots s) ∧
      (WaitsForItself slots s -> slots ≤ s.bytes.pipe.length) := by
  have hbytes := exec_bytes hrun
  have hkeeps : Keeps input s.bytes :=
    exec_invariant (fun h hstep => (keeps_step h hstep).left) (keeps_start input) hbytes
  have hbuffered : Buffered slots s :=
    exec_invariant buffered_step (buffered_start slots input) hrun
  refine ⟨hkeeps.order, ?_, ?_, ?_, ⟨?_, ?_⟩, ?_⟩
  · have hmoved := pipe_run (keeps_start input) hbytes
    rw [hmoved]
    exact Nat.zero_add _
  · have hkeep {v next : LlmSpliceCopy.State alpha} {e : LlmSpliceCopy.Event} (_ : True)
        (_ : LlmSpliceCopy.step (slots * pageSize) v e = some next) : True := trivial
    have hlength := exec_length_le callsLeft hkeep (fun _ hstep => callsLeft_step hstep) trivial
      hbytes
    have hstart : callsLeft (LlmSpliceCopy.start input) = 2 * input.length + 1 := rfl
    rw [List.length_map] at hlength
    exact Nat.le_trans (Nat.le_of_add_right_le hlength) (Nat.le_of_eq hstart)
  · intro hcalls hexited
    have hsteps : AllSteps (LlmSpliceCopy.step (slots * pageSize)) (fun _ e => Succeeds e)
        (LlmSpliceCopy.start input) (es.map Event.bytes) :=
      allSteps_of_forall (List.forall_mem_map.mpr hcalls)
    have hends : EndsAtEnd s.bytes :=
      exec_guarded_invariant endsAtEnd_step (fun h => Pc.noConfusion h) hsteps hbytes
    have horder := hkeeps.order
    rw [hends hexited, List.append_nil] at horder
    exact horder
  · intro hstuck
    by_contra hnot
    have hfree : s.bytes.pc = .spliceIn -> s.buffers.length < slots := fun hpc =>
      Nat.lt_of_le_of_ne hbuffered.bounded fun hfull => hnot (.inr ⟨hpc, hfull⟩)
    rcases exists_call hkeeps hbuffered (fun hexited => hnot (.inl hexited)) hfree with
      ⟨e, he, hstep⟩
    rw [hstuck e he] at hstep
    cases hstep
  · rintro (hexited | hwaits) e he
    · exact no_call_of_exited hexited e
    · exact no_call_of_waits hwaits he
  · rintro ⟨_, hfull⟩
    have hbytes := hbuffered.holds.length_le
    rw [hfull] at hbytes
    exact hbytes

theorem residue_of_run_full :
    exists s : State Nat,
      exec (step 2) (start [1, 2, 3, 4, 5])
        [.spliceIn (some 2) [2], .spliceOut (some 1), .spliceIn (some 2) [2],
          .spliceOut none] = some s ∧
      s.bytes.output ++ (s.bytes.pipe ++ s.bytes.rest) = [1, 2, 3, 4, 5] ∧
      s.bytes.pipe.length = 3 ∧
      forall e : Event, Succeeds e.bytes -> step 2 s e = none := by
  have hrun : exists s : State Nat,
      exec (step 2) (start [1, 2, 3, 4, 5])
        [.spliceIn (some 2) [2], .spliceOut (some 1), .spliceIn (some 2) [2],
          .spliceOut none] = some s ∧
      WaitsForItself 2 s ∧ s.bytes.pipe.length = 3 :=
    ⟨_, rfl, ⟨rfl, rfl⟩, rfl⟩
  rcases hrun with ⟨s, hrun, hwaits, hlength⟩
  rcases residue_of_run 2 _ s _ hrun with ⟨horder, _, _, _, hstuck, _⟩
  exact ⟨s, hrun, horder, hlength, hstuck.mpr (.inr hwaits)⟩

end LlmSpliceResidue
end TeeSplice
end VidsContent
