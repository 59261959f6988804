import VidsContent.Lib.Buffers
import VidsContent.TeeSplice.Tee

/-!
# The splice tee with pipes of a fixed size

A private pipe has a fixed number of buffers.  While all of them are in use no `tee` into
it returns, and only the program itself can free one.  A splice to a file that takes a
part of a buffer frees none, so the program can come to wait for itself; where each
splice frees one it waits for nobody but the producer, and ends when the producer does.
-/

namespace VidsContent
namespace TeeSplice
namespace TeePipes

open Transition Tee Buffers

structure State (alpha : Type) where
  bytes : Tee.State alpha
  stdin : List Nat
  ps : Nat -> List Nat

/--
The producer's bytes go on in the last buffer, as many as `merged`, and then into buffers
of their own.
-/
inductive Event (alpha : Type) where
  | produce (bytes : List alpha) (merged : Nat) (buffers : List Nat)
  | close
  | tee (copiedSize : Option Nat)
  | spliceFile (splicedSize : Option Nat)
  | spliceStdin (splicedSize : Option Nat)

def Event.bytes : Event alpha -> Tee.Event alpha
  | .produce bytes _ _ => .produce bytes
  | .close => .close
  | .tee copiedSize => .tee copiedSize
  | .spliceFile splicedSize => .spliceFile splicedSize
  | .spliceStdin splicedSize => .spliceStdin splicedSize

def start (fileCount : Nat) : State alpha where
  bytes := Tee.start fileCount
  stdin := []
  ps := fun _ => []

/--
`tee` waits for a free buffer, at the end of standard input too, and takes one for each
buffer that it copies from.
-/
def TeeFits (slots : Nat) (s : State alpha) (n : Nat) : Pc -> Prop
  | .tee i => (s.ps i).length < slots ∧ (s.ps i).length + (first n s.stdin).length ≤ slots
  | _ => True

instance (slots : Nat) (s : State alpha) (n : Nat) : forall pc, Decidable (TeeFits slots s n pc)
  | .tee _ => inferInstanceAs (Decidable (_ ∧ _))
  | .spliceFile _ => isTrue trivial
  | .spliceStdin => isTrue trivial
  | .exited => isTrue trivial
  | .failed _ => isTrue trivial

def Fits (slots : Nat) (s : State alpha) : Event alpha -> Prop
  | .produce bytes merged buffers =>
      (s.stdin = [] -> merged = 0) ∧ (forall b, b ∈ buffers -> 0 < b) ∧
        merged + held buffers = bytes.length
  | .tee (some n) => TeeFits slots s n s.bytes.pc
  | _ => True

instance (slots : Nat) (s : State alpha) : forall e, Decidable (Fits slots s e)
  | .produce _ _ _ => inferInstanceAs (Decidable (_ ∧ _ ∧ _))
  | .close => isTrue trivial
  | .tee none => isTrue trivial
  | .tee (some n) => inferInstanceAs (Decidable (TeeFits slots s n s.bytes.pc))
  | .spliceFile _ => isTrue trivial
  | .spliceStdin _ => isTrue trivial

def stdinAfter (s : State alpha) : Event alpha -> List Nat
  | .produce _ merged buffers => grow merged s.stdin ++ buffers
  | .spliceStdin (some n) => rest n s.stdin
  | _ => s.stdin

def psAfter (s : State alpha) : Event alpha -> Nat -> List Nat
  | .tee (some n) =>
      match s.bytes.pc with
      | .tee i => Function.update s.ps i (s.ps i ++ first n s.stdin)
      | _ => s.ps
  | .spliceFile (some n) =>
      match s.bytes.pc with
      | .spliceFile i => Function.update s.ps i (rest n (s.ps i))
      | _ => s.ps
  | _ => s.ps

def step (slots fileCount : Nat) (s : State alpha) (e : Event alpha) : Option (State alpha) :=
  if Fits slots s e then
    (Tee.step fileCount s.bytes e.bytes).map
      (fun bytes => { bytes := bytes, stdin := stdinAfter s e, ps := psAfter s e })
  else
    none

def isCall : Event alpha -> Bool
  | .produce _ _ _ => false
  | .close => false
  | _ => true

def succeeds : Event alpha -> Bool
  | .tee (some _) => true
  | .spliceFile (some _) => true
  | .spliceStdin (some _) => true
  | _ => false

def running : Pc -> Bool
  | .exited => false
  | .failed _ => false
  | _ => true

theorem step_eq_some {slots fileCount : Nat} {s next : State alpha} {e : Event alpha}
    (h : step slots fileCount s e = some next) :
    Fits slots s e ∧ exists bytes, Tee.step fileCount s.bytes e.bytes = some bytes ∧
      next = { bytes := bytes, stdin := stdinAfter s e, ps := psAfter s e } := by
  rcases Option.ite_none_right_eq_some.mp h with ⟨hfits, hmap⟩
  rcases Option.map_eq_some_iff.mp hmap with ⟨bytes, hbytes, hnext⟩
  exact ⟨hfits, bytes, hbytes, hnext.symm⟩

theorem step_of_bytes {slots fileCount : Nat} {s : State alpha} {e : Event alpha}
    {bytes : Tee.State alpha} (hfits : Fits slots s e)
    (hbytes : Tee.step fileCount s.bytes e.bytes = some bytes) :
    step slots fileCount s e =
      some { bytes := bytes, stdin := stdinAfter s e, ps := psAfter s e } := by
  rw [step, if_pos hfits, hbytes]
  rfl

/-!
## The private pipes in a round
-/

/-- The private pipes that hold bytes of this round which are still to be spliced. -/
def Pending (fileCount : Nat) : Pc -> Nat -> Prop
  | .tee i, j => j < i
  | .spliceFile i, j => i ≤ j ∧ j < fileCount
  | _, _ => False

def Begun : Pc -> Prop
  | .tee i => 0 < i
  | .spliceFile _ => True
  | .spliceStdin => True
  | _ => False

def position (fileCount : Nat) : Pc -> Nat
  | .tee i => i
  | .spliceFile i => fileCount + i
  | .spliceStdin => 2 * fileCount
  | .exited => 2 * fileCount + 1
  | .failed _ => 2 * fileCount + 1

def InRange (fileCount : Nat) : Pc -> Prop
  | .tee i => i < fileCount
  | .spliceFile i => i < fileCount
  | _ => True

theorem pending_afterTee {fileCount i : Nat} (hi : i < fileCount) (j : Nat) :
    Pending fileCount (afterTee fileCount i) j <-> j < i + 1 := by
  unfold afterTee
  split
  · exact Iff.rfl
  · simp only [Pending]
    lia

theorem pending_afterSpliceFile (fileCount i j : Nat) :
    Pending fileCount (afterSpliceFile fileCount i) j <-> i + 1 ≤ j ∧ j < fileCount := by
  unfold afterSpliceFile
  split
  · exact Iff.rfl
  · simp only [Pending]
    lia

theorem position_afterTee {fileCount i : Nat} (hi : i < fileCount) :
    position fileCount (afterTee fileCount i) = i + 1 := by
  unfold afterTee
  split
  · rfl
  · simp only [position]
    lia

theorem position_afterSpliceFile {fileCount i : Nat} (hi : i < fileCount) :
    position fileCount (afterSpliceFile fileCount i) = fileCount + i + 1 := by
  unfold afterSpliceFile
  split
  · rfl
  · simp only [position]
    lia

theorem position_lt_of_running {fileCount : Nat} {pc : Pc} (h : InRange fileCount pc)
    (hrunning : running pc = true) : position fileCount pc < 2 * fileCount + 1 := by
  cases pc with
  | tee i =>
      simp only [InRange, position] at h ⊢
      lia
  | spliceFile i =>
      simp only [InRange, position] at h ⊢
      lia
  | spliceStdin => exact Nat.lt_succ_self _
  | exited => cases hrunning
  | failed message => cases hrunning

theorem position_le {fileCount : Nat} {pc : Pc} (h : InRange fileCount pc) :
    position fileCount pc ≤ 2 * fileCount + 1 := by
  cases hrunning : running pc with
  | true => exact Nat.le_of_lt (position_lt_of_running h hrunning)
  | false =>
      cases pc with
      | exited => exact Nat.le_refl _
      | failed message => exact Nat.le_refl _
      | _ => cases hrunning

/--
A private pipe has something to move before its splice; behind a `tee` of the round there
is something left in standard input.
-/
structure Moving (fileCount : Nat) (s : Tee.State alpha) : Prop where
  inRange : InRange fileCount s.pc
  unread : Begun s.pc -> s.stdin ≠ []
  pending : forall j, Pending fileCount s.pc j -> s.ps j ≠ []

theorem moving_roundStart {fileCount : Nat} {s : Tee.State alpha} (hfiles : 0 < fileCount)
    (hpc : s.pc = roundStart fileCount) : Moving fileCount s := by
  rw [roundStart, if_pos hfiles] at hpc
  constructor
  · rw [hpc]
    exact hfiles
  · intro hbegun
    rw [hpc] at hbegun
    exact absurd hbegun (Nat.lt_irrefl 0)
  · intro j hpending
    rw [hpc] at hpending
    exact absurd hpending (Nat.not_lt_zero j)

theorem moving_tee {fileCount i n : Nat} {s : Tee.State alpha}
    (h : Moving fileCount s) (hpc : s.pc = .tee i) (hn : Transfers s.stdin n) :
    Moving fileCount
      { s with
        ps := Function.update s.ps i (s.ps i ++ s.stdin.take n)
        copied := s.copied ++ [n]
        pc := afterTee fileCount i } := by
  have hi : i < fileCount := by
    have hrange := h.inRange
    rwa [hpc] at hrange
  have hcopied : (s.stdin.take n).length = n := List.length_take_of_le hn.right.right
  constructor
  · unfold afterTee
    split
    · assumption
    · exact Nat.zero_lt_of_lt hi
  · intro _ hempty
    simp only at hempty
    rw [hempty, List.take_nil] at hcopied
    exact absurd hcopied (Nat.ne_of_lt hn.left)
  · intro j hpending
    simp only
    by_cases hji : j = i
    · subst hji
      rw [Function.update_self]
      intro hempty
      rw [(List.append_eq_nil_iff.mp hempty).right] at hcopied
      exact absurd hcopied (Nat.ne_of_lt hn.left)
    · rw [Function.update_of_ne hji]
      apply h.pending
      rw [hpc]
      have hlt := (pending_afterTee hi j).mp hpending
      simp only [Pending]
      lia

theorem moving_spliceFile {fileCount i n : Nat} {s : Tee.State alpha}
    (h : Moving fileCount s) (hpc : s.pc = .spliceFile i) :
    Moving fileCount
      { s with
        ps := Function.update s.ps i ((s.ps i).drop n)
        fds := Function.update s.fds i (s.fds i ++ (s.ps i).take n)
        pc := afterSpliceFile fileCount i } := by
  constructor
  · unfold afterSpliceFile
    split
    · assumption
    · trivial
  · intro _
    apply h.unread
    rw [hpc]
    trivial
  · intro j hpending
    have hj := (pending_afterSpliceFile fileCount i j).mp hpending
    simp only
    rw [Function.update_of_ne (by lia)]
    apply h.pending
    rw [hpc]
    exact ⟨by lia, hj.right⟩

theorem moving_ended {fileCount : Nat} {s : Tee.State alpha} {pc : Pc}
    (hended : running pc = false) : Moving fileCount { s with pc := pc } := by
  cases pc with
  | exited => exact ⟨trivial, fun hbegun => hbegun.elim, fun _ hpending => hpending.elim⟩
  | failed message => exact ⟨trivial, fun hbegun => hbegun.elim, fun _ hpending => hpending.elim⟩
  | _ => cases hended

/-!
## One step
-/

inductive Steps (slots fileCount : Nat) (s : State alpha) : Event alpha -> State alpha -> Prop where
  | produce (bytes : List alpha) (merged : Nat) (buffers : List Nat)
      (hmerged : s.stdin = [] -> merged = 0)
      (hbuffers : Holds buffers (bytes.length - merged)) (hle : merged ≤ bytes.length) :
      Steps slots fileCount s (.produce bytes merged buffers)
        { s with
          bytes :=
            { s.bytes with
              produced := s.bytes.produced ++ bytes
              stdin := s.bytes.stdin ++ bytes }
          stdin := grow merged s.stdin ++ buffers }
  | close : Steps slots fileCount s .close { s with bytes := { s.bytes with closed := true } }
  | fail (e : Event alpha) (message : String) (hcall : isCall e = true)
      (hrunning : running s.bytes.pc = true) :
      Steps slots fileCount s e { s with bytes := { s.bytes with pc := .failed message } }
  | exit (i : Nat) (hpc : s.bytes.pc = .tee i) (hempty : s.bytes.stdin = [])
      (hclosed : s.bytes.closed = true) :
      Steps slots fileCount s (.tee (some 0)) { s with bytes := { s.bytes with pc := .exited } }
  | tee (i n : Nat) (hpc : s.bytes.pc = .tee i) (hn : Transfers s.bytes.stdin n)
      (hfits : (s.ps i).length + (first n s.stdin).length ≤ slots) :
      Steps slots fileCount s (.tee (some n))
        { s with
          bytes :=
            { s.bytes with
              ps := Function.update s.bytes.ps i (s.bytes.ps i ++ s.bytes.stdin.take n)
              copied := s.bytes.copied ++ [n]
              pc := afterTee fileCount i }
          ps := Function.update s.ps i (s.ps i ++ first n s.stdin) }
  | spliceFile (i n : Nat) (hpc : s.bytes.pc = .spliceFile i) (hn : Transfers (s.bytes.ps i) n) :
      Steps slots fileCount s (.spliceFile (some n))
        { s with
          bytes :=
            { s.bytes with
              ps := Function.update s.bytes.ps i ((s.bytes.ps i).drop n)
              fds := Function.update s.bytes.fds i (s.bytes.fds i ++ (s.bytes.ps i).take n)
              pc := afterSpliceFile fileCount i }
          ps := Function.update s.ps i (rest n (s.ps i)) }
  | spliceStdin (n : Nat) (hpc : s.bytes.pc = .spliceStdin) (hn : Transfers s.bytes.stdin n) :
      Steps slots fileCount s (.spliceStdin (some n))
        { s with
          bytes :=
            { s.bytes with
              stdin := s.bytes.stdin.drop n
              stdout := s.bytes.stdout ++ s.bytes.stdin.take n
              copied := []
              pc := roundStart fileCount }
          stdin := rest n s.stdin }

theorem steps_of_step {slots fileCount : Nat} {s next : State alpha} {e : Event alpha}
    (hstep : step slots fileCount s e = some next) : Steps slots fileCount s e next := by
  rcases step_eq_some hstep with ⟨hfits, bytes, hbytes, rfl⟩
  cases e with
  | produce new merged buffers =>
      rcases Option.ite_none_left_eq_some.mp hbytes with ⟨_, hnext⟩
      cases hnext
      rcases hfits with ⟨hmerged, hpos, hsum⟩
      exact .produce new merged buffers hmerged ⟨hpos, by lia⟩ (by lia)
  | close =>
      rcases Option.ite_none_left_eq_some.mp hbytes with ⟨_, hnext⟩
      cases hnext
      exact .close
  | tee copiedSize =>
      cases hpc : s.bytes.pc with
      | tee i =>
          have hrunning : running s.bytes.pc = true := by
            rw [hpc]
            rfl
          cases copiedSize with
          | none =>
              simp only [Event.bytes, Tee.step, hpc] at hbytes
              cases hbytes
              exact .fail _ _ rfl hrunning
          | some n =>
              simp only [Fits, TeeFits, hpc] at hfits
              cases n with
              | zero =>
                  simp only [Event.bytes, Tee.step, hpc] at hbytes
                  rcases Option.ite_none_right_eq_some.mp hbytes with ⟨⟨hempty, hclosed⟩, hnext⟩
                  cases hnext
                  have hps : psAfter s (.tee (some 0)) = s.ps := by
                    simp only [psAfter, hpc]
                    rw [first_zero, List.append_nil, Function.update_eq_self]
                  rw [hps]
                  exact .exit i hpc (List.isEmpty_iff.mp hempty) hclosed
              | succ n =>
                  simp only [Event.bytes, Tee.step, hpc] at hbytes
                  rcases Option.ite_none_right_eq_some.mp hbytes with ⟨hn, hnext⟩
                  cases hnext
                  simp only [psAfter, hpc]
                  exact .tee i (n + 1) hpc hn hfits.right
      | _ => simp [Event.bytes, Tee.step, hpc] at hbytes
  | spliceFile splicedSize =>
      cases hpc : s.bytes.pc with
      | spliceFile i =>
          cases splicedSize with
          | none =>
              simp only [Event.bytes, Tee.step, hpc] at hbytes
              cases hbytes
              exact .fail _ _ rfl (by rw [hpc]; rfl)
          | some n =>
              simp only [Event.bytes, Tee.step, hpc] at hbytes
              rcases Option.ite_none_right_eq_some.mp hbytes with ⟨hn, hnext⟩
              cases hnext
              simp only [psAfter, hpc]
              exact .spliceFile i n hpc hn
      | _ => simp [Event.bytes, Tee.step, hpc] at hbytes
  | spliceStdin splicedSize =>
      cases hpc : s.bytes.pc with
      | spliceStdin =>
          cases splicedSize with
          | none =>
              simp only [Event.bytes, Tee.step, hpc] at hbytes
              cases hbytes
              exact .fail _ _ rfl (by rw [hpc]; rfl)
          | some n =>
              simp only [Event.bytes, Tee.step, hpc] at hbytes
              rcases Option.ite_none_right_eq_some.mp hbytes with ⟨hn, hnext⟩
              cases hnext
              exact .spliceStdin n hpc hn
      | _ => simp [Event.bytes, Tee.step, hpc] at hbytes

theorem moving_step {slots fileCount : Nat} {s next : State alpha} {e : Event alpha}
    (hfiles : 0 < fileCount) (h : Moving fileCount s.bytes)
    (hstep : step slots fileCount s e = some next) : Moving fileCount next.bytes := by
  cases steps_of_step hstep with
  | produce bytes merged buffers _ _ _ =>
      refine { h with unread := ?_ }
      intro hbegun hempty
      exact h.unread hbegun (List.append_eq_nil_iff.mp hempty).left
  | close => exact { h with }
  | fail _ message _ _ => exact moving_ended rfl
  | exit i _ _ _ => exact moving_ended rfl
  | tee i n hpc hn _ => exact moving_tee h hpc hn
  | spliceFile i n hpc _ => exact moving_spliceFile h hpc
  | spliceStdin n _ _ => exact moving_roundStart hfiles rfl

/-!
## Buffers in use
-/

structure Buffered (slots : Nat) (s : State alpha) : Prop where
  stdin : Holds s.stdin s.bytes.stdin.length
  ps : forall j, Holds (s.ps j) (s.bytes.ps j).length
  small : forall j b, b ∈ s.ps j -> b ≤ bufSize
  bounded : forall j, (s.ps j).length ≤ slots

theorem buffered_start (slots fileCount : Nat) : Buffered slots (start fileCount : State alpha) where
  stdin := .nil
  ps := fun _ => .nil
  small := nofun
  bounded := fun _ => Nat.zero_le slots

theorem buffered_tee {slots i n : Nat} {s : State alpha} (h : Buffered slots s) (copied : List Nat)
    (pc : Pc) (hn : Transfers s.bytes.stdin n)
    (hfits : (s.ps i).length + (first n s.stdin).length ≤ slots) :
    Buffered slots
      { s with
        bytes :=
          { s.bytes with
            ps := Function.update s.bytes.ps i (s.bytes.ps i ++ s.bytes.stdin.take n)
            copied := copied
            pc := pc }
        ps := Function.update s.ps i (s.ps i ++ first n s.stdin) } := by
  constructor
  · exact h.stdin
  · intro j
    simp only
    by_cases hji : j = i
    · subst hji
      rw [Function.update_self, Function.update_self, List.length_append,
        List.length_take_of_le hn.right.right]
      exact (h.ps j).append (h.stdin.first hn.right.right)
    · rw [Function.update_of_ne hji, Function.update_of_ne hji]
      exact h.ps j
  · intro j b hb
    simp only at hb
    by_cases hji : j = i
    · subst hji
      rw [Function.update_self] at hb
      rcases List.mem_append.mp hb with hold | hnew
      · exact h.small j b hold
      · exact Nat.le_trans (pos_of_mem_first h.stdin.pos hnew).right hn.right.left
    · rw [Function.update_of_ne hji] at hb
      exact h.small j b hb
  · intro j
    simp only
    by_cases hji : j = i
    · subst hji
      rw [Function.update_self, List.length_append]
      exact hfits
    · rw [Function.update_of_ne hji]
      exact h.bounded j

theorem buffered_spliceFile {slots i n : Nat} {s : State alpha} (h : Buffered slots s)
    (fds : Nat -> List alpha) (pc : Pc) :
    Buffered slots
      { s with
        bytes :=
          { s.bytes with
            ps := Function.update s.bytes.ps i ((s.bytes.ps i).drop n)
            fds := fds
            pc := pc }
        ps := Function.update s.ps i (rest n (s.ps i)) } := by
  constructor
  · exact h.stdin
  · intro j
    simp only
    by_cases hji : j = i
    · subst hji
      rw [Function.update_self, Function.update_self, List.length_drop]
      exact (h.ps j).rest n
    · rw [Function.update_of_ne hji, Function.update_of_ne hji]
      exact h.ps j
  · intro j b hb
    simp only at hb
    by_cases hji : j = i
    · subst hji
      rw [Function.update_self] at hb
      exact le_of_mem_rest (h.small j) hb
    · rw [Function.update_of_ne hji] at hb
      exact h.small j b hb
  · intro j
    simp only
    by_cases hji : j = i
    · subst hji
      rw [Function.update_self]
      exact Nat.le_trans (length_rest_le n (s.ps j)) (h.bounded j)
    · rw [Function.update_of_ne hji]
      exact h.bounded j

theorem buffered_step {slots fileCount : Nat} {s next : State alpha} {e : Event alpha}
    (h : Buffered slots s) (hstep : step slots fileCount s e = some next) :
    Buffered slots next := by
  cases steps_of_step hstep with
  | produce bytes merged buffers hmerged hbuffers hle =>
      refine { h with stdin := ?_ }
      have hgrown := (h.stdin.grow merged hmerged).append hbuffers
      rw [Nat.add_assoc, Nat.add_sub_cancel' hle, ← List.length_append] at hgrown
      exact hgrown
  | close => exact { h with }
  | fail _ message _ _ => exact { h with }
  | exit i _ _ _ => exact { h with }
  | tee i n _ hn hfits => exact buffered_tee h _ _ hn hfits
  | spliceFile i n _ _ => exact buffered_spliceFile h _ _
  | spliceStdin n _ hn =>
      refine { h with stdin := ?_ }
      simp only [List.length_drop]
      exact h.stdin.rest n

/-- Of a private pipe whose bytes of this round are gone, some buffer is free. -/
def Roomy (slots fileCount : Nat) (s : State alpha) : Prop :=
  running s.bytes.pc = true -> forall j, ¬ Pending fileCount s.bytes.pc j ->
    (s.ps j).length < slots

/-- The condition on a step: a splice to a file frees a buffer of its private pipe. -/
def Frees (s : State alpha) : Event alpha -> Prop
  | .spliceFile (some n) => forall i, s.bytes.pc = .spliceFile i ->
      (rest n (s.ps i)).length < (s.ps i).length
  | _ => True

theorem roomy_step {slots fileCount : Nat} {s next : State alpha} {e : Event alpha}
    (hmoving : Moving fileCount s.bytes) (hbuffered : Buffered slots s)
    (h : Roomy slots fileCount s) (hfrees : Frees s e)
    (hstep : step slots fileCount s e = some next) : Roomy slots fileCount next := by
  have hrange := hmoving.inRange
  cases steps_of_step hstep with
  | produce bytes merged buffers _ _ _ => exact h
  | close => exact h
  | fail _ message _ _ => exact fun hrunning => absurd hrunning Bool.false_ne_true
  | exit i _ _ _ => exact fun hrunning => absurd hrunning Bool.false_ne_true
  | tee i n hpc _ _ =>
      intro _ j hnot
      rw [hpc] at hrange
      rw [pending_afterTee hrange] at hnot
      simp only
      rw [Function.update_of_ne (by lia)]
      apply h (by rw [hpc]; rfl)
      rw [hpc]
      simp only [Pending]
      lia
  | spliceFile i n hpc _ =>
      intro _ j hnot
      simp only
      by_cases hji : j = i
      · subst hji
        rw [Function.update_self]
        exact Nat.lt_of_lt_of_le (hfrees j hpc) (hbuffered.bounded j)
      · rw [pending_afterSpliceFile] at hnot
        rw [Function.update_of_ne hji]
        apply h (by rw [hpc]; rfl)
        rw [hpc]
        simp only [Pending]
        lia
  | spliceStdin n hpc _ =>
      intro _ j _
      apply h (by rw [hpc]; rfl)
      rw [hpc]
      exact fun hpending => hpending

/-!
## How far the program has come
-/

/-- The calls of the rounds that have consumed standard input, and of the one after them. -/
def potential (fileCount : Nat) (s : State alpha) : Nat :=
  (2 * fileCount + 1) * s.bytes.stdout.length + position fileCount s.bytes.pc

theorem potential_call {slots fileCount : Nat} {s next : State alpha} {e : Event alpha}
    (hfiles : 0 < fileCount) (h : Moving fileCount s.bytes) (hcall : isCall e = true)
    (hstep : step slots fileCount s e = some next) :
    potential fileCount s < potential fileCount next := by
  have hrange := h.inRange
  cases steps_of_step hstep with
  | produce bytes merged buffers _ _ _ => cases hcall
  | close => cases hcall
  | fail _ message _ hrunning =>
      exact Nat.add_lt_add_left (position_lt_of_running hrange hrunning) _
  | exit i hpc _ _ =>
      have hrunning : running s.bytes.pc = true := by
        rw [hpc]
        rfl
      exact Nat.add_lt_add_left (position_lt_of_running hrange hrunning) _
  | tee i n hpc _ _ =>
      rw [hpc] at hrange
      simp only [potential]
      rw [hpc, position_afterTee hrange]
      exact Nat.lt_succ_self _
  | spliceFile i n hpc _ =>
      rw [hpc] at hrange
      simp only [potential]
      rw [hpc, position_afterSpliceFile hrange]
      exact Nat.lt_succ_self _
  | spliceStdin n hpc hn =>
      simp only [potential, roundStart, if_pos hfiles, hpc, position, List.length_append,
        List.length_take_of_le hn.right.right]
      have hround := Nat.mul_le_mul_left (2 * fileCount + 1) hn.left
      rw [Nat.mul_add]
      lia

theorem potential_producer {slots fileCount : Nat} {s next : State alpha} {e : Event alpha}
    (hcall : isCall e = false) (hstep : step slots fileCount s e = some next) :
    potential fileCount s = potential fileCount next := by
  cases steps_of_step hstep with
  | produce bytes merged buffers _ _ _ => rfl
  | close => rfl
  | fail _ message hfails _ =>
      rw [hcall] at hfails
      cases hfails
  | exit i _ _ _ => cases hcall
  | tee i n _ _ _ => cases hcall
  | spliceFile i n _ _ => cases hcall
  | spliceStdin n _ _ => cases hcall

theorem producer_of_call {slots fileCount : Nat} {s next : State alpha} {e : Event alpha}
    (hcall : isCall e = true) (hstep : step slots fileCount s e = some next) :
    next.bytes.produced = s.bytes.produced ∧ next.bytes.closed = s.bytes.closed := by
  cases steps_of_step hstep with
  | produce bytes merged buffers _ _ _ => cases hcall
  | close => cases hcall
  | fail _ message _ _ => exact ⟨rfl, rfl⟩
  | exit i _ _ _ => exact ⟨rfl, rfl⟩
  | tee i n _ _ _ => exact ⟨rfl, rfl⟩
  | spliceFile i n _ _ => exact ⟨rfl, rfl⟩
  | spliceStdin n _ _ => exact ⟨rfl, rfl⟩

/-!
## Every call can return
-/

theorem exists_buffer {bs : List Nat} {held : List alpha} (h : Holds bs held.length)
    (hheld : held ≠ []) : exists b tail, bs = b :: tail ∧ 0 < b ∧ b ≤ held.length := by
  cases bs with
  | nil =>
      have hnone := h.eq_nil_iff.mp rfl
      exact absurd (List.length_eq_zero_iff.mp hnone) hheld
  | cons b tail =>
      have hsum := h.held_eq
      rw [held_cons] at hsum
      exact ⟨b, tail, rfl, h.pos b List.mem_cons_self, by lia⟩

theorem tee_of_transfers (fileCount : Nat) {i n : Nat} {s : Tee.State alpha} (hpc : s.pc = .tee i)
    (hn : Transfers s.stdin n) :
    exists next, Tee.step fileCount s (.tee (some n)) = some next ∧
      next.pc = afterTee fileCount i := by
  cases n with
  | zero => exact absurd hn.left (Nat.lt_irrefl 0)
  | succ n =>
      simp only [Tee.step, hpc]
      rw [if_pos hn]
      exact ⟨_, rfl, rfl⟩

/-- `tee` copies the first buffer, or what it asks for of it. -/
theorem exists_tee (fileCount : Nat) {slots i : Nat} {s : State alpha} (h : Buffered slots s)
    (hpc : s.bytes.pc = .tee i) (hstdin : s.bytes.stdin ≠ []) (hroom : (s.ps i).length < slots) :
    exists n next, step slots fileCount s (.tee (some n)) = some next ∧
      next.bytes.pc = afterTee fileCount i := by
  rcases exists_buffer h.stdin hstdin with ⟨b, tail, hbuffers, hb, hle⟩
  have hpos : 0 < min b bufSize := Nat.lt_min.mpr ⟨hb, by decide⟩
  have hcut : first (min b bufSize) s.stdin = [min b bufSize] := by
    rw [hbuffers]
    exact first_of_le tail hpos (Nat.min_le_left b bufSize)
  have hfits : Fits slots s (.tee (some (min b bufSize))) := by
    simp only [Fits, TeeFits, hpc]
    rw [hcut]
    exact ⟨hroom, hroom⟩
  have hn : Transfers s.bytes.stdin (min b bufSize) :=
    ⟨hpos, Nat.min_le_right b bufSize, Nat.le_trans (Nat.min_le_left b bufSize) hle⟩
  rcases tee_of_transfers fileCount hpc hn with ⟨bytes, hbytes, hafter⟩
  exact ⟨min b bufSize, _, step_of_bytes hfits hbytes, hafter⟩

theorem exists_spliceFile (fileCount : Nat) {slots i : Nat} {s : State alpha} (h : Buffered slots s)
    (hpc : s.bytes.pc = .spliceFile i) (hps : s.bytes.ps i ≠ []) :
    exists n next, step slots fileCount s (.spliceFile (some n)) = some next ∧
      Frees s (.spliceFile (some n)) ∧ next.bytes.pc = afterSpliceFile fileCount i := by
  rcases exists_buffer (h.ps i) hps with ⟨b, tail, hbuffers, hb, hle⟩
  have hsmall : b ≤ bufSize := by
    apply h.small i
    rw [hbuffers]
    exact List.mem_cons_self
  have hn : Transfers (s.bytes.ps i) b := ⟨hb, hsmall, hle⟩
  have hbytes : exists bytes, Tee.step fileCount s.bytes (.spliceFile (some b)) = some bytes ∧
      bytes.pc = afterSpliceFile fileCount i := by
    simp only [Tee.step, hpc]
    rw [if_pos hn]
    exact ⟨_, rfl, rfl⟩
  rcases hbytes with ⟨bytes, hbytes, hafter⟩
  refine ⟨b, _, step_of_bytes trivial hbytes, ?_, hafter⟩
  intro j hj
  rw [hpc] at hj
  cases hj
  rw [hbuffers]
  exact length_rest_lt tail (Nat.le_refl b)

theorem exists_spliceStdin (slots fileCount : Nat) {s : State alpha}
    (hpc : s.bytes.pc = .spliceStdin) (hstdin : s.bytes.stdin ≠ []) :
    exists next, step slots fileCount s (.spliceStdin (some 1)) = some next ∧
      next.bytes.pc = roundStart fileCount := by
  have hn : Transfers s.bytes.stdin 1 :=
    ⟨Nat.one_pos, by decide, List.length_pos_iff.mpr hstdin⟩
  have hbytes : exists bytes, Tee.step fileCount s.bytes (.spliceStdin (some 1)) = some bytes ∧
      bytes.pc = roundStart fileCount := by
    simp only [Tee.step, hpc]
    rw [if_pos hn]
    exact ⟨_, rfl, rfl⟩
  rcases hbytes with ⟨bytes, hbytes, hafter⟩
  exact ⟨_, step_of_bytes trivial hbytes, hafter⟩

theorem exists_end (fileCount : Nat) {slots i : Nat} {s : State alpha} (h : Buffered slots s)
    (hpc : s.bytes.pc = .tee i) (hstdin : s.bytes.stdin = []) (hclosed : s.bytes.closed = true)
    (hroom : (s.ps i).length < slots) :
    exists next, step slots fileCount s (.tee (some 0)) = some next ∧
      next.bytes.pc = .exited := by
  have hfits : Fits slots s (.tee (some 0)) := by
    simp only [Fits, TeeFits, hpc]
    rw [first_zero]
    exact ⟨hroom, h.bounded i⟩
  have hbytes : exists bytes, Tee.step fileCount s.bytes (.tee (some 0)) = some bytes ∧
      bytes.pc = .exited := by
    simp only [Tee.step, hpc]
    rw [if_pos ⟨List.isEmpty_iff.mpr hstdin, hclosed⟩]
    exact ⟨_, rfl, rfl⟩
  rcases hbytes with ⟨bytes, hbytes, hexited⟩
  exact ⟨_, step_of_bytes hfits hbytes, hexited⟩

theorem running_roundStart (fileCount : Nat) : running (roundStart fileCount) = true := by
  unfold roundStart
  split <;> rfl

theorem running_afterTee (fileCount i : Nat) : running (afterTee fileCount i) = true := by
  unfold afterTee
  split <;> rfl

theorem running_afterSpliceFile (fileCount i : Nat) :
    running (afterSpliceFile fileCount i) = true := by
  unfold afterSpliceFile
  split <;> rfl

def WaitsForProducer (s : State alpha) : Prop :=
  s.bytes.pc = .tee 0 ∧ s.bytes.stdin = [] ∧ s.bytes.closed = false

/-- All buffers of the private pipe are in use, and nobody else reads it. -/
def WaitsForItself (slots : Nat) (s : State alpha) : Prop :=
  exists i, s.bytes.pc = .tee i ∧ (s.ps i).length = slots

theorem no_call {slots fileCount : Nat} {s : State alpha} (h : WaitsForItself slots s)
    {e : Event alpha} (he : succeeds e = true) : step slots fileCount s e = none := by
  rcases h with ⟨i, hpc, hfull⟩
  cases e with
  | produce bytes merged buffers => cases he
  | close => cases he
  | tee copiedSize =>
      cases copiedSize with
      | none => cases he
      | some n =>
          apply if_neg
          simp only [Fits, TeeFits, hpc]
          lia
  | spliceFile splicedSize => simp [step, Event.bytes, Tee.step, hpc]
  | spliceStdin splicedSize => simp [step, Event.bytes, Tee.step, hpc]

theorem call_possible {slots fileCount : Nat} {s : State alpha} (hmoving : Moving fileCount s.bytes)
    (hbuffered : Buffered slots s) (hrunning : running s.bytes.pc = true) :
    WaitsForProducer s ∨ WaitsForItself slots s ∨
      exists e next, succeeds e = true ∧ Frees s e ∧ step slots fileCount s e = some next ∧
        (running next.bytes.pc = true ∨ next.bytes.pc = .exited) := by
  cases hpc : s.bytes.pc with
  | tee i =>
      by_cases hfull : (s.ps i).length = slots
      · exact .inr (.inl ⟨i, hpc, hfull⟩)
      · have hroom := Nat.lt_of_le_of_ne (hbuffered.bounded i) hfull
        by_cases hempty : s.bytes.stdin = []
        · have hi : i = 0 := by
            refine Nat.eq_zero_of_not_pos fun hpos => hmoving.unread ?_ hempty
            rw [hpc]
            exact hpos
          subst hi
          cases hclosed : s.bytes.closed with
          | false => exact .inl ⟨hpc, hempty, hclosed⟩
          | true =>
              rcases exists_end fileCount hbuffered hpc hempty hclosed hroom with
                ⟨next, hstep, hexited⟩
              exact .inr (.inr ⟨.tee (some 0), next, rfl, trivial, hstep, .inr hexited⟩)
        · rcases exists_tee fileCount hbuffered hpc hempty hroom with
            ⟨n, next, hstep, hafter⟩
          refine .inr (.inr ⟨.tee (some n), next, rfl, trivial, hstep, .inl ?_⟩)
          rw [hafter]
          exact running_afterTee fileCount i
  | spliceFile i =>
      have hi : i < fileCount := by
        have hrange := hmoving.inRange
        rwa [hpc] at hrange
      have hps := hmoving.pending i (by rw [hpc]; exact ⟨Nat.le_refl i, hi⟩)
      rcases exists_spliceFile fileCount hbuffered hpc hps with
        ⟨n, next, hstep, hfrees, hafter⟩
      refine .inr (.inr ⟨_, next, rfl, hfrees, hstep, .inl ?_⟩)
      rw [hafter]
      exact running_afterSpliceFile fileCount i
  | spliceStdin =>
      have hstdin := hmoving.unread (by rw [hpc]; trivial)
      rcases exists_spliceStdin slots fileCount hpc hstdin with
        ⟨next, hstep, hafter⟩
      refine .inr (.inr ⟨.spliceStdin (some 1), next, rfl, trivial, hstep, .inl ?_⟩)
      rw [hafter]
      exact running_roundStart fileCount
  | exited =>
      rw [hpc] at hrunning
      cases hrunning
  | failed message =>
      rw [hpc] at hrunning
      cases hrunning

structure Flows (slots fileCount : Nat) (s : State alpha) : Prop where
  moving : Moving fileCount s.bytes
  buffered : Buffered slots s
  passes : PassesStdin s.bytes

theorem flows_start {slots fileCount : Nat} (hfiles : 0 < fileCount) :
    Flows slots fileCount (start fileCount : State alpha) where
  moving := moving_roundStart hfiles rfl
  buffered := buffered_start slots fileCount
  passes := passesStdin_start fileCount

theorem flows_step {slots fileCount : Nat} {s next : State alpha} {e : Event alpha}
    (hfiles : 0 < fileCount) (h : Flows slots fileCount s)
    (hstep : step slots fileCount s e = some next) : Flows slots fileCount next := by
  rcases step_eq_some hstep with ⟨_, bytes, hbytes, hnext⟩
  refine ⟨moving_step hfiles h.moving hstep, buffered_step h.buffered hstep, ?_⟩
  rw [hnext]
  exact passesStdin_step h.passes hbytes

structure FlowsFreely (slots fileCount : Nat) (s : State alpha) : Prop where
  flows : Flows slots fileCount s
  roomy : Roomy slots fileCount s

theorem flowsFreely_step {slots fileCount : Nat} {s next : State alpha} {e : Event alpha}
    (hfiles : 0 < fileCount) (h : FlowsFreely slots fileCount s) (hfrees : Frees s e)
    (hstep : step slots fileCount s e = some next) : FlowsFreely slots fileCount next where
  flows := flows_step hfiles h.flows hstep
  roomy := roomy_step h.flows.moving h.flows.buffered h.roomy hfrees hstep

theorem Roomy.not_waitsForItself {slots fileCount : Nat} {s : State alpha}
    (h : Roomy slots fileCount s) : ¬ WaitsForItself slots s := by
  rintro ⟨i, hpc, hfull⟩
  have hroom := h (by rw [hpc]; rfl) i (by rw [hpc]; exact Nat.lt_irrefl i)
  exact absurd hfull (Nat.ne_of_lt hroom)

theorem isCall_of_succeeds {e : Event alpha} (h : succeeds e = true) : isCall e = true := by
  cases e with
  | produce bytes merged buffers => cases h
  | close => cases h
  | _ => rfl

theorem potential_le {slots fileCount : Nat} {s : State alpha} (h : Flows slots fileCount s) :
    potential fileCount s ≤ (2 * fileCount + 1) * (s.bytes.produced.length + 1) := by
  have hposition := position_le h.moving.inRange
  have hstdout : s.bytes.stdout.length ≤ s.bytes.produced.length := by
    rw [h.passes.stream, List.length_append]
    exact Nat.le_add_right _ _
  have hround := Nat.mul_le_mul_left (2 * fileCount + 1) hstdout
  rw [Nat.mul_add, Nat.mul_one]
  exact Nat.add_le_add hround hposition

def callsLeft (fileCount : Nat) (s : State alpha) : Nat :=
  (2 * fileCount + 1) * (s.bytes.produced.length + 1) - potential fileCount s

structure ClosedFlows (slots fileCount : Nat) (stream : List alpha) (s : State alpha) :
    Prop where
  freely : FlowsFreely slots fileCount s
  closed : s.bytes.closed = true
  produced_eq : s.bytes.produced = stream
  unfailed : running s.bytes.pc = true ∨ s.bytes.pc = .exited

theorem closedFlows_progress {slots fileCount : Nat} {stream : List alpha} {s : State alpha}
    (hfiles : 0 < fileCount) (h : ClosedFlows slots fileCount stream s) :
    s.bytes.pc = .exited ∨
      exists e next, succeeds e = true ∧ step slots fileCount s e = some next ∧
        ClosedFlows slots fileCount stream next ∧
        callsLeft fileCount next < callsLeft fileCount s := by
  rcases h.unfailed with hrunning | hexited
  · right
    have hflows := h.freely.flows
    rcases call_possible hflows.moving hflows.buffered hrunning with
      ⟨_, _, hopen⟩ | hitself | ⟨e, next, hsucceeds, hfrees, hstep, hnext⟩
    · rw [h.closed] at hopen
      cases hopen
    · exact absurd hitself h.freely.roomy.not_waitsForItself
    · have hcall := isCall_of_succeeds hsucceeds
      have hfreely := flowsFreely_step hfiles h.freely hfrees hstep
      rcases producer_of_call hcall hstep with ⟨hproduced, hclosed⟩
      refine ⟨e, next, hsucceeds, hstep, ⟨hfreely, ?_, ?_, hnext⟩, ?_⟩
      · rw [hclosed]
        exact h.closed
      · rw [hproduced]
        exact h.produced_eq
      · have hmore := potential_call hfiles hflows.moving hcall hstep
        have hle := potential_le hfreely.flows
        rw [hproduced] at hle
        unfold callsLeft
        rw [hproduced]
        lia
  · exact .inl hexited

/--
In every reachable state some call can return without an error, unless the first file's
`tee` waits for the producer or a file's `tee` waits for a buffer that only the program
itself could free.  The calls are bounded: two for each file and one more for each byte
of the stream, once more for the end.  Where every splice to a file frees a buffer, the
program never waits for itself, and once the producer has closed, calls that return
without an error lead to the exit with the whole stream in standard output.
-/
theorem tee_completes (slots fileCount : Nat) (es : List (Event alpha)) (s : State alpha)
    (hfiles : 0 < fileCount) (hslots : 0 < slots)
    (hrun : exec (step slots fileCount) (start fileCount) es = some s) :
    es.countP isCall ≤ (2 * fileCount + 1) * (s.bytes.produced.length + 1) ∧
      (running s.bytes.pc = true ->
        WaitsForProducer s ∨ WaitsForItself slots s ∨
          exists e, succeeds e = true ∧ (step slots fileCount s e).isSome) ∧
      (WaitsForItself slots s ->
        forall e, succeeds e = true -> step slots fileCount s e = none) ∧
      (AllSteps (step slots fileCount) Frees (start fileCount) es ->
        ¬ WaitsForItself slots s ∧
          (running s.bytes.pc = true -> s.bytes.closed = true ->
            exists calls t, (forall e, e ∈ calls -> succeeds e = true) ∧
              exec (step slots fileCount) s calls = some t ∧ t.bytes.pc = .exited ∧
              t.bytes.stdout = s.bytes.produced)) := by
  have hflows : Flows slots fileCount s :=
    exec_invariant (flows_step hfiles) (flows_start hfiles) hrun
  refine ⟨?_, fun hrunning => ?_, fun hitself e he => no_call hitself he, fun hfrees => ?_⟩
  · have hcount := exec_countP_add_le isCall (potential fileCount) (flows_step hfiles)
      (fun h hcall hstep => potential_call hfiles h.moving hcall hstep)
      (fun _ hcall hstep => Nat.le_of_eq (potential_producer hcall hstep))
      (flows_start hfiles) hrun
    exact Nat.le_trans (Nat.le_trans (Nat.le_add_right _ _) hcount) (potential_le hflows)
  · rcases call_possible hflows.moving hflows.buffered hrunning with
      hproducer | hitself | ⟨e, next, hsucceeds, _, hstep, _⟩
    · exact .inl hproducer
    · exact .inr (.inl hitself)
    · exact .inr (.inr ⟨e, hsucceeds, by rw [hstep]; rfl⟩)
  · have hfreely : FlowsFreely slots fileCount s :=
      exec_guarded_invariant (flowsFreely_step hfiles) ⟨flows_start hfiles, fun _ _ _ => hslots⟩
        hfrees hrun
    refine ⟨hfreely.roomy.not_waitsForItself, fun hrunning hclosed => ?_⟩
    have hend := exists_exec_of_progress (callsLeft fileCount) (closedFlows_progress hfiles)
      (⟨hfreely, hclosed, rfl, .inl hrunning⟩ :
        ClosedFlows slots fileCount s.bytes.produced s)
    rcases hend with ⟨calls, t, hcalls, hexec, ht, hexited⟩
    refine ⟨calls, t, hcalls, hexec, hexited, ?_⟩
    have hpasses := ht.freely.flows.passes
    have hstream := hpasses.stream
    rw [(hpasses.exited hexited).right, List.append_nil] at hstream
    rw [← hstream, ht.produced_eq]

instance (s : State alpha) : forall e, Decidable (Frees s e)
  | .produce _ _ _ => isTrue trivial
  | .close => isTrue trivial
  | .tee _ => isTrue trivial
  | .spliceFile none => isTrue trivial
  | .spliceFile (some n) =>
      match hpc : s.bytes.pc with
      | .spliceFile i =>
          decidable_of_iff ((rest n (s.ps i)).length < (s.ps i).length)
            ⟨fun h j hj => by rw [hpc] at hj; cases hj; exact h, fun h => h i hpc⟩
      | .tee _ => isTrue fun j hj => by rw [hpc] at hj; cases hj
      | .spliceStdin => isTrue fun j hj => by rw [hpc] at hj; cases hj
      | .exited => isTrue fun j hj => by rw [hpc] at hj; cases hj
      | .failed _ => isTrue fun j hj => by rw [hpc] at hj; cases hj
  | .spliceStdin _ => isTrue trivial

theorem tee_completes_two :
    exists s : State Nat,
      exec (step 1 1) (start 1)
          [.produce [1, 2] 0 [2], .tee (some 2), .spliceFile (some 2), .spliceStdin (some 1),
            .close] =
        some s ∧
        exists calls t, (forall e, e ∈ calls -> succeeds e = true) ∧
          exec (step 1 1) s calls = some t ∧ t.bytes.pc = .exited ∧
          t.bytes.stdout = s.bytes.produced := by
  have hrun : exists s : State Nat,
      exec (step 1 1) (start 1)
          [.produce [1, 2] 0 [2], .tee (some 2), .spliceFile (some 2), .spliceStdin (some 1),
            .close] =
        some s ∧ running s.bytes.pc = true ∧ s.bytes.closed = true :=
    ⟨_, rfl, rfl, rfl⟩
  rcases hrun with ⟨s, hrun, hrunning, hclosed⟩
  rcases tee_completes 1 1 _ s Nat.one_pos Nat.one_pos hrun with ⟨_, _, _, hfreely⟩
  exact ⟨s, hrun, (hfreely (by decide)).right hrunning hclosed⟩

/-- A splice to the file that leaves a byte in the buffer, and no `tee` after it returns. -/
example : exists s : State Nat,
    exec (step 1 1) (start 1)
        [.produce [1, 2] 0 [2], .tee (some 2), .spliceFile (some 1), .spliceStdin (some 1)] =
      some s ∧ WaitsForItself 1 s :=
  ⟨_, rfl, 0, rfl, rfl⟩

end TeePipes
end TeeSplice
end VidsContent
