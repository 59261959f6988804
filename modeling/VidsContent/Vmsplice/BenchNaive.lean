import Mathlib.Data.List.Basic
import VidsContent.Lib.Transition

/-!
# The write sender

`bench_naive.c` sends `TOTAL` bytes of a buffer of `CHUNK` bytes over a socket,
with one `write` in each turn of the loop.  The sizes are `size_t` and wrap
around; the counts that the calls return are signed.  Both sizes are parameters
here, the source's own values being `benchTotal` and `benchChunk`.
-/

namespace VidsContent
namespace Vmsplice

def benchChunk : UInt64 := (1 : UInt64) <<< 20

/-- `TOTAL`, 25 GiB, where the comment on it says 4. -/
def benchTotal : UInt64 := (25 : UInt64) <<< 30

def remaining (total sent : UInt64) : UInt64 := total - sent

def want (total chunk sent : UInt64) : UInt64 :=
  if remaining total sent < chunk then remaining total sent else chunk

def data (chunk : UInt64) (fill : alpha) : List alpha :=
  List.replicate chunk.toNat fill

/-!
## Sizes
-/

theorem toNat_ofInt_of_le {n : Int} {bound : UInt64} (hpos : 0 < n)
    (hle : n ≤ bound.toNat) : (UInt64.ofInt n).toNat = n.toNat := by
  have hbound : bound.toNat < 18446744073709551616 := bound.toNat_lt
  unfold UInt64.ofInt
  simp only [UInt64.toNat_ofNat']
  lia

theorem remaining_toNat {total sent : UInt64} (hlt : sent < total) :
    (remaining total sent).toNat = total.toNat - sent.toNat :=
  UInt64.toNat_sub_of_le total sent (UInt64.le_of_lt hlt)

theorem want_spec {total chunk sent : UInt64} (hchunk : 0 < chunk) (hlt : sent < total) :
    0 < (want total chunk sent).toNat ∧
      (want total chunk sent).toNat ≤ chunk.toNat ∧
      sent.toNat + (want total chunk sent).toNat ≤ total.toNat := by
  have hrest := remaining_toNat hlt
  rw [UInt64.lt_iff_toNat_lt] at hlt hchunk
  rw [UInt64.toNat_zero] at hchunk
  unfold want
  split
  · rename_i hless
    rw [UInt64.lt_iff_toNat_lt] at hless
    lia
  · rename_i hmore
    rw [UInt64.lt_iff_toNat_lt] at hmore
    lia

example : 0 < benchChunk ∧ benchTotal.toNat + benchChunk.toNat < 9223372036854775808 := by
  decide

theorem sent_add_toNat {total chunk sent : UInt64} {n : Int} (hchunk : 0 < chunk)
    (hlt : sent < total) (hpos : 0 < n) (hle : n ≤ (want total chunk sent).toNat) :
    (sent + UInt64.ofInt n).toNat = sent.toNat + n.toNat := by
  have hwant := want_spec hchunk hlt
  have htotal : total.toNat < 18446744073709551616 := total.toNat_lt
  rw [UInt64.toNat_add, toNat_ofInt_of_le hpos hle]
  lia

theorem data_take {chunk : UInt64} (fill : alpha) {n : Nat} (hn : n ≤ chunk.toNat) :
    (data chunk fill).take n = List.replicate n fill := by
  unfold data
  rw [List.take_replicate, Nat.min_eq_left hn]

namespace BenchNaive

open Transition

inductive Pc where
  | write (want : UInt64)
  | exited
  | failed (message : String)
deriving DecidableEq

structure State (alpha : Type) where
  sent : UInt64
  socket : List alpha
  pc : Pc

def loopHead (total chunk sent : UInt64) : Pc :=
  if sent < total then .write (want total chunk sent) else .exited

def start (total chunk : UInt64) : State alpha where
  sent := 0
  socket := []
  pc := loopHead total chunk 0

def step (total chunk : UInt64) (fill : alpha) (s : State alpha) (n : Int) :
    Option (State alpha) :=
  match s.pc with
  | .write want =>
      if n ≤ 0 then
        some { s with pc := .failed "write" }
      else if n ≤ want.toNat then
        some
          { sent := s.sent + UInt64.ofInt n
            socket := s.socket ++ (data chunk fill).take n.toNat
            pc := loopHead total chunk (s.sent + UInt64.ofInt n) }
      else
        none
  | _ => none

theorem step_cases {total chunk : UInt64} {fill : alpha} {s next : State alpha} {n : Int}
    (hstep : step total chunk fill s n = some next) :
    exists w, s.pc = .write w ∧
      ((n ≤ 0 ∧ next = { s with pc := .failed "write" }) ∨
        (0 < n ∧ n ≤ w.toNat ∧
          next =
            { sent := s.sent + UInt64.ofInt n
              socket := s.socket ++ (data chunk fill).take n.toNat
              pc := loopHead total chunk (s.sent + UInt64.ofInt n) })) := by
  cases hpc : s.pc with
  | write w =>
      simp only [step, hpc] at hstep
      split at hstep
      · rename_i hfail
        exact ⟨w, rfl, Or.inl ⟨hfail, (Option.some.inj hstep).symm⟩⟩
      · split at hstep
        · rename_i hpos hle
          exact ⟨w, rfl, Or.inr ⟨by lia, hle, (Option.some.inj hstep).symm⟩⟩
        · cases hstep
  | _ => simp [step, hpc] at hstep

/-!
## What the socket receives
-/

def Place (total chunk : UInt64) (s : State alpha) : Prop :=
  match s.pc with
  | .write w => s.sent < total ∧ w = want total chunk s.sent
  | .exited => s.sent = total
  | .failed _ => s.sent < total

structure Inv (total chunk : UInt64) (fill : alpha) (s : State alpha) : Prop where
  socket : s.socket = List.replicate s.sent.toNat fill
  place : Place total chunk s

theorem place_loopHead {total chunk : UInt64} {s : State alpha}
    (hle : s.sent.toNat ≤ total.toNat) (hpc : s.pc = loopHead total chunk s.sent) :
    Place total chunk s := by
  unfold Place
  rw [hpc]
  unfold loopHead
  by_cases hlt : s.sent < total
  · rw [if_pos hlt]
    exact ⟨hlt, rfl⟩
  · rw [if_neg hlt]
    rw [UInt64.lt_iff_toNat_lt] at hlt
    exact UInt64.toNat_inj.mp (by lia)

theorem inv_start (total chunk : UInt64) (fill : alpha) :
    Inv total chunk fill (start total chunk) where
  socket := rfl
  place := place_loopHead (Nat.zero_le _) rfl

theorem inv_step {total chunk : UInt64} {fill : alpha} {s next : State alpha} {n : Int}
    (hchunk : 0 < chunk) (h : Inv total chunk fill s)
    (hstep : step total chunk fill s n = some next) : Inv total chunk fill next := by
  rcases step_cases hstep with ⟨w, hpc, ⟨_, rfl⟩ | ⟨hpos, hle, rfl⟩⟩
  · have hplace := h.place
    simp only [Place, hpc] at hplace
    exact ⟨h.socket, hplace.left⟩
  · have hplace := h.place
    simp only [Place, hpc] at hplace
    rcases hplace with ⟨hlt, rfl⟩
    have hsum := sent_add_toNat hchunk hlt hpos hle
    have hwant := want_spec hchunk hlt
    constructor
    · simp only
      rw [h.socket, data_take fill (by lia), hsum, List.replicate_append_replicate]
    · apply place_loopHead
      · simp only
        lia
      · rfl

def left (total : UInt64) (s : State alpha) : Nat :=
  match s.pc with
  | .write _ => total.toNat - s.sent.toNat
  | _ => 0

theorem left_step {total chunk : UInt64} {fill : alpha} {s next : State alpha} {n : Int}
    (hchunk : 0 < chunk) (h : Inv total chunk fill s)
    (hstep : step total chunk fill s n = some next) : left total next < left total s := by
  rcases step_cases hstep with ⟨w, hpc, hresult⟩
  have hplace := h.place
  simp only [Place, hpc] at hplace
  rcases hplace with ⟨hlt, rfl⟩
  have hless := hlt
  rw [UInt64.lt_iff_toNat_lt] at hless
  rcases hresult with ⟨_, rfl⟩ | ⟨hpos, hle, rfl⟩
  · simp only [left, hpc]
    lia
  · have hsum := sent_add_toNat hchunk hlt hpos hle
    simp only [left, hpc]
    split
    · lia
    · lia

theorem run_length_le {total chunk : UInt64} {fill : alpha} {s : State alpha}
    {ns : List Int} (hchunk : 0 < chunk)
    (hrun : exec (step total chunk fill) (start total chunk) ns = some s) :
    ns.length ≤ total.toNat := by
  have hlength : ns.length + left total s ≤ left total (start total chunk : State alpha) :=
    exec_length_le (left total) (fun h hstep => inv_step hchunk h hstep)
      (fun h hstep => left_step hchunk h hstep) (inv_start total chunk fill) hrun
  have hstart : left total (start total chunk : State alpha) ≤ total.toNat := by
    unfold left
    split
    · exact Nat.sub_le _ _
    · exact Nat.zero_le _
  lia

structure Delivers (total chunk : UInt64) (fill : alpha) (s : State alpha) : Prop where
  /-- At the head of a turn the subtraction is exact, and every count up to `want` may come. -/
  turn : forall w, s.pc = .write w ->
    s.sent.toNat < total.toNat ∧
      (remaining total s.sent).toNat = total.toNat - s.sent.toNat ∧
      0 < w ∧ w ≤ chunk ∧
      forall n : Int, 0 < n -> n ≤ w.toNat -> (step total chunk fill s n).isSome
  finished : s.pc = .exited ->
    s.sent = total ∧ s.socket = List.replicate total.toNat fill

theorem delivers_of_inv {total chunk : UInt64} {fill : alpha} {s : State alpha}
    (hchunk : 0 < chunk) (h : Inv total chunk fill s) : Delivers total chunk fill s where
  turn := by
    intro w hpc
    have hplace := h.place
    simp only [Place, hpc] at hplace
    rcases hplace with ⟨hlt, rfl⟩
    rcases want_spec hchunk hlt with ⟨hpos, hle, _⟩
    refine ⟨UInt64.lt_iff_toNat_lt.mp hlt, remaining_toNat hlt,
      UInt64.lt_iff_toNat_lt.mpr hpos, UInt64.le_iff_toNat_le.mpr hle, ?_⟩
    intro n hn hnle
    simp only [step, hpc]
    rw [if_neg (by lia), if_pos hnle]
    rfl
  finished := by
    intro hpc
    have hplace := h.place
    simp only [Place, hpc] at hplace
    exact ⟨hplace, by rw [h.socket, hplace]⟩

theorem unfailed_step {total chunk : UInt64} {fill : alpha} {s next : State alpha} {n : Int}
    (hpos : 0 < n) (hstep : step total chunk fill s n = some next) :
    forall message, next.pc ≠ .failed message := by
  rcases step_cases hstep with ⟨w, _, ⟨hfail, _⟩ | ⟨_, _, rfl⟩⟩
  · exact absurd hpos (Int.not_lt.mpr hfail)
  · intro message
    simp only [loopHead]
    split
    · exact nofun
    · exact nofun

theorem unfailed_run {total chunk : UInt64} {fill : alpha} {s : State alpha} {ns : List Int}
    (hpos : forall n, n ∈ ns -> 0 < n)
    (hrun : exec (step total chunk fill) (start total chunk) ns = some s) :
    forall message, s.pc ≠ .failed message := by
  refine exec_guarded_invariant (I := fun s => forall message, s.pc ≠ .failed message)
    ?_ ?_ (allSteps_of_forall hpos) hrun
  · intro s n next _ hn hstep
    exact unfailed_step hn hstep
  · intro message
    simp only [start, loopHead]
    split
    · exact nofun
    · exact nofun

theorem Delivers.exists_step {total chunk : UInt64} {fill : alpha} {s : State alpha}
    (h : Delivers total chunk fill s) (hfailed : forall message, s.pc ≠ .failed message)
    (hexited : s.pc ≠ .exited) :
    exists n next, 0 < n ∧ step total chunk fill s n = some next := by
  cases hpc : s.pc with
  | write w =>
      rcases h.turn w hpc with ⟨_, _, hw, _, hcounts⟩
      rw [UInt64.lt_iff_toNat_lt] at hw
      have hone : ((1 : Nat) : Int) ≤ w.toNat := Int.ofNat_le.mpr hw
      rcases Option.isSome_iff_exists.mp (hcounts 1 Int.one_pos hone) with ⟨next, hnext⟩
      exact ⟨1, next, Int.one_pos, hnext⟩
  | exited => exact absurd hpc hexited
  | failed message => exact absurd hpc (hfailed message)

theorem delivers_of_run {total chunk : UInt64} {fill : alpha} {s : State alpha}
    {ns : List Int} (hchunk : 0 < chunk)
    (hrun : exec (step total chunk fill) (start total chunk) ns = some s) :
    Delivers total chunk fill s :=
  delivers_of_inv hchunk
    (exec_invariant (fun h hstep => inv_step hchunk h hstep) (inv_start total chunk fill) hrun)

end BenchNaive
end Vmsplice
end VidsContent
