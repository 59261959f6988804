import VidsContent.TeeSplice.Broadcaster

/-!
# The read/write broadcaster

`proxy_naive.c` reads a chunk of the source into a buffer and writes the buffer
to each subscriber.
-/

namespace VidsContent
namespace TeeSplice
namespace ProxyNaive

open Transition Broadcaster

inductive Call where
  | read
  | write0
  | write1
deriving DecidableEq

/-- `buf` has the bytes stored by the last `read` that did not fail. -/
structure State (alpha : Type) extends Streams alpha where
  buf : List alpha
  n : Option Nat
  pc : Pc Call

def start (input : List alpha) : State alpha where
  source := input
  sub0 := []
  sub1 := []
  buf := []
  n := some 0
  pc := .call .read

/-- `n = read(source, buf, CHUNK)`, and the loop test. -/
def read (s : State alpha) : Option Nat -> Option (State alpha)
  | none => some { s with n := none, pc := .call .write0 }
  | some 0 =>
      if s.source.isEmpty then some { s with n := some 0, pc := .exited } else none
  | some n =>
      if n ≤ chunk ∧ n ≤ s.source.length then
        some
          { s with
            source := s.source.drop n
            buf := s.source.take n
            n := some n
            pc := .call .write0 }
      else
        none

/-- The bytes that `write(sub, buf, n)` sends: asked for more than `SSIZE_MAX`, it fails. -/
def written (s : State alpha) (w : Option Nat) : Option (List alpha × List alpha) :=
  if ssizeMax < toSize s.n ∧ w ≠ none then
    none
  else
    transfer s.buf (toSize s.n) w

def write0 (s : State alpha) (w : Option Nat) : Option (State alpha) :=
  match written s w with
  | none => none
  | some (moved, _) =>
      some { s with sub0 := s.sub0 ++ moved, pc := assertEq "w == n" w s.n .write1 }

def write1 (s : State alpha) (w : Option Nat) : Option (State alpha) :=
  match written s w with
  | none => none
  | some (moved, _) =>
      some { s with sub1 := s.sub1 ++ moved, pc := assertEq "w == n" w s.n .read }

def step (s : State alpha) (e : Event Call) : Option (State alpha) :=
  if s.pc = .call e.call then
    match e.call with
    | .read => read s e.result
    | .write0 => write0 s e.result
    | .write1 => write1 s e.result
  else
    none

/-!
## The chunk in the buffer
-/

def chunkBytes (s : State alpha) : List alpha :=
  match s.n with
  | none => []
  | some n => s.buf.take n

theorem written_isPrefix {s : State alpha} {w : Option Nat} {moved left : List alpha}
    (h : written s w = some (moved, left)) : moved <+: chunkBytes s := by
  unfold written at h
  split at h
  · cases h
  · rename_i hsize
    cases w with
    | none =>
        cases h
        exact List.nil_prefix
    | some j =>
        cases hn : s.n with
        | none =>
            simp [hn, toSize, ssizeMax] at hsize
        | some n =>
            rw [hn] at h
            rcases Option.ite_none_right_eq_some.mp h with ⟨hj, hmoved⟩
            cases hmoved
            simp only [chunkBytes, hn]
            exact List.take_prefix_take_left hj

theorem written_all {s : State alpha} {moved left : List alpha}
    (h : written s s.n = some (moved, left)) : moved = chunkBytes s := by
  unfold written at h
  split at h
  · cases h
  · unfold chunkBytes
    cases hn : s.n with
    | none =>
        rw [hn] at h
        cases h
        rfl
    | some n =>
        rw [hn] at h
        rcases Option.ite_none_right_eq_some.mp h with ⟨_, hmoved⟩
        cases hmoved
        rfl

/-!
## Everything a step can do
-/

theorem read_cases {s next : State alpha} {r : Option Nat} (h : read s r = some next) :
    (r = none ∧ next = { s with n := none, pc := .call .write0 }) ∨
    (r = some 0 ∧ s.source = [] ∧ next = { s with n := some 0, pc := .exited }) ∨
    (exists n, r = some n ∧
      next =
        { s with
          source := s.source.drop n
          buf := s.source.take n
          n := some n
          pc := .call .write0 }) := by
  cases r with
  | none => exact Or.inl ⟨rfl, (Option.some.inj h).symm⟩
  | some n =>
      right
      cases n with
      | zero =>
          rcases Option.ite_none_right_eq_some.mp h with ⟨hempty, hnext⟩
          cases hnext
          exact Or.inl ⟨rfl, List.isEmpty_iff.mp hempty, rfl⟩
      | succ n =>
          rcases Option.ite_none_right_eq_some.mp h with ⟨_, hnext⟩
          cases hnext
          exact Or.inr ⟨n + 1, rfl, rfl⟩

theorem write0_cases {s next : State alpha} {w : Option Nat}
    (h : write0 s w = some next) :
    exists moved left, written s w = some (moved, left) ∧
      next = { s with
        sub0 := s.sub0 ++ moved, pc := assertEq "w == n" w s.n .write1 } := by
  cases hw : written s w with
  | none => simp [write0, hw] at h
  | some p =>
      simp only [write0, hw] at h
      exact ⟨p.1, p.2, rfl, (Option.some.inj h).symm⟩

theorem write1_cases {s next : State alpha} {w : Option Nat}
    (h : write1 s w = some next) :
    exists moved left, written s w = some (moved, left) ∧
      next = { s with
        sub1 := s.sub1 ++ moved, pc := assertEq "w == n" w s.n .read } := by
  cases hw : written s w with
  | none => simp [write1, hw] at h
  | some p =>
      simp only [write1, hw] at h
      exact ⟨p.1, p.2, rfl, (Option.some.inj h).symm⟩

theorem step_cases {s next : State alpha} {e : Event Call} (h : step s e = some next) :
    (e.call = .read ∧ s.pc = .call .read ∧ read s e.result = some next) ∨
    (e.call = .write0 ∧ s.pc = .call .write0 ∧ write0 s e.result = some next) ∨
    (e.call = .write1 ∧ s.pc = .call .write1 ∧ write1 s e.result = some next) := by
  rcases Option.ite_none_right_eq_some.mp h with ⟨hpc, hstep⟩
  cases hcall : e.call with
  | read =>
      rw [hcall] at hpc hstep
      exact Or.inl ⟨rfl, hpc, hstep⟩
  | write0 =>
      rw [hcall] at hpc hstep
      exact Or.inr (Or.inl ⟨rfl, hpc, hstep⟩)
  | write1 =>
      rw [hcall] at hpc hstep
      exact Or.inr (Or.inr ⟨rfl, hpc, hstep⟩)

/-!
## Delivery
-/

def Inv (input : List alpha) (s : State alpha) : Prop :=
  match s.pc with
  | .call .read => input = s.sub0 ++ s.source ∧ s.sub1 = s.sub0
  | .call .write0 => input = s.sub0 ++ (chunkBytes s ++ s.source) ∧ s.sub1 = s.sub0
  | .call .write1 => input = s.sub0 ++ s.source ∧ s.sub0 = s.sub1 ++ chunkBytes s
  | .exited => s.sub0 = input ∧ s.sub1 = input
  | .aborted _ => s.sub0 <+: input ∧ s.sub1 <+: input

theorem Inv.delivers {input : List alpha} {s : State alpha} (hinv : Inv input s) :
    Delivers input .read s.toStreams s.pc := by
  unfold Inv at hinv
  split at hinv <;> rename_i hpc <;> rw [hpc]
  · exact delivers_at_head hinv.left hinv.right
  · rcases hinv with ⟨hinput, hsub⟩
    exact Delivers.of_isPrefix ⟨chunkBytes s ++ s.source, hinput.symm⟩
      ⟨chunkBytes s ++ s.source, by rw [hsub, hinput]⟩ nofun nofun
  · rcases hinv with ⟨hinput, hsub⟩
    exact Delivers.of_isPrefix ⟨s.source, hinput.symm⟩
      ⟨chunkBytes s ++ s.source, by rw [hinput, hsub, List.append_assoc]⟩ nofun nofun
  · exact delivers_at_exit hinv.left hinv.right
  · exact Delivers.of_isPrefix hinv.left hinv.right nofun nofun

theorem inv_start (input : List alpha) : Inv input (start input) :=
  ⟨rfl, rfl⟩

theorem inv_read {input : List alpha} {s next : State alpha} {r : Option Nat}
    (hinv : Inv input s) (hpc : s.pc = .call .read) (h : read s r = some next) :
    Inv input next := by
  simp only [Inv, hpc] at hinv
  rcases hinv with ⟨hinput, hsub⟩
  rcases read_cases h with ⟨_, rfl⟩ | ⟨_, hempty, rfl⟩ | ⟨n, _, rfl⟩
  · exact ⟨hinput, hsub⟩
  · rw [hempty, List.append_nil] at hinput
    exact ⟨hinput.symm, by rw [hsub, hinput]⟩
  · constructor
    · show input = s.sub0 ++ ((s.source.take n).take n ++ s.source.drop n)
      rw [List.take_take, Nat.min_self, List.take_append_drop]
      exact hinput
    · exact hsub

theorem inv_write0 {input : List alpha} {s next : State alpha} {w : Option Nat}
    (hinv : Inv input s) (hpc : s.pc = .call .write0) (h : write0 s w = some next) :
    Inv input next := by
  simp only [Inv, hpc] at hinv
  rcases hinv with ⟨hinput, hsub⟩
  rcases write0_cases h with ⟨moved, left, hwritten, rfl⟩
  rcases assertEq_cases "w == n" w s.n Call.write1 with ⟨heq, hnext⟩ | ⟨_, hnext⟩
  · subst heq
    have hmoved : moved = chunkBytes s := written_all hwritten
    subst hmoved
    simp only [Inv, hnext]
    constructor
    · rw [hinput, List.append_assoc]
    · rw [hsub]
      rfl
  · simp only [Inv, hnext]
    constructor
    · rw [hinput]
      apply (List.prefix_append_right_inj s.sub0).mpr
      exact (written_isPrefix hwritten).trans (List.prefix_append _ _)
    · rw [hsub, hinput]
      exact List.prefix_append _ _

theorem inv_write1 {input : List alpha} {s next : State alpha} {w : Option Nat}
    (hinv : Inv input s) (hpc : s.pc = .call .write1) (h : write1 s w = some next) :
    Inv input next := by
  simp only [Inv, hpc] at hinv
  rcases hinv with ⟨hinput, hsub⟩
  rcases write1_cases h with ⟨moved, left, hwritten, rfl⟩
  rcases assertEq_cases "w == n" w s.n Call.read with ⟨heq, hnext⟩ | ⟨_, hnext⟩
  · subst heq
    have hmoved : moved = chunkBytes s := written_all hwritten
    subst hmoved
    simp only [Inv, hnext]
    exact ⟨hinput, hsub.symm⟩
  · simp only [Inv, hnext]
    constructor
    · rw [hinput]
      exact List.prefix_append _ _
    · rw [hinput, hsub, List.append_assoc]
      apply (List.prefix_append_right_inj s.sub1).mpr
      exact (written_isPrefix hwritten).trans (List.prefix_append _ _)

theorem inv_step {input : List alpha} {s next : State alpha} {e : Event Call}
    (hinv : Inv input s) (hstep : step s e = some next) : Inv input next := by
  rcases step_cases hstep with ⟨_, hpc, h⟩ | ⟨_, hpc, h⟩ | ⟨_, hpc, h⟩
  · exact inv_read hinv hpc h
  · exact inv_write0 hinv hpc h
  · exact inv_write1 hinv hpc h

theorem delivers {input : List alpha} {s : State alpha} {es : List (Event Call)}
    (hrun : exec step (start input) es = some s) :
    Delivers input .read s.toStreams s.pc :=
  (exec_invariant inv_step (inv_start input) hrun).delivers

/-!
## Failed calls
-/

theorem loopStep {s next : State alpha} {e : Event Call}
    (hstep : step s e = some next) :
    LoopStep .read e s.n s.pc next.n next.pc := by
  rcases step_cases hstep with ⟨hcall, hpc, h⟩ | ⟨hcall, hpc, h⟩ | ⟨hcall, hpc, h⟩
  · rcases read_cases h with ⟨hr, rfl⟩ | ⟨hr, _, rfl⟩ | ⟨n, hr, rfl⟩ <;>
      exact ⟨by rw [hpc, hcall], Or.inl ⟨hcall, hr.symm⟩⟩
  · rcases write0_cases h with ⟨moved, left, _, rfl⟩
    exact ⟨by rw [hpc, hcall], Or.inr ⟨by simp [hcall], rfl, "w == n", .write1, rfl⟩⟩
  · rcases write1_cases h with ⟨moved, left, _, rfl⟩
    exact ⟨by rw [hpc, hcall], Or.inr ⟨by simp [hcall], rfl, "w == n", .read, rfl⟩⟩

theorem failureAborts {input : List alpha} {s : State alpha} {es : List (Event Call)}
    (hrun : exec step (start input) es = some s) (hsource : SourceSucceeds .read es) :
    FailureAborts es s.pc :=
  failureAborts_of_loopStep loopStep rfl hrun hsource

end ProxyNaive
end TeeSplice
end VidsContent
