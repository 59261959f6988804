import VidsContent.Lib.Transition
import VidsContent.ReadvWritev.NgxChain

/-!
# Sending a chain

`ngx_writev_chain` turns the front of a connection's output chain into an I/O
vector, hands it to `writev`, takes what was sent off the chain, and goes on until
the chain is empty, the limit is reached or the socket takes no more.  The caller
adds buffers to the chain that is left, and calls again when the event loop has
reported the socket writable.
-/

namespace VidsContent
namespace ReadvWritev

open Segments
open Transition

/--
What the file does not define: `NGX_IOVS_PREALLOCATE`, the largest limit
(`NGX_MAX_SIZE_T_VALUE - ngx_pagesize`), and `ngx_chain_update_sent`.
-/
structure Ngx where
  iovsPreallocate : Nat
  maxLimit : Int
  chainUpdateSent : List Buf -> Nat -> List Buf

/-- `vec` and `prevSend` are the vector of the pass and the bytes of the earlier passes. -/
inductive Pc where
  | idle
  | toIovec (limit : Int) (send : Nat)
  | writev (limit : Int) (prevSend : Nat) (vec : Iovec)
  | chainError (alert : String)
  | nullIovec

structure Conn (alpha : Type) where
  chain : List Buf
  sent : Nat
  ready : Bool
  error : Bool
  submitted : List alpha
  wire : List alpha
  pc : Pc

inductive Answer where
  | done (n : Nat)
  | eagain
  | eintr
  | failed

inductive Event where
  | submit (bufs : List Buf)
  | writable
  | call (limit : Int)
  | toIovec
  | writev (answer : Answer)

def start : Conn alpha where
  chain := []
  sent := 0
  ready := true
  error := false
  submitted := []
  wire := []
  pc := .idle

/-- The conversion of an `off_t` to the `size_t` that bounds the vector. -/
def toSize (n : Int) : Nat := (n % 18446744073709551616).toNat

def clampLimit (ngx : Ngx) (limit : Int) : Int :=
  if limit = 0 ∨ limit > ngx.maxLimit then ngx.maxLimit else limit

/-- The walk over the chain, and the check of the buffer where it ended. -/
def toIovec (ngx : Ngx) (limit : Int) (send : Nat) (chain : List Buf) : Pc :=
  match ngxOutputChainToIovec ngx.iovsPreallocate (toSize (limit - send)) chain with
  | .error (.chainError alert _) => .chainError alert
  | .error .nullIovec => .nullIovec
  | .ok (vec, cl) =>
      if cl.head?.any Buf.inFile then
        .chainError "file buf in writev"
      else
        .writev limit send vec

def transfer (ngx : Ngx) (mem : Nat -> alpha) (vec : Iovec) (sent : Nat) (c : Conn alpha) :
    Conn alpha :=
  { c with
    wire := c.wire ++ ((addrs vec.iovs).take sent).map mem
    sent := c.sent + sent
    chain := ngx.chainUpdateSent c.chain sent }

def afterWritev (ngx : Ngx) (mem : Nat -> alpha) (limit : Int) (prevSend : Nat) (vec : Iovec)
    (sent : Nat) (c : Conn alpha) : Conn alpha :=
  let send := prevSend + vec.total
  let c := transfer ngx mem vec sent c
  if send - prevSend ≠ sent then
    { c with ready := false, pc := .idle }
  else if limit ≤ send ∨ c.chain = [] then
    { c with pc := .idle }
  else
    { c with pc := .toIovec limit send }

def step (ngx : Ngx) (mem : Nat -> alpha) (c : Conn alpha) : Event -> Option (Conn alpha)
  | .submit bufs =>
      match c.pc with
      | .idle =>
          some
            { c with
              chain := c.chain ++ bufs
              submitted := c.submitted ++ (content bufs).map mem }
      | _ => none
  | .writable =>
      match c.pc with
      | .idle => some { c with ready := true }
      | _ => none
  | .call limit =>
      match c.pc with
      | .idle => if c.ready then some { c with pc := .toIovec (clampLimit ngx limit) 0 } else some c
      | _ => none
  | .toIovec =>
      match c.pc with
      | .toIovec limit send => some { c with pc := toIovec ngx limit send c.chain }
      | _ => none
  | .writev answer =>
      match c.pc, answer with
      | .writev _ _ _, .eintr => some c
      | .writev _ _ _, .failed => some { c with error := true, pc := .chainError "writev() failed" }
      | .writev limit prevSend vec, .eagain =>
          some (afterWritev ngx mem limit prevSend vec 0 c)
      | .writev limit prevSend vec, .done n =>
          if n ≤ vec.total then
            some (afterWritev ngx mem limit prevSend vec n c)
          else
            none
      | _, _ => none

theorem step_cases {ngx : Ngx} {mem : Nat -> alpha} {c next : Conn alpha} {e : Event}
    (hstep : step ngx mem c e = some next) :
    (exists bufs, e = .submit bufs ∧ c.pc = .idle ∧
      next =
        { c with
          chain := c.chain ++ bufs
          submitted := c.submitted ++ (content bufs).map mem }) ∨
    (e = .writable ∧ c.pc = .idle ∧ next = { c with ready := true }) ∨
    (exists limit, e = .call limit ∧ c.pc = .idle ∧ c.ready = true ∧
      next = { c with pc := .toIovec (clampLimit ngx limit) 0 }) ∨
    (exists limit, e = .call limit ∧ c.pc = .idle ∧ c.ready = false ∧ next = c) ∨
    (exists limit send, e = .toIovec ∧ c.pc = .toIovec limit send ∧
      next = { c with pc := toIovec ngx limit send c.chain }) ∨
    (exists limit prevSend vec, e = .writev .eintr ∧ c.pc = .writev limit prevSend vec ∧
      next = c) ∨
    (exists limit prevSend vec, e = .writev .failed ∧ c.pc = .writev limit prevSend vec ∧
      next = { c with error := true, pc := .chainError "writev() failed" }) ∨
    (exists limit prevSend vec n, (e = .writev (.done n) ∨ e = .writev .eagain ∧ n = 0) ∧
      c.pc = .writev limit prevSend vec ∧ n ≤ vec.total ∧
      next = afterWritev ngx mem limit prevSend vec n c) := by
  cases e with
  | submit bufs =>
      cases hpc : c.pc with
      | idle =>
          simp only [step, hpc] at hstep
          exact Or.inl ⟨bufs, rfl, rfl, (Option.some.inj hstep).symm⟩
      | _ => simp [step, hpc] at hstep
  | writable =>
      right
      cases hpc : c.pc with
      | idle =>
          simp only [step, hpc] at hstep
          exact Or.inl ⟨rfl, rfl, (Option.some.inj hstep).symm⟩
      | _ => simp [step, hpc] at hstep
  | call limit =>
      right; right
      cases hpc : c.pc with
      | idle =>
          simp only [step, hpc] at hstep
          by_cases hready : c.ready = true
          · rw [if_pos hready] at hstep
            exact Or.inl ⟨limit, rfl, rfl, hready, (Option.some.inj hstep).symm⟩
          · rw [if_neg hready] at hstep
            exact Or.inr (Or.inl ⟨limit, rfl, rfl, by simpa using hready,
              (Option.some.inj hstep).symm⟩)
      | _ => simp [step, hpc] at hstep
  | toIovec =>
      right; right; right; right
      cases hpc : c.pc with
      | toIovec limit send =>
          simp only [step, hpc] at hstep
          exact Or.inl ⟨limit, send, rfl, rfl, (Option.some.inj hstep).symm⟩
      | _ => simp [step, hpc] at hstep
  | writev answer =>
      right; right; right; right; right
      cases hpc : c.pc with
      | writev limit prevSend vec =>
          cases answer with
          | eintr =>
              simp only [step, hpc] at hstep
              exact Or.inl ⟨limit, prevSend, vec, rfl, rfl, (Option.some.inj hstep).symm⟩
          | failed =>
              simp only [step, hpc] at hstep
              exact Or.inr (Or.inl ⟨limit, prevSend, vec, rfl, rfl, (Option.some.inj hstep).symm⟩)
          | eagain =>
              simp only [step, hpc] at hstep
              exact Or.inr (Or.inr ⟨limit, prevSend, vec, 0, Or.inr ⟨rfl, rfl⟩, rfl,
                Nat.zero_le _, (Option.some.inj hstep).symm⟩)
          | done n =>
              simp only [step, hpc] at hstep
              split at hstep
              · rename_i hn
                exact Or.inr (Or.inr ⟨limit, prevSend, vec, n, Or.inl rfl, rfl, hn,
                  (Option.some.inj hstep).symm⟩)
              · cases hstep
      | _ => simp [step, hpc] at hstep

/-!
## The chain update

The assumptions on `ngx_chain_update_sent`, and an update that meets them.
-/

/-- What `ngx_chain_update_sent` does to a chain that is sendable. -/
structure UpdatesSent (ngx : Ngx) : Prop where
  content_drop : forall chain n, (forall b, b ∈ chain -> b.Sendable) ->
    n ≤ (content chain).length ->
    content (ngx.chainUpdateSent chain n) = (content chain).drop n
  sendable : forall chain n, (forall b, b ∈ chain -> b.Sendable) ->
    forall b, b ∈ ngx.chainUpdateSent chain n -> b.Sendable
  -- special buffers and buffers that are sent do not stay at the front
  nothing_left : forall chain n, (forall b, b ∈ chain -> b.Sendable) ->
    content (ngx.chainUpdateSent chain n) = [] -> ngx.chainUpdateSent chain n = []

theorem pos_add_le {pos last sent : Nat} (h : ¬ last - pos ≤ sent) : pos + sent ≤ last := by
  lia

def Buf.advance (b : Buf) (sent : Nat) (h : ¬ b.last - b.pos ≤ sent) : Buf :=
  { b with pos := b.pos + sent, pos_le_last := pos_add_le h }

theorem advance_addrs {b : Buf} {sent : Nat} (h : ¬ b.last - b.pos ≤ sent)
    (hspecial : ¬ b.special = true) : (b.advance sent h).addrs = b.addrs.drop sent := by
  have hadvanced : (b.advance sent h).addrs =
      List.range' (b.pos + sent) (b.last - (b.pos + sent)) :=
    addrs_of_not_special hspecial
  rw [hadvanced, addrs_of_not_special hspecial, List.drop_range', Nat.mul_one, Nat.sub_sub]

theorem addrs_length {b : Buf} (hspecial : ¬ b.special = true) :
    b.addrs.length = b.last - b.pos := by
  rw [addrs_of_not_special hspecial, List.length_range']

/-- Special buffers and sent ones go; a buffer that is sent in part stays with its rest. -/
def dropSent : List Buf -> Nat -> List Buf
  | [], _ => []
  | b :: rest, sent =>
      if b.special then
        dropSent rest sent
      else if sent = 0 then
        b :: rest
      else if h : b.last - b.pos ≤ sent then
        dropSent rest (sent - (b.last - b.pos))
      else
        b.advance sent h :: rest

theorem content_dropSent (chain : List Buf) (n : Nat) :
    content (dropSent chain n) = (content chain).drop n := by
  fun_induction dropSent chain n with
  | case1 n => rw [content_nil, List.drop_nil]
  | case2 b rest n hspecial ih =>
      rw [ih, content_cons, content_special hspecial, List.nil_append]
  | case3 b rest hspecial => rw [List.drop_zero]
  | case4 b rest n hspecial hpos hle ih =>
      rw [← addrs_length hspecial] at hle
      rw [ih, content_cons, List.drop_append, List.drop_eq_nil_of_le hle, List.nil_append,
        addrs_length hspecial]
  | case5 b rest n hspecial hpos hle =>
      have hlength := addrs_length hspecial
      rw [content_cons, content_cons, advance_addrs hle hspecial,
        List.drop_append_of_le_length (by lia)]

theorem sendable_dropSent {chain : List Buf} {n : Nat} (h : forall b, b ∈ chain -> b.Sendable) :
    forall b, b ∈ dropSent chain n -> b.Sendable := by
  fun_induction dropSent chain n with
  | case1 n => exact h
  | case2 b rest n hspecial ih => exact ih (List.forall_mem_cons.mp h).right
  | case3 b rest hspecial => exact h
  | case4 b rest n hspecial hpos hle ih => exact ih (List.forall_mem_cons.mp h).right
  | case5 b rest n hspecial hpos hle =>
      rcases List.forall_mem_cons.mp h with ⟨hb, hrest⟩
      rcases hb.memory (by simpa using hspecial) with ⟨hmemory, hnull, _⟩
      refine List.forall_mem_cons.mpr ⟨⟨hb.left, Or.inr ⟨hmemory, ?_, ?_⟩⟩, hrest⟩
      · simp only [Buf.advance]
        lia
      · simp only [Buf.advance]
        lia

theorem dropSent_nothing_left {chain : List Buf} {n : Nat}
    (h : forall b, b ∈ chain -> b.Sendable) (hcontent : content (dropSent chain n) = []) :
    dropSent chain n = [] := by
  fun_induction dropSent chain n with
  | case1 n => rfl
  | case2 b rest n hspecial ih => exact ih (List.forall_mem_cons.mp h).right hcontent
  | case3 b rest hspecial =>
      have hb := ((List.forall_mem_cons.mp h).left).memory (by simpa using hspecial)
      have hlength := congrArg List.length hcontent
      rw [content_cons, List.length_append, addrs_length hspecial, List.length_nil] at hlength
      lia
  | case4 b rest n hspecial hpos hle ih => exact ih (List.forall_mem_cons.mp h).right hcontent
  | case5 b rest n hspecial hpos hle =>
      have hlength := congrArg List.length hcontent
      rw [content_cons, advance_addrs hle hspecial, List.length_append, List.length_drop,
        addrs_length hspecial, List.length_nil] at hlength
      lia

def ngx64 : Ngx where
  iovsPreallocate := 64
  maxLimit := 9223372036854775807 - 4096
  chainUpdateSent := dropSent

theorem updatesSent_ngx64 : UpdatesSent ngx64 where
  content_drop := fun chain n _ _ => content_dropSent chain n
  sendable := fun _ _ h => sendable_dropSent h
  nothing_left := fun _ _ h hcontent => dropSent_nothing_left h hcontent

/-!
## The accounts of a connection
-/

def Event.Sendable : Event -> Prop
  | .submit bufs => forall b, b ∈ bufs -> b.Sendable
  | _ => True

/-- The vector visits the front of the chain, and some of it if there is any. -/
structure Front (limit : Int) (send : Nat) (chain : List Buf) (vec : Iovec) : Prop where
  total_eq : vec.total = (addrs vec.iovs).length
  addrs_prefix : addrs vec.iovs <+: content chain
  total_le : vec.total ≤ toSize (limit - send)
  progress : 0 < toSize (limit - send) -> content chain ≠ [] -> 0 < vec.total

structure Accounts (mem : Nat -> alpha) (c : Conn alpha) : Prop where
  sendable : forall b, b ∈ c.chain -> b.Sendable
  conserved : c.wire ++ (content c.chain).map mem = c.submitted
  sent_eq : c.sent = c.wire.length
  front : forall limit prevSend vec, c.pc = .writev limit prevSend vec ->
    Front limit prevSend c.chain vec
  no_alert : c.error = false -> forall alert, c.pc ≠ .chainError alert
  no_null : c.pc ≠ .nullIovec

theorem accounts_start (mem : Nat -> alpha) : Accounts mem (start : Conn alpha) where
  sendable := by
    intro b hb
    cases hb
  conserved := rfl
  sent_eq := rfl
  front := by
    intro limit prevSend vec h
    cases h
  no_alert := by
    intro _ alert h
    cases h
  no_null := by
    intro h
    cases h

theorem toIovec_front {ngx : Ngx} (limit : Int) (send : Nat) {chain : List Buf}
    (hnalloc : 0 < ngx.iovsPreallocate) (hchain : forall b, b ∈ chain -> b.Sendable) :
    exists vec, toIovec ngx limit send chain = .writev limit send vec ∧
      Front limit send chain vec := by
  rcases gatherFrom_ok (describes_empty ngx.iovsPreallocate (toSize (limit - send))) hchain with
    ⟨vec, rest, hgather⟩
  have hprogress (hlimit : 0 < toSize (limit - send)) (hcontent : content chain ≠ []) :
      0 < vec.total :=
    ngxOutputChainToIovec_progress hnalloc hlimit hcontent hchain hgather
  rcases ngxOutputChainToIovec_spec hgather with ⟨walked, rfl, _, haddrs, htotal, _⟩
  refine ⟨vec, ?_, htotal, ?_, ?_, hprogress⟩
  · rw [toIovec, ngxOutputChainToIovec, hgather]
    simp only
    rw [if_neg]
    intro hfile
    cases rest with
    | nil => cases hfile
    | cons b rest =>
        have hb := (hchain b (by simp)).left
        simp [hb] at hfile
  · rw [haddrs, content_append]
    exact (List.take_prefix _ _).trans (List.prefix_append _ _)
  · rw [htotal, haddrs, List.length_take]
    exact Nat.min_le_left _ _

theorem afterWritev_cases (ngx : Ngx) (mem : Nat -> alpha) (limit : Int) (prevSend : Nat)
    (vec : Iovec) (n : Nat) (c : Conn alpha) :
    (n ≠ vec.total ∧ afterWritev ngx mem limit prevSend vec n c =
      { transfer ngx mem vec n c with ready := false, pc := .idle }) ∨
    (n = vec.total ∧
      (limit ≤ (prevSend + vec.total : Nat) ∨ (transfer ngx mem vec n c).chain = []) ∧
      afterWritev ngx mem limit prevSend vec n c =
        { transfer ngx mem vec n c with pc := .idle }) ∨
    (n = vec.total ∧ (prevSend + vec.total : Nat) < limit ∧
      (transfer ngx mem vec n c).chain ≠ [] ∧
      afterWritev ngx mem limit prevSend vec n c =
        { transfer ngx mem vec n c with pc := .toIovec limit (prevSend + vec.total) }) := by
  have hdiff : prevSend + vec.total - prevSend = vec.total := Nat.add_sub_cancel_left _ _
  unfold afterWritev
  simp only [hdiff]
  by_cases hall : n = vec.total
  · right
    rw [if_neg (by simp [hall])]
    by_cases hstop : limit ≤ (prevSend + vec.total : Nat) ∨ (transfer ngx mem vec n c).chain = []
    · rw [if_pos hstop]
      exact Or.inl ⟨hall, hstop, rfl⟩
    · rw [if_neg hstop]
      rcases not_or.mp hstop with ⟨hlimit, hchain⟩
      exact Or.inr ⟨hall, Int.not_le.mp hlimit, hchain, rfl⟩
  · left
    rw [if_pos (fun heq => hall heq.symm)]
    exact ⟨hall, rfl⟩

theorem Front.total_le_length {limit : Int} {send : Nat} {chain : List Buf} {vec : Iovec}
    (h : Front limit send chain vec) : vec.total ≤ (content chain).length := by
  rw [h.total_eq]
  exact h.addrs_prefix.length_le

theorem transfer_content {ngx : Ngx} {mem : Nat -> alpha} {vec : Iovec} {limit : Int}
    {send n : Nat} {c : Conn alpha} (hupdates : UpdatesSent ngx) (h : Accounts mem c)
    (hfront : Front limit send c.chain vec) (hn : n ≤ vec.total) :
    content (transfer ngx mem vec n c).chain = (content c.chain).drop n :=
  hupdates.content_drop c.chain n h.sendable (Nat.le_trans hn hfront.total_le_length)

theorem transfer_accounts {ngx : Ngx} {mem : Nat -> alpha} {vec : Iovec} {limit : Int}
    {send n : Nat} {c : Conn alpha} {ready : Bool} {pc : Pc} (hupdates : UpdatesSent ngx)
    (h : Accounts mem c) (hfront : Front limit send c.chain vec) (hn : n ≤ vec.total)
    (hwritev : forall limit prevSend vec, pc ≠ .writev limit prevSend vec)
    (halert : forall alert, pc ≠ .chainError alert) (hnull : pc ≠ .nullIovec) :
    Accounts mem { transfer ngx mem vec n c with ready := ready, pc := pc } := by
  rcases hfront.addrs_prefix with ⟨behind, hcontent⟩
  have hfits : n ≤ (addrs vec.iovs).length := by
    rw [← hfront.total_eq]
    exact hn
  constructor
  · exact hupdates.sendable c.chain n h.sendable
  · have hdrop : content (ngx.chainUpdateSent c.chain n) = (content c.chain).drop n :=
      transfer_content hupdates h hfront hn
    have htake : (addrs vec.iovs).take n = (content c.chain).take n := by
      rw [← hcontent, List.take_append_of_le_length hfits]
    simp only [transfer]
    rw [hdrop, htake, List.append_assoc, ← List.map_append, List.take_append_drop]
    exact h.conserved
  · simp only [transfer, List.length_append, List.length_map, List.length_take]
    rw [h.sent_eq, Nat.min_eq_left hfits]
  · exact fun limit prevSend vec hpc => absurd hpc (hwritev limit prevSend vec)
  · exact fun _ => halert
  · exact hnull

theorem accounts_step {ngx : Ngx} {mem : Nat -> alpha} {c next : Conn alpha} {e : Event}
    (hnalloc : 0 < ngx.iovsPreallocate) (hupdates : UpdatesSent ngx)
    (h : Accounts mem c) (he : e.Sendable) (hstep : step ngx mem c e = some next) :
    Accounts mem next := by
  rcases step_cases hstep with ⟨bufs, rfl, hpc, rfl⟩ | ⟨_, hpc, rfl⟩ |
    ⟨limit, _, hpc, _, rfl⟩ | ⟨_, _, _, _, rfl⟩ | ⟨limit, send, _, hpc, rfl⟩ |
    ⟨_, _, _, _, _, rfl⟩ | ⟨limit, prevSend, vec, _, hpc, rfl⟩ |
    ⟨limit, prevSend, vec, n, _, hpc, hn, rfl⟩
  · constructor
    · intro b hb
      rcases List.mem_append.mp hb with hold | hnew
      · exact h.sendable b hold
      · exact he b hnew
    · simp only
      rw [content_append, List.map_append, ← List.append_assoc, h.conserved]
    · exact h.sent_eq
    · simp [hpc]
    · simp [hpc]
    · simp [hpc]
  · exact { h with front := by simp [hpc], no_alert := by simp [hpc], no_null := by simp [hpc] }
  · exact { h with front := by simp, no_alert := by simp, no_null := by simp }
  · exact h
  · rcases toIovec_front limit send hnalloc h.sendable with
      ⟨vec, hvec, hfront⟩
    rw [hvec]
    refine { h with front := ?_, no_alert := by simp, no_null := by simp }
    intro limit' prevSend vec' heq
    cases heq
    exact hfront
  · exact h
  · exact { h with front := by simp, no_alert := by simp, no_null := by simp }
  · have hfront := h.front limit prevSend vec hpc
    rcases afterWritev_cases ngx mem limit prevSend vec n c with
      ⟨_, hnext⟩ | ⟨_, _, hnext⟩ | ⟨_, _, _, hnext⟩
    all_goals
      rw [hnext]
      exact transfer_accounts hupdates h hfront hn (by simp) (by simp) (by simp)

theorem accounts_run {ngx : Ngx} {mem : Nat -> alpha} {es : List Event}
    (hnalloc : 0 < ngx.iovsPreallocate) (hupdates : UpdatesSent ngx)
    (hes : forall e, e ∈ es -> e.Sendable) :
    AllStates (step ngx mem) (Accounts mem) start es :=
  allStates_of_allSteps (accounts_step hnalloc hupdates) (accounts_start mem)
    (allSteps_of_forall hes)

/--
Over any number of calls, with any limits and any answers of `writev`, the bytes on
the wire are the first of those that were handed over, and the chain holds the
others; the connection counts what it sent, and fails only when `writev` does.
-/
theorem ngxWritevChain_conserves (ngx : Ngx) (mem : Nat -> alpha) (es : List Event)
    (hnalloc : 0 < ngx.iovsPreallocate) (hupdates : UpdatesSent ngx)
    (hes : forall e, e ∈ es -> e.Sendable) :
    AllStates (step ngx mem)
      (fun c => c.wire ++ (content c.chain).map mem = c.submitted ∧
        c.sent = c.wire.length ∧
        (c.error = false -> forall alert, c.pc ≠ .chainError alert) ∧ c.pc ≠ .nullIovec)
      start es := by
  apply (accounts_run hnalloc hupdates hes).mono
  intro c hc
  exact ⟨hc.conserved, hc.sent_eq, hc.no_alert, hc.no_null⟩

def twoBufsRun : List Event :=
  [.submit [memoryBuf 10 3, memoryBuf 13 2], .call 4, .toIovec, .writev (.done 4),
    .call 0, .toIovec, .writev .eintr, .writev .eagain]

theorem twoBufsRun_sendable : forall e, e ∈ twoBufsRun -> e.Sendable := by
  simp [twoBufsRun, Event.Sendable, memoryBuf_sendable]

theorem ngxWritevChain_conserves_two :
    exists c : Conn Nat, exec (step ngx64 id) start twoBufsRun = some c ∧
      c.wire = [10, 11, 12, 13] ∧ c.wire ++ (content c.chain).map id = c.submitted := by
  have hrun : exists c : Conn Nat, exec (step ngx64 id) start twoBufsRun = some c ∧
      c.wire = [10, 11, 12, 13] :=
    ⟨_, rfl, rfl⟩
  rcases hrun with ⟨c, hrun, hwire⟩
  have hall := ngxWritevChain_conserves ngx64 (id : Nat -> Nat) twoBufsRun (Nat.succ_pos 63)
    updatesSent_ngx64 twoBufsRun_sendable
  exact ⟨c, hrun, hwire, (hall.last hrun).left⟩

/-!
## One call
-/

def Event.inCall : Event -> Bool
  | .toIovec => true
  | .writev _ => true
  | _ => false

/-- Every step of a call but an interrupted `writev`. -/
def Event.counted : Event -> Bool
  | .writev .eintr => false
  | _ => true

/--
Within a call that started with `before` bytes on the wire, the wire is ahead by what
the call has sent; at its return the chain is empty, the limit is reached, or the
socket is not ready and something is left to send.
-/
def InCall (limit : Int) (before : Nat) (c : Conn alpha) : Prop :=
  match c.pc with
  | .toIovec limit' send =>
      limit' = limit ∧ c.ready = true ∧ c.wire.length = before + send ∧ (send : Int) < limit
  | .writev limit' prevSend _ =>
      limit' = limit ∧ c.ready = true ∧ c.wire.length = before + prevSend ∧
        (prevSend : Int) < limit
  | .idle =>
      (c.wire.length : Int) ≤ before + limit ∧
        (c.ready = true -> c.chain = [] ∨ (c.wire.length : Int) = before + limit) ∧
        (c.ready = false -> c.chain ≠ [])
  | _ => True

theorem toSize_of_inRange {n : Int} (hnonneg : 0 ≤ n) (hlt : n < 18446744073709551616) :
    (toSize n : Int) = n := by
  unfold toSize
  rw [Int.emod_eq_of_lt hnonneg hlt, Int.toNat_of_nonneg hnonneg]

theorem clampLimit_inRange {ngx : Ngx} {limit : Int} (hmax : 0 < ngx.maxLimit)
    (hlimit : 0 ≤ limit) : 0 < clampLimit ngx limit ∧ clampLimit ngx limit ≤ ngx.maxLimit := by
  unfold clampLimit
  split
  · exact ⟨hmax, Int.le_refl _⟩
  · lia

theorem transfer_wire_length (ngx : Ngx) (mem : Nat -> alpha) {vec : Iovec} {limit : Int}
    {send n : Nat} {c : Conn alpha} (hfront : Front limit send c.chain vec)
    (hn : n ≤ vec.total) :
    (transfer ngx mem vec n c).wire.length = c.wire.length + n := by
  have hfits : n ≤ (addrs vec.iovs).length := by
    rw [← hfront.total_eq]
    exact hn
  simp only [transfer, List.length_append, List.length_map, List.length_take]
  rw [Nat.min_eq_left hfits]

theorem transfer_chain_ne_nil {ngx : Ngx} {mem : Nat -> alpha} {vec : Iovec} {limit : Int}
    {send n : Nat} {c : Conn alpha} (hupdates : UpdatesSent ngx) (h : Accounts mem c)
    (hfront : Front limit send c.chain vec) (hn : n < vec.total) :
    (transfer ngx mem vec n c).chain ≠ [] := by
  intro hnil
  have hdrop := transfer_content hupdates h hfront (Nat.le_of_lt hn)
  have hle := hfront.total_le_length
  rw [hnil, content_nil] at hdrop
  have hlength := List.drop_eq_nil_iff.mp hdrop.symm
  lia

theorem inCall_step {ngx : Ngx} {mem : Nat -> alpha} {c next : Conn alpha} {e : Event}
    {limit : Int} {before : Nat} (hnalloc : 0 < ngx.iovsPreallocate)
    (hupdates : UpdatesSent ngx) (hmax : limit < 18446744073709551616)
    (haccounts : Accounts mem c) (h : InCall limit before c) (he : e.inCall = true)
    (hstep : step ngx mem c e = some next) : InCall limit before next := by
  rcases step_cases hstep with ⟨_, rfl, _⟩ | ⟨rfl, _⟩ | ⟨_, rfl, _⟩ | ⟨_, rfl, _⟩ |
    ⟨limit', send, _, hpc, rfl⟩ | ⟨_, _, _, _, _, rfl⟩ | ⟨limit', prevSend, vec, _, hpc, rfl⟩ |
    ⟨limit', prevSend, vec, n, _, hpc, hn, rfl⟩
  · cases he
  · cases he
  · cases he
  · cases he
  · simp only [InCall, hpc] at h
    rcases toIovec_front limit' send hnalloc haccounts.sendable with
      ⟨vec, hvec, _⟩
    rw [hvec]
    exact h
  · exact h
  · trivial
  · simp only [InCall, hpc] at h
    rcases h with ⟨rfl, hready, hwire, hlt⟩
    have hfront := haccounts.front limit' prevSend vec hpc
    have hwire' := transfer_wire_length ngx mem hfront hn
    have htotal := hfront.total_le
    have hroom := toSize_of_inRange (n := limit' - prevSend) (by lia) (by lia)
    rcases afterWritev_cases ngx mem limit' prevSend vec n c with
      ⟨hshort, hnext⟩ | ⟨hall, hstop, hnext⟩ | ⟨hall, hmore, _, hnext⟩
    · rw [hnext]
      refine ⟨?_, ?_, ?_⟩
      · simp only
        lia
      · intro hcontra
        cases hcontra
      · intro _
        exact transfer_chain_ne_nil hupdates haccounts hfront (by lia)
    · rw [hnext]
      refine ⟨?_, ?_, ?_⟩
      · simp only
        lia
      · intro _
        rcases hstop with hlimit | hempty
        · right
          simp only
          lia
        · exact Or.inl hempty
      · intro hcontra
        rw [show (transfer ngx mem vec n c).ready = c.ready from rfl, hready] at hcontra
        cases hcontra
    · rw [hnext]
      refine ⟨rfl, hready, ?_, hmore⟩
      simp only
      lia

def passesLeft (c : Conn alpha) : Nat :=
  match c.pc with
  | .toIovec _ _ => 2 * (content c.chain).length + 2
  | .writev _ _ _ => 2 * (content c.chain).length + 1
  | _ => 0

/-- A pass that leads to another one has sent something. -/
theorem passesLeft_step {ngx : Ngx} {mem : Nat -> alpha} {c next : Conn alpha} {e : Event}
    {limit : Int} {before : Nat} (hnalloc : 0 < ngx.iovsPreallocate)
    (hupdates : UpdatesSent ngx) (hmax : limit < 18446744073709551616)
    (haccounts : Accounts mem c) (h : InCall limit before c) (he : e.inCall = true)
    (hstep : step ngx mem c e = some next) :
    (e.counted = true -> passesLeft next < passesLeft c) ∧
      (e.counted = false -> passesLeft next ≤ passesLeft c) := by
  rcases step_cases hstep with ⟨_, rfl, _⟩ | ⟨rfl, _⟩ | ⟨_, rfl, _⟩ | ⟨_, rfl, _⟩ |
    ⟨limit', send, rfl, hpc, rfl⟩ | ⟨_, _, _, rfl, _, rfl⟩ |
    ⟨limit', prevSend, vec, rfl, hpc, rfl⟩ | ⟨limit', prevSend, vec, n, hanswer, hpc, hn, rfl⟩
  · cases he
  · cases he
  · cases he
  · cases he
  · rcases toIovec_front limit' send hnalloc haccounts.sendable with
      ⟨vec, hvec, _⟩
    rw [hvec]
    simp [passesLeft, hpc, Event.counted]
  · exact ⟨fun hcontra => absurd hcontra Bool.false_ne_true, fun _ => Nat.le_refl _⟩
  · simp [passesLeft, hpc, Event.counted]
  · have hbefore : passesLeft c = 2 * (content c.chain).length + 1 := by
      simp [passesLeft, hpc]
    have hless : passesLeft (afterWritev ngx mem limit' prevSend vec n c) < passesLeft c := by
      simp only [InCall, hpc] at h
      rcases h with ⟨rfl, _, _, hlt⟩
      have hfront := haccounts.front limit' prevSend vec hpc
      rcases afterWritev_cases ngx mem limit' prevSend vec n c with
        ⟨_, hnext⟩ | ⟨_, _, hnext⟩ | ⟨hall, _, hmore, hnext⟩
      · rw [hnext, hbefore]
        exact Nat.succ_pos _
      · rw [hnext, hbefore]
        exact Nat.succ_pos _
      · have hdrop := transfer_content hupdates haccounts hfront hn
        have hcontent : content c.chain ≠ [] := by
          intro hnil
          apply hmore
          apply hupdates.nothing_left c.chain n haccounts.sendable
          rw [hnil, List.drop_nil] at hdrop
          exact hdrop
        have hroom := toSize_of_inRange (n := limit' - prevSend) (by lia) (by lia)
        have hpos := hfront.progress (by lia) hcontent
        have hle := hfront.total_le_length
        have hlength := congrArg List.length hdrop
        rw [List.length_drop] at hlength
        rw [hnext, hbefore]
        simp only [passesLeft]
        lia
    exact ⟨fun _ => hless, fun _ => Nat.le_of_lt hless⟩

structure Calling (mem : Nat -> alpha) (limit : Int) (before : Nat) (c : Conn alpha) : Prop where
  accounts : Accounts mem c
  inCall : InCall limit before c

theorem calling_step {ngx : Ngx} {mem : Nat -> alpha} {c next : Conn alpha} {e : Event}
    {limit : Int} {before : Nat} (hnalloc : 0 < ngx.iovsPreallocate)
    (hupdates : UpdatesSent ngx) (hmax : limit < 18446744073709551616)
    (h : Calling mem limit before c) (he : e.inCall = true)
    (hstep : step ngx mem c e = some next) : Calling mem limit before next := by
  have hsendable : e.Sendable := by
    cases e with
    | submit bufs => cases he
    | _ => trivial
  constructor
  · exact accounts_step hnalloc hupdates h.accounts hsendable hstep
  · exact inCall_step hnalloc hupdates hmax h.accounts h.inCall he hstep

theorem call_of_ready {ngx : Ngx} {mem : Nat -> alpha} {c next : Conn alpha} {limit : Int}
    (hready : c.ready = true) (hstep : step ngx mem c (.call limit) = some next) :
    next = { c with pc := .toIovec (clampLimit ngx limit) 0 } := by
  rcases step_cases hstep with ⟨_, he, _⟩ | ⟨he, _⟩ | ⟨_, he, _, _, rfl⟩ | ⟨_, _, _, hnot, _⟩ |
    ⟨_, _, he, _⟩ | ⟨_, _, _, he, _⟩ | ⟨_, _, _, he, _⟩ | ⟨_, _, _, _, he, _⟩
  · cases he
  · cases he
  · cases he
    rfl
  · rw [hready] at hnot
    cases hnot
  · cases he
  · cases he
  · cases he
  · rcases he with he | ⟨he, _⟩ <;> cases he

theorem calling_call {mem : Nat -> alpha} {c : Conn alpha} {limit : Int}
    (h : Accounts mem c) (hready : c.ready = true) (hpos : 0 < limit) :
    Calling mem limit c.wire.length { c with pc := .toIovec limit 0 } where
  accounts := { h with front := by simp, no_alert := by simp, no_null := by simp }
  inCall := ⟨rfl, hready, rfl, hpos⟩

/-- A call that has not returned and has not failed can go on, and comes closer to its end. -/
theorem calling_progress {ngx : Ngx} (mem : Nat -> alpha) {c : Conn alpha} {limit : Int}
    {before : Nat} (hnalloc : 0 < ngx.iovsPreallocate) (hupdates : UpdatesSent ngx)
    (hmax : limit < 18446744073709551616)
    (h : Calling mem limit before c ∧ c.error = false) :
    c.pc = .idle ∨
      exists e next, (e.inCall = true ∧ e ≠ .writev .failed) ∧ step ngx mem c e = some next ∧
        (Calling mem limit before next ∧ next.error = false) ∧
        passesLeft next < passesLeft c := by
  rcases h with ⟨hcalling, herror⟩
  have hgoes {e : Event} {next : Conn alpha} (hstep : step ngx mem c e = some next)
      (he : e.inCall = true) (hcounted : e.counted = true) (hfailed : e ≠ .writev .failed)
      (hnext : next.error = false) :
      exists e next, (e.inCall = true ∧ e ≠ .writev .failed) ∧ step ngx mem c e = some next ∧
        (Calling mem limit before next ∧ next.error = false) ∧
        passesLeft next < passesLeft c := by
    have hless := (passesLeft_step hnalloc hupdates hmax hcalling.accounts hcalling.inCall he
      hstep).left hcounted
    have hkept := calling_step hnalloc hupdates hmax hcalling he hstep
    exact ⟨e, next, ⟨he, hfailed⟩, hstep, ⟨hkept, hnext⟩, hless⟩
  cases hpc : c.pc with
  | idle => exact .inl rfl
  | toIovec limit' send =>
      have hstep : step ngx mem c .toIovec =
          some { c with pc := toIovec ngx limit' send c.chain } := by
        simp only [step, hpc]
      exact .inr (hgoes hstep rfl rfl nofun herror)
  | writev limit' prevSend vec =>
      have hstep : step ngx mem c (.writev (.done vec.total)) =
          some (afterWritev ngx mem limit' prevSend vec vec.total c) := by
        simp only [step, hpc]
        rw [if_pos (Nat.le_refl _)]
      refine .inr (hgoes hstep rfl rfl nofun ?_)
      rcases afterWritev_cases ngx mem limit' prevSend vec vec.total c with
        ⟨_, hnext⟩ | ⟨_, _, hnext⟩ | ⟨_, _, _, hnext⟩
      all_goals
        rw [hnext]
        exact herror
  | chainError alert => exact absurd hpc (hcalling.accounts.no_alert herror alert)
  | nullIovec => exact absurd hpc hcalling.accounts.no_null

/--
A call makes at most one pass more than there are bytes to send, interrupted calls of
`writev` apart, and from every point of it that no failure has led to it can come to its
return.  It sends no more than the limit; when it returns with the socket still ready,
the chain is empty or the limit is used up, and when it returns with the socket not
ready, something is left to send.
-/
theorem ngxWritevChain_returns (ngx : Ngx) (mem : Nat -> alpha) (es calls : List Event)
    (limit : Int) (c t : Conn alpha) (hnalloc : 0 < ngx.iovsPreallocate)
    (hmax : 0 < ngx.maxLimit) (hsize : ngx.maxLimit < 18446744073709551616)
    (hupdates : UpdatesSent ngx) (hes : forall e, e ∈ es -> e.Sendable)
    (hrun : exec (step ngx mem) start es = some c) (hready : c.ready = true)
    (hlimit : 0 ≤ limit) (hcalls : forall e, e ∈ calls -> e.inCall = true)
    (hcall : exec (step ngx mem) c (.call limit :: calls) = some t) :
    calls.countP Event.counted ≤ 2 * ((content c.chain).length + 1) ∧
      (t.pc = .idle ->
        (t.wire.length : Int) ≤ c.wire.length + clampLimit ngx limit ∧
        (t.ready = true -> t.chain = [] ∨
          (t.wire.length : Int) = c.wire.length + clampLimit ngx limit) ∧
        (t.ready = false -> t.chain ≠ [])) ∧
      (t.error = false ->
        exists more u, (forall e, e ∈ more -> e.inCall = true ∧ e ≠ .writev .failed) ∧
          exec (step ngx mem) t more = some u ∧ u.pc = .idle) := by
  have haccounts : Accounts mem c := (accounts_run hnalloc hupdates hes).last hrun
  rcases clampLimit_inRange hmax hlimit with ⟨hpos, hle⟩
  have hfits : clampLimit ngx limit < 18446744073709551616 := Int.lt_of_le_of_lt hle hsize
  rcases exec_cons hcall with ⟨begun, hstep, hrest⟩
  have hbegun := call_of_ready hready hstep
  have hinit : Calling mem (clampLimit ngx limit) c.wire.length begun := by
    rw [hbegun]
    exact calling_call haccounts hready hpos
  have hsteps : AllSteps (step ngx mem) (fun _ e => e.inCall = true) begun calls :=
    allSteps_of_forall hcalls
  have hend : Calling mem (clampLimit ngx limit) c.wire.length t :=
    exec_guarded_invariant (calling_step hnalloc hupdates hfits) hinit hsteps hrest
  refine ⟨?_, ?_, ?_⟩
  · have hcount := exec_countP_le Event.counted passesLeft (calling_step hnalloc hupdates hfits)
      (fun h he hcounted hnext =>
        (passesLeft_step hnalloc hupdates hfits h.accounts h.inCall he hnext).left hcounted)
      (fun h he hcounted hnext =>
        (passesLeft_step hnalloc hupdates hfits h.accounts h.inCall he hnext).right hcounted)
      hinit hcalls hrest
    have hstart : passesLeft begun = 2 * (content c.chain).length + 2 := by
      rw [hbegun]
      rfl
    lia
  · intro hpc
    have hreturned := hend.inCall
    simp only [InCall, hpc] at hreturned
    exact hreturned
  · intro herror
    rcases exists_exec_of_progress passesLeft
        (calling_progress mem hnalloc hupdates hfits) ⟨hend, herror⟩ with
      ⟨more, u, hmore, hexec, _, hidle⟩
    exact ⟨more, u, hmore, hexec, hidle⟩

theorem ngxWritevChain_returns_two :
    exists c t : Conn Nat,
      exec (step ngx64 id) start [.submit [memoryBuf 10 3, memoryBuf 20 2]] = some c ∧
      exec (step ngx64 id) c [.call 4, .toIovec, .writev .eintr, .writev (.done 4)] = some t ∧
      t.ready = true ∧ (t.chain = [] ∨ (t.wire.length : Int) = c.wire.length + 4) := by
  have hrun : exists c t : Conn Nat,
      exec (step ngx64 id) start [.submit [memoryBuf 10 3, memoryBuf 20 2]] = some c ∧
      c.ready = true ∧
      exec (step ngx64 id) c [.call 4, .toIovec, .writev .eintr, .writev (.done 4)] = some t ∧
      t.pc = .idle ∧ t.ready = true :=
    ⟨_, _, rfl, rfl, rfl, rfl, rfl⟩
  rcases hrun with ⟨c, t, hrun, hready, hcall, hpc, hready'⟩
  refine ⟨c, t, hrun, hcall, hready', ?_⟩
  have hreturns := ngxWritevChain_returns ngx64 (id : Nat -> Nat) _ _ 4 c t (Nat.succ_pos 63)
    (by decide) (by decide) updatesSent_ngx64 (by simp [Event.Sendable, memoryBuf_sendable])
    hrun hready (by decide) (by simp [Event.inCall]) hcall
  exact (hreturns.right.left hpc).right.left hready'

end ReadvWritev
end VidsContent
