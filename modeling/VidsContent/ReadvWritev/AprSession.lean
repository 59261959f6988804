import Mathlib.Data.List.Chain
import VidsContent.ReadvWritev.AprSendfile

/-!
# All calls on one socket

The functions leave notes for each other in the options of the socket.  The session
of a socket is any run of calls of them, and each call is answered as the system
likes; what the calls returned, and what went over the wire, is kept beside.
-/

namespace VidsContent
namespace ReadvWritev
namespace Apr

open Transition

inductive Call where
  | send (buf : List UInt8)
  | sendv (vec : List (List UInt8))
  | sendfile (file : List UInt8) (hdtr : Option Hdtr) (offset len : Nat)
  | recv (len : Nat)

def Call.payload : Call -> List UInt8
  | .send buf => buf
  | .sendv vec => vec.flatten
  | .sendfile file hdtr offset len => Apr.payload file (hdtr.getD noHdtr) offset len
  | .recv _ => []

/-- What a sending call had to send, and what its caller sees afterwards. -/
structure Report where
  payload : List UInt8
  len : Nat
  status : Status
  incomplete : Bool

structure Session where
  sock : Socket
  /-- What the peer has sent and no call has read. -/
  stream : List UInt8
  received : List UInt8
  wire : List UInt8
  reports : List Report
  writes : List Entry
  reads : List Entry

/-- A call and the answers of the system, of which it leaves none. -/
structure Event where
  call : Call
  answers : List Answer

def Session.add (s : Session) (buf : List UInt8) (sent : Sent) : Session :=
  { s with
    sock := sent.sock
    wire := s.wire ++ sent.bytes
    reports := s.reports ++ [⟨buf, sent.len, sent.status, sent.sock.incompleteWrite⟩]
    writes := s.writes ++ sent.log }

def Session.addReceived (s : Session) (received : Received) : Session :=
  { s with
    sock := received.sock
    stream := received.stream
    received := s.received ++ received.bytes
    reads := s.reads ++ received.log }

def Session.afterSent (s : Session) (buf : List UInt8) (sent : Sent) : Option Session :=
  if sent.answers = [] then some (s.add buf sent) else none

def Session.afterReceived (s : Session) (received : Received) : Option Session :=
  if received.answers = [] then some (s.addReceived received) else none

def session (s : Session) (e : Event) : Option Session :=
  match e.call with
  | .send buf => (aprSocketSend s.sock buf e.answers).bind (s.afterSent buf)
  | .sendv vec => (aprSocketSendv s.sock vec e.answers).bind (s.afterSent vec.flatten)
  | .sendfile file hdtr offset len =>
      match aprSocketSendfile s.sock file hdtr offset len e.answers with
      | some (.returned _ sent) =>
          s.afterSent (payload file (hdtr.getD noHdtr) offset len) sent
      | _ => none
  | .recv len => (aprSocketRecv s.sock len s.stream e.answers).bind s.afterReceived

/-- A socket just opened, behind which `incoming` arrives. -/
def opened (timeout : Int) (incoming : List UInt8) : Session where
  sock :=
    { timeout := timeout
      incompleteWrite := false
      incompleteRead := false
      tcpNopush := false }
  stream := incoming
  received := []
  wire := []
  reports := []
  writes := []
  reads := []

theorem afterSent_eq {s next : Session} {buf : List UInt8} {sent : Sent}
    (h : s.afterSent buf sent = some next) : next = s.add buf sent := by
  unfold Session.afterSent at h
  split at h
  · exact (Option.some.inj h).symm
  · cases h

theorem afterReceived_eq {s next : Session} {received : Received}
    (h : s.afterReceived received = some next) : next = s.addReceived received := by
  unfold Session.afterReceived at h
  split at h
  · exact (Option.some.inj h).symm
  · cases h

theorem session_cases {s next : Session} {e : Event} (h : session s e = some next) :
    (exists sent, Delivers e.call.payload s.sock sent ∧ Complete e.call.payload s.sock sent ∧
      next = s.add e.call.payload sent) ∨
      (exists len received, aprSocketRecv s.sock len s.stream e.answers = some received ∧
        next = s.addReceived received) := by
  rcases e with ⟨call, answers⟩
  cases call with
  | send buf =>
      rcases Option.bind_eq_some_iff.mp h with ⟨sent, hsend, hafter⟩
      exact .inl ⟨sent, aprSocketSend_delivers hsend, aprSocketSend_complete hsend,
        afterSent_eq hafter⟩
  | sendv vec =>
      rcases Option.bind_eq_some_iff.mp h with ⟨sent, hsend, hafter⟩
      exact .inl ⟨sent, aprSocketSendv_delivers hsend, aprSocketSendv_complete hsend,
        afterSent_eq hafter⟩
  | sendfile file hdtr offset len =>
      simp only [session] at h
      split at h
      · rename_i exit sent hsend
        rcases aprSocketSendfile_delivers hsend with ⟨hdelivers, hcomplete⟩
        exact .inl ⟨sent, hdelivers, hcomplete, afterSent_eq h⟩
      · cases h
  | recv len =>
      rcases Option.bind_eq_some_iff.mp h with ⟨received, hrecv, hafter⟩
      exact .inr ⟨len, received, hrecv, afterReceived_eq hafter⟩

/-- What a report promises: a part of the payload, and on a timeout its completion. -/
def Report.Honest (timeout : Int) (report : Report) : Prop :=
  report.len ≤ report.payload.length ∧
    (0 < timeout -> report.status = .success -> report.incomplete = false ->
      report.len = report.payload.length)

structure Accounted (timeout : Int) (incoming : List UInt8) (s : Session) : Prop where
  timeout_eq : s.sock.timeout = timeout
  wire_eq : s.wire = s.reports.flatMap fun report => report.payload.take report.len
  honest : forall report, report ∈ s.reports -> report.Honest timeout
  stream_eq : s.received ++ s.stream = incoming
  writes_paced : 0 < timeout -> exec pace false s.writes = some s.sock.incompleteWrite
  reads_paced : 0 < timeout -> exec pace false s.reads = some s.sock.incompleteRead

theorem accounted_opened (timeout : Int) (incoming : List UInt8) :
    Accounted timeout incoming (opened timeout incoming) where
  timeout_eq := rfl
  wire_eq := rfl
  honest := fun _ hmem => absurd hmem List.not_mem_nil
  stream_eq := rfl
  writes_paced := fun _ => rfl
  reads_paced := fun _ => rfl

theorem accounted_add {timeout : Int} {incoming buf : List UInt8} {s : Session} {sent : Sent}
    (hs : Accounted timeout incoming s) (hdelivers : Delivers buf s.sock sent)
    (hcomplete : Complete buf s.sock sent) : Accounted timeout incoming (s.add buf sent) := by
  have htimeout := hs.timeout_eq
  constructor
  · exact hdelivers.timeout_eq.trans htimeout
  · simp only [Session.add, List.flatMap_append, List.flatMap_singleton]
    rw [hs.wire_eq, hdelivers.bytes_eq]
  · intro report hmem
    rcases List.mem_append.mp hmem with hbefore | hnow
    · exact hs.honest report hbefore
    · rw [List.mem_singleton.mp hnow, ← htimeout]
      exact ⟨hdelivers.len_le, hcomplete⟩
  · exact hs.stream_eq
  · intro hpos
    exact exec_append (hs.writes_paced hpos) (hdelivers.paced (by rwa [htimeout]))
  · intro hpos
    simp only [Session.add]
    rw [hdelivers.reading_eq]
    exact hs.reads_paced hpos

theorem accounted_addReceived {timeout : Int} {incoming : List UInt8} {s : Session} {len : Nat}
    {answers : List Answer} {received : Received} (hs : Accounted timeout incoming s)
    (hrecv : aprSocketRecv s.sock len s.stream answers = some received) :
    Accounted timeout incoming (s.addReceived received) := by
  rcases aprSocketRecv_spec hrecv with ⟨hsplit, _, _, htimeout, hwriting, _, hpaced⟩
  constructor
  · exact htimeout.trans hs.timeout_eq
  · exact hs.wire_eq
  · exact hs.honest
  · simp only [Session.addReceived]
    rw [List.append_assoc, hsplit]
    exact hs.stream_eq
  · intro hpos
    simp only [Session.addReceived]
    rw [hwriting]
    exact hs.writes_paced hpos
  · intro hpos
    exact exec_append (hs.reads_paced hpos) (hpaced (by rwa [hs.timeout_eq]))

theorem accounted_step {timeout : Int} {incoming : List UInt8} {s next : Session} {e : Event}
    (hs : Accounted timeout incoming s) (h : session s e = some next) :
    Accounted timeout incoming next := by
  rcases session_cases h with ⟨sent, hdelivers, hcomplete, rfl⟩ | ⟨len, received, hrecv, rfl⟩
  · exact accounted_add hs hdelivers hcomplete
  · exact accounted_addReceived hs hrecv

theorem accounted_run {timeout : Int} {incoming : List UInt8} {s : Session} {es : List Event}
    (hrun : exec session (opened timeout incoming) es = some s) :
    Accounted timeout incoming s :=
  exec_invariant accounted_step (accounted_opened timeout incoming) hrun

/--
Whatever is called, in whatever order, and whatever the system answers: the wire carries
what the calls reported, each report a part of what the call had to send; a success that
leaves no option set has sent everything; and what was read is what arrived.
-/
theorem session_accounts (timeout : Int) (incoming : List UInt8) (es : List Event)
    (s : Session) (hrun : exec session (opened timeout incoming) es = some s) :
    (s.wire = s.reports.flatMap fun report => report.payload.take report.len) ∧
      (forall report, report ∈ s.reports -> report.Honest timeout) ∧
      s.received ++ s.stream = incoming := by
  have haccounted := accounted_run hrun
  exact ⟨haccounted.wire_eq, haccounted.honest, haccounted.stream_eq⟩

/--
A vector cut short, the rest of it after a wait, a header and a part of a file, and what
the peer has sent.
-/
def smallEvents : List Event :=
  [⟨.sendv [[1], [2, 3]], [.failed eintr, .done 2]⟩,
    ⟨.send [3], [.waited .success, .done 1]⟩,
    ⟨.sendfile [4, 5, 6] (some ⟨[[9]], []⟩) 1 2, [.optSet .success, .done 1, .done 2]⟩,
    ⟨.recv 4, [.failed eagain, .waited .success, .done 2]⟩]

theorem session_accounts_small :
    exists s, exec session (opened 1000000 [7, 8]) smallEvents = some s ∧
      s.wire = [1, 2, 3, 9, 5, 6] ∧
      (s.wire = s.reports.flatMap fun report => report.payload.take report.len) ∧
      (forall report, report ∈ s.reports -> report.Honest 1000000) ∧
      s.received ++ s.stream = [7, 8] := by
  have hrun : exists s, exec session (opened 1000000 [7, 8]) smallEvents = some s ∧
      s.wire = [1, 2, 3, 9, 5, 6] :=
    ⟨_, rfl, rfl⟩
  rcases hrun with ⟨s, hrun, hwire⟩
  exact ⟨s, hrun, hwire, session_accounts 1000000 [7, 8] smallEvents s hrun⟩

/-!
## The pace of a session
-/

def Event.flattened (e : Event) : Event :=
  match e.call with
  | .sendv vec => ⟨.send vec.flatten, e.answers⟩
  | _ => e

theorem session_flattened_step (s : Session) (e : Event) :
    session s e.flattened = session s e := by
  rcases e with ⟨call, answers⟩
  cases call with
  | sendv vec =>
      simp only [session, Event.flattened]
      rw [aprSocketSendv_flatten]
  | send buf => rfl
  | sendfile file hdtr offset len => rfl
  | recv len => rfl

/-- In any run, every vector can be sent as one buffer, and nothing changes. -/
theorem session_flattened (s : Session) (es : List Event) :
    exec session s (es.map Event.flattened) = exec session s es := by
  induction es generalizing s with
  | nil => rfl
  | cons e es ih =>
      simp only [List.map_cons, exec, session_flattened_step, ih]

end Apr
end ReadvWritev
end VidsContent
