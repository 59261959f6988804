import VidsContent.Lib.Transition

/-!
# Sending and receiving on a socket with a timeout

`apr_socket_send`, `apr_socket_recv` and `apr_socket_sendv` make one call of the
system until it is not interrupted, and on a socket with a timeout wait whenever the
call would block.  A call that moved less than it was asked for is remembered in
the options of the socket; the next one waits before it tries.
-/

namespace VidsContent
namespace ReadvWritev
namespace Apr

open Transition

def eintr : Nat := 4

/-- `EWOULDBLOCK` is the same number. -/
def eagain : Nat := 11

inductive Status where
  | success
  | eof
  | errno (code : Nat)
deriving DecidableEq

structure Socket where
  timeout : Int
  incompleteWrite : Bool
  incompleteRead : Bool
  tcpNopush : Bool
deriving DecidableEq

/-- What the calls of a function are answered, one after the other. -/
inductive Answer where
  | done (n : Nat)
  | failed (errno : Nat)
  | waited (status : Status)
  | optSet (status : Status)
deriving DecidableEq

/-- The calls that were made: transfers that moved `n` of `want` bytes, and others. -/
inductive Entry where
  | moved (want n : Nat)
  | sentFile (want n : Nat)
  | refused (errno : Nat)
  | waited (status : Status)
deriving DecidableEq

inductive Outcome where
  | waitFailed (arv : Status)
  | failed (errno : Nat)
  | done (n : Nat)

/--
The loop around a transfer of at most `limit` bytes, with the calls it logs and the
answers it leaves.  It starts at `do_select` when it waits first.
-/
def transfer (timeout : Int) (limit : Nat) (entry : Nat -> Entry) :
    Bool -> List Answer -> Option (Outcome × List Entry × List Answer)
  | true, .waited .success :: answers =>
      match transfer timeout limit entry false answers with
      | none => none
      | some (outcome, log, rest) => some (outcome, .waited .success :: log, rest)
  | true, .waited arv :: answers => some (.waitFailed arv, [.waited arv], answers)
  | false, .failed errno :: answers =>
      if errno = eintr then
        match transfer timeout limit entry false answers with
        | none => none
        | some (outcome, log, rest) => some (outcome, .refused errno :: log, rest)
      else if errno = eagain ∧ 0 < timeout then
        match transfer timeout limit entry true answers with
        | none => none
        | some (outcome, log, rest) => some (outcome, .refused errno :: log, rest)
      else
        some (.failed errno, [.refused errno], answers)
  | false, .done n :: answers =>
      if n ≤ limit then some (.done n, [entry n], answers) else none
  | _, _ => none

/-- What a sending function returns, the bytes it put on the wire and the calls it made. -/
structure Sent where
  status : Status
  len : Nat
  sock : Socket
  bytes : List UInt8
  log : List Entry
  answers : List Answer
deriving DecidableEq

def aprSocketSend (sock : Socket) (buf : List UInt8) (answers : List Answer) : Option Sent :=
  match transfer sock.timeout buf.length (.moved buf.length) sock.incompleteWrite answers with
  | none => none
  | some (outcome, log, rest) =>
      let sock := { sock with incompleteWrite := false }
      match outcome with
      | .waitFailed arv => some ⟨arv, 0, sock, [], log, rest⟩
      | .failed errno => some ⟨.errno errno, 0, sock, [], log, rest⟩
      | .done n =>
          let incomplete := decide (0 < sock.timeout ∧ n < buf.length)
          some ⟨.success, n, { sock with incompleteWrite := incomplete }, buf.take n, log, rest⟩

/-- The loop over the vector after a transfer: does some entry miss a part? -/
def missesEntry : Nat -> List (List UInt8) -> Bool
  | _, [] => false
  | rvLen, iov :: vec =>
      if rvLen < iov.length then true else missesEntry (rvLen - iov.length) vec

/-- The entries of the vector are the bytes that they point to. -/
def aprSocketSendv (sock : Socket) (vec : List (List UInt8)) (answers : List Answer) :
    Option Sent :=
  match transfer sock.timeout vec.flatten.length (.moved vec.flatten.length)
      sock.incompleteWrite answers with
  | none => none
  | some (outcome, log, rest) =>
      let sock := { sock with incompleteWrite := false }
      match outcome with
      | .waitFailed arv => some ⟨arv, 0, sock, [], log, rest⟩
      | .failed errno => some ⟨.errno errno, 0, sock, [], log, rest⟩
      | .done n =>
          let incomplete := decide (0 < sock.timeout) && missesEntry n vec
          some ⟨.success, n, { sock with incompleteWrite := incomplete }, vec.flatten.take n,
            log, rest⟩

structure Received where
  status : Status
  len : Nat
  sock : Socket
  bytes : List UInt8
  stream : List UInt8
  log : List Entry
  answers : List Answer
deriving DecidableEq

def aprSocketRecv (sock : Socket) (len : Nat) (stream : List UInt8) (answers : List Answer) :
    Option Received :=
  match transfer sock.timeout (min len stream.length) (.moved len) sock.incompleteRead answers with
  | none => none
  | some (outcome, log, rest) =>
      let sock := { sock with incompleteRead := false }
      match outcome with
      | .waitFailed arv => some ⟨arv, 0, sock, [], stream, log, rest⟩
      | .failed errno => some ⟨.errno errno, 0, sock, [], stream, log, rest⟩
      | .done n =>
          let incomplete := decide (0 < sock.timeout ∧ n < len)
          let status := if n = 0 then .eof else .success
          some ⟨status, n, { sock with incompleteRead := incomplete }, stream.take n,
            stream.drop n, log, rest⟩

/-!
## The loop
-/

inductive Transfers (timeout : Int) (limit : Nat) (entry : Nat -> Entry) :
    Bool -> List Answer -> Outcome -> List Entry -> List Answer -> Prop where
  | ready {answers rest : List Answer} {outcome : Outcome} {log : List Entry} :
      Transfers timeout limit entry false answers outcome log rest ->
      Transfers timeout limit entry true (.waited .success :: answers) outcome
        (.waited .success :: log) rest
  | waitFailed {answers : List Answer} {arv : Status} : arv ≠ .success ->
      Transfers timeout limit entry true (.waited arv :: answers) (.waitFailed arv)
        [.waited arv] answers
  | interrupted {answers rest : List Answer} {outcome : Outcome} {log : List Entry} :
      Transfers timeout limit entry false answers outcome log rest ->
      Transfers timeout limit entry false (.failed eintr :: answers) outcome
        (.refused eintr :: log) rest
  | blocked {answers rest : List Answer} {outcome : Outcome} {log : List Entry} :
      0 < timeout -> Transfers timeout limit entry true answers outcome log rest ->
      Transfers timeout limit entry false (.failed eagain :: answers) outcome
        (.refused eagain :: log) rest
  | failed {answers : List Answer} {errno : Nat} : errno ≠ eintr ->
      (errno = eagain -> timeout ≤ 0) ->
      Transfers timeout limit entry false (.failed errno :: answers) (.failed errno)
        [.refused errno] answers
  | done {answers : List Answer} {n : Nat} : n ≤ limit ->
      Transfers timeout limit entry false (.done n :: answers) (.done n) [entry n] answers

theorem transfer_transfers {timeout : Int} {limit : Nat} {entry : Nat -> Entry}
    {waiting : Bool} {answers rest : List Answer} {outcome : Outcome} {log : List Entry}
    (h : transfer timeout limit entry waiting answers = some (outcome, log, rest)) :
    Transfers timeout limit entry waiting answers outcome log rest := by
  fun_induction transfer timeout limit entry waiting answers generalizing log with
  | case1 => cases h
  | case2 answers outcome log rest hrest ih =>
      cases h
      exact .ready (ih hrest)
  | case3 arv answers hfailed =>
      cases h
      exact .waitFailed hfailed
  | case4 => cases h
  | case5 answers outcome log rest hrest ih =>
      cases h
      exact .interrupted (ih hrest)
  | case6 => cases h
  | case7 errno answers hne hblocked outcome log rest hrest ih =>
      cases h
      rw [hblocked.left]
      exact .blocked hblocked.right (ih hrest)
  | case8 errno answers hne hfailed =>
      cases h
      exact .failed hne fun heq => Int.not_lt.mp fun hpos => hfailed ⟨heq, hpos⟩
  | case9 n answers hle =>
      cases h
      exact .done hle
  | case10 => cases h
  | case11 => cases h

theorem Transfers.done_le {timeout : Int} {limit n : Nat} {entry : Nat -> Entry}
    {waiting : Bool} {answers rest : List Answer} {outcome : Outcome} {log : List Entry}
    (h : Transfers timeout limit entry waiting answers outcome log rest)
    (hdone : outcome = .done n) : n ≤ limit := by
  induction h with
  | ready _ ih => exact ih hdone
  | waitFailed _ => cases hdone
  | interrupted _ ih => exact ih hdone
  | blocked _ _ ih => exact ih hdone
  | failed _ _ => cases hdone
  | done hle =>
      cases hdone
      exact hle

theorem Transfers.waitFailed_ne {timeout : Int} {limit : Nat} {entry : Nat -> Entry}
    {waiting : Bool} {answers rest : List Answer} {outcome : Outcome} {log : List Entry}
    {arv : Status} (h : Transfers timeout limit entry waiting answers outcome log rest)
    (hfailed : outcome = .waitFailed arv) : arv ≠ .success := by
  induction h with
  | ready _ ih => exact ih hfailed
  | waitFailed hne =>
      cases hfailed
      exact hne
  | interrupted _ ih => exact ih hfailed
  | blocked _ _ ih => exact ih hfailed
  | failed _ _ => cases hfailed
  | done _ => cases hfailed

theorem Transfers.rest_subset {timeout : Int} {limit : Nat} {entry : Nat -> Entry}
    {waiting : Bool} {answers rest : List Answer} {outcome : Outcome} {log : List Entry}
    (h : Transfers timeout limit entry waiting answers outcome log rest) : rest ⊆ answers := by
  induction h with
  | ready _ ih => exact List.subset_cons_of_subset _ ih
  | waitFailed _ => exact List.subset_cons_self _ _
  | interrupted _ ih => exact List.subset_cons_of_subset _ ih
  | blocked _ _ ih => exact List.subset_cons_of_subset _ ih
  | failed _ _ => exact List.subset_cons_self _ _
  | done _ => exact List.subset_cons_self _ _

/-!
## The pace of the calls

A monitor of the calls on one side of a socket.  It is in the state `true` after a
transfer that was cut short, and then lets nothing happen before a wait.
-/

def pace : Bool -> Entry -> Option Bool
  | _, .waited _ => some false
  | true, _ => none
  | false, .moved want n => some (decide (n < want))
  | false, .sentFile want n => some (decide (0 < n ∧ n < want))
  | false, .refused _ => some false

def paceAfter (entry : Nat -> Entry) : Outcome -> Option Bool
  | .done n => pace false (entry n)
  | _ => some false

theorem Transfers.paced {timeout : Int} {limit : Nat} {entry : Nat -> Entry}
    {waiting : Bool} {answers rest : List Answer} {outcome : Outcome} {log : List Entry}
    (h : Transfers timeout limit entry waiting answers outcome log rest) (short : Bool)
    (hshort : short = true -> waiting = true) :
    exec pace short log = paceAfter entry outcome := by
  induction h generalizing short with
  | ready _ ih =>
      rw [exec_cons_of_step _ rfl]
      exact ih false fun hcontra => absurd hcontra Bool.false_ne_true
  | waitFailed _ => rfl
  | interrupted _ ih =>
      cases short with
      | true => cases hshort rfl
      | false =>
          rw [exec_cons_of_step _ rfl]
          exact ih false hshort
  | blocked _ _ ih =>
      cases short with
      | true => cases hshort rfl
      | false =>
          rw [exec_cons_of_step _ rfl]
          exact ih false fun _ => rfl
  | failed _ _ =>
      cases short with
      | true => cases hshort rfl
      | false => rfl
  | done _ =>
      cases short with
      | true => cases hshort rfl
      | false =>
          exact exec_singleton false _

/-!
## The functions
-/

/-- What a sending function keeps, with `payload` to send. -/
structure Delivers (payload : List UInt8) (sock : Socket) (sent : Sent) : Prop where
  bytes_eq : sent.bytes = payload.take sent.len
  len_le : sent.len ≤ payload.length
  timeout_eq : sent.sock.timeout = sock.timeout
  reading_eq : sent.sock.incompleteRead = sock.incompleteRead
  paced : 0 < sock.timeout ->
    exec pace sock.incompleteWrite sent.log = some sent.sock.incompleteWrite

/-- On a socket with a timeout, a success that sets no option has sent everything. -/
def Complete (payload : List UInt8) (sock : Socket) (sent : Sent) : Prop :=
  0 < sock.timeout -> sent.status = .success -> sent.sock.incompleteWrite = false ->
    sent.len = payload.length

theorem aprSocketSend_delivers {sock : Socket} {buf : List UInt8} {answers : List Answer}
    {sent : Sent} (h : aprSocketSend sock buf answers = some sent) : Delivers buf sock sent := by
  unfold aprSocketSend at h
  cases htransfer : transfer sock.timeout buf.length (.moved buf.length) sock.incompleteWrite
      answers with
  | none =>
      rw [htransfer] at h
      cases h
  | some result =>
      rcases result with ⟨outcome, log, rest⟩
      rw [htransfer] at h
      have hloop := transfer_transfers htransfer
      have hpaced := hloop.paced sock.incompleteWrite id
      cases outcome with
      | waitFailed arv =>
          cases h
          exact ⟨rfl, Nat.zero_le _, rfl, rfl, fun _ => hpaced⟩
      | failed errno =>
          cases h
          exact ⟨rfl, Nat.zero_le _, rfl, rfl, fun _ => hpaced⟩
      | done n =>
          cases h
          refine ⟨rfl, hloop.done_le rfl, rfl, rfl, ?_⟩
          intro htimeout
          rw [hpaced]
          simp [paceAfter, pace, htimeout]

theorem missesEntry_eq {n : Nat} {vec : List (List UInt8)} (hn : n ≤ vec.flatten.length) :
    missesEntry n vec = decide (n < vec.flatten.length) := by
  induction vec generalizing n with
  | nil => simp [missesEntry]
  | cons iov vec ih =>
      rw [List.flatten_cons, List.length_append] at hn ⊢
      unfold missesEntry
      by_cases hmiss : n < iov.length
      · rw [if_pos hmiss, eq_comm, decide_eq_true_iff]
        lia
      · rw [if_neg hmiss, ih (by lia), decide_eq_decide]
        lia

/--
Whatever the system answers, sending a vector is sending its bytes: the same calls,
the same status and length, the same bytes and the same options of the socket.
-/
theorem aprSocketSendv_flatten (sock : Socket) (vec : List (List UInt8))
    (answers : List Answer) :
    aprSocketSendv sock vec answers = aprSocketSend sock vec.flatten answers := by
  unfold aprSocketSendv aprSocketSend
  cases htransfer : transfer sock.timeout vec.flatten.length (.moved vec.flatten.length)
      sock.incompleteWrite answers with
  | none => rfl
  | some result =>
      rcases result with ⟨outcome, log, rest⟩
      cases outcome with
      | waitFailed arv => rfl
      | failed errno => rfl
      | done n =>
          have hle := (transfer_transfers htransfer).done_le rfl
          simp only [missesEntry_eq hle, Bool.decide_and]

theorem aprSocketSendv_delivers {sock : Socket} {vec : List (List UInt8)}
    {answers : List Answer} {sent : Sent} (h : aprSocketSendv sock vec answers = some sent) :
    Delivers vec.flatten sock sent := by
  rw [aprSocketSendv_flatten] at h
  exact aprSocketSend_delivers h

theorem aprSocketSend_complete {sock : Socket} {buf : List UInt8} {answers : List Answer}
    {sent : Sent} (h : aprSocketSend sock buf answers = some sent) : Complete buf sock sent := by
  intro htimeout hstatus hcomplete
  have hle := (aprSocketSend_delivers h).len_le
  unfold aprSocketSend at h
  split at h
  · cases h
  · rename_i outcome log rest htransfer
    cases outcome with
    | waitFailed arv =>
        cases h
        exact absurd hstatus ((transfer_transfers htransfer).waitFailed_ne rfl)
    | failed errno =>
        cases h
        cases hstatus
    | done n =>
        cases h
        have hnot := of_decide_eq_false hcomplete
        simp only at hle ⊢
        lia

theorem aprSocketSendv_complete {sock : Socket} {vec : List (List UInt8)}
    {answers : List Answer} {sent : Sent} (h : aprSocketSendv sock vec answers = some sent) :
    Complete vec.flatten sock sent := by
  rw [aprSocketSendv_flatten] at h
  exact aprSocketSend_complete h

theorem aprSocketSendv_cork {sock : Socket} {vec : List (List UInt8)}
    {answers : List Answer} {sent : Sent} (h : aprSocketSendv sock vec answers = some sent) :
    sent.sock.tcpNopush = sock.tcpNopush ∧ sent.answers ⊆ answers := by
  unfold aprSocketSendv at h
  split at h
  · cases h
  · rename_i outcome log rest htransfer
    have hrest := (transfer_transfers htransfer).rest_subset
    cases outcome with
    | waitFailed arv =>
        cases h
        exact ⟨rfl, hrest⟩
    | failed errno =>
        cases h
        exact ⟨rfl, hrest⟩
    | done n =>
        cases h
        exact ⟨rfl, hrest⟩

theorem aprSocketRecv_spec {sock : Socket} {len : Nat} {stream : List UInt8}
    {answers : List Answer} {received : Received}
    (h : aprSocketRecv sock len stream answers = some received) :
    received.bytes ++ received.stream = stream ∧ received.bytes.length = received.len ∧
      received.len ≤ len ∧ received.sock.timeout = sock.timeout ∧
      received.sock.incompleteWrite = sock.incompleteWrite ∧
      (received.status = .success -> 0 < received.len) ∧
      (0 < sock.timeout ->
        exec pace sock.incompleteRead received.log = some received.sock.incompleteRead) := by
  unfold aprSocketRecv at h
  cases htransfer : transfer sock.timeout (min len stream.length) (.moved len)
      sock.incompleteRead answers with
  | none =>
      rw [htransfer] at h
      cases h
  | some result =>
      rcases result with ⟨outcome, log, rest⟩
      rw [htransfer] at h
      have hloop := transfer_transfers htransfer
      have hpaced := hloop.paced sock.incompleteRead id
      cases outcome with
      | waitFailed arv =>
          cases h
          refine ⟨rfl, rfl, Nat.zero_le _, rfl, rfl, ?_, fun _ => hpaced⟩
          intro hcontra
          exact absurd hcontra (hloop.waitFailed_ne rfl)
      | failed errno =>
          cases h
          refine ⟨rfl, rfl, Nat.zero_le _, rfl, rfl, ?_, fun _ => hpaced⟩
          intro hcontra
          cases hcontra
      | done n =>
          cases h
          have hle := hloop.done_le rfl
          refine ⟨List.take_append_drop n stream, ?_, ?_, rfl, rfl, ?_, ?_⟩
          · rw [List.length_take]
            lia
          · simp only
            lia
          · simp only
            split
            · intro hcontra
              cases hcontra
            · intro _
              lia
          · intro htimeout
            rw [hpaced]
            simp [paceAfter, pace, htimeout]

end Apr
end ReadvWritev
end VidsContent
