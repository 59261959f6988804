import VidsContent.ReadvWritev.AprSocket

/-!
# Sending a file between headers and trailers

`apr_socket_sendfile` corks the socket, sends the headers with `apr_socket_sendv`,
the file with `sendfile`, and the trailers with `apr_socket_sendv` again, and returns
as soon as one of them was not sent in full.  It is the variant for an `off_t` of
eight bytes, which asks for at most `INT_MAX` bytes of the file.
-/

namespace VidsContent
namespace ReadvWritev
namespace Apr

open Transition

def intMax : Nat := 2147483647

/-- The most that one call of `sendfile` transfers. -/
def sendfileMax : Nat := 2147479552

structure Hdtr where
  headers : List (List UInt8)
  trailers : List (List UInt8)

def noHdtr : Hdtr where
  headers := []
  trailers := []

/-- The place of the `return` by which `apr_socket_sendfile` ends. -/
inductive Exit where
  | corkFailed
  | headersFailed
  | headersShort
  | waitFailed
  | fileFailed
  | fileShort
  | trailers
  | noTrailers
deriving DecidableEq

inductive Stage where
  | returned (exit : Exit) (sent : Sent)
  | running (sent : Sent)

/-- `apr_socket_opt_set(sock, APR_TCP_NOPUSH, on)`. -/
def setNopush (on : Bool) (sent : Sent) : Option Sent :=
  match sent.answers with
  | .optSet .success :: answers =>
      some
        { sent with
          status := .success
          sock := { sent.sock with tcpNopush := on }
          answers := answers }
  | .optSet rv :: answers => some { sent with status := rv, answers := answers }
  | _ => none

/-- The same where it was corked by this call, and nothing else. -/
def uncork (nopushSet : Bool) (sent : Sent) : Option Sent :=
  if nopushSet then setNopush false sent else some sent

def Sent.add (sent more : Sent) : Sent where
  status := more.status
  len := sent.len + more.len
  sock := more.sock
  bytes := sent.bytes ++ more.bytes
  log := sent.log ++ more.log
  answers := more.answers

def sendHeaders (nopushSet : Bool) (headers : List (List UInt8)) (sent : Sent) : Option Stage :=
  if headers = [] then
    some (.running sent)
  else
    match aprSocketSendv sent.sock headers sent.answers with
    | none => none
    | some more =>
        let sent := sent.add more
        if more.status ≠ .success then
          some (.returned .headersFailed sent)
        else if more.len < headers.flatten.length then
          (uncork nopushSet sent).map (.returned .headersShort)
        else
          some (.running sent)

/-- `sendfile` returns at most what there is behind the offset. -/
def sendFile (nopushSet : Bool) (file : List UInt8) (bytesToSend : Nat) (sent : Sent) :
    Option Stage :=
  match transfer sent.sock.timeout (min bytesToSend (min file.length sendfileMax))
      (.sentFile bytesToSend) sent.sock.incompleteWrite sent.answers with
  | none => none
  | some (outcome, log, rest) =>
      let sent := { sent with
        sock := { sent.sock with incompleteWrite := false }
        log := sent.log ++ log
        answers := rest }
      match outcome with
      | .waitFailed arv => some (.returned .waitFailed { sent with status := arv })
      | .failed errno =>
          (uncork nopushSet sent).map fun sent =>
            .returned .fileFailed { sent with status := .errno errno }
      | .done rv =>
          let sent := { sent with len := sent.len + rv, bytes := sent.bytes ++ file.take rv }
          if rv < bytesToSend then
            (uncork nopushSet sent).map fun sent =>
              if 0 < rv then
                .returned .fileShort
                  { sent with
                    sock := { sent.sock with incompleteWrite := decide (0 < sent.sock.timeout) } }
              else
                .returned .fileShort { sent with status := .eof }
          else
            some (.running sent)

def sendTrailers (nopushSet : Bool) (trailers : List (List UInt8)) (sent : Sent) :
    Option Stage :=
  if trailers = [] then
    some (.returned .noTrailers sent)
  else
    match aprSocketSendv sent.sock trailers sent.answers with
    | none => none
    | some more =>
        (uncork nopushSet (sent.add more)).map fun sent =>
          .returned .trailers { sent with status := more.status }

def andThen (stage : Option Stage) (next : Sent -> Option Stage) : Option Stage :=
  match stage with
  | some (.running sent) => next sent
  | other => other

def sendStages (nopushSet : Bool) (hdtr : Hdtr) (file : List UInt8) (bytesToSend : Nat)
    (sent : Sent) : Option Stage :=
  andThen
    (andThen (sendHeaders nopushSet hdtr.headers sent)
      (sendFile nopushSet file bytesToSend))
    (sendTrailers nopushSet hdtr.trailers)

def aprSocketSendfile (sock : Socket) (file : List UInt8) (hdtr : Option Hdtr)
    (offset len : Nat) (answers : List Answer) : Option Stage :=
  let bytesToSend := if len > intMax then intMax else len
  let sent : Sent := ⟨.success, 0, sock, [], [], answers⟩
  let hdtr := hdtr.getD noHdtr
  if (hdtr.headers ≠ [] ∨ hdtr.trailers ≠ []) ∧ sock.tcpNopush = false then
    match setNopush true sent with
    | none => none
    | some sent =>
        if sent.status ≠ .success then
          some (.returned .corkFailed sent)
        else
          sendStages true hdtr (file.drop offset) bytesToSend sent
  else
    sendStages false hdtr (file.drop offset) bytesToSend sent

/-!
## What is sent, stage by stage
-/

theorem Delivers.mono {payload longer : List UInt8} {sock : Socket} {sent : Sent}
    (h : Delivers payload sock sent) (hlonger : payload <+: longer) :
    Delivers longer sock sent := by
  rcases hlonger with ⟨rest, rfl⟩
  refine { h with bytes_eq := ?_, len_le := ?_ }
  · rw [h.bytes_eq, List.take_append_of_le_length h.len_le]
  · rw [List.length_append]
    exact Nat.le_trans h.len_le (Nat.le_add_right _ _)

theorem Delivers.add {first second : List UInt8} {sock : Socket} {sent more : Sent}
    (h : Delivers first sock sent) (hall : sent.len = first.length)
    (hmore : Delivers second sent.sock more) : Delivers (first ++ second) sock (sent.add more) := by
  constructor
  · simp only [Sent.add]
    rw [h.bytes_eq, hmore.bytes_eq, hall, List.take_length, List.take_length_add_append]
  · have hle := hmore.len_le
    simp only [Sent.add]
    rw [List.length_append, hall]
    lia
  · exact hmore.timeout_eq.trans h.timeout_eq
  · exact hmore.reading_eq.trans h.reading_eq
  · intro htimeout
    have hlater := hmore.paced (by rw [h.timeout_eq]; exact htimeout)
    exact exec_append (h.paced htimeout) hlater

theorem setNopush_spec {on : Bool} {sent after : Sent} (h : setNopush on sent = some after) :
    exists status nopush answers,
      after = { sent with
        status := status
        sock := { sent.sock with tcpNopush := nopush }
        answers := answers } := by
  unfold setNopush at h
  split at h
  · cases h
    exact ⟨_, _, _, rfl⟩
  · cases h
    exact ⟨_, sent.sock.tcpNopush, _, rfl⟩
  · cases h

theorem uncork_spec {nopushSet : Bool} {sent after : Sent}
    (h : uncork nopushSet sent = some after) :
    exists status nopush answers,
      after = { sent with
        status := status
        sock := { sent.sock with tcpNopush := nopush }
        answers := answers } := by
  unfold uncork at h
  split at h
  · exact setNopush_spec h
  · cases h
    exact ⟨sent.status, sent.sock.tcpNopush, sent.answers, rfl⟩

/--
A stage before the last has sent all of `part` if the function goes on; if it has
returned without an error, the next call will wait first.
-/
def StageDelivers (part : List UInt8) (sock : Socket) : Stage -> Prop
  | .returned _ sent =>
      Delivers part sock sent ∧
        (0 < sock.timeout -> sent.status = .success -> sent.sock.incompleteWrite = true)
  | .running sent => Delivers part sock sent ∧ sent.len = part.length

theorem sendHeaders_delivers {nopushSet : Bool} {headers : List (List UInt8)} {sock : Socket}
    {sent : Sent} {stage : Stage} (h : Delivers [] sock sent) (hlen : sent.len = 0)
    (hstage : sendHeaders nopushSet headers sent = some stage) :
    StageDelivers headers.flatten sock stage := by
  unfold sendHeaders at hstage
  split at hstage
  · rename_i hnone
    cases hstage
    rw [hnone]
    exact ⟨h, hlen⟩
  · split at hstage
    · cases hstage
    · rename_i more hmore
      have hadd := h.add hlen (aprSocketSendv_delivers hmore)
      rw [List.nil_append] at hadd
      dsimp only at hstage
      split at hstage
      · rename_i hfailed
        cases hstage
        exact ⟨hadd, fun _ hstatus => absurd hstatus hfailed⟩
      · rename_i hsuccess
        split at hstage
        · rename_i hshort
          rcases Option.map_eq_some_iff.mp hstage with ⟨after, huncork, rfl⟩
          rcases uncork_spec huncork with ⟨status, nopush, answers, rfl⟩
          refine ⟨{ hadd with }, ?_⟩
          intro htimeout _
          rw [← h.timeout_eq] at htimeout
          rcases Bool.eq_false_or_eq_true more.sock.incompleteWrite with hshorter | hcomplete
          · exact hshorter
          · have hall := aprSocketSendv_complete hmore htimeout (Decidable.not_not.mp hsuccess)
              hcomplete
            lia
        · rename_i hfull
          cases hstage
          have hle := (aprSocketSendv_delivers hmore).len_le
          refine ⟨hadd, ?_⟩
          simp only [Sent.add]
          lia

theorem sendTrailers_delivers {nopushSet : Bool} {trailers : List (List UInt8)}
    {part : List UInt8} {sock : Socket} {sent after : Sent} {exit : Exit}
    (h : Delivers part sock sent) (hlen : sent.len = part.length)
    (hstage : sendTrailers nopushSet trailers sent = some (.returned exit after)) :
    Delivers (part ++ trailers.flatten) sock after ∧
      Complete (part ++ trailers.flatten) sock after := by
  unfold sendTrailers at hstage
  split at hstage
  · rename_i hnone
    cases hstage
    rw [hnone, List.flatten_nil, List.append_nil]
    exact ⟨h, fun _ _ _ => hlen⟩
  · split at hstage
    · cases hstage
    · rename_i more hmore
      have hadd := h.add hlen (aprSocketSendv_delivers hmore)
      rcases Option.map_eq_some_iff.mp hstage with ⟨uncorked, huncork, hreturned⟩
      rcases uncork_spec huncork with ⟨status, nopush, answers, rfl⟩
      cases hreturned
      refine ⟨{ hadd with }, ?_⟩
      intro htimeout hstatus hcomplete
      rw [← h.timeout_eq] at htimeout
      have hall := aprSocketSendv_complete hmore htimeout hstatus hcomplete
      simp only [Sent.add]
      rw [hlen, hall, List.length_append]

theorem Delivers.logged {part : List UInt8} {sock : Socket} {sent : Sent} {log : List Entry}
    {short nopush : Bool} {status : Status} {answers : List Answer}
    (h : Delivers part sock sent)
    (hlog : 0 < sock.timeout -> exec pace sent.sock.incompleteWrite log = some short) :
    Delivers part sock
      { sent with
        status := status
        sock := { sent.sock with incompleteWrite := short, tcpNopush := nopush }
        log := sent.log ++ log
        answers := answers } :=
  { h with paced := fun htimeout => exec_append (h.paced htimeout) (hlog htimeout) }

theorem Delivers.sentFile {part file : List UInt8} {want n : Nat} {sock : Socket} {sent : Sent}
    {log : List Entry} {short nopush : Bool} {status : Status} {answers : List Answer}
    (h : Delivers part sock sent) (hlen : sent.len = part.length) (hwant : n ≤ want)
    (hfile : n ≤ file.length)
    (hlog : 0 < sock.timeout -> exec pace sent.sock.incompleteWrite log = some short) :
    Delivers (part ++ file.take want) sock
      { status := status
        len := sent.len + n
        sock := { sent.sock with incompleteWrite := short, tcpNopush := nopush }
        bytes := sent.bytes ++ file.take n
        log := sent.log ++ log
        answers := answers } := by
  refine ⟨?_, ?_, h.timeout_eq, h.reading_eq, ?_⟩
  · simp only
    rw [h.bytes_eq, hlen, List.take_length, List.take_length_add_append, List.take_take,
      Nat.min_eq_left hwant]
  · simp only [List.length_append, List.length_take, hlen]
    lia
  · intro htimeout
    exact exec_append (h.paced htimeout) (hlog htimeout)

theorem sendFile_delivers {nopushSet : Bool} {file part : List UInt8} {bytesToSend : Nat}
    {sock : Socket} {sent : Sent} {stage : Stage} (h : Delivers part sock sent)
    (hlen : sent.len = part.length)
    (hstage : sendFile nopushSet file bytesToSend sent = some stage) :
    StageDelivers (part ++ file.take bytesToSend) sock stage ∧
      (forall after, stage = .running after -> bytesToSend ≤ sendfileMax) := by
  unfold sendFile at hstage
  split at hstage
  · cases hstage
  · rename_i outcome log rest htransfer
    have hloop := transfer_transfers htransfer
    have hpaced := hloop.paced sent.sock.incompleteWrite id
    have hlonger := h.mono (List.prefix_append part (file.take bytesToSend))
    cases outcome with
    | waitFailed arv =>
        cases hstage
        refine ⟨⟨hlonger.logged fun _ => hpaced, ?_⟩, fun _ hcontra => Stage.noConfusion hcontra⟩
        intro _ hstatus
        exact absurd hstatus (hloop.waitFailed_ne rfl)
    | failed errno =>
        rcases Option.map_eq_some_iff.mp hstage with ⟨after, huncork, rfl⟩
        rcases uncork_spec huncork with ⟨status, nopush, answers, rfl⟩
        refine ⟨⟨hlonger.logged fun _ => hpaced, ?_⟩, fun _ hcontra => Stage.noConfusion hcontra⟩
        intro _ hstatus
        cases hstatus
    | done rv =>
        have hle := hloop.done_le rfl
        have hwant : rv ≤ bytesToSend := by lia
        have hfile : rv ≤ file.length := by lia
        dsimp only at hstage
        split at hstage
        · rename_i hshort
          rcases Option.map_eq_some_iff.mp hstage with ⟨after, huncork, rfl⟩
          rcases uncork_spec huncork with ⟨status, nopush, answers, rfl⟩
          split
          · rename_i hpos
            refine ⟨⟨h.sentFile hlen hwant hfile ?_, ?_⟩, fun _ hcontra => Stage.noConfusion hcontra⟩
            · intro htimeout
              rw [hpaced, h.timeout_eq, decide_eq_true htimeout]
              simp [paceAfter, pace, hpos, hshort]
            · intro htimeout _
              rw [← h.timeout_eq] at htimeout
              exact decide_eq_true htimeout
          · rename_i hzero
            refine ⟨⟨h.sentFile hlen hwant hfile ?_, ?_⟩, fun _ hcontra => Stage.noConfusion hcontra⟩
            · intro htimeout
              rw [hpaced]
              simp [paceAfter, pace, hzero]
            · intro _ hstatus
              cases hstatus
        · rename_i hall
          cases hstage
          refine ⟨⟨h.sentFile hlen hwant hfile ?_, ?_⟩, ?_⟩
          · intro htimeout
            rw [hpaced]
            simp [paceAfter, pace, hall]
          · simp only [List.length_append, List.length_take, hlen]
            lia
          · intro _ _
            lia

theorem andThen_cases {stage : Option Stage} {next : Sent -> Option Stage} {result : Stage}
    (h : andThen stage next = some result) :
    (stage = some result ∧ exists exit sent, result = .returned exit sent) ∨
      exists before, stage = some (.running before) ∧ next before = some result := by
  unfold andThen at h
  split at h
  · exact .inr ⟨_, rfl, h⟩
  · rename_i hother
    cases result with
    | returned exit sent => exact .inl ⟨h, exit, sent, rfl⟩
    | running sent => exact absurd h (hother sent)

/-- Behind the cork: the trailers only follow a file that was sent in one call. -/
theorem sendStages_delivers {nopushSet : Bool} {hdtr : Hdtr} {file : List UInt8}
    {bytesToSend : Nat} {sock : Socket} {sent after : Sent} {exit : Exit}
    (h : Delivers [] sock sent) (hlen : sent.len = 0)
    (hstages : sendStages nopushSet hdtr file bytesToSend sent = some (.returned exit after)) :
    StageDelivers (hdtr.headers.flatten ++ file.take bytesToSend) sock (.returned exit after) ∨
      (bytesToSend ≤ sendfileMax ∧
        Delivers (hdtr.headers.flatten ++ file.take bytesToSend ++ hdtr.trailers.flatten) sock
          after ∧
        Complete (hdtr.headers.flatten ++ file.take bytesToSend ++ hdtr.trailers.flatten) sock
          after) := by
  rcases andThen_cases hstages with ⟨hbefore, _⟩ | ⟨sentFile, hbefore, htrailers⟩
  · left
    rcases andThen_cases hbefore with ⟨hheaders, _⟩ | ⟨sentHeaders, hheaders, hfile⟩
    · have hdone := sendHeaders_delivers h hlen hheaders
      exact ⟨hdone.left.mono (List.prefix_append _ _), hdone.right⟩
    · have hdone := sendHeaders_delivers h hlen hheaders
      exact (sendFile_delivers hdone.left hdone.right hfile).left
  · right
    rcases andThen_cases hbefore with ⟨_, exit, sent, hcontra⟩ | ⟨sentHeaders, hheaders, hfile⟩
    · cases hcontra
    · have hdone := sendHeaders_delivers h hlen hheaders
      rcases sendFile_delivers hdone.left hdone.right hfile with ⟨hsent, hbound⟩
      exact ⟨hbound _ rfl, sendTrailers_delivers hsent.left hsent.right htrailers⟩

/-- What a call is to send: the headers, the part of the file and the trailers. -/
def payload (file : List UInt8) (hdtr : Hdtr) (offset len : Nat) : List UInt8 :=
  hdtr.headers.flatten ++ (file.drop offset).take len ++ hdtr.trailers.flatten

theorem delivers_nothing (status : Status) (sock : Socket) (nopush : Bool)
    (answers : List Answer) :
    Delivers [] sock ⟨status, 0, { sock with tcpNopush := nopush }, [], [], answers⟩ :=
  ⟨rfl, Nat.le_refl _, rfl, rfl, fun _ => rfl⟩

theorem sendStages_payload {nopushSet : Bool} {hdtr : Hdtr} {file : List UInt8}
    {offset len : Nat} {sock : Socket} {sent after : Sent} {exit : Exit}
    (h : Delivers [] sock sent) (hlen : sent.len = 0)
    (hstages : sendStages nopushSet hdtr (file.drop offset) (if len > intMax then intMax else len)
      sent = some (.returned exit after)) :
    Delivers (payload file hdtr offset len) sock after ∧
      Complete (payload file hdtr offset len) sock after := by
  rcases sendStages_delivers h hlen hstages with ⟨hpart, hshort⟩ | ⟨hbound, hall, hcomplete⟩
  · constructor
    · refine hpart.mono (List.IsPrefix.trans ?_ (List.prefix_append _ _))
      refine (List.prefix_append_right_inj _).mpr (List.take_prefix_take_left ?_)
      split
      · lia
      · lia
    · intro htimeout hstatus hcomplete
      rw [hshort htimeout hstatus] at hcomplete
      cases hcomplete
  · -- The largest request is more than `sendfile` transfers, so this one was not cut.
    have hlen : ¬ len > intMax := by
      intro hlong
      rw [if_pos hlong] at hbound
      exact absurd hbound (by decide)
    rw [if_neg hlen] at hall hcomplete
    exact ⟨hall, hcomplete⟩

/--
Whatever the system answers, a call puts a prefix of the headers, the part of the file
and the trailers on the wire, as long as it reports; it never writes right after
a transfer that was cut short; and a success that leaves no option set has sent all.
-/
theorem aprSocketSendfile_delivers {sock : Socket} {file : List UInt8} {hdtr : Option Hdtr}
    {offset len : Nat} {answers : List Answer} {exit : Exit} {sent : Sent}
    (h : aprSocketSendfile sock file hdtr offset len answers = some (.returned exit sent)) :
    Delivers (payload file (hdtr.getD noHdtr) offset len) sock sent ∧
      Complete (payload file (hdtr.getD noHdtr) offset len) sock sent := by
  unfold aprSocketSendfile at h
  dsimp only at h
  split at h
  · split at h
    · cases h
    · rename_i corked hcork
      rcases setNopush_spec hcork with ⟨status, nopush, rest, rfl⟩
      split at h
      · rename_i hfailed
        cases h
        refine ⟨(delivers_nothing status sock nopush rest).mono (List.nil_prefix), ?_⟩
        intro _ hstatus
        exact absurd hstatus hfailed
      · exact sendStages_payload (delivers_nothing status sock nopush rest) rfl h
  · exact sendStages_payload (delivers_nothing .success sock sock.tcpNopush answers) rfl h

/-!
## The cork
-/

def Exit.leavesCork : Exit -> Bool
  | .headersFailed | .waitFailed | .noTrailers => true
  | _ => false

theorem Exit.leavesCork_iff {exit : Exit} :
    exit.leavesCork = true <-> exit = .headersFailed ∨ exit = .waitFailed ∨ exit = .noTrailers := by
  cases exit <;> simp [leavesCork]

def OptSets (answers : List Answer) : Prop :=
  forall status, .optSet status ∈ answers -> status = .success

theorem setNopush_corks {on : Bool} {sent after : Sent} (hopt : OptSets sent.answers)
    (h : setNopush on sent = some after) :
    after.status = .success ∧ after.sock.tcpNopush = on ∧ OptSets after.answers := by
  unfold setNopush at h
  split at h
  · rename_i answers hanswers
    cases h
    rw [hanswers] at hopt
    exact ⟨rfl, rfl, fun status hmem => hopt status (List.mem_cons_of_mem _ hmem)⟩
  · rename_i rv answers hfailed hanswers
    rw [hanswers] at hopt
    exact absurd (hopt rv List.mem_cons_self) fun hcontra => hfailed (hcontra ▸ rfl)
  · cases h

theorem uncork_corks {nopushSet : Bool} {sent after : Sent} (hopt : OptSets sent.answers)
    (h : uncork nopushSet sent = some after) :
    after.sock.tcpNopush = (sent.sock.tcpNopush && !nopushSet) := by
  unfold uncork at h
  split at h
  · rename_i hset
    rw [(setNopush_corks hopt h).right.left, hset, Bool.not_true, Bool.and_false]
  · rename_i hset
    cases h
    rw [eq_false_of_ne_true hset, Bool.not_false, Bool.and_true]

/-- The cork behind a stage, where it was set to `nopush` before. -/
def StageCork (nopushSet nopush : Bool) : Stage -> Prop
  | .returned exit sent =>
      sent.sock.tcpNopush = (nopush && !(nopushSet && !exit.leavesCork))
  | .running sent => sent.sock.tcpNopush = nopush ∧ OptSets sent.answers

theorem sendHeaders_cork {nopushSet : Bool} {headers : List (List UInt8)} {sent : Sent}
    {stage : Stage} (hopt : OptSets sent.answers)
    (hstage : sendHeaders nopushSet headers sent = some stage) :
    StageCork nopushSet sent.sock.tcpNopush stage := by
  unfold sendHeaders at hstage
  split at hstage
  · cases hstage
    exact ⟨rfl, hopt⟩
  · split at hstage
    · cases hstage
    · rename_i more hmore
      rcases aprSocketSendv_cork hmore with ⟨hcork, hsubset⟩
      have hrest : OptSets (sent.add more).answers := fun status hmem =>
        hopt status (hsubset hmem)
      dsimp only at hstage
      split at hstage
      · cases hstage
        simp [StageCork, Exit.leavesCork, Sent.add, hcork]
      · split at hstage
        · rcases Option.map_eq_some_iff.mp hstage with ⟨after, huncork, rfl⟩
          have hafter := uncork_corks hrest huncork
          simp [StageCork, Exit.leavesCork, hafter, Sent.add, hcork]
        · cases hstage
          exact ⟨hcork, hrest⟩

theorem sendFile_cork {nopushSet : Bool} {file : List UInt8} {bytesToSend : Nat}
    {sent : Sent} {stage : Stage} (hopt : OptSets sent.answers)
    (hstage : sendFile nopushSet file bytesToSend sent = some stage) :
    StageCork nopushSet sent.sock.tcpNopush stage := by
  unfold sendFile at hstage
  split at hstage
  · cases hstage
  · rename_i outcome log rest htransfer
    have hsubset := (transfer_transfers htransfer).rest_subset
    have hrest : OptSets rest := fun status hmem => hopt status (hsubset hmem)
    cases outcome with
    | waitFailed arv =>
        cases hstage
        simp [StageCork, Exit.leavesCork]
    | failed errno =>
        rcases Option.map_eq_some_iff.mp hstage with ⟨after, huncork, rfl⟩
        have hafter := uncork_corks hrest huncork
        simp [StageCork, Exit.leavesCork, hafter]
    | done rv =>
        dsimp only at hstage
        split at hstage
        · rcases Option.map_eq_some_iff.mp hstage with ⟨after, huncork, rfl⟩
          have hafter := uncork_corks hrest huncork
          split
          · simp [StageCork, Exit.leavesCork, hafter]
          · simp [StageCork, Exit.leavesCork, hafter]
        · cases hstage
          exact ⟨rfl, hrest⟩

theorem sendTrailers_cork {nopushSet : Bool} {trailers : List (List UInt8)} {sent : Sent}
    {stage : Stage} (hopt : OptSets sent.answers)
    (hstage : sendTrailers nopushSet trailers sent = some stage) :
    StageCork nopushSet sent.sock.tcpNopush stage := by
  unfold sendTrailers at hstage
  split at hstage
  · cases hstage
    simp [StageCork, Exit.leavesCork]
  · split at hstage
    · cases hstage
    · rename_i more hmore
      rcases aprSocketSendv_cork hmore with ⟨hcork, hsubset⟩
      have hrest : OptSets (sent.add more).answers := fun status hmem =>
        hopt status (hsubset hmem)
      rcases Option.map_eq_some_iff.mp hstage with ⟨after, huncork, rfl⟩
      have hafter := uncork_corks hrest huncork
      simp [StageCork, Exit.leavesCork, hafter, Sent.add, hcork]

theorem andThen_cork {nopushSet nopush : Bool} {stage : Option Stage}
    {next : Sent -> Option Stage} {result : Stage}
    (hfirst : forall first, stage = some first -> StageCork nopushSet nopush first)
    (hnext : forall sent, OptSets sent.answers -> forall second, next sent = some second ->
      StageCork nopushSet sent.sock.tcpNopush second)
    (h : andThen stage next = some result) : StageCork nopushSet nopush result := by
  rcases andThen_cases h with ⟨hstage, _⟩ | ⟨before, hstage, hresult⟩
  · exact hfirst result hstage
  · rcases hfirst _ hstage with ⟨hcork, hopt⟩
    rw [← hcork]
    exact hnext before hopt result hresult

theorem sendStages_cork {nopushSet : Bool} {hdtr : Hdtr} {file : List UInt8}
    {bytesToSend : Nat} {sent : Sent} {stage : Stage} (hopt : OptSets sent.answers)
    (h : sendStages nopushSet hdtr file bytesToSend sent = some stage) :
    StageCork nopushSet sent.sock.tcpNopush stage := by
  refine andThen_cork (fun first hfirst => ?_) (fun _ hrest _ => sendTrailers_cork hrest) h
  exact andThen_cork (fun _ => sendHeaders_cork hopt) (fun _ hrest _ => sendFile_cork hrest) hfirst

/--
Where every change of the option succeeds, a call leaves the socket corked exactly if it
was corked before, or if this call corked it and ended where the headers or the wait
for the file failed, or without trailers.
-/
theorem aprSocketSendfile_corked_iff {sock : Socket} {file : List UInt8} {hdtr : Option Hdtr}
    {offset len : Nat} {answers : List Answer} {exit : Exit} {sent : Sent}
    (hopt : OptSets answers)
    (h : aprSocketSendfile sock file hdtr offset len answers = some (.returned exit sent)) :
    sent.sock.tcpNopush = true <->
      sock.tcpNopush = true ∨
        (((hdtr.getD noHdtr).headers ≠ [] ∨ (hdtr.getD noHdtr).trailers ≠ []) ∧
          (exit = .headersFailed ∨ exit = .waitFailed ∨ exit = .noTrailers)) := by
  unfold aprSocketSendfile at h
  dsimp only at h
  split at h
  · rename_i hparts
    split at h
    · cases h
    · rename_i corked hcork
      rcases setNopush_corks hopt hcork with ⟨hstatus, hnopush, hrest⟩
      rw [if_neg (not_not_intro hstatus)] at h
      have hafter := sendStages_cork hrest h
      rw [hnopush] at hafter
      rw [hafter, ← Exit.leavesCork_iff]
      simp [hparts]
  · rename_i hparts
    have hafter := sendStages_cork hopt h
    rw [hafter, Bool.false_and, Bool.not_false, Bool.and_true]
    constructor
    · exact .inl
    · rintro (hbefore | ⟨hset, _⟩)
      · exact hbefore
      · exact eq_true_of_ne_false fun hclear => hparts ⟨hset, hclear⟩

def timedSocket : Socket where
  timeout := 1000000
  incompleteWrite := false
  incompleteRead := false
  tcpNopush := false

def smallHdtr : Hdtr where
  headers := [[1], [2]]
  trailers := [[6]]

def resetSent : Sent where
  status := .errno 104
  len := 0
  sock := { timedSocket with tcpNopush := true }
  bytes := []
  log := [.refused 104]
  answers := []

theorem aprSocketSendfile_corked_iff_reset :
    resetSent.sock.tcpNopush = true <->
      timedSocket.tcpNopush = true ∨
        ((smallHdtr.headers ≠ [] ∨ smallHdtr.trailers ≠ []) ∧
          (Exit.headersFailed = .headersFailed ∨ Exit.headersFailed = .waitFailed ∨
            Exit.headersFailed = .noTrailers)) := by
  have hopt : OptSets [.optSet .success, .failed 104] := by
    intro status hmem
    simpa using hmem
  exact aprSocketSendfile_corked_iff hopt
    (show aprSocketSendfile timedSocket [3, 4, 5] (some smallHdtr) 1 2
      [.optSet .success, .failed 104] = some (.returned .headersFailed resetSent) from rfl)

end Apr
end ReadvWritev
end VidsContent
