import VidsContent.Lib.Pieces
import VidsContent.Lib.Transition

/-!
# The two servers

`main.c` sends its response with one `writev`, `main_naive.c` with nine calls of
`write`.  Neither looks at what a call has taken.  A short `writev` cuts the
response off; a short `write` leaves a hole in it, unless nothing is sent
behind it.
-/

namespace VidsContent
namespace ReadvWritev
namespace Servers

open Transition Pieces

def body : String := "<html><head></head><body><p>hello there</p></body></html>"

/-- `sprintf(content_length, "Content-Length: %zu\r\n", strlen(body))`. -/
def contentLength : String := "Content-Length: " ++ toString body.length ++ "\r\n"

def response (server : String) : List (List Char) :=
  ["HTTP/1.1 200 OK\r\n".toList, "Content-Type: text/html\r\n".toList,
    "Connection: close\r\n".toList, contentLength.toList, server.toList,
    "Cache-Control: no-cache\r\n".toList, "Vary: Accept-Encoding\r\n".toList, "\r\n".toList,
    body.toList]

def writevText : List (List Char) := response "Server: writev-demo\r\n"

def writeText : List (List Char) := response "Server: write-demo\r\n"

/-- `accepted` says that `accept` gave a descriptor and not `-1`. -/
inductive Pc where
  | accept
  | read (accepted : Bool)
  | write (accepted : Bool) (i : Nat)
  | killed

/-- What each call of a connection has taken, and the places of the response it has sent. -/
structure Client where
  counts : List Nat
  received : List Nat

/-- `clients` are those whose connections are closed. -/
structure State where
  clients : List Client
  current : Client
  pc : Pc

/-- The result of a call, where `none` stands for `-1`.  A write may raise `SIGPIPE`. -/
inductive Event where
  | accept (succeeds : Bool)
  | read (n : Option Nat)
  | write (n : Option Nat)
  | sigpipe

def start : State where
  clients := []
  current := ⟨[], []⟩
  pc := .accept

def writevCalls (text : List (List Char)) : List (List Nat) := [(places 0 text).flatten]

def writeCalls (text : List (List Char)) : List (List Nat) := places 0 text

def afterCall (calls : List (List Nat)) (accepted : Bool) (i : Nat) (s : State) : State :=
  if i < calls.length then
    { s with pc := .write accepted i }
  else
    { clients := s.clients ++ [s.current], current := ⟨[], []⟩, pc := .accept }

def step (calls : List (List Nat)) (s : State) : Event -> Option State
  | .accept succeeds =>
      match s.pc with
      | .accept => some { s with pc := .read succeeds }
      | _ => none
  | .read n =>
      match s.pc with
      | .read accepted =>
          if accepted = false -> n = none then some (afterCall calls accepted 0 s) else none
      | _ => none
  | .write n =>
      match s.pc with
      | .write accepted i =>
          match calls[i]? with
          | none => none
          | some piece =>
              let k := n.getD 0
              if k ≤ piece.length ∧ (accepted = false -> n = none) then
                some (afterCall calls accepted (i + 1)
                  { s with
                    current :=
                      { counts := s.current.counts ++ [k]
                        received := s.current.received ++ piece.take k } })
              else
                none
      | _ => none
  | .sigpipe =>
      match s.pc with
      | .write true _ => some { s with pc := .killed }
      | _ => none

/-!
## What a client gets
-/

def Served (calls : List (List Nat)) (c : Client) : Prop := c.received = sent calls c.counts

structure Inv (calls : List (List Nat)) (s : State) : Prop where
  finished : forall c, c ∈ s.clients -> Served calls c ∧ c.counts.length = calls.length
  current : Served calls s.current
  place : forall accepted i, s.pc = .write accepted i -> s.current.counts.length = i ∧
    i < calls.length
  idle : s.pc = .accept ∨ (exists accepted, s.pc = .read accepted) -> s.current.counts = []

theorem inv_start (calls : List (List Nat)) : Inv calls start where
  finished := fun _ hc => absurd hc List.not_mem_nil
  current := (sent_nil calls).symm
  place := nofun
  idle := fun _ => rfl

theorem inv_afterCall {calls : List (List Nat)} {s : State} {i : Nat} (accepted : Bool)
    (hfinished : forall c, c ∈ s.clients -> Served calls c ∧ c.counts.length = calls.length)
    (hcurrent : Served calls s.current) (hcount : s.current.counts.length = i)
    (hi : i ≤ calls.length) : Inv calls (afterCall calls accepted i s) := by
  unfold afterCall
  by_cases hmore : i < calls.length
  · rw [if_pos hmore]
    constructor
    · exact hfinished
    · exact hcurrent
    · intro _ j hj
      cases hj
      exact ⟨hcount, hmore⟩
    · intro hidle
      rcases hidle with hidle | ⟨_, hidle⟩
      · cases hidle
      · cases hidle
  · rw [if_neg hmore]
    constructor
    · intro c hc
      rcases List.mem_append.mp hc with hin | hnew
      · exact hfinished c hin
      · rw [List.mem_singleton.mp hnew, hcount]
        exact ⟨hcurrent, Nat.le_antisymm hi (Nat.not_lt.mp hmore)⟩
    · exact (sent_nil calls).symm
    · exact nofun
    · exact fun _ => rfl

theorem inv_step {calls : List (List Nat)} {s next : State} {e : Event} (h : Inv calls s)
    (hstep : step calls s e = some next) : Inv calls next := by
  cases e with
  | accept succeeds =>
      cases hpc : s.pc with
      | accept =>
          simp only [step, hpc] at hstep
          cases hstep
          exact ⟨h.finished, h.current, nofun, fun _ => h.idle (.inl hpc)⟩
      | _ => simp [step, hpc] at hstep
  | read n =>
      cases hpc : s.pc with
      | read accepted =>
          simp only [step, hpc] at hstep
          rcases Option.ite_none_right_eq_some.mp hstep with ⟨_, hnext⟩
          cases hnext
          have hidle := h.idle (.inr ⟨accepted, hpc⟩)
          apply inv_afterCall accepted h.finished h.current
          · rw [hidle]
            rfl
          · exact Nat.zero_le _
      | _ => simp [step, hpc] at hstep
  | write n =>
      cases hpc : s.pc with
      | write accepted i =>
          rcases h.place accepted i hpc with ⟨hcount, hi⟩
          have hpiece : exists piece, calls[i]? = some piece :=
            ⟨_, List.getElem?_eq_getElem hi⟩
          rcases hpiece with ⟨piece, hget⟩
          simp only [step, hpc, hget] at hstep
          rcases Option.ite_none_right_eq_some.mp hstep with ⟨_, hnext⟩
          cases hnext
          refine inv_afterCall accepted (fun c hc => h.finished c hc) ?_ ?_ hi
          · have hcurrent : s.current.received = sent calls s.current.counts := h.current
            subst hcount
            simp only [Served, sent_concat hget, hcurrent]
          · simp only [List.length_append, hcount]
            rfl
      | _ => simp [step, hpc] at hstep
  | sigpipe =>
      cases hpc : s.pc with
      | write accepted i =>
          cases accepted with
          | true =>
              simp only [step, hpc] at hstep
              cases hstep
              refine ⟨h.finished, h.current, nofun, ?_⟩
              intro hidle
              rcases hidle with hidle | ⟨_, hidle⟩
              · cases hidle
              · cases hidle
          | false => simp [step, hpc] at hstep
      | _ => simp [step, hpc] at hstep

theorem served_run {calls : List (List Nat)} {s : State} {es : List Event}
    (hrun : exec (step calls) start es = some s) {c : Client} (hc : c ∈ s.clients) :
    c.received = sent calls c.counts ∧ c.counts.length = calls.length :=
  (exec_invariant inv_step (inv_start calls) hrun).finished c hc

theorem writev_part {text : List (List Char)} {s : State} {es : List Event}
    (hrun : exec (step (writevCalls text)) start es = some s) {c : Client}
    (hc : c ∈ s.clients) : c.received <+: List.range' 0 text.flatten.length := by
  rcases served_run hrun hc with ⟨hreceived, hlength⟩
  rw [hreceived, ← flatten_places]
  cases hcounts : c.counts with
  | nil =>
      rw [hcounts] at hlength
      cases hlength
  | cons k ks =>
      have hone : sent (writevCalls text) (k :: ks) = (places 0 text).flatten.take k := by
        simp [writevCalls, sent]
      rw [hone]
      exact List.take_prefix _ _

/-- Nine calls do exactly when nothing is sent behind the first cut. -/
theorem write_part_iff {text : List (List Char)} {s : State} {es : List Event}
    (hrun : exec (step (writeCalls text)) start es = some s) {c : Client}
    (hc : c ∈ s.clients) :
    c.received <+: List.range' 0 text.flatten.length <-> CutOnce (places 0 text) c.counts := by
  rw [(served_run hrun hc).left, ← flatten_places]
  exact part_iff_cutOnce (nodup_places text)

theorem write_whole {text : List (List Char)} {s : State} {es : List Event}
    (hrun : exec (step (writeCalls text)) start es = some s) {c : Client} (hc : c ∈ s.clients)
    (hall : c.counts = text.map List.length) :
    c.received = List.range' 0 text.flatten.length := by
  rw [(served_run hrun hc).left, hall, ← length_places 0, ← flatten_places]
  exact sent_lengths (places 0 text)

theorem writev_whole {text : List (List Char)} {s : State} {es : List Event}
    (hrun : exec (step (writevCalls text)) start es = some s) {c : Client} (hc : c ∈ s.clients)
    (hall : c.counts = [text.flatten.length]) :
    c.received = List.range' 0 text.flatten.length := by
  have hlengths : (writevCalls text).map List.length = [text.flatten.length] := by
    rw [writevCalls, List.map_singleton, flatten_places, List.length_range']
  rw [(served_run hrun hc).left, hall, ← hlengths, sent_lengths, writevCalls,
    List.flatten_singleton, flatten_places]

theorem textAt_whole {text : List Char} {positions : List Nat}
    (hall : positions = List.range' 0 text.length) : textAt text positions = text := by
  rw [hall]
  exact textAt_rest [] text

/--
Whatever the calls take and however many clients there are, the one call of `writev`
leaves no hole in a response; the nine calls of `write` leave none exactly when nothing
is sent behind the first one that was short.  Where the calls take everything both
servers send the whole response.
-/
theorem servers_respond :
    (forall es s, exec (step (writevCalls writevText)) start es = some s ->
      forall c, c ∈ s.clients -> c.counts.length = 1 ∧
        textAt writevText.flatten c.received <+: writevText.flatten ∧
        (c.counts = [writevText.flatten.length] ->
          textAt writevText.flatten c.received = writevText.flatten)) ∧
      forall es s, exec (step (writeCalls writeText)) start es = some s ->
        forall c, c ∈ s.clients -> c.counts.length = 9 ∧
          (c.received <+: List.range' 0 writeText.flatten.length <->
            CutOnce (places 0 writeText) c.counts) ∧
          (c.counts = writeText.map List.length ->
            textAt writeText.flatten c.received = writeText.flatten) := by
  constructor
  · intro es s hrun c hc
    refine ⟨(served_run hrun hc).right, textAt_part (writev_part hrun hc), fun hall => ?_⟩
    exact textAt_whole (writev_whole hrun hc hall)
  · intro es s hrun c hc
    refine ⟨(served_run hrun hc).right, write_part_iff hrun hc, fun hall => ?_⟩
    exact textAt_whole (write_whole hrun hc hall)

def holed : List Event :=
  [.accept true, .read (some 78), .write (some 16), .write (some 25), .write (some 19),
    .write (some 20), .write (some 20), .write (some 25), .write (some 23), .write (some 2),
    .write (some 57)]

theorem servers_respond_holed :
    exists s c, exec (step (writeCalls writeText)) start holed = some s ∧ c ∈ s.clients ∧
      ¬ c.received <+: List.range' 0 writeText.flatten.length := by
  have hrun : (exec (step (writeCalls writeText)) start holed).isSome = true := by decide
  rcases Option.isSome_iff_exists.mp hrun with ⟨s, hs⟩
  have hcounts : (exec (step (writeCalls writeText)) start holed).map
      (fun s => s.clients.map Client.counts) =
      some [[16, 25, 19, 20, 20, 25, 23, 2, 57]] := by
    decide
  rw [hs] at hcounts
  rcases List.map_eq_singleton_iff.mp (Option.some.inj hcounts) with ⟨c, hclients, hc⟩
  have hin : c ∈ s.clients := by
    rw [hclients]
    exact List.mem_singleton_self c
  have hpart := (servers_respond.right holed s hs c hin).right.left
  rw [hc] at hpart
  exact ⟨s, c, hs, hin, fun h => absurd (hpart.mp h) (by decide)⟩

end Servers
end ReadvWritev
end VidsContent
