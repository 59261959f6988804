import VidsContent.Lib.Transition
import VidsContent.Traceroute.Main

/-!
# Which hop answered

`main` takes the datagram it receives for the answer to the probe it just sent.
That is right as long as nothing but this answer can be in the socket when the
program looks, apart from datagrams that it takes for timeouts.
-/

namespace VidsContent
namespace Traceroute

open Transition

/-!
## The condition and the invariant
-/

/--
Every printed source is that of an answer to the probe with the printed `ttl`,
and the loop is left early only at an echo reply to one of the probes.
-/
structure Attributes (source destination : UInt32) (s : State) : Prop where
  received : forall ttl src, Line.received ttl src ∈ s.output ->
    exists d, d ∈ s.answers ∧ d.probe = some (probeOf source destination ttl) ∧
      d.src = src
  stopped : forall d, s.pc = .exited (some d) ->
    (exists probe, probe ∈ s.sent ∧ d.probe = some probe) ∧
      icmpType d.bytes = icmpEchoreply
  notAborted : s.pc ≠ .aborted "0"

/-- `icmp_recv` takes the datagram for a timeout. -/
def Harmless (d : Datagram) : Prop :=
  typeRead d.bytes = icmpDestUnreach

/-- `icmp_recv` takes the datagram for what it is. -/
def WellRead (d : Datagram) : Prop :=
  typeRead d.bytes = icmpTimeExceeded ∨
    (typeRead d.bytes = icmpEchoreply ∧ icmpType d.bytes = icmpEchoreply)

def Awaited (source destination : UInt32) (pc : Pc) (d : Datagram) : Prop :=
  match pc with
  | .recv ttl => d.probe = some (probeOf source destination ttl)
  | _ => False

instance (d : Datagram) : Decidable (Harmless d) :=
  inferInstanceAs (Decidable (_ = _))

instance (d : Datagram) : Decidable (WellRead d) :=
  inferInstanceAs (Decidable (_ ∨ _))

instance (source destination : UInt32) :
    forall (pc : Pc) (d : Datagram), Decidable (Awaited source destination pc d)
  | .send _, _ => isFalse id
  | .recv _, _ => inferInstanceAs (Decidable (_ = _))
  | .exited _, _ => isFalse id
  | .aborted _, _ => isFalse id

/--
What reaches the socket is taken for a timeout, or it is the answer that the
program is waiting for and finds nothing else in the socket.
-/
def InTime (source destination : UInt32) (s : State) (d : Datagram) : Prop :=
  Harmless d ∨
    (Awaited source destination s.pc d ∧ s.socket = [] ∧ WellRead d)

instance (source destination : UInt32) (s : State) (d : Datagram) :
    Decidable (InTime source destination s d) :=
  inferInstanceAs (Decidable (_ ∨ _))

def Punctual (source destination : UInt32) (s : State) : Event -> Prop
  | .deliver i => forall d, d ∈ s.inFlight[i]? -> InTime source destination s d
  | .foreign src bytes =>
      InTime source destination s { src := src, bytes := bytes, probe := none }
  | _ => True

instance (source destination : UInt32) (s : State) :
    forall e, Decidable (Punctual source destination s e)
  | .send _ => isTrue trivial
  | .recv _ => isTrue trivial
  | .answer _ _ _ => isTrue trivial
  | .deliver i => inferInstanceAs
      (Decidable (forall d, d ∈ s.inFlight[i]? -> InTime source destination s d))
  | .lose _ => isTrue trivial
  | .foreign src bytes => inferInstanceAs
      (Decidable (InTime source destination s { src := src, bytes := bytes, probe := none }))

/--
At most the first datagram in the socket is one that the program will print, and
then it is the awaited one.
-/
structure Inv (source destination : UInt32) (s : State) : Prop where
  attributes : Attributes source destination s
  answered : forall d, d ∈ s.answers ->
    exists probe, probe ∈ s.sent ∧ d.probe = some probe
  inFlight : forall d, d ∈ s.inFlight -> d ∈ s.answers ∧ CarriesIcmp d.bytes
  carries : forall d, d ∈ s.socket -> CarriesIcmp d.bytes
  later : forall d, d ∈ s.socket.tail -> Harmless d
  first : forall d, d ∈ s.socket.head? -> Harmless d ∨
    (Awaited source destination s.pc d ∧ d ∈ s.answers ∧ WellRead d)

theorem inv_start (source destination : UInt32) : Inv source destination start where
  attributes :=
    { received := by simp [start]
      stopped := by simp [start]
      notAborted := by simp [start] }
  answered := by simp [start]
  inFlight := by simp [start]
  carries := by simp [start]
  later := by simp [start]
  first := by simp [start]

theorem Attributes.of_subset {source destination : UInt32} {s next : State}
    (h : Attributes source destination s) (houtput : next.output = s.output)
    (hanswers : s.answers ⊆ next.answers) (hpc : next.pc.isRunning = true ∨
      (next.pc = s.pc ∧ s.sent ⊆ next.sent)) :
    Attributes source destination next where
  received := by
    intro ttl src hline
    rw [houtput] at hline
    rcases h.received ttl src hline with ⟨d, hd, hprobe, hsrc⟩
    exact ⟨d, hanswers hd, hprobe, hsrc⟩
  stopped := by
    intro d hstop
    rcases hpc with hrunning | ⟨hsame, hsent⟩
    · rw [hstop] at hrunning
      cases hrunning
    · rw [hsame] at hstop
      rcases h.stopped d hstop with ⟨⟨probe, hprobe, hd⟩, htype⟩
      exact ⟨⟨probe, hsent hprobe, hd⟩, htype⟩
  notAborted := by
    intro habort
    rcases hpc with hrunning | ⟨hsame, _⟩
    · rw [habort] at hrunning
      cases hrunning
    · rw [hsame] at habort
      exact h.notAborted habort

/-!
## The network
-/

theorem inv_answer {source destination : UInt32} {s : State} {probe : PingPacket}
    {datagram : Datagram} (hinv : Inv source destination s) (hsent : probe ∈ s.sent)
    (hprobe : datagram.probe = some probe) (hcarries : CarriesIcmp datagram.bytes) :
    Inv source destination
      { s with
        answers := s.answers ++ [datagram]
        inFlight := s.inFlight ++ [datagram] } where
  attributes := hinv.attributes.of_subset rfl (List.subset_append_left _ _)
    (Or.inr ⟨rfl, List.Subset.refl _⟩)
  answered := by
    intro d hd
    rcases List.mem_append.mp hd with hold | hnew
    · exact hinv.answered d hold
    · rw [List.mem_singleton.mp hnew]
      exact ⟨probe, hsent, hprobe⟩
  inFlight := by
    intro d hd
    rcases List.mem_append.mp hd with hold | hnew
    · exact ⟨List.mem_append_left _ (hinv.inFlight d hold).left, (hinv.inFlight d hold).right⟩
    · rw [List.mem_singleton.mp hnew]
      exact ⟨List.mem_append_right _ List.mem_cons_self, hcarries⟩
  carries := hinv.carries
  later := hinv.later
  first := by
    intro d hd
    rcases hinv.first d hd with hharmless | ⟨hawaited, hanswer, hread⟩
    · exact Or.inl hharmless
    · exact Or.inr ⟨hawaited, List.mem_append_left _ hanswer, hread⟩

theorem inv_lose {source destination : UInt32} {s : State} (i : Nat)
    (hinv : Inv source destination s) :
    Inv source destination { s with inFlight := s.inFlight.eraseIdx i } where
  attributes := hinv.attributes.of_subset rfl (List.Subset.refl _)
    (Or.inr ⟨rfl, List.Subset.refl _⟩)
  answered := hinv.answered
  inFlight := fun d hd => hinv.inFlight d (List.mem_of_mem_eraseIdx hd)
  carries := hinv.carries
  later := hinv.later
  first := hinv.first

theorem inv_arrive {source destination : UInt32} {s : State} {datagram : Datagram}
    (hinv : Inv source destination s) (hcarries : CarriesIcmp datagram.bytes)
    (hintime : InTime source destination s datagram)
    (hanswer : Awaited source destination s.pc datagram -> datagram ∈ s.answers) :
    Inv source destination { s with socket := s.socket ++ [datagram] } where
  attributes := hinv.attributes.of_subset rfl (List.Subset.refl _)
    (Or.inr ⟨rfl, List.Subset.refl _⟩)
  answered := hinv.answered
  inFlight := hinv.inFlight
  carries := by
    intro d hd
    rcases List.mem_append.mp hd with hold | hnew
    · exact hinv.carries d hold
    · rw [List.mem_singleton.mp hnew]
      exact hcarries
  later := by
    intro d hd
    cases hsocket : s.socket with
    | nil =>
        simp [hsocket] at hd
    | cons first rest =>
        rw [hsocket, List.cons_append, List.tail_cons] at hd
        rcases List.mem_append.mp hd with hold | hnew
        · exact hinv.later d (by rw [hsocket]; exact hold)
        · rw [List.mem_singleton.mp hnew]
          rcases hintime with hharmless | ⟨_, hempty, _⟩
          · exact hharmless
          · rw [hempty] at hsocket
            cases hsocket
  first := by
    intro d hd
    cases hsocket : s.socket with
    | nil =>
        rw [hsocket, List.nil_append, List.head?_cons] at hd
        cases hd
        rcases hintime with hharmless | ⟨hawaited, _, hread⟩
        · exact Or.inl hharmless
        · exact Or.inr ⟨hawaited, hanswer hawaited, hread⟩
    | cons first rest =>
        rw [hsocket, List.cons_append, List.head?_cons] at hd
        exact hinv.first d (by rw [hsocket]; exact hd)

/-!
## The program
-/

/-- Before a probe is sent, no datagram that is in the socket will be printed. -/
theorem Inv.first_harmless {source destination : UInt32} {s : State} {ttl : Nat}
    (hinv : Inv source destination s) (hpc : s.pc = .send ttl) :
    forall d, d ∈ s.socket.head? -> Harmless d := by
  intro d hd
  rcases hinv.first d hd with hharmless | ⟨hawaited, _⟩
  · exact hharmless
  · rw [hpc] at hawaited
    cases hawaited

theorem inv_send {source destination : UInt32} {s : State} {ttl : Nat}
    (hinv : Inv source destination s) (hpc : s.pc = .send ttl) :
    Inv source destination
      { s with
        sent := s.sent ++ [probeOf source destination ttl]
        pc := .recv ttl } where
  attributes := hinv.attributes.of_subset rfl (List.Subset.refl _) (Or.inl rfl)
  answered := by
    intro d hd
    rcases hinv.answered d hd with ⟨probe, hprobe, hd'⟩
    exact ⟨probe, List.mem_append_left _ hprobe, hd'⟩
  inFlight := hinv.inFlight
  carries := hinv.carries
  later := hinv.later
  first := fun d hd => Or.inl (hinv.first_harmless hpc d hd)

theorem inv_send_failed {source destination : UInt32} {s : State} {ttl : Nat}
    (hinv : Inv source destination s) (hpc : s.pc = .send ttl) :
    Inv source destination { s with pc := .aborted "err != -1" } where
  attributes :=
    { received := hinv.attributes.received
      stopped := nofun
      notAborted := by simp }
  answered := hinv.answered
  inFlight := hinv.inFlight
  carries := hinv.carries
  later := hinv.later
  first := fun d hd => Or.inl (hinv.first_harmless hpc d hd)

theorem inv_print {source destination : UInt32} {s : State} {line : Line} {pc : Pc}
    (hinv : Inv source destination s) (hsocket : forall d, d ∈ s.socket -> Harmless d)
    (hline : forall ttl src, line = .received ttl src ->
      exists d, d ∈ s.answers ∧ d.probe = some (probeOf source destination ttl) ∧
        d.src = src)
    (hstop : forall d, pc = .exited (some d) ->
      d ∈ s.answers ∧ icmpType d.bytes = icmpEchoreply)
    (habort : pc ≠ .aborted "0") :
    Inv source destination { s with output := s.output ++ [line], pc := pc } where
  attributes :=
    { received := by
        intro ttl src hmem
        rcases List.mem_append.mp hmem with hold | hnew
        · exact hinv.attributes.received ttl src hold
        · exact hline ttl src (List.mem_singleton.mp hnew).symm
      stopped := by
        intro d hpc
        rcases hstop d hpc with ⟨hanswer, htype⟩
        exact ⟨hinv.answered d hanswer, htype⟩
      notAborted := habort }
  answered := hinv.answered
  inFlight := hinv.inFlight
  carries := hinv.carries
  later := hinv.later
  first := fun d hd => Or.inl (hsocket d (List.mem_of_mem_head? hd))

theorem inv_pop {source destination : UInt32} {s : State} {first : Datagram}
    {rest : List Datagram} (hinv : Inv source destination s)
    (hsocket : s.socket = first :: rest) :
    Inv source destination { s with socket := rest } ∧
      forall d, d ∈ rest -> Harmless d := by
  have hlater : forall d, d ∈ rest -> Harmless d := by
    intro d hd
    exact hinv.later d (by rw [hsocket]; exact hd)
  constructor
  · exact
      { attributes := hinv.attributes.of_subset rfl (List.Subset.refl _)
          (Or.inr ⟨rfl, List.Subset.refl _⟩)
        answered := hinv.answered
        inFlight := hinv.inFlight
        carries := fun d hd =>
          hinv.carries d (by rw [hsocket]; exact List.mem_cons_of_mem first hd)
        later := fun d hd => hlater d (List.mem_of_mem_tail hd)
        first := fun d hd => Or.inl (hlater d (List.mem_of_mem_head? hd)) }
  · exact hlater

theorem nextTtl_ne_exited (ttl : Nat) (d : Datagram) :
    nextTtl ttl ≠ .exited (some d) := by
  unfold nextTtl
  split <;> simp

theorem nextTtl_ne_aborted (ttl : Nat) (assertion : String) :
    nextTtl ttl ≠ .aborted assertion := by
  unfold nextTtl
  split <;> simp

theorem inv_timeout {source destination : UInt32} {s : State} (ttl : Nat)
    (hinv : Inv source destination s)
    (hsocket : forall d, d ∈ s.socket -> Harmless d) :
    Inv source destination
      { s with output := s.output ++ [.timeout ttl], pc := nextTtl ttl } := by
  apply inv_print hinv hsocket
  · nofun
  · intro d hstop
    exact absurd hstop (nextTtl_ne_exited ttl d)
  · exact nextTtl_ne_aborted ttl "0"

theorem afterRecvfrom_harmless {s : State} {d : Datagram} (ttl : Nat)
    (packet : List UInt8) (hcarries : CarriesIcmp d.bytes) (hharmless : Harmless d) :
    afterRecvfrom s ttl packet (some d) =
      { s with output := s.output ++ [.timeout ttl], pc := nextTtl ttl } := by
  have htype : typeRead d.bytes = icmpDestUnreach := hharmless
  simp only [afterRecvfrom, Option.map_some, icmpRecv_of_carriesIcmp hcarries, htype]
  rfl

theorem afterRecvfrom_timeExceeded {s : State} {d : Datagram} (ttl : Nat)
    (packet : List UInt8) (hcarries : CarriesIcmp d.bytes)
    (htype : typeRead d.bytes = icmpTimeExceeded) :
    afterRecvfrom s ttl packet (some d) =
      { s with output := s.output ++ [.received ttl d.src], pc := nextTtl ttl } := by
  simp only [afterRecvfrom, Option.map_some, icmpRecv_of_carriesIcmp hcarries, htype]
  rfl

theorem afterRecvfrom_echoreply {s : State} {d : Datagram} (ttl : Nat)
    (packet : List UInt8) (hcarries : CarriesIcmp d.bytes)
    (htype : typeRead d.bytes = icmpEchoreply) :
    afterRecvfrom s ttl packet (some d) =
      { s with output := s.output ++ [.received ttl d.src], pc := .exited (some d) } := by
  simp only [afterRecvfrom, Option.map_some, icmpRecv_of_carriesIcmp hcarries, htype]
  rfl

theorem inv_awaited {source destination : UInt32} {s : State} {ttl : Nat}
    {d : Datagram} (packet : List UInt8) (hinv : Inv source destination s)
    (hsocket : forall d, d ∈ s.socket -> Harmless d) (hcarries : CarriesIcmp d.bytes)
    (hprobe : d.probe = some (probeOf source destination ttl)) (hanswer : d ∈ s.answers)
    (hread : WellRead d) :
    Inv source destination (afterRecvfrom s ttl packet (some d)) := by
  have hline : forall ttl' src, Line.received ttl d.src = .received ttl' src ->
      exists d', d' ∈ s.answers ∧ d'.probe = some (probeOf source destination ttl') ∧
        d'.src = src := by
    intro ttl' src heq
    cases heq
    exact ⟨d, hanswer, hprobe, rfl⟩
  rcases hread with hexceeded | ⟨hreply, htype⟩
  · rw [afterRecvfrom_timeExceeded ttl packet hcarries hexceeded]
    apply inv_print hinv hsocket hline
    · intro d' hstop
      exact absurd hstop (nextTtl_ne_exited ttl d')
    · exact nextTtl_ne_aborted ttl "0"
  · rw [afterRecvfrom_echoreply ttl packet hcarries hreply]
    apply inv_print hinv hsocket hline
    · intro d' hstop
      cases hstop
      exact ⟨hanswer, htype⟩
    · simp

theorem inv_recv {source destination : UInt32} {s : State} {ttl : Nat}
    (packet : List UInt8) (hinv : Inv source destination s) (hpc : s.pc = .recv ttl) :
    Inv source destination (recv s ttl packet) := by
  unfold recv
  split
  · rename_i hempty
    exact inv_timeout ttl hinv (by rw [hempty]; nofun)
  · rename_i first rest hsocket
    rcases inv_pop hinv hsocket with ⟨hpop, hrest⟩
    have hcarries : CarriesIcmp first.bytes :=
      hinv.carries first (by rw [hsocket]; exact List.mem_cons_self)
    rcases hinv.first first (by rw [hsocket]; rfl) with
      hharmless | ⟨hawaited, hanswer, hread⟩
    · rw [afterRecvfrom_harmless ttl packet hcarries hharmless]
      exact inv_timeout ttl hpop hrest
    · rw [hpc] at hawaited
      exact inv_awaited packet hpop hrest hcarries hawaited hanswer hread

/-!
## Whole runs
-/

theorem inv_deliver {source destination : UInt32} {s : State} {i : Nat}
    {datagram : Datagram} (hinv : Inv source destination s)
    (hget : s.inFlight[i]? = some datagram)
    (hintime : InTime source destination s datagram) :
    Inv source destination
      { s with
        inFlight := s.inFlight.eraseIdx i
        socket := s.socket ++ [datagram] } := by
  rcases hinv.inFlight datagram (List.mem_of_getElem? hget) with ⟨hanswer, hcarries⟩
  exact inv_arrive (inv_lose i hinv) hcarries hintime (fun _ => hanswer)

theorem inv_foreign {source destination : UInt32} {s : State} {src : UInt32}
    {bytes : List UInt8} (hinv : Inv source destination s) (hcarries : CarriesIcmp bytes)
    (hintime : InTime source destination s { src := src, bytes := bytes, probe := none }) :
    Inv source destination
      { s with
        socket := s.socket ++ [{ src := src, bytes := bytes, probe := none }] } := by
  refine inv_arrive hinv hcarries hintime ?_
  intro hawaited
  unfold Awaited at hawaited
  split at hawaited <;> cases hawaited

theorem inv_step {source destination : UInt32} {s next : State} {e : Event}
    (hinv : Inv source destination s) (hpunctual : Punctual source destination s e)
    (hstep : step source destination s e = some next) :
    Inv source destination next := by
  cases e with
  | send err =>
      cases hpc : s.pc with
      | send ttl =>
          simp only [step, hpc] at hstep
          split at hstep <;> cases hstep
          · exact inv_send_failed hinv hpc
          · exact inv_send hinv hpc
      | _ => simp [step, hpc] at hstep
  | recv packet =>
      cases hpc : s.pc with
      | recv ttl =>
          simp only [step, hpc] at hstep
          cases hstep
          exact inv_recv packet hinv hpc
      | _ => simp [step, hpc] at hstep
  | answer probe node bytes =>
      rcases Option.ite_none_right_eq_some.mp hstep with ⟨⟨hsent, _, hcarries⟩, hnext⟩
      cases hnext
      exact inv_answer hinv hsent rfl hcarries
  | deliver i =>
      cases hget : s.inFlight[i]? with
      | none => simp [step, hget] at hstep
      | some datagram =>
          simp only [step, hget] at hstep
          rcases Option.ite_none_right_eq_some.mp hstep with ⟨_, hnext⟩
          cases hnext
          exact inv_deliver hinv hget (hpunctual datagram hget)
  | lose i =>
      rcases Option.ite_none_right_eq_some.mp hstep with ⟨_, hnext⟩
      cases hnext
      exact inv_lose i hinv
  | foreign src bytes =>
      rcases Option.ite_none_right_eq_some.mp hstep with ⟨⟨_, hcarries⟩, hnext⟩
      cases hnext
      exact inv_foreign hinv hcarries hpunctual

/--
In every run in which each datagram that reaches the socket is in time, every
answer is attributed to its own hop in every state.
-/
theorem attributes_of_punctual (source destination : UInt32) (es : List Event)
    (hpunctual : AllSteps (step source destination) (Punctual source destination)
      start es) :
    AllStates (step source destination) (Attributes source destination) start es :=
  (allStates_of_allSteps inv_step (inv_start source destination) hpunctual).mono
    fun _ hinv => hinv.attributes

def answerBytes (type : UInt8) (node : UInt32) (probe : PingPacket) : List UInt8 :=
  let quoted := probe.ip.bytes ++ probe.icmp.bytes
  let ip : Iphdr :=
    { ihl := 5
      version := 4
      tos := 0
      totLen := htons 56
      id := 0
      fragOff := 0
      ttl := 64
      protocol := ipprotoIcmp
      check := 0
      saddr := node
      daddr := probe.ip.saddr }
  let icmp : Icmphdr := { type := type, code := 0, checksum := 0, id := 0, sequence := 0 }
  { ip with check := checksum ip.bytes }.bytes ++
    ({ icmp with checksum := checksum (icmp.bytes ++ quoted) }.bytes ++ quoted)

theorem attributes_of_punctual_three :
    exists es s, exec (step 0x0a01a8c0 0x08080808) start es = some s ∧
      s.output = [.received 1 0x0101a8c0, .timeout 2, .received 3 0x08080808] ∧
      Attributes 0x0a01a8c0 0x08080808 s := by
  have hrun : exists s, exec (step 0x0a01a8c0 0x08080808) start
      [.send 28,
        .answer (probeOf 0x0a01a8c0 0x08080808 1) 0x0101a8c0
          (answerBytes icmpTimeExceeded 0x0101a8c0 (probeOf 0x0a01a8c0 0x08080808 1)),
        .deliver 0, .recv [], .send 28, .recv [], .send 28,
        .answer (probeOf 0x0a01a8c0 0x08080808 3) 0x08080808
          (answerBytes icmpEchoreply 0x08080808 (probeOf 0x0a01a8c0 0x08080808 3)),
        .deliver 0, .recv []] = some s ∧
      s.output = [.received 1 0x0101a8c0, .timeout 2, .received 3 0x08080808] :=
    ⟨_, rfl, by decide⟩
  rcases hrun with ⟨s, hrun, houtput⟩
  exact ⟨_, s, hrun, houtput,
    (attributes_of_punctual 0x0a01a8c0 0x08080808 _ (by decide)).last hrun⟩

/-- The answer to the first probe arrives after its timeout, while the second one waits. -/
theorem late_answer_misattributed :
    ¬ AllStates (step 0x0a01a8c0 0x08080808) (Attributes 0x0a01a8c0 0x08080808) start
      [.send 28,
        .answer (probeOf 0x0a01a8c0 0x08080808 1) 0x0101a8c0
          (answerBytes icmpTimeExceeded 0x0101a8c0 (probeOf 0x0a01a8c0 0x08080808 1)),
        .recv [], .send 28, .deliver 0, .recv []] := by
  intro h
  rcases (h.last rfl).received 2 0x0101a8c0 (by decide) with ⟨d, hd, hprobe, _⟩
  rw [List.mem_singleton.mp hd] at hprobe
  exact absurd hprobe (by decide)

end Traceroute
end VidsContent
