import VidsContent.Lib.Totals
import VidsContent.Lib.Transition

/-!
# Senders that one receiver serves in turn

Each sender puts references on a connection of its own, which holds so many of them,
until it closes it.  The receiver accepts the connections in the order in which they
were made and reads what the references stand for, until a call returns nothing or
fails; then it accepts the next one.
-/

namespace Connections

open Transition

variable {state event ref alpha : Type}

structure Program (state event ref alpha : Type) where
  step : state -> event -> Option state
  sent : state -> List ref
  load : state -> ref -> alpha
  closed : state -> Bool
  /-- The events that are no failures. -/
  fine : event -> Prop

/-- What the receiver has of a connection, and the result that ended it. -/
structure Connection (state alpha : Type) where
  sender : state
  received : List alpha
  last : Option Int

/-- The connection `next` is served, or it is the next one that is accepted. -/
structure World (state alpha : Type) where
  waiting : List state
  connections : List (Connection state alpha)
  next : Nat
  serving : Bool

inductive Event (event : Type) where
  | connect
  | send (i : Nat) (e : event)
  | accept
  | recv (n : Int)

variable (prog : Program state event ref alpha)

def queue (c : Connection state alpha) : List ref :=
  (prog.sent c.sender).drop c.received.length

def take (c : Connection state alpha) (n : Nat) : Connection state alpha :=
  { c with received := c.received ++ ((queue prog c).take n).map (prog.load c.sender) }

def start (senders : List state) : World state alpha where
  waiting := senders
  connections := []
  next := 0
  serving := false

def stepConnect (w : World state alpha) : Option (World state alpha) :=
  match w.waiting with
  | [] => none
  | s :: rest =>
      some
        { w with
          waiting := rest
          connections := w.connections ++ [⟨s, [], none⟩] }

/-- Where the receiver has closed a connection, nothing limits what is lost. -/
def stepSend (capacity : Nat) (w : World state alpha) (i : Nat) (e : event) :
    Option (World state alpha) :=
  match w.connections[i]? with
  | none => none
  | some c =>
      match prog.step c.sender e with
      | none => none
      | some s =>
          if c.last.isSome ∨ (prog.sent s).length ≤ c.received.length + capacity then
            some { w with connections := w.connections.set i { c with sender := s } }
          else
            none

def stepAccept (w : World state alpha) : Option (World state alpha) :=
  if w.serving = false ∧ w.next < w.connections.length then
    some { w with serving := true }
  else
    none

def stepRecv (scratch : Nat) (w : World state alpha) (n : Int) : Option (World state alpha) :=
  if w.serving then
    match w.connections[w.next]? with
    | none => none
    | some c =>
        if 0 < n then
          if n ≤ scratch ∧ n ≤ (queue prog c).length then
            some { w with connections := w.connections.set w.next (take prog c n.toNat) }
          else
            none
        else if n = 0 -> prog.closed c.sender = true ∧ queue prog c = [] then
          some
            { w with
              connections := w.connections.set w.next { c with last := some n }
              next := w.next + 1
              serving := false }
        else
          none
  else
    none

def step (capacity scratch : Nat) (w : World state alpha) :
    Event event -> Option (World state alpha)
  | .connect => stepConnect w
  | .send i e => stepSend prog capacity w i e
  | .accept => stepAccept w
  | .recv n => stepRecv prog scratch w n

variable {prog}

theorem step_cases {capacity scratch : Nat} {w next : World state alpha} {e : Event event}
    (h : step prog capacity scratch w e = some next) :
    (exists s rest, w.waiting = s :: rest ∧
      next =
        { w with
          waiting := rest
          connections := w.connections ++ [⟨s, [], none⟩] }) ∨
    (exists i a c s, e = .send i a ∧ w.connections[i]? = some c ∧
      prog.step c.sender a = some s ∧
      next = { w with connections := w.connections.set i { c with sender := s } }) ∨
    (w.serving = false ∧ w.next < w.connections.length ∧ next = { w with serving := true }) ∨
    (exists n c, w.serving = true ∧ w.connections[w.next]? = some c ∧ 0 < n ∧
      n ≤ (queue prog c).length ∧
      next = { w with connections := w.connections.set w.next (take prog c n) }) ∨
    (exists n c, e = .recv n ∧ w.serving = true ∧ w.connections[w.next]? = some c ∧ n ≤ 0 ∧
      (n = 0 -> prog.closed c.sender = true ∧ queue prog c = []) ∧
      next =
        { w with
          connections := w.connections.set w.next { c with last := some n }
          next := w.next + 1
          serving := false }) := by
  cases e with
  | connect =>
      simp only [step, stepConnect] at h
      split at h
      · cases h
      · rename_i s rest hwaiting
        exact .inl ⟨s, rest, hwaiting, (Option.some.inj h).symm⟩
  | send i a =>
      simp only [step, stepSend] at h
      split at h
      · cases h
      · rename_i c hc
        split at h
        · cases h
        · rename_i s hs
          rcases Option.ite_none_right_eq_some.mp h with ⟨_, hnext⟩
          exact .inr (.inl ⟨i, a, c, s, rfl, hc, hs, (Option.some.inj hnext).symm⟩)
  | accept =>
      rcases Option.ite_none_right_eq_some.mp h with ⟨⟨hfree, hlt⟩, hnext⟩
      exact .inr (.inr (.inl ⟨hfree, hlt, (Option.some.inj hnext).symm⟩))
  | recv n =>
      right; right; right
      rcases Option.ite_none_right_eq_some.mp h with ⟨hserving, h⟩
      split at h
      · cases h
      · rename_i c hc
        split at h
        · rename_i hpos
          rcases Option.ite_none_right_eq_some.mp h with ⟨⟨_, hle⟩, hnext⟩
          exact .inl ⟨n.toNat, c, hserving, hc, by lia, by lia, (Option.some.inj hnext).symm⟩
        · rename_i hpos
          rcases Option.ite_none_right_eq_some.mp h with ⟨hzero, hnext⟩
          exact .inr ⟨n, c, rfl, hserving, hc, by lia, hzero, (Option.some.inj hnext).symm⟩

/-!
## What the receiver gets
-/

/--
What is asked of a sender's program: it only adds to what it has sent, it leaves what
it has sent as it is, it does nothing after it has closed its connection, and it always
has a call that adds at most one reference.
-/
structure Reliable (prog : Program state event ref alpha) (I : state -> Prop)
    (calls : state -> Nat) (size : Nat) : Prop where
  keep : forall {s next : state} {e : event}, I s -> prog.step s e = some next -> I next
  append : forall {s next : state} {e : event}, I s -> prog.step s e = some next ->
    prog.sent s <+: prog.sent next
  stable : forall {s next : state} {e : event}, I s -> prog.step s e = some next ->
    forall r, r ∈ prog.sent s -> prog.load next r = prog.load s r
  stops : forall {s : state} {e : event}, prog.closed s = true -> prog.step s e = none
  less : forall {s next : state} {e : event}, I s -> prog.step s e = some next ->
    calls next < calls s
  bounded : forall {s : state}, I s -> (prog.sent s).length ≤ size
  goes : forall {s : state}, I s -> prog.closed s = false ->
    exists e next, prog.fine e ∧ prog.step s e = some next ∧
      (prog.sent next).length ≤ (prog.sent s).length + 1

structure Brought (prog : Program state event ref alpha) (I : state -> Prop)
    (c : Connection state alpha) : Prop where
  sender : I c.sender
  received : c.received <+: (prog.sent c.sender).map (prog.load c.sender)
  ended : c.last = some 0 -> prog.closed c.sender = true ∧
    c.received = (prog.sent c.sender).map (prog.load c.sender)

structure Inv (prog : Program state event ref alpha) (I : state -> Prop)
    (w : World state alpha) : Prop where
  waiting : forall s, s ∈ w.waiting -> I s
  brought : forall c, c ∈ w.connections -> Brought prog I c
  order : forall {i : Nat} {c : Connection state alpha}, w.connections[i]? = some c ->
    (c.last.isSome = true <-> i < w.next)
  next_le : w.next ≤ w.connections.length
  serving : w.serving = true -> w.next < w.connections.length

variable {I : state -> Prop} {calls : state -> Nat} {size : Nat}

theorem inv_start {senders : List state} (h : forall s, s ∈ senders -> I s) :
    Inv prog I (start senders : World state alpha) where
  waiting := h
  brought := fun c hc => absurd hc List.not_mem_nil
  order := fun hc => by cases hc
  next_le := Nat.le_refl 0
  serving := fun hserving => by cases hserving

theorem brought_fresh {s : state} (h : I s) : Brought prog I (⟨s, [], none⟩) where
  sender := h
  received := List.nil_prefix
  ended := fun hlast => by cases hlast

theorem brought_send (hprog : Reliable prog I calls size) {c : Connection state alpha} {s : state}
    {e : event} (h : Brought prog I c) (hstep : prog.step c.sender e = some s) :
    Brought prog I { c with sender := s } where
  sender := hprog.keep h.sender hstep
  received := by
    have hsame : (prog.sent c.sender).map (prog.load s) =
        (prog.sent c.sender).map (prog.load c.sender) :=
      List.map_congr_left (hprog.stable h.sender hstep)
    have happend := (hprog.append h.sender hstep).map (prog.load s)
    rw [hsame] at happend
    exact h.received.trans happend
  ended := by
    intro hlast
    have hstopped := hprog.stops (e := e) (h.ended hlast).left
    rw [hstep] at hstopped
    cases hstopped

theorem brought_take {c : Connection state alpha} {n : Nat} (h : Brought prog I c)
    (hopen : c.last = none) : Brought prog I (take prog c n) where
  sender := h.sender
  received := by
    have hsplit := List.prefix_iff_eq_take.mp h.received
    have hrest : ((queue prog c).take n).map (prog.load c.sender) <+:
        ((prog.sent c.sender).map (prog.load c.sender)).drop c.received.length := by
      rw [← List.map_drop]
      exact (List.take_prefix n _).map _
    rcases hrest with ⟨tail, htail⟩
    refine ⟨tail, ?_⟩
    simp only [take]
    rw [List.append_assoc, htail]
    nth_rewrite 1 [hsplit]
    exact List.take_append_drop _ _
  ended := by
    intro hlast
    have hnone : (take prog c n).last = none := hopen
    rw [hnone] at hlast
    cases hlast

theorem brought_last {c : Connection state alpha} {n : Int} (h : Brought prog I c)
    (hend : n = 0 -> prog.closed c.sender = true ∧ queue prog c = []) :
    Brought prog I { c with last := some n } where
  sender := h.sender
  received := h.received
  ended := by
    intro hlast
    rcases hend (Option.some.inj hlast) with ⟨hclosed, hempty⟩
    refine ⟨hclosed, h.received.eq_of_length_le ?_⟩
    rw [List.length_map]
    exact List.drop_eq_nil_iff.mp hempty

theorem getElem?_set_cases {cs : List (Connection state alpha)} {i j : Nat}
    {new c : Connection state alpha} (hget : (cs.set i new)[j]? = some c) :
    (j = i ∧ c = new) ∨ (j ≠ i ∧ cs[j]? = some c) := by
  by_cases hj : j = i
  · subst hj
    have hbound : j < cs.length := by
      have hlt := (List.getElem?_eq_some_iff.mp hget).1
      rwa [List.length_set] at hlt
    rw [List.getElem?_set_self hbound] at hget
    exact .inl ⟨rfl, (Option.some.inj hget).symm⟩
  · rw [List.getElem?_set_ne (Ne.symm hj)] at hget
    exact .inr ⟨hj, hget⟩

theorem inv_connect {w : World state alpha} {s : state} {rest : List state}
    (h : Inv prog I w) (hwaiting : w.waiting = s :: rest) :
    Inv prog I
      { w with
        waiting := rest
        connections := w.connections ++ [⟨s, [], none⟩] } := by
  have hall := h.waiting
  rw [hwaiting] at hall
  rcases List.forall_mem_cons.mp hall with ⟨hs, hrest⟩
  constructor
  · exact hrest
  · intro c hc
    rcases List.mem_append.mp hc with hin | hnew
    · exact h.brought c hin
    · rw [List.mem_singleton.mp hnew]
      exact brought_fresh hs
  · intro i c hc
    rcases Nat.lt_or_ge i w.connections.length with hlt | hge
    · rw [List.getElem?_append_left hlt] at hc
      exact h.order hc
    · rw [List.getElem?_append_right hge] at hc
      have hnew := List.mem_of_getElem? hc
      rw [List.mem_singleton.mp hnew]
      have hle := h.next_le
      constructor
      · intro hsome
        cases hsome
      · intro hlt
        lia
  · have hle := h.next_le
    simp only [List.length_append]
    lia
  · intro hserving
    have hlt := h.serving hserving
    simp only [List.length_append]
    lia

theorem inv_set {w : World state alpha} {i : Nat} {old new : Connection state alpha}
    (h : Inv prog I w) (hget : w.connections[i]? = some old) (hnew : Brought prog I new)
    (hlast : new.last = old.last) :
    Inv prog I { w with connections := w.connections.set i new } := by
  constructor
  · exact h.waiting
  · intro c hc
    rcases List.mem_or_eq_of_mem_set hc with hin | rfl
    · exact h.brought c hin
    · exact hnew
  · intro j c hc
    rcases getElem?_set_cases hc with ⟨rfl, rfl⟩ | ⟨_, hc⟩
    · rw [hlast]
      exact h.order hget
    · exact h.order hc
  · simp only [List.length_set]
    exact h.next_le
  · simp only [List.length_set]
    exact h.serving

theorem Inv.last_none {w : World state alpha} {c : Connection state alpha} (h : Inv prog I w)
    (hget : w.connections[w.next]? = some c) : c.last = none := by
  cases hlast : c.last with
  | none => rfl
  | some n =>
      have hlt := (h.order hget).mp (by simp [hlast])
      exact absurd hlt (Nat.lt_irrefl _)

theorem inv_end {w : World state alpha} {c : Connection state alpha} {n : Int}
    (h : Inv prog I w) (hget : w.connections[w.next]? = some c)
    (hend : n = 0 -> prog.closed c.sender = true ∧ queue prog c = []) :
    Inv prog I
      { w with
        connections := w.connections.set w.next { c with last := some n }
        next := w.next + 1
        serving := false } := by
  constructor
  · exact h.waiting
  · intro d hd
    rcases List.mem_or_eq_of_mem_set hd with hin | rfl
    · exact h.brought d hin
    · exact brought_last (h.brought c (List.mem_of_getElem? hget)) hend
  · intro j d hd
    rcases getElem?_set_cases hd with ⟨rfl, rfl⟩ | ⟨hj, hd⟩
    · simp
    · have horder := h.order hd
      simp only
      constructor
      · intro hsome
        exact Nat.lt_succ_of_lt (horder.mp hsome)
      · intro hlt
        exact horder.mpr (by lia)
  · simp only [List.length_set]
    exact (List.getElem?_eq_some_iff.mp hget).1
  · intro hserving
    cases hserving

theorem inv_step (hprog : Reliable prog I calls size) {capacity scratch : Nat}
    {w next : World state alpha} {e : Event event} (h : Inv prog I w)
    (hstep : step prog capacity scratch w e = some next) : Inv prog I next := by
  rcases step_cases hstep with ⟨s, rest, hwaiting, rfl⟩ | ⟨i, a, c, s, _, hc, hs, rfl⟩ |
    ⟨_, hlt, rfl⟩ | ⟨n, c, _, hc, _, _, rfl⟩ | ⟨n, c, _, _, hc, _, hend, rfl⟩
  · exact inv_connect h hwaiting
  · have hbrought := h.brought c (List.mem_of_getElem? hc)
    exact inv_set h hc (brought_send hprog hbrought hs) rfl
  · exact ⟨h.waiting, h.brought, h.order, h.next_le, fun _ => hlt⟩
  · have hbrought := h.brought c (List.mem_of_getElem? hc)
    exact inv_set h hc (brought_take hbrought (h.last_none hc)) rfl
  · exact inv_end h hc hend

theorem inv_run (hprog : Reliable prog I calls size) {capacity scratch : Nat}
    {senders : List state} (hsenders : forall s, s ∈ senders -> I s) {w : World state alpha}
    {es : List (Event event)}
    (hrun : exec (step prog capacity scratch) (start senders) es = some w) : Inv prog I w :=
  exec_invariant (inv_step hprog) (inv_start hsenders) hrun

/-!
## How long it takes
-/

def connectionLeft (calls : state -> Nat) (size : Nat) (c : Connection state alpha) : Nat :=
  calls c.sender + (size - c.received.length) + if c.last.isSome then 0 else 2

def left (calls : state -> Nat) (size : Nat) (w : World state alpha) : Nat :=
  Totals.total (fun s => calls s + size + 3) w.waiting +
    Totals.total (connectionLeft calls size) w.connections + if w.serving then 0 else 1

theorem queue_length (prog : Program state event ref alpha) (c : Connection state alpha) :
    (queue prog c).length = (prog.sent c.sender).length - c.received.length :=
  List.length_drop

theorem left_step (hprog : Reliable prog I calls size) {capacity scratch : Nat}
    {w next : World state alpha} {e : Event event} (h : Inv prog I w)
    (hstep : step prog capacity scratch w e = some next) :
    left calls size next < left calls size w := by
  rcases step_cases hstep with ⟨s, rest, hwaiting, rfl⟩ | ⟨i, a, c, s, _, hc, hs, rfl⟩ |
    ⟨hfree, _, rfl⟩ | ⟨n, c, hserving, hc, hpos, hle, rfl⟩ | ⟨n, c, _, hserving, hc, _, _, rfl⟩
  · have hfresh : connectionLeft calls size (⟨s, [], none⟩ : Connection state alpha) =
        calls s + size + 2 := rfl
    unfold left
    rw [hwaiting, Totals.total_concat, hfresh, Totals.total_cons]
    lia
  · have hset := Totals.total_set (connectionLeft calls size) hc { c with sender := s }
    have hless := hprog.less (h.brought c (List.mem_of_getElem? hc)).sender hs
    simp only [connectionLeft] at hset
    simp only [left]
    lia
  · simp only [left, hfree]
    simp
  · have hset := Totals.total_set (connectionLeft calls size) hc (take prog c n)
    have hbounded := hprog.bounded (h.brought c (List.mem_of_getElem? hc)).sender
    have hlength : (take prog c n).received.length = c.received.length + n := by
      simp only [take, List.length_append, List.length_map, List.length_take]
      rw [Nat.min_eq_left hle]
    have hnow : connectionLeft calls size (take prog c n) =
        calls c.sender + (size - (c.received.length + n)) + if c.last.isSome then 0 else 2 := by
      rw [← hlength]
      rfl
    rw [hnow] at hset
    rw [queue_length] at hle
    simp only [connectionLeft] at hset
    simp only [left]
    lia
  · have hset := Totals.total_set (connectionLeft calls size) hc { c with last := some n }
    have hnone := h.last_none hc
    simp only [connectionLeft, hnone] at hset
    simp at hset
    simp only [left, hserving]
    simp
    lia

/-- The events of any run are bounded by what the senders do and send. -/
theorem run_length_le (hprog : Reliable prog I calls size) {capacity scratch : Nat}
    {senders : List state} (hsenders : forall s, s ∈ senders -> I s) {w : World state alpha}
    {es : List (Event event)}
    (hrun : exec (step prog capacity scratch) (start senders) es = some w) :
    es.length ≤ Totals.total (fun s => calls s + size + 3) senders + 1 := by
  have hlength := exec_length_le (left calls size) (inv_step hprog) (left_step hprog)
    (inv_start hsenders) hrun
  have hstart : left calls size (start senders : World state alpha) =
      Totals.total (fun s => calls s + size + 3) senders + 1 := rfl
  lia

/-!
## Nobody waits for ever
-/

def Event.Fine (prog : Program state event ref alpha) : Event event -> Prop
  | .send _ e => prog.fine e
  | .recv n => 0 ≤ n
  | _ => True

def Served (w : World state alpha) : Prop :=
  w.waiting = [] ∧ w.next = w.connections.length

theorem exists_step (hprog : Reliable prog I calls size) {capacity scratch : Nat}
    (hcapacity : 0 < capacity) (hscratch : 0 < scratch) {w : World state alpha}
    (h : Inv prog I w) :
    Served w ∨ exists e, Event.Fine prog e ∧ (step prog capacity scratch w e).isSome = true := by
  cases hserving : w.serving with
  | true =>
      right
      have hlt := h.serving hserving
      have hget := List.getElem?_eq_getElem hlt
      have hbrought := h.brought _ (List.getElem_mem hlt)
      generalize w.connections[w.next] = c at hget hbrought
      by_cases hempty : queue prog c = []
      · have hall : (prog.sent c.sender).length ≤ c.received.length := List.drop_eq_nil_iff.mp hempty
        cases hclosed : prog.closed c.sender with
        | true =>
            refine ⟨.recv 0, Int.le_refl 0, ?_⟩
            simp only [step, stepRecv, hserving, if_true, hget]
            rw [if_neg (Int.lt_irrefl 0), if_pos fun _ => ⟨hclosed, hempty⟩]
            rfl
        | false =>
            rcases hprog.goes hbrought.sender hclosed with ⟨a, s, hfine, hs, hone⟩
            refine ⟨.send w.next a, hfine, ?_⟩
            simp only [step, stepSend, hget, hs]
            rw [if_pos (.inr (by lia))]
            rfl
      · refine ⟨.recv 1, by simp [Event.Fine], ?_⟩
        have hpos := List.length_pos_iff.mpr hempty
        simp only [step, stepRecv, hserving, if_true, hget]
        rw [if_pos Int.one_pos, if_pos ⟨by lia, by lia⟩]
        rfl
  | false =>
      rcases Nat.lt_or_ge w.next w.connections.length with hlt | hge
      · right
        refine ⟨.accept, trivial, ?_⟩
        simp only [step, stepAccept]
        rw [if_pos ⟨hserving, hlt⟩]
        rfl
      · cases hwaiting : w.waiting with
        | nil => exact .inl ⟨hwaiting, Nat.le_antisymm h.next_le hge⟩
        | cons s rest =>
            right
            refine ⟨.connect, trivial, ?_⟩
            simp only [step, stepConnect, hwaiting]
            rfl

theorem senders_run {J : state -> Prop}
    (hkeep : forall {s next : state} {e : event}, J s -> prog.fine e ->
      prog.step s e = some next -> J next) {capacity scratch : Nat}
    {senders : List state} (hsenders : forall s, s ∈ senders -> J s) {w : World state alpha}
    {es : List (Event event)} (hfine : forall e, e ∈ es -> Event.Fine prog e)
    (hrun : exec (step prog capacity scratch) (start senders) es = some w) :
    forall c, c ∈ w.connections -> J c.sender := by
  have hstart : (forall s, s ∈ senders -> J s) ∧
      forall c, c ∈ (start senders : World state alpha).connections -> J c.sender :=
    ⟨hsenders, fun c hc => absurd hc List.not_mem_nil⟩
  have hstep {v next : World state alpha} {e : Event event}
      (h : (forall s, s ∈ v.waiting -> J s) ∧ forall c, c ∈ v.connections -> J c.sender)
      (he : Event.Fine prog e) (hv : step prog capacity scratch v e = some next) :
      (forall s, s ∈ next.waiting -> J s) ∧ forall c, c ∈ next.connections -> J c.sender := by
    rcases h with ⟨hwaits, hconnected⟩
    have hset {i : Nat} {new : Connection state alpha} (hnew : J new.sender) :
        forall c, c ∈ v.connections.set i new -> J c.sender := by
      intro c hc
      rcases List.mem_or_eq_of_mem_set hc with hin | rfl
      · exact hconnected c hin
      · exact hnew
    rcases step_cases hv with ⟨s, rest, hwaiting, rfl⟩ | ⟨i, a, c, s, rfl, hc, hs, rfl⟩ |
      ⟨_, _, rfl⟩ | ⟨n, c, _, hc, _, _, rfl⟩ | ⟨n, c, _, _, hc, _, _, rfl⟩
    · rw [hwaiting] at hwaits
      rcases List.forall_mem_cons.mp hwaits with ⟨hs, hrest⟩
      refine ⟨hrest, fun c hc => ?_⟩
      rcases List.mem_append.mp hc with hin | hnew
      · exact hconnected c hin
      · rw [List.mem_singleton.mp hnew]
        exact hs
    · exact ⟨hwaits, hset (hkeep (hconnected c (List.mem_of_getElem? hc)) he hs)⟩
    · exact ⟨hwaits, hconnected⟩
    · exact ⟨hwaits, hset (hconnected c (List.mem_of_getElem? hc))⟩
    · exact ⟨hwaits, hset (hconnected c (List.mem_of_getElem? hc))⟩
  have hguarded : AllSteps (step prog capacity scratch) (fun _ e => Event.Fine prog e)
      (start senders) es := allSteps_of_forall hfine
  exact (exec_guarded_invariant hstep hstart hguarded hrun).right

theorem senders_length {capacity scratch : Nat} {senders : List state} {w : World state alpha}
    {es : List (Event event)}
    (hrun : exec (step prog capacity scratch) (start senders) es = some w) :
    w.waiting.length + w.connections.length = senders.length := by
  have hstart : (start senders : World state alpha).waiting.length +
      (start senders : World state alpha).connections.length = senders.length := rfl
  have hkeep {v next : World state alpha} {e : Event event}
      (h : v.waiting.length + v.connections.length = senders.length)
      (hv : step prog capacity scratch v e = some next) :
      next.waiting.length + next.connections.length = senders.length := by
    rcases step_cases hv with ⟨s, rest, hwaiting, rfl⟩ | ⟨i, a, c, s, _, _, _, rfl⟩ |
      ⟨_, _, rfl⟩ | ⟨n, c, _, _, _, _, rfl⟩ | ⟨n, c, _, _, _, _, _, rfl⟩
    · rw [hwaiting, List.length_cons] at h
      simp only [List.length_append, List.length_cons, List.length_nil]
      lia
    · simpa only [List.length_set] using h
    · exact h
    · simpa only [List.length_set] using h
    · simpa only [List.length_set] using h
  exact exec_invariant hkeep hstart hrun

def EndsWell (w : World state alpha) : Prop :=
  forall c, c ∈ w.connections -> forall n, c.last = some n -> n = 0

theorem endsWell_step {capacity scratch : Nat} {w next : World state alpha} {e : Event event}
    (h : EndsWell w) (hfine : Event.Fine prog e)
    (hstep : step prog capacity scratch w e = some next) : EndsWell next := by
  have hset {i : Nat} {new : Connection state alpha}
      (hnew : forall n, new.last = some n -> n = 0) :
      EndsWell { w with connections := w.connections.set i new } := by
    intro c hc
    rcases List.mem_or_eq_of_mem_set hc with hin | rfl
    · exact h c hin
    · exact hnew
  rcases step_cases hstep with ⟨s, rest, _, rfl⟩ | ⟨i, a, c, s, _, hc, _, rfl⟩ |
    ⟨_, _, rfl⟩ | ⟨n, c, _, hc, _, _, rfl⟩ | ⟨n, c, rfl, _, hc, hn, _, rfl⟩
  · intro c hc
    rcases List.mem_append.mp hc with hin | hnew
    · exact h c hin
    · rw [List.mem_singleton.mp hnew]
      exact nofun
  · exact hset (h c (List.mem_of_getElem? hc))
  · exact h
  · exact hset (h c (List.mem_of_getElem? hc))
  · have hzero : n = 0 := Int.le_antisymm hn hfine
    have hnew : EndsWell
        { w with connections := w.connections.set w.next { c with last := some n } } :=
      hset fun m hm => (Option.some.inj hm).symm.trans hzero
    exact hnew

/-- After a run without failures everybody who has been served has been received whole. -/
theorem received_of_served (hprog : Reliable prog I calls size) {capacity scratch : Nat}
    {senders : List state} (hsenders : forall s, s ∈ senders -> I s) {w : World state alpha}
    {es : List (Event event)} (hfine : forall e, e ∈ es -> Event.Fine prog e)
    (hrun : exec (step prog capacity scratch) (start senders) es = some w)
    (hserved : Served w) {c : Connection state alpha} (hc : c ∈ w.connections) :
    prog.closed c.sender = true ∧
      c.received = (prog.sent c.sender).map (prog.load c.sender) := by
  have hinv := inv_run hprog hsenders hrun
  have hstart : EndsWell (start senders : World state alpha) :=
    fun d hd => absurd hd List.not_mem_nil
  have hends : EndsWell w :=
    exec_guarded_invariant endsWell_step hstart (allSteps_of_forall hfine) hrun
  rcases List.getElem?_of_mem hc with ⟨i, hi⟩
  have hlt : i < w.next := by
    rw [hserved.right]
    exact (List.getElem?_eq_some_iff.mp hi).1
  rcases Option.isSome_iff_exists.mp ((hinv.order hi).mpr hlt) with ⟨n, hn⟩
  rw [hends c hc n hn] at hn
  exact (hinv.brought c hc).ended hn

end Connections
