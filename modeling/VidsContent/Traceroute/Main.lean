import VidsContent.Traceroute.Icmp

/-!
# Traceroute against the network

`main` sends a probe for each `ttl` and prints the source of the next datagram
that the raw socket gives it.  The nodes answer probes, or not; the network
delays, reorders and loses the answers; other hosts send ICMP of their own.
-/

namespace VidsContent
namespace Traceroute

/-- `probe` is the probe that the datagram answers, which the program cannot see. -/
structure Datagram where
  src : UInt32
  bytes : List UInt8
  probe : Option PingPacket
deriving DecidableEq

inductive Line where
  | timeout (ttl : Nat)
  | received (ttl : Nat) (src : UInt32)
deriving DecidableEq

/-- `exited` has the datagram that broke the loop, if one did. -/
inductive Pc where
  | send (ttl : Nat)
  | recv (ttl : Nat)
  | exited (last : Option Datagram)
  | aborted (assertion : String)
deriving DecidableEq

def Pc.isRunning : Pc -> Bool
  | .send _ => true
  | .recv _ => true
  | _ => false

/-- `sent` and `answers` are history: every probe sent and every answer given. -/
structure State where
  sent : List PingPacket
  answers : List Datagram
  inFlight : List Datagram
  socket : List Datagram
  output : List Line
  pc : Pc

/--
A call of the program or an action of the network.  `recv` carries what
`icmp_recv` finds in its uninitialised local variable.
-/
inductive Event where
  | send (err : Int)
  | recv (packet : List UInt8)
  | answer (probe : PingPacket) (node : UInt32) (bytes : List UInt8)
  | deliver (i : Nat)
  | lose (i : Nat)
  | foreign (src : UInt32) (bytes : List UInt8)

def start : State where
  sent := []
  answers := []
  inFlight := []
  socket := []
  output := []
  pc := .send 1

/-- `icmp_send(sock, ttl, ttl)`. -/
def probeOf (source destination : UInt32) (ttl : Nat) : PingPacket :=
  icmpSend source destination (Int32.ofNat ttl) (Int32.ofNat ttl)

def nextTtl (ttl : Nat) : Pc :=
  if ttl + 1 < 32 then .send (ttl + 1) else .exited none

def afterRecvfrom (s : State) (ttl : Nat) (packet : List UInt8)
    (datagram : Option Datagram) : State :=
  match icmpRecv packet (datagram.map Datagram.bytes) with
  | .error assertion => { s with pc := .aborted assertion }
  | .ok ret =>
      if ret = -1 then
        { s with output := s.output ++ [.timeout ttl], pc := nextTtl ttl }
      else
        let src := (datagram.map Datagram.src).getD 0
        { s with
          output := s.output ++ [.received ttl src]
          pc := if ret = -2 then .exited datagram else nextTtl ttl }

/-- `recvfrom` times out when the socket stays empty. -/
def recv (s : State) (ttl : Nat) (packet : List UInt8) : State :=
  match s.socket with
  | [] => afterRecvfrom s ttl packet none
  | datagram :: rest =>
      afterRecvfrom { s with socket := rest } ttl packet (some datagram)

def step (source destination : UInt32) (s : State) : Event -> Option State
  | .send err =>
      match s.pc with
      | .send ttl =>
          if err = -1 then
            some { s with pc := .aborted "err != -1" }
          else
            some
              { s with
                sent := s.sent ++ [probeOf source destination ttl]
                pc := .recv ttl }
      | _ => none
  | .recv packet =>
      match s.pc with
      | .recv ttl => some (recv s ttl packet)
      | _ => none
  | .answer probe node bytes =>
      if probe ∈ s.sent ∧ (forall d, d ∈ s.answers -> d.probe ≠ some probe) ∧
          CarriesIcmp bytes then
        let datagram : Datagram := { src := node, bytes := bytes, probe := some probe }
        some
          { s with
            answers := s.answers ++ [datagram]
            inFlight := s.inFlight ++ [datagram] }
      else
        none
  | .deliver i =>
      match s.inFlight[i]? with
      | none => none
      | some datagram =>
          if s.pc.isRunning then
            some
              { s with
                inFlight := s.inFlight.eraseIdx i
                socket := s.socket ++ [datagram] }
          else
            none
  | .lose i =>
      if i < s.inFlight.length then
        some { s with inFlight := s.inFlight.eraseIdx i }
      else
        none
  | .foreign src bytes =>
      if s.pc.isRunning ∧ CarriesIcmp bytes then
        some
          { s with
            socket := s.socket ++ [{ src := src, bytes := bytes, probe := none }] }
      else
        none

end Traceroute
end VidsContent
