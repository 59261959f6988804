import VidsContent.Traceroute.Checksum

/-!
# Traceroute packets

The probe that `icmp_send` builds, as the bytes that go on the wire, and what
`icmp_recv` makes of a datagram that the raw socket delivers.
-/

namespace VidsContent
namespace Traceroute

open OnesComplement

/-!
## Headers
-/

/-- `struct iphdr`, without options. -/
structure Iphdr where
  ihl : BitVec 4
  version : BitVec 4
  tos : UInt8
  totLen : UInt16
  id : UInt16
  fragOff : UInt16
  ttl : UInt8
  protocol : UInt8
  check : UInt16
  saddr : UInt32
  daddr : UInt32
deriving DecidableEq

structure Icmphdr where
  type : UInt8
  code : UInt8
  checksum : UInt16
  id : UInt16
  sequence : UInt16
deriving DecidableEq

structure PingPacket where
  ip : Iphdr
  icmp : Icmphdr
deriving DecidableEq

def Iphdr.bytes (h : Iphdr) : List UInt8 :=
  [UInt8.ofNat (h.ihl.toNat + 16 * h.version.toNat), h.tos] ++
    (storeWord h.totLen ++ (storeWord h.id ++ (storeWord h.fragOff ++
      ([h.ttl, h.protocol] ++ (storeWord h.check ++ (storeLong h.saddr ++
        storeLong h.daddr))))))

def Icmphdr.bytes (h : Icmphdr) : List UInt8 :=
  [h.type, h.code] ++
    (storeWord h.checksum ++ (storeWord h.id ++ storeWord h.sequence))

def sizeofIphdr : Nat := 20

def sizeofIcmphdr : Nat := 8

def htons (w : UInt16) : UInt16 :=
  UInt16.ofNat (w.toNat / 256 + 256 * (w.toNat % 256))

def ipprotoIcmp : UInt8 := 1

def icmpEchoreply : UInt8 := 0

def icmpDestUnreach : UInt8 := 3

def icmpEcho : UInt8 := 8

def icmpTimeExceeded : UInt8 := 11

/-!
## Sending
-/

def icmpSend (sourceIpAddr destinationIpAddr : UInt32) (sequence ttl : Int32) :
    PingPacket :=
  let ip : Iphdr :=
    { ihl := 5
      version := 4
      tos := 0
      totLen := htons (UInt16.ofNat (sizeofIphdr + sizeofIcmphdr))
      id := 0
      fragOff := 0
      ttl := ttl.toUInt32.toUInt8
      protocol := ipprotoIcmp
      check := 0
      saddr := sourceIpAddr
      daddr := destinationIpAddr }
  let icmp : Icmphdr :=
    { type := icmpEcho
      code := 0
      checksum := 0
      id := 42
      sequence := sequence.toUInt32.toUInt16 }
  { ip := { ip with check := checksum ip.bytes }
    icmp := { icmp with checksum := checksum icmp.bytes } }

theorem wordSum_iphdr (h : Iphdr) :
    wordSum (loadWords h.bytes) =
      (h.ihl.toNat + 16 * h.version.toNat + 256 * h.tos.toNat) + h.totLen.toNat +
        h.id.toNat + h.fragOff.toNat + (h.ttl.toNat + 256 * h.protocol.toNat) +
        h.check.toNat + (h.saddr.toNat % 65536 + h.saddr.toNat / 65536) +
        (h.daddr.toNat % 65536 + h.daddr.toNat / 65536) := by
  have hdaddr := wordSum_loadWords_storeLong h.daddr []
  rw [List.append_nil] at hdaddr
  have hfirst := h.ihl.isLt
  have hsecond := h.version.isLt
  simp only [Iphdr.bytes, List.cons_append, List.nil_append, loadWords,
    wordSum_loadWords_storeWord, wordSum_loadWords_storeLong, wordSum_cons,
    loadWord_toNat, hdaddr, UInt8.toNat_ofNat', wordSum_nil]
  lia

theorem wordSum_icmphdr (h : Icmphdr) :
    wordSum (loadWords h.bytes) =
      (h.type.toNat + 256 * h.code.toNat) + h.checksum.toNat + h.id.toNat +
        h.sequence.toNat := by
  have hsequence := wordSum_loadWords_storeWord h.sequence []
  rw [List.append_nil] at hsequence
  simp only [Icmphdr.bytes, List.cons_append, List.nil_append, loadWords,
    wordSum_loadWords_storeWord, wordSum_cons, loadWord_toNat, hsequence, wordSum_nil]
  lia

/-!
## The checksums of a probe
-/

def probeSum (sourceIpAddr destinationIpAddr : UInt32) (ttl : Int32) : Nat :=
  0x1d45 + ttl.toUInt32.toNat % 256 +
    (sourceIpAddr.toNat % 65536 + sourceIpAddr.toNat / 65536) +
    (destinationIpAddr.toNat % 65536 + destinationIpAddr.toNat / 65536)

/-- The sums whose carries, folded in, carry once more. -/
def carryAgain : List Nat :=
  [0x1ffff, 0x2fffe, 0x2ffff, 0x3fffd, 0x3fffe, 0x3ffff]

theorem probeSum_le (sourceIpAddr destinationIpAddr : UInt32) (ttl : Int32) :
    probeSum sourceIpAddr destinationIpAddr ttl ≤ 0x41e40 := by
  have hsource := sourceIpAddr.toNat_lt
  have hdestination := destinationIpAddr.toNat_lt
  unfold probeSum
  lia

theorem carry_lt_iff_not_carryAgain {n : Nat} (hn : n ≤ 0x41e40) :
    carry 65536 n < 65536 <-> n ∉ carryAgain := by
  simp only [carry, carryAgain, List.mem_cons, List.not_mem_nil, or_false]
  lia

theorem probe_ip_verifies_iff (sourceIpAddr destinationIpAddr : UInt32)
    (sequence ttl : Int32) :
    Verifies (icmpSend sourceIpAddr destinationIpAddr sequence ttl).ip.bytes <->
      carry 65536 (probeSum sourceIpAddr destinationIpAddr ttl) < 65536 := by
  have hsum := probeSum_le sourceIpAddr destinationIpAddr ttl
  let zeroed : Iphdr :=
    { (icmpSend sourceIpAddr destinationIpAddr sequence ttl).ip with check := 0 }
  have hzeroed : wordSum (loadWords zeroed.bytes) =
      probeSum sourceIpAddr destinationIpAddr ttl := by
    rw [wordSum_iphdr]
    simp [zeroed, icmpSend, probeSum, htons, sizeofIphdr, sizeofIcmphdr, ipprotoIcmp]
    lia
  rw [← hzeroed]
  apply verifies_iff
  · rw [hzeroed]
    lia
  · rw [wordSum_iphdr, wordSum_iphdr]
    simp only [zeroed, icmpSend, UInt16.toNat_zero]
    lia

theorem probe_icmp_verifies (sourceIpAddr destinationIpAddr : UInt32)
    (sequence ttl : Int32) :
    Verifies (icmpSend sourceIpAddr destinationIpAddr sequence ttl).icmp.bytes := by
  let zeroed : Icmphdr :=
    { (icmpSend sourceIpAddr destinationIpAddr sequence ttl).icmp with checksum := 0 }
  have hzeroed : wordSum (loadWords zeroed.bytes) =
      50 + sequence.toUInt32.toUInt16.toNat := by
    rw [wordSum_icmphdr]
    simp [zeroed, icmpSend, icmpEcho]
  have hsequence := sequence.toUInt32.toUInt16.toNat_lt
  have hsmall : wordSum (loadWords zeroed.bytes) < 2 ^ 32 := by
    rw [hzeroed]
    lia
  apply (verifies_iff hsmall ?_).mpr
  · rw [hzeroed]
    unfold carry
    lia
  · rw [wordSum_icmphdr, wordSum_icmphdr]
    simp only [zeroed, icmpSend, UInt16.toNat_zero]
    lia

/-- A probe's two checksums verify unless folding its IP sum carries a second time. -/
theorem probe_verifies_iff_not_carryAgain (sourceIpAddr destinationIpAddr : UInt32)
    (sequence ttl : Int32) :
    (Verifies (icmpSend sourceIpAddr destinationIpAddr sequence ttl).ip.bytes ∧
      Verifies (icmpSend sourceIpAddr destinationIpAddr sequence ttl).icmp.bytes) <->
      probeSum sourceIpAddr destinationIpAddr ttl ∉ carryAgain := by
  rw [← carry_lt_iff_not_carryAgain (probeSum_le _ _ _),
    ← probe_ip_verifies_iff sourceIpAddr destinationIpAddr sequence ttl]
  constructor
  · exact And.left
  · intro hip
    exact ⟨hip, probe_icmp_verifies _ _ _ _⟩

/-- The first probe from 192.168.1.10 to 142.250.106.53. -/
theorem first_probe_not_verified :
    ¬ Verifies (icmpSend 0x0a01a8c0 0x356afa8e 1 1).ip.bytes := by
  rw [probe_ip_verifies_iff]
  decide

/-!
## Receiving
-/

/--
`icmp_recv(sock, src_addr)`, where `packet` has the bytes of the local variable
before the call and the datagram is `none` when `recvfrom` fails.  The error is
the text of the assertion.
-/
def icmpRecv (packet : List UInt8) : Option (List UInt8) -> Except String Int
  | none => .ok (-1)
  | some datagram =>
      let packet := datagram.take (sizeofIphdr + sizeofIcmphdr) ++
        packet.drop datagram.length
      let type := packet.getD sizeofIphdr 0
      if type = icmpDestUnreach then
        .ok (-1)
      else if type = icmpEchoreply then
        .ok (-2)
      else if type = icmpTimeExceeded then
        .ok 0
      else
        .error "0"

def headerLength (datagram : List UInt8) : Nat :=
  (datagram.getD 0 0).toNat % 16

def CarriesIcmp (datagram : List UInt8) : Prop :=
  5 ≤ headerLength datagram ∧
    4 * headerLength datagram + sizeofIcmphdr ≤ datagram.length

instance (datagram : List UInt8) : Decidable (CarriesIcmp datagram) :=
  inferInstanceAs (Decidable (_ ∧ _))

def icmpType (datagram : List UInt8) : UInt8 :=
  datagram.getD (4 * headerLength datagram) 0

/-- What `icmp_recv` takes for the type: the byte after a header without options. -/
def typeRead (datagram : List UInt8) : UInt8 :=
  datagram.getD sizeofIphdr 0

theorem icmpRecv_of_carriesIcmp {datagram : List UInt8} (h : CarriesIcmp datagram)
    (packet : List UInt8) :
    icmpRecv packet (some datagram) =
      if typeRead datagram = icmpDestUnreach then
        .ok (-1)
      else if typeRead datagram = icmpEchoreply then
        .ok (-2)
      else if typeRead datagram = icmpTimeExceeded then
        .ok 0
      else
        .error "0" := by
  have hlength : sizeofIphdr < (datagram.take (sizeofIphdr + sizeofIcmphdr)).length := by
    rcases h with ⟨hheader, hsize⟩
    rw [List.length_take]
    simp only [sizeofIphdr, sizeofIcmphdr] at hsize ⊢
    lia
  have htype : (datagram.take (sizeofIphdr + sizeofIcmphdr) ++
      packet.drop datagram.length).getD sizeofIphdr 0 = typeRead datagram := by
    rw [List.getD_eq_getElem?_getD, List.getElem?_append_left hlength,
      List.getElem?_take_of_lt (by decide), ← List.getD_eq_getElem?_getD, typeRead]
  simp only [icmpRecv, htype]

/-!
## Classification
-/

def resultOf (type : UInt8) : Option Int :=
  if type = icmpDestUnreach then
    some (-1)
  else if type = icmpEchoreply then
    some (-2)
  else if type = icmpTimeExceeded then
    some 0
  else
    none

/--
The one result for a type: of the three types that of the claim, and of every type that
of the datagrams without options.
-/
def Outcome (type : UInt8) (outcome : Int) : Prop :=
  (forall expected, resultOf type = some expected -> outcome = expected) ∧
    forall packet datagram, CarriesIcmp datagram -> headerLength datagram = 5 ->
      icmpType datagram = type -> icmpRecv packet (some datagram) = .ok outcome

/-- The call returns, with the one result for the type of the message that was delivered. -/
def Classifies (datagram : List UInt8) (result : Except String Int) : Prop :=
  exists outcome, Outcome (icmpType datagram) outcome ∧ result = .ok outcome

/-- The type is one of the three, and stands where it is looked for. -/
def TypeInPlace (datagram : List UInt8) : Prop :=
  (resultOf (icmpType datagram)).isSome ∧ typeRead datagram = icmpType datagram

instance (datagram : List UInt8) : Decidable (TypeInPlace datagram) :=
  inferInstanceAs (Decidable (_ ∧ _))

theorem icmpRecv_eq_ok_iff {datagram : List UInt8} (h : CarriesIcmp datagram)
    (packet : List UInt8) (ret : Int) :
    icmpRecv packet (some datagram) = .ok ret <->
      resultOf (typeRead datagram) = some ret := by
  rw [icmpRecv_of_carriesIcmp h]
  unfold resultOf
  split
  · simp
  · split
    · simp
    · split
      · simp
      · simp

theorem resultOf_injective {type other : UInt8} {ret : Int}
    (htype : resultOf type = some ret) (hother : resultOf other = some ret) :
    type = other := by
  have hcases : forall {t : UInt8}, resultOf t = some ret ->
      (t = icmpDestUnreach ∧ ret = -1) ∨ (t = icmpEchoreply ∧ ret = -2) ∨
        (t = icmpTimeExceeded ∧ ret = 0) := by
    intro t ht
    unfold resultOf at ht
    split at ht
    · exact Or.inl ⟨by assumption, (Option.some.inj ht).symm⟩
    · split at ht
      · exact Or.inr (Or.inl ⟨by assumption, (Option.some.inj ht).symm⟩)
      · split at ht
        · exact Or.inr (Or.inr ⟨by assumption, (Option.some.inj ht).symm⟩)
        · cases ht
  rcases hcases htype with ⟨rfl, hret⟩ | ⟨rfl, hret⟩ | ⟨rfl, hret⟩ <;>
    rcases hcases hother with ⟨rfl, hret'⟩ | ⟨rfl, hret'⟩ | ⟨rfl, hret'⟩ <;>
    first | rfl | (rw [hret] at hret'; cases hret')

theorem typeRead_of_no_options {datagram : List UInt8} (h : headerLength datagram = 5) :
    typeRead datagram = icmpType datagram := by
  unfold typeRead icmpType
  rw [h]
  rfl

def withoutOptions (type : UInt8) : List UInt8 :=
  [0x45, 0, 0, 28, 0, 0, 0, 0, 64, 1, 0, 0, 10, 0, 0, 1, 10, 0, 0, 2] ++
    [type, 0, 0, 0, 0, 0, 0, 0]

/-- An IP header of six words, with the router alert option, before an ICMP header. -/
def withOptions (type : UInt8) : List UInt8 :=
  [0x46, 0, 0, 32, 0, 0, 0, 0, 64, 1, 0, 0, 10, 0, 0, 1, 10, 0, 0, 2, 148, 4, 0, 0] ++
    [type, 0, 0, 0, 0, 0, 0, 0]

theorem headerLength_withoutOptions (type : UInt8) :
    headerLength (withoutOptions type) = 5 := by
  simp [headerLength, withoutOptions]

theorem icmpType_withoutOptions (type : UInt8) : icmpType (withoutOptions type) = type := by
  unfold icmpType
  rw [headerLength_withoutOptions]
  rfl

theorem carriesIcmp_withoutOptions (type : UInt8) : CarriesIcmp (withoutOptions type) := by
  unfold CarriesIcmp
  rw [headerLength_withoutOptions]
  constructor
  · exact Nat.le_refl 5
  · exact Nat.le_refl 28

theorem resultOf_of_outcome {type : UInt8} {outcome : Int} (h : Outcome type outcome) :
    resultOf type = some outcome := by
  have hcarries := carriesIcmp_withoutOptions type
  have hreturns := h.right [] (withoutOptions type) hcarries (headerLength_withoutOptions type)
    (icmpType_withoutOptions type)
  rw [icmpRecv_eq_ok_iff hcarries] at hreturns
  exact hreturns

theorem outcome_of_resultOf {type : UInt8} {outcome : Int} (h : resultOf type = some outcome) :
    Outcome type outcome := by
  constructor
  · intro expected hexpected
    rw [h] at hexpected
    exact Option.some.inj hexpected
  · rintro packet datagram hcarries hoptions rfl
    rw [icmpRecv_eq_ok_iff hcarries, typeRead_of_no_options hoptions]
    exact h

/-- A datagram is classified by its type exactly when that stands where it is looked for. -/
theorem icmpRecv_classifies_iff {datagram : List UInt8} (h : CarriesIcmp datagram)
    (packet : List UInt8) :
    Classifies datagram (icmpRecv packet (some datagram)) <-> TypeInPlace datagram := by
  constructor
  · rintro ⟨outcome, houtcome, hreturns⟩
    have htype := resultOf_of_outcome houtcome
    rw [icmpRecv_eq_ok_iff h] at hreturns
    constructor
    · rw [htype]
      rfl
    · exact resultOf_injective hreturns htype
  · rintro ⟨hsome, hplace⟩
    rcases Option.isSome_iff_exists.mp hsome with ⟨outcome, htype⟩
    refine ⟨outcome, outcome_of_resultOf htype, ?_⟩
    rw [icmpRecv_eq_ok_iff h, hplace]
    exact htype

theorem icmpRecv_classifies_time_exceeded :
    Classifies (withoutOptions icmpTimeExceeded)
      (icmpRecv [] (some (withoutOptions icmpTimeExceeded))) := by
  apply (icmpRecv_classifies_iff ?_ []).mpr
  · decide
  · decide

/-- An echo request aborts, and so does a time exceeded behind an option. -/
theorem icmpRecv_aborts :
    (CarriesIcmp (withoutOptions icmpEcho) ∧
      icmpRecv [] (some (withoutOptions icmpEcho)) = .error "0") ∧
      CarriesIcmp (withOptions icmpTimeExceeded) ∧
        icmpType (withOptions icmpTimeExceeded) = icmpTimeExceeded ∧
        icmpRecv [] (some (withOptions icmpTimeExceeded)) = .error "0" :=
  ⟨⟨by decide, rfl⟩, by decide, rfl, rfl⟩

end Traceroute
end VidsContent
