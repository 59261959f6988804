import Mathlib.Algebra.Group.Nat.Defs

/-!
# Little-endian numbers

A number in a fixed number of bytes, the lowest one first, and its load from an
offset of a larger block.
-/

namespace LittleEndian

def encode : Nat -> Nat -> List UInt8
  | 0, _ => []
  | width + 1, n => UInt8.ofNat n :: encode width (n / 256)

def decode : List UInt8 -> Nat
  | [] => 0
  | b :: bytes => b.toNat + 256 * decode bytes

/-- The number in `width` bytes at an offset, where the block has them. -/
def load (width : Nat) (bytes : List UInt8) (offset : Nat) : Option Nat :=
  if offset + width ≤ bytes.length then
    some (decode ((bytes.drop offset).take width))
  else
    none

@[simp] theorem length_encode (width n : Nat) : (encode width n).length = width := by
  induction width generalizing n with
  | zero => rfl
  | succ width ih => rw [encode, List.length_cons, ih]

theorem decode_encode {width n : Nat} (h : n < 256 ^ width) :
    decode (encode width n) = n := by
  induction width generalizing n with
  | zero =>
      rw [Nat.pow_zero] at h
      rw [encode, decode]
      lia
  | succ width ih =>
      have hquot : n / 256 < 256 ^ width := by
        apply Nat.div_lt_of_lt_mul
        rw [Nat.pow_succ, Nat.mul_comm] at h
        exact h
      rw [encode, decode, ih hquot, UInt8.toNat_ofNat']
      lia

theorem load_encode {width n offset : Nat} {bytes : List UInt8} (pre post : List UInt8)
    (h : n < 256 ^ width) (hbytes : bytes = pre ++ (encode width n ++ post))
    (hoffset : offset = pre.length) : load width bytes offset = some n := by
  have hroom : offset + width ≤ bytes.length := by
    rw [hbytes, List.length_append, List.length_append, length_encode]
    lia
  have htake : (encode width n ++ post).take width = encode width n :=
    List.take_left' (length_encode width n)
  unfold load
  rw [if_pos hroom, hbytes, hoffset, List.drop_left, htake, decode_encode h]

end LittleEndian
