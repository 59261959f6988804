import Mathlib.Algebra.BigOperators.Group.List.Basic
import VidsContent.Lib.OnesComplement

/-!
# The traceroute checksum

`checksum` in `icmp.c` adds the 16-bit words of a buffer in 32 bits, folds the
carries in once and complements the result.  A receiver adds the words of the
whole header, checksum included, and folds until no carry is left.  The host is
little-endian.
-/

namespace VidsContent
namespace Traceroute

open OnesComplement

/-!
## Words in memory
-/

def loadWord (lo hi : UInt8) : UInt16 :=
  UInt16.ofNat (lo.toNat + 256 * hi.toNat)

def storeWord (w : UInt16) : List UInt8 :=
  [UInt8.ofNat w.toNat, UInt8.ofNat (w.toNat / 256)]

def storeLong (w : UInt32) : List UInt8 :=
  storeWord (UInt16.ofNat w.toNat) ++ storeWord (UInt16.ofNat (w.toNat / 65536))

def loadWords : List UInt8 -> List UInt16
  | lo :: hi :: rest => loadWord lo hi :: loadWords rest
  | _ => []

def wordSum (words : List UInt16) : Nat :=
  (words.map UInt16.toNat).sum

@[simp] theorem wordSum_nil : wordSum [] = 0 := rfl

@[simp] theorem wordSum_cons (w : UInt16) (words : List UInt16) :
    wordSum (w :: words) = w.toNat + wordSum words := by
  simp [wordSum]

@[simp] theorem loadWord_toNat (lo hi : UInt8) :
    (loadWord lo hi).toNat = lo.toNat + 256 * hi.toNat := by
  have hlo := lo.toNat_lt
  have hhi := hi.toNat_lt
  rw [loadWord, UInt16.toNat_ofNat', Nat.mod_eq_of_lt (by lia)]

@[simp] theorem wordSum_loadWords_storeWord (w : UInt16) (rest : List UInt8) :
    wordSum (loadWords (storeWord w ++ rest)) = w.toNat + wordSum (loadWords rest) := by
  have hw := w.toNat_lt
  simp only [storeWord, List.cons_append, List.nil_append, loadWords, wordSum_cons,
    loadWord_toNat, UInt8.toNat_ofNat']
  lia

@[simp] theorem wordSum_loadWords_storeLong (w : UInt32) (rest : List UInt8) :
    wordSum (loadWords (storeLong w ++ rest)) =
      w.toNat % 65536 + w.toNat / 65536 + wordSum (loadWords rest) := by
  have hw := w.toNat_lt
  rw [storeLong, List.append_assoc, wordSum_loadWords_storeWord,
    wordSum_loadWords_storeWord, UInt16.toNat_ofNat', UInt16.toNat_ofNat']
  lia

/-!
## The checksum
-/

def checksum (data : List UInt8) : UInt16 :=
  let sum : UInt32 := (loadWords data).foldl (fun sum word => sum + word.toUInt32) 0
  (~~~((sum <<< 16 >>> 16) + (sum >>> 16))).toUInt16

theorem foldl_add_toNat (words : List UInt16) (sum : UInt32) :
    (words.foldl (fun sum word => sum + word.toUInt32) sum).toNat =
      (sum.toNat + wordSum words) % 2 ^ 32 := by
  induction words generalizing sum with
  | nil =>
      simp only [List.foldl_nil, wordSum_nil, Nat.add_zero]
      exact (Nat.mod_eq_of_lt sum.toNat_lt).symm
  | cons word words ih =>
      rw [List.foldl_cons, ih, UInt32.toNat_add, UInt16.toNat_toUInt32, wordSum_cons,
        Nat.mod_add_mod, Nat.add_assoc]

theorem complement_toNat (sum : UInt32) :
    (~~~((sum <<< 16 >>> 16) + (sum >>> 16))).toUInt16.toNat =
      65535 - carry 65536 sum.toNat % 65536 := by
  have hsum := sum.toNat_lt
  have hlow : (sum <<< 16 >>> 16).toNat = sum.toNat % 65536 := by
    simp only [UInt32.toNat_shiftLeft, UInt32.toNat_shiftRight, Nat.shiftLeft_eq,
      Nat.shiftRight_eq_div_pow, UInt32.reduceToNat, Nat.reduceMod, Nat.reducePow]
    lia
  have hhigh : (sum >>> 16).toNat = sum.toNat / 65536 := by
    simp [UInt32.toNat_shiftRight, Nat.shiftRight_eq_div_pow]
  have hfold : ((sum <<< 16 >>> 16) + (sum >>> 16)).toNat = carry 65536 sum.toNat := by
    rw [UInt32.toNat_add, hlow, hhigh]
    unfold carry
    lia
  rw [UInt32.toNat_toUInt16, UInt32.toNat_not, hfold]
  unfold carry
  simp only [UInt32.size]
  lia

theorem checksum_toNat {data : List UInt8} (hsum : wordSum (loadWords data) < 2 ^ 32) :
    (checksum data).toNat = 65535 - carry 65536 (wordSum (loadWords data)) % 65536 := by
  rw [checksum, complement_toNat, foldl_add_toNat, UInt32.toNat_zero, Nat.zero_add,
    Nat.mod_eq_of_lt hsum]

/-- What a receiver checks of a header. -/
def Verifies (header : List UInt8) : Prop :=
  fold 65536 (wordSum (loadWords header)) = 0xffff

/--
A header whose checksum field, zero until then, is set to the checksum verifies
exactly when folding the carries in once leaves none.
-/
theorem verifies_iff {data header : List UInt8}
    (hsum : wordSum (loadWords data) < 2 ^ 32)
    (hheader : wordSum (loadWords header) =
      wordSum (loadWords data) + (checksum data).toNat) :
    Verifies header <-> carry 65536 (wordSum (loadWords data)) < 65536 := by
  rw [Verifies, hheader, checksum_toNat hsum]
  exact fold_add_complement_iff (by decide) hsum

end Traceroute
end VidsContent
