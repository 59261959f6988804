import VidsContent.Traceroute.Icmp

/-!
# The Internet checksum

The Internet checksum adds all the 16-bit words of a buffer, an odd last byte
padded with zero, and folds the carries in until none is left.  `checksum` adds
in 32 bits, leaves an odd last byte out and folds once.
-/

namespace VidsContent
namespace Traceroute

open OnesComplement

def paddedWords : List UInt8 -> List UInt16
  | lo :: hi :: rest => loadWord lo hi :: paddedWords rest
  | [last] => [loadWord last 0]
  | [] => []

def internetChecksum (data : List UInt8) : UInt16 :=
  ~~~(UInt16.ofNat (fold 65536 (wordSum (paddedWords data))))

def trailingByte : List UInt8 -> Nat
  | _ :: _ :: rest => trailingByte rest
  | [last] => last.toNat
  | [] => 0

/-- The wraps of the accumulator, the second carry and the odd byte. -/
def lost (data : List UInt8) : Nat :=
  lostCarries 65536 (wordSum (loadWords data)) + trailingByte data

def halves (data : List UInt8) : Nat :=
  carry 65536 (wordSum (loadWords data) % 4294967296)

/-- Nothing is lost, or a multiple of all ones that does not leave a zero. -/
def KeepsSum (data : List UInt8) : Prop :=
  lost data = 0 ∨ (65535 ∣ lost data ∧ halves data ≠ 0 ∧ halves data ≠ 65536)

instance (data : List UInt8) : Decidable (KeepsSum data) :=
  inferInstanceAs (Decidable (_ ∨ _))

/-!
## Sums
-/

theorem wordSum_paddedWords (data : List UInt8) :
    wordSum (paddedWords data) = wordSum (loadWords data) + trailingByte data := by
  induction data using paddedWords.induct with
  | case1 lo hi rest ih =>
      simp only [paddedWords, loadWords, trailingByte, wordSum_cons]
      rw [ih, Nat.add_assoc]
  | case2 last => simp [paddedWords, loadWords, trailingByte]
  | case3 => rfl

theorem trailingByte_of_even {data : List UInt8} (heven : data.length % 2 = 0) :
    trailingByte data = 0 := by
  induction data using paddedWords.induct with
  | case1 lo hi rest ih =>
      rw [List.length_cons, List.length_cons] at heven
      exact ih (by lia)
  | case2 last => cases heven
  | case3 => rfl

theorem wordSum_loadWords_append {pre : List UInt8} (heven : pre.length % 2 = 0)
    (rest : List UInt8) :
    wordSum (loadWords (pre ++ rest)) =
      wordSum (loadWords pre) + wordSum (loadWords rest) := by
  induction pre using paddedWords.induct with
  | case1 lo hi pre ih =>
      rw [List.length_cons, List.length_cons] at heven
      simp only [List.cons_append, loadWords, wordSum_cons]
      rw [ih (by lia), Nat.add_assoc]
  | case2 last => cases heven
  | case3 => simp [loadWords]

theorem wordSum_store {pre : List UInt8} (heven : pre.length % 2 = 0) (w : UInt16)
    (post : List UInt8) :
    wordSum (loadWords (pre ++ storeWord w ++ post)) =
      wordSum (loadWords (pre ++ [0, 0] ++ post)) + w.toNat := by
  rw [List.append_assoc, List.append_assoc, wordSum_loadWords_append heven,
    wordSum_loadWords_append heven, wordSum_loadWords_storeWord]
  simp only [List.cons_append, List.nil_append, loadWords, wordSum_cons, loadWord_toNat]
  simp
  lia

/-!
## Two checksums
-/

theorem checksum_toNat_eq (data : List UInt8) :
    (checksum data).toNat = 65535 - foldOnce 65536 (wordSum (loadWords data)) := by
  rw [checksum, complement_toNat, foldl_add_toNat, UInt32.toNat_zero, Nat.zero_add]
  rfl

theorem internetChecksum_toNat (data : List UInt8) :
    (internetChecksum data).toNat =
      65535 - fold 65536 (wordSum (loadWords data) + trailingByte data) := by
  have hlt := fold_lt (by lia : 1 < 65536) (wordSum (paddedWords data))
  rw [internetChecksum, UInt16.toNat_not, UInt16.toNat_ofNat',
    Nat.mod_eq_of_lt (by simpa using hlt), wordSum_paddedWords]
  rfl

theorem foldOnce_ne_zero_iff (data : List UInt8) :
    foldOnce 65536 (wordSum (loadWords data)) ≠ 0 <->
      halves data ≠ 0 ∧ halves data ≠ 65536 := by
  have hcarry : carry 65536 (wordSum (loadWords data) % 4294967296) < 131072 :=
    carry_lt_two_mul (Nat.mod_lt _ (by decide))
  unfold foldOnce halves
  simp only [Nat.reduceMul]
  lia

theorem checksum_eq_internetChecksum_iff (data : List UInt8) :
    checksum data = internetChecksum data <-> KeepsSum data := by
  have honce : foldOnce 65536 (wordSum (loadWords data)) < 65536 :=
    Nat.mod_lt _ (by decide)
  have hfold := fold_lt (by lia : 1 < 65536) (wordSum (loadWords data) + trailingByte data)
  have hfolds := foldOnce_eq_fold_iff (by lia : 1 < 65536) (wordSum (loadWords data))
    (trailingByte data)
  rw [foldOnce_ne_zero_iff] at hfolds
  rw [← UInt16.toNat_inj, checksum_toNat_eq, internetChecksum_toNat]
  unfold KeepsSum lost
  rw [← hfolds]
  lia

theorem verifies_of_internetChecksum {data pre post : List UInt8}
    (hdata : data = pre ++ [0, 0] ++ post) (heven : data.length % 2 = 0)
    (hfield : pre.length % 2 = 0) :
    Verifies (pre ++ storeWord (internetChecksum data) ++ post) := by
  have hlt := fold_lt (by lia : 1 < 65536) (wordSum (loadWords data))
  have hmod := fold_modEq (by lia : 1 < 65536) (wordSum (loadWords data))
  unfold Verifies
  rw [wordSum_store hfield, ← hdata, internetChecksum_toNat, trailingByte_of_even heven,
    Nat.add_zero]
  apply (fold_eq_ones_iff (by lia : 1 < 65536) _).mpr
  have hzero := fold_eq_zero_iff (by lia : 1 < 65536) (wordSum (loadWords data))
  constructor
  · lia
  · have hsum : wordSum (loadWords data) +
        (65535 - fold 65536 (wordSum (loadWords data))) ≡
        fold 65536 (wordSum (loadWords data)) +
          (65535 - fold 65536 (wordSum (loadWords data))) [MOD 65536 - 1] :=
      hmod.symm.add_right _
    rw [Nat.add_sub_cancel' (by lia)] at hsum
    exact (hsum.dvd_iff (dvd_refl _)).mpr (dvd_refl _)

/--
`checksum` is the Internet checksum of a buffer, and verifies in its zeroed field,
exactly when its sum keeps what the wraps, the single fold and the whole words
could lose.
-/
theorem checksum_is_internetChecksum_iff (data : List UInt8) :
    (checksum data = internetChecksum data ∧
      forall pre post, data = pre ++ [0, 0] ++ post -> data.length % 2 = 0 ->
        pre.length % 2 = 0 -> Verifies (pre ++ storeWord (checksum data) ++ post)) <->
      KeepsSum data := by
  constructor
  · rintro ⟨heq, _⟩
    exact (checksum_eq_internetChecksum_iff data).mp heq
  · intro hkeeps
    have heq := (checksum_eq_internetChecksum_iff data).mpr hkeeps
    refine ⟨heq, ?_⟩
    intro pre post hdata heven hfield
    rw [heq]
    exact verifies_of_internetChecksum hdata heven hfield

/-- The IP header of the first probe from 192.168.1.10 to 142.250.106.53. -/
def probeHeader : List UInt8 :=
  [0x45, 0, 0, 28, 0, 0, 0, 0, 1, 1, 0, 0, 192, 168, 1, 10, 142, 250, 106, 53]

/-- The header loses its second carry, and a single byte is left out. -/
theorem header_checksum_differs :
    (checksum probeHeader ≠ internetChecksum probeHeader ∧
      ¬ Verifies (probeHeader.take 10 ++ storeWord (checksum probeHeader) ++
        probeHeader.drop 12)) ∧
      checksum [1] ≠ internetChecksum [1] := by
  refine ⟨⟨?_, ?_⟩, ?_⟩
  · rw [Ne, checksum_eq_internetChecksum_iff]
    decide
  · intro hverifies
    unfold Verifies at hverifies
    rw [fold_eq_ones_iff (by lia : 1 < 65536)] at hverifies
    revert hverifies
    decide
  · rw [Ne, checksum_eq_internetChecksum_iff]
    decide

end Traceroute
end VidsContent
