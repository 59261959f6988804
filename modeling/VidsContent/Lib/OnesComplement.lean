import Mathlib.Data.Nat.ModEq

/-!
# One's-complement sums

Adding in one's complement means adding and then bringing every carry out of the
word back in at its low end.  Here a word is a number below an arbitrary base,
and the carries are folded in after the addition, until none is left.
-/

namespace OnesComplement

def carry (base n : Nat) : Nat :=
  n % base + n / base

theorem carry_lt {base n : Nat} (hbase : 1 < base) (hn : base ≤ n) :
    carry base n < n := by
  have hdiv : 0 < n / base := Nat.div_pos hn (Nat.lt_of_succ_lt hbase)
  have hmul : 2 * (n / base) ≤ base * (n / base) :=
    Nat.mul_le_mul_right (n / base) hbase
  have hsplit : n % base + base * (n / base) = n := Nat.mod_add_div n base
  unfold carry
  lia

/-- Fold the carries in until none is left. -/
def fold (base n : Nat) : Nat :=
  if 1 < base ∧ base ≤ n then fold base (carry base n) else n
termination_by n
decreasing_by
  rename_i h
  exact carry_lt h.left h.right

theorem fold_of_lt {base n : Nat} (hn : n < base) : fold base n = n := by
  rw [fold, if_neg (by lia)]

theorem fold_carry {base n : Nat} (hbase : 1 < base) (hn : base ≤ n) :
    fold base n = fold base (carry base n) := by
  rw [fold, if_pos ⟨hbase, hn⟩]

theorem fold_lt {base : Nat} (hbase : 1 < base) (n : Nat) : fold base n < base := by
  induction n using Nat.strong_induction_on with
  | _ n ih =>
      by_cases hn : n < base
      · rw [fold_of_lt hn]
        exact hn
      · have hle : base ≤ n := Nat.le_of_not_lt hn
        rw [fold_carry hbase hle]
        exact ih (carry base n) (carry_lt hbase hle)

theorem carry_modEq {base : Nat} (hbase : 1 < base) (n : Nat) :
    carry base n ≡ n [MOD base - 1] := by
  have hunit : base ≡ 1 [MOD base - 1] := Nat.modEq_sub (Nat.le_of_lt hbase)
  calc
    n % base + n / base = n % base + 1 * (n / base) := by rw [Nat.one_mul]
    _ ≡ n % base + base * (n / base) [MOD base - 1] :=
        Nat.ModEq.add_left _ (Nat.ModEq.mul_right _ hunit.symm)
    _ = n := Nat.mod_add_div n base

theorem fold_modEq {base : Nat} (hbase : 1 < base) (n : Nat) :
    fold base n ≡ n [MOD base - 1] := by
  induction n using Nat.strong_induction_on with
  | _ n ih =>
      by_cases hn : n < base
      · rw [fold_of_lt hn]
      · have hle : base ≤ n := Nat.le_of_not_lt hn
        rw [fold_carry hbase hle]
        exact (ih (carry base n) (carry_lt hbase hle)).trans (carry_modEq hbase n)

theorem fold_eq_zero {base n : Nat} (hbase : 1 < base) (h : fold base n = 0) :
    n = 0 := by
  induction n using Nat.strong_induction_on with
  | _ n ih =>
      by_cases hn : n < base
      · rwa [fold_of_lt hn] at h
      · have hle : base ≤ n := Nat.le_of_not_lt hn
        rw [fold_carry hbase hle] at h
        have hcarry := ih (carry base n) (carry_lt hbase hle) h
        have hdiv : 0 < n / base := Nat.div_pos hle (Nat.lt_of_succ_lt hbase)
        unfold carry at hcarry
        lia

theorem fold_eq_ones_iff {base : Nat} (hbase : 1 < base) (n : Nat) :
    fold base n = base - 1 <-> 0 < n ∧ base - 1 ∣ n := by
  have hmod := fold_modEq hbase n
  constructor
  · intro h
    constructor
    · apply Nat.pos_of_ne_zero
      intro hzero
      rw [hzero, fold_of_lt (Nat.lt_of_succ_lt hbase)] at h
      lia
    · rw [h] at hmod
      exact (hmod.dvd_iff (dvd_refl _)).mp (dvd_refl _)
  · rintro ⟨hpos, hdvd⟩
    have hfold : base - 1 ∣ fold base n := (hmod.dvd_iff (dvd_refl _)).mpr hdvd
    have hnonzero : fold base n ≠ 0 := by
      intro hzero
      exact Nat.ne_of_gt hpos (fold_eq_zero hbase hzero)
    have hle : base - 1 ≤ fold base n :=
      Nat.le_of_dvd (Nat.pos_of_ne_zero hnonzero) hfold
    have hlt := fold_lt hbase n
    lia

theorem carry_lt_two_mul {base n : Nat} (hn : n < base * base) :
    carry base n < 2 * base := by
  have hbase : 0 < base := by
    apply Nat.pos_of_ne_zero
    intro hzero
    simp [hzero] at hn
  have hmod : n % base < base := Nat.mod_lt n hbase
  have hdiv : n / base < base := Nat.div_lt_of_lt_mul hn
  unfold carry
  lia

/-!
## Sums in a double word
-/

theorem eq_of_modEq {base a b : Nat} (ha : a < base) (hb : b < base)
    (hzero : a = 0 <-> b = 0) (hmod : a ≡ b [MOD base - 1]) : a = b := by
  rcases Nat.eq_zero_or_pos a with hzeroA | hposA
  · rw [hzeroA, hzero.mp hzeroA]
  · have hposB : 0 < b := Nat.pos_of_ne_zero fun hzeroB => Nat.ne_of_gt hposA (hzero.mpr hzeroB)
    have hpred : a - 1 ≡ b - 1 [MOD base - 1] := by
      apply Nat.ModEq.add_right_cancel' 1
      rw [Nat.sub_add_cancel hposA, Nat.sub_add_cancel hposB]
      exact hmod
    have hsame := hpred.eq_of_lt_of_lt (by lia) (by lia)
    lia

/-- The word that one fold leaves of a sum that wraps around in a double word. -/
def foldOnce (base n : Nat) : Nat :=
  carry base (n % (base * base)) % base

/-- What a wrapping double word and one fold lose: the wraps, and a second carry. -/
def lostCarries (base n : Nat) : Nat :=
  n / (base * base) + carry base (n % (base * base)) / base

theorem foldOnce_add_lostCarries_modEq {base : Nat} (hbase : 1 < base) (n : Nat) :
    foldOnce base n + lostCarries base n ≡ n [MOD base - 1] := by
  have hunit : base ≡ 1 [MOD base - 1] := Nat.modEq_sub (Nat.le_of_lt hbase)
  have hdouble : base * base ≡ 1 [MOD base - 1] := hunit.mul hunit
  have hcarry := carry_modEq hbase (carry base (n % (base * base)))
  have hsplit : carry base (carry base (n % (base * base))) =
      carry base (n % (base * base)) % base + carry base (n % (base * base)) / base := rfl
  calc
    foldOnce base n + lostCarries base n =
        carry base (carry base (n % (base * base))) + 1 * (n / (base * base)) := by
      rw [hsplit]
      unfold foldOnce lostCarries
      lia
    _ ≡ carry base (n % (base * base)) + base * base * (n / (base * base)) [MOD base - 1] :=
        hcarry.add (hdouble.symm.mul_right _)
    _ ≡ n % (base * base) + base * base * (n / (base * base)) [MOD base - 1] :=
        (carry_modEq hbase _).add_right _
    _ = n := Nat.mod_add_div n (base * base)

theorem fold_eq_zero_iff {base : Nat} (hbase : 1 < base) (n : Nat) :
    fold base n = 0 <-> n = 0 := by
  constructor
  · exact fold_eq_zero hbase
  · intro hzero
    rw [hzero, fold_of_lt (Nat.lt_of_succ_lt hbase)]

/--
One fold of a wrapping sum agrees with folding the whole sum, to which `extra`
belongs as well, exactly when nothing is lost, or a multiple of all ones that
does not leave a zero.
-/
theorem foldOnce_eq_fold_iff {base : Nat} (hbase : 1 < base) (n extra : Nat) :
    foldOnce base n = fold base (n + extra) <->
      lostCarries base n + extra = 0 ∨
        (base - 1 ∣ lostCarries base n + extra ∧ foldOnce base n ≠ 0) := by
  have hpos : 0 < base := Nat.lt_of_succ_lt hbase
  have honce : foldOnce base n < base := Nat.mod_lt _ hpos
  have hfold := fold_lt hbase (n + extra)
  have hsum : foldOnce base n + (lostCarries base n + extra) ≡ fold base (n + extra)
      [MOD base - 1] := by
    rw [← Nat.add_assoc]
    exact ((foldOnce_add_lostCarries_modEq hbase n).add_right extra).trans
      (fold_modEq hbase (n + extra)).symm
  constructor
  · intro heq
    rw [← heq] at hsum
    have hdvd : base - 1 ∣ lostCarries base n + extra := by
      rw [← Nat.modEq_zero_iff_dvd]
      exact Nat.ModEq.add_left_cancel' (foldOnce base n) hsum
    by_cases hzero : foldOnce base n = 0
    · left
      rw [hzero] at heq
      have hnone := fold_eq_zero hbase heq.symm
      have hn : n = 0 := by lia
      rw [hn]
      unfold lostCarries carry
      simp
      lia
    · exact Or.inr ⟨hdvd, hzero⟩
  · rintro (hnone | ⟨hdvd, hnonzero⟩)
    · have hextra : extra = 0 := by lia
      have hwraps : n / (base * base) = 0 := by
        unfold lostCarries at hnone
        lia
      have hlt : n < base * base := by
        rw [Nat.div_eq_zero_iff] at hwraps
        rcases hwraps with hzero | hlt
        · exact absurd hzero (Nat.ne_of_gt (Nat.mul_pos hpos hpos))
        · exact hlt
      have hcarry : carry base n < base := by
        unfold lostCarries at hnone
        rw [Nat.mod_eq_of_lt hlt] at hnone
        exact Nat.lt_of_div_eq_zero hpos (by lia)
      unfold foldOnce
      rw [Nat.mod_eq_of_lt hlt, Nat.mod_eq_of_lt hcarry, hextra, Nat.add_zero]
      by_cases hn : n < base
      · rw [fold_of_lt hn, carry, Nat.mod_eq_of_lt hn, Nat.div_eq_of_lt hn, Nat.add_zero]
      · rw [fold_carry hbase (Nat.le_of_not_lt hn), fold_of_lt hcarry]
    · apply eq_of_modEq honce hfold
      · constructor
        · intro hzero
          exact absurd hzero hnonzero
        · intro hzero
          rw [fold_eq_zero_iff hbase] at hzero
          have hn : n = 0 := by lia
          rw [hn]
          simp [foldOnce, carry]
      · have hlost : lostCarries base n + extra ≡ 0 [MOD base - 1] :=
          Nat.modEq_zero_iff_dvd.mpr hdvd
        exact (hlost.add_left (foldOnce base n)).symm.trans hsum

/-- The complement of a wrapping sum, folded once, verifies when what is lost is all ones. -/
theorem fold_add_complement_foldOnce_iff {base : Nat} (hbase : 1 < base) (n : Nat) :
    fold base (n + (base - 1 - foldOnce base n)) = base - 1 <->
      base - 1 ∣ lostCarries base n := by
  have honce : foldOnce base n < base := Nat.mod_lt _ (Nat.lt_of_succ_lt hbase)
  have hsum : n + (base - 1 - foldOnce base n) ≡ base - 1 + lostCarries base n
      [MOD base - 1] := by
    have hlost := (foldOnce_add_lostCarries_modEq hbase n).symm.add_right
      (base - 1 - foldOnce base n)
    rw [show foldOnce base n + lostCarries base n + (base - 1 - foldOnce base n) =
      base - 1 + lostCarries base n by lia] at hlost
    exact hlost
  rw [fold_eq_ones_iff hbase, hsum.dvd_iff (dvd_refl _), Nat.dvd_add_right (dvd_refl _)]
  constructor
  · exact And.right
  · intro hdvd
    refine ⟨?_, hdvd⟩
    rcases Nat.eq_zero_or_pos n with hzero | hpos
    · rw [hzero]
      simp [foldOnce, carry]
      lia
    · lia

/--
The complement of a double word's sum, its carries folded in once, verifies
exactly when that one fold left no carry.
-/
theorem fold_add_complement_iff {base n : Nat} (hbase : 2 < base)
    (hn : n < base * base) :
    fold base (n + (base - 1 - carry base n % base)) = base - 1 <->
      carry base n < base := by
  have hpos : 0 < base := Nat.lt_trans (by lia) hbase
  have hcarry := carry_lt_two_mul hn
  have hcarries := fold_add_complement_foldOnce_iff (Nat.lt_of_succ_lt hbase) n
  unfold foldOnce lostCarries at hcarries
  rw [Nat.mod_eq_of_lt hn, Nat.div_eq_of_lt hn, Nat.zero_add] at hcarries
  have hsecond : carry base n / base < 2 := Nat.div_lt_of_lt_mul (by lia)
  rw [hcarries, ← Nat.div_eq_zero_iff_lt hpos]
  constructor
  · intro hdvd
    exact Nat.eq_zero_of_dvd_of_lt hdvd (by lia)
  · intro hnone
    rw [hnone]
    exact Nat.dvd_zero _

end OnesComplement
