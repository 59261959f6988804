import Mathlib.Data.Int.CardIntervalMod
import Mathlib.Data.List.Perm.Subperm

/-!
# Counting residues

Distinct numbers that are as many as there are in a range are all of the range, and a
range of whole turns has every residue equally often.
-/

namespace Residues

theorem perm_range'_of_nodup {xs : List Nat} {n : Nat} (hnodup : xs.Nodup)
    (hlength : xs.length = n) (hmem : forall x, x ∈ xs -> 0 < x ∧ x ≤ n) :
    List.Perm xs (List.range' 1 n) := by
  have hsubset : xs ⊆ List.range' 1 n := by
    intro x hx
    have hbounds := hmem x hx
    rw [List.mem_range'_1]
    lia
  have hsubperm := hnodup.subperm hsubset
  refine hsubperm.perm_of_length_le ?_
  rw [List.length_range', hlength]

theorem countP_residue {m a : Nat} (ha : a < m) (turns : Nat) :
    (List.range (turns * m)).countP (fun x => x % m == a) = turns := by
  have hm : 0 < m := Nat.zero_lt_of_lt ha
  have hcount := Nat.count_modEq_card (turns * m) hm a
  have hpred : (fun x : Nat => x % m == a) = fun x => decide (x ≡ a [MOD m]) := by
    funext x
    rw [Bool.eq_iff_iff, beq_iff_eq, decide_eq_true_iff]
    unfold Nat.ModEq
    rw [Nat.mod_eq_of_lt ha]
  rw [Nat.mul_mod_left, Nat.mul_div_cancel _ hm, if_neg (Nat.not_lt_zero _), Nat.add_zero,
    Nat.count] at hcount
  rw [hpred]
  exact hcount

theorem countP_residue_pos {m a n turns : Nat} (ha : a < m) (hn : n + 1 = turns * m) :
    (List.range' 1 n).countP (fun x => x % m == a) + (if a = 0 then 1 else 0) = turns := by
  have hall := countP_residue ha turns
  rw [← hn, List.range_eq_range', List.range'_succ, List.countP_cons, Nat.zero_mod] at hall
  simp only [beq_iff_eq, eq_comm (a := 0)] at hall
  exact hall

end Residues
