import VidsContent.HugePages.Xorshift
import VidsContent.Lib.Residues

/-!
# What the random writes leave in the mapping

Every byte of the mapping holds the number of the last pass that wrote to it.  Over
the whole period of the generator the passes are spread over the mapping as evenly as
they can be.
-/

namespace VidsContent
namespace HugePages

open XorLinear

/-!
## The content
-/

def offsetAt (seed : UInt64) (k : Nat) : UInt64 := offset (next^[k + 1] seed)

/-- `value` is what `n` passes have left at `a`. -/
def Left (seed : UInt64) (mem : UInt64 -> UInt8) (a : UInt64) (n : Nat) (value : UInt8) : Prop :=
  (exists k, k < n ∧ offsetAt seed k = a ∧
    (forall j, k < j -> j < n -> offsetAt seed j ≠ a) ∧ value = UInt8.ofNat k) ∨
  ((forall j, j < n -> offsetAt seed j ≠ a) ∧ value = mem a)

theorem left_succ {seed : UInt64} {mem : UInt64 -> UInt8} {a : UInt64} {n : Nat} {value : UInt8}
    (h : Left seed mem a n value) :
    Left seed mem a (n + 1) (if a = offsetAt seed n then UInt8.ofNat n else value) := by
  by_cases ha : a = offsetAt seed n
  · rw [if_pos ha]
    exact .inl ⟨n, Nat.lt_succ_self n, ha.symm, fun j hlt hle => by lia, rfl⟩
  · rw [if_neg ha]
    have hlast {j : Nat} (hj : j < n + 1) : j < n ∨ offsetAt seed j ≠ a := by
      rcases Nat.lt_succ_iff_lt_or_eq.mp hj with hlt | rfl
      · exact .inl hlt
      · exact .inr (Ne.symm ha)
    rcases h with ⟨k, hk, hoffset, hlater, hvalue⟩ | ⟨hnone, hvalue⟩
    · refine .inl ⟨k, Nat.lt_succ_of_lt hk, hoffset, fun j hkj hj => ?_, hvalue⟩
      rcases hlast hj with hlt | hne
      · exact hlater j hkj hlt
      · exact hne
    · refine .inr ⟨fun j hj => ?_, hvalue⟩
      rcases hlast hj with hlt | hne
      · exact hnone j hlt
      · exact hne

structure Content (seed writes : UInt64) (mem : UInt64 -> UInt8) (st : State) : Prop where
  inv : Inv seed writes st
  left : forall a, Left seed mem a st.i.toNat (st.mem a)

theorem content_body {seed writes : UInt64} {mem : UInt64 -> UInt8} {st : State}
    (h : Content seed writes mem st) (hmore : st.i < writes) :
    Content seed writes mem (body st) where
  inv := inv_body h.inv hmore
  left := by
    intro a
    have hnext : next st.s = next^[st.i.toNat + 1] seed := by
      rw [h.inv.s, Function.iterate_succ_apply']
    have hbyte : st.i.toUInt8 = UInt8.ofNat st.i.toNat := by
      rw [UInt8.ofNat_uInt64ToNat]
    simp only [body, toNat_add_one hmore, hnext, hbyte]
    exact left_succ (h.left a)

theorem content_loop {seed writes : UInt64} {mem : UInt64 -> UInt8} {st : State}
    (h : Content seed writes mem st) :
    Content seed writes mem (loop writes st) := by
  fun_induction loop writes st with
  | case1 st hmore ih => exact ih (content_body h hmore)
  | case2 st hdone => exact h

theorem content_start (seed writes : UInt64) (mem : UInt64 -> UInt8) :
    Content seed writes mem (start seed mem) where
  inv := ⟨UInt64.zero_le, rfl, rfl⟩
  left := fun _ => .inr ⟨fun _ hj => absurd hj (Nat.not_lt_zero _), rfl⟩

/-!
## The whole period
-/

theorem offset_toNat (s : UInt64) : (offset s).toNat = s.toNat % 2 ^ 33 := by
  have hmask : (size - 1).toNat = 2 ^ 33 - 1 := rfl
  rw [offset, UInt64.toNat_and, hmask, Nat.and_two_pow_sub_one_eq_mod]

theorem values_perm {seed : UInt64} (hseed : seed ≠ 0) {n : Nat} (hn : n + 1 = 2 ^ 64) :
    List.Perm ((values seed n).map UInt64.toNat) (List.range' 1 n) := by
  rcases values_distinct hseed (Nat.lt_of_succ_le (Nat.le_of_eq hn)) with ⟨hnodup, hne⟩
  apply Residues.perm_range'_of_nodup
  · exact hnodup.map fun a b hab => UInt64.toNat_inj.mp hab
  · rw [List.length_map, values, List.length_map, List.length_range]
  · intro x hx
    rcases List.mem_map.mp hx with ⟨s, hs, rfl⟩
    have hpos : s.toNat ≠ 0 := fun hzero => hne s hs (UInt64.toNat_inj.mp hzero)
    have hlt := s.toNat_lt
    lia

theorem countP_values {seed : UInt64} (hseed : seed ≠ 0) {n : Nat} (hn : n + 1 = 2 ^ 64)
    {a : UInt64} (ha : a < size) :
    (values seed n).countP (fun s => offset s == a) + (if a = 0 then 1 else 0) = 2147483648 := by
  have hsmall : a.toNat < 2 ^ 33 := UInt64.lt_iff_toNat_lt.mp ha
  have hturns : n + 1 = 2147483648 * 2 ^ 33 := by lia
  have hresidues := Residues.countP_residue_pos hsmall hturns
  have hcount := (values_perm hseed hn).countP_eq (fun x => x % 2 ^ 33 == a.toNat)
  rw [List.countP_map] at hcount
  have hpred : ((fun x => x % 2 ^ 33 == a.toNat) ∘ UInt64.toNat) = fun s => offset s == a := by
    funext s
    rw [Function.comp_apply, ← offset_toNat, Bool.eq_iff_iff, beq_iff_eq, beq_iff_eq,
      UInt64.toNat_inj]
  have hzero : a.toNat = 0 <-> a = 0 :=
    show a.toNat = UInt64.toNat 0 <-> a = 0 from UInt64.toNat_inj
  rw [hpred] at hcount
  rw [hcount, ← hresidues]
  congr 1
  exact if_congr hzero.symm rfl rfl

/--
After any number of passes a byte holds the number of the last pass that wrote to it,
and over the period each byte of the mapping is written to equally often, save that
the first one lacks the write of the word 0.
-/
theorem random_writes (seed : UInt64) (mem : UInt64 -> UInt8) (hseed : seed ≠ 0) :
    (forall writes a, Left seed mem a writes.toNat ((loop writes (start seed mem)).mem a)) ∧
      forall a, a < size ->
        (loop 18446744073709551615 (start seed mem)).seen.countP (fun s => offset s == a) +
          (if a = 0 then 1 else 0) = 2147483648 := by
  constructor
  · intro writes a
    have hloop : (loop writes (start seed mem)).i = writes :=
      (inv_loop (content_start seed writes mem).inv).right
    have hleft := (content_loop (content_start seed writes mem)).left a
    rw [hloop] at hleft
    exact hleft
  · intro a ha
    have hn : UInt64.toNat 18446744073709551615 + 1 = 2 ^ 64 := rfl
    rw [seen_loop]
    exact countP_values hseed hn ha

theorem random_writes_defaults :
    (loop 18446744073709551615 (start 42 fun _ => 0)).seen.countP (fun s => offset s == 0) +
      (if (0 : UInt64) = 0 then 1 else 0) = 2147483648 :=
  (random_writes 42 (fun _ => 0) (by decide)).right 0 (by decide)

end HugePages
end VidsContent
