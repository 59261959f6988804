import Mathlib
import VidsContent.Lib.XorLinear

/-!
# Random writes

The loop that `naive.c`, `with_huge_pages.c` and `with_huge_pages_1gb.c` share, on
a mapping that they differ in.  Its offsets come from a xorshift generator.
-/

namespace VidsContent
namespace HugePages

open XorLinear

/-- `SIZE`, which is `1UL << 33`. -/
def size : UInt64 := 8589934592

/-- `s ^= s << 13; s ^= s >> 7; s ^= s << 17;` -/
def next (s : UInt64) : UInt64 :=
  let s := s ^^^ (s <<< 13)
  let s := s ^^^ (s >>> 7)
  s ^^^ (s <<< 17)

def offset (s : UInt64) : UInt64 := s &&& (size - 1)

/-- `seen` is history: the values that `s` has taken in the loop. -/
structure State where
  i : UInt64
  s : UInt64
  mem : UInt64 -> UInt8
  seen : List UInt64

def start (seed : UInt64) (mem : UInt64 -> UInt8) : State where
  i := 0
  s := seed
  mem := mem
  seen := []

def body (st : State) : State :=
  let s := next st.s
  { i := st.i + 1
    s := s
    mem := fun a => if a = offset s then st.i.toUInt8 else st.mem a
    seen := st.seen ++ [s] }

theorem toNat_add_one {i writes : UInt64} (h : i < writes) : (i + 1).toNat = i.toNat + 1 := by
  have hlt := writes.toNat_lt
  rw [UInt64.lt_iff_toNat_lt] at h
  rw [UInt64.toNat_add]
  simp only [UInt64.reduceToNat]
  lia

def loop (writes : UInt64) (st : State) : State :=
  if st.i < writes then loop writes (body st) else st
termination_by writes.toNat - st.i.toNat
decreasing_by
  rename_i h
  simp only [body, toNat_add_one h]
  rw [UInt64.lt_iff_toNat_lt] at h
  lia

/-!
## The step
-/

theorem linear_next : Linear next := by
  have hleft (n : UInt64) : Linear (fun s : UInt64 => s ^^^ (s <<< n)) :=
    Linear.self_xor fun _ _ => UInt64.shiftLeft_xor
  have hright (n : UInt64) : Linear (fun s : UInt64 => s ^^^ (s >>> n)) :=
    Linear.self_xor fun _ _ => UInt64.shiftRight_xor
  exact (hleft 17).comp ((hright 7).comp (hleft 13))

/-- The lower terms of the polynomial of degree 64 that vanishes on the step. -/
def tail : Nat := 0x013ed4a358913201

theorem vanishes_next : Vanishes next 64 tail 1 := by
  have htail : tail < 2 ^ 64 := by
    decide
  refine ⟨linear_next, by lia, htail, ?_⟩
  rw [act_eq_actWithin linear_next htail]
  decide +kernel

def factors : List Nat := [3, 5, 17, 257, 641, 65537, 6700417]

theorem prod_factors : factors.prod = 2 ^ 64 - 1 := rfl

theorem prime_factors : forall q, q ∈ factors -> q.Prime := by
  simp only [factors, List.forall_mem_cons]
  norm_num

theorem iterate_full : next^[2 ^ 64 - 1] 1 = 1 := by
  rw [iterate_eq_actWithin vanishes_next (by lia : 2 ^ 64 - 1 < 2 ^ 64)]
  decide +kernel

theorem iterate_factors : forall q, q ∈ factors ->
    actWithin next 64 (power 64 tail 64 ((2 ^ 64 - 1) / q)) 1 ≠ 1 := by
  decide +kernel

theorem mem_factors {p : Nat} (hp : p.Prime) (hdvd : p ∣ 2 ^ 64 - 1) : p ∈ factors := by
  rw [← prod_factors] at hdvd
  rcases (Prime.dvd_prod_iff hp.prime).mp hdvd with ⟨q, hq, hpq⟩
  rw [(Nat.prime_dvd_prime_iff_eq hp (prime_factors q hq)).mp hpq]
  exact hq

theorem minimalPeriod_one : Function.minimalPeriod next 1 = 2 ^ 64 - 1 := by
  apply minimalPeriod_eq_of_prime_div iterate_full
  intro p hp hdvd
  have hlt : (2 ^ 64 - 1) / p < 2 ^ 64 :=
    Nat.lt_of_le_of_lt (Nat.div_le_self _ _) (by lia)
  rw [iterate_eq_actWithin vanishes_next hlt]
  exact iterate_factors p (mem_factors hp hdvd)

theorem card_words : Nat.card UInt64 = 2 ^ 64 := by
  have hwords : UInt64 ≃ Fin (2 ^ 64) :=
    { toFun := UInt64.toFin
      invFun := UInt64.ofFin
      left_inv := fun _ => rfl
      right_inv := fun _ => rfl }
  rw [Nat.card_congr hwords, Nat.card_fin]

theorem full_next :
    Function.Bijective next ∧ (forall s, next s = 0 <-> s = 0) ∧
      forall s, s ≠ 0 -> Function.minimalPeriod next s + 1 = 2 ^ 64 := by
  have hfinite : Finite UInt64 := Nat.finite_of_card_ne_zero (by rw [card_words]; lia)
  rw [← card_words]
  apply full_period (x := 1)
  · exact linear_next.map_zero
  · decide
  · rw [minimalPeriod_one, card_words]
    lia

/-!
## The loop
-/

def values (seed : UInt64) (n : Nat) : List UInt64 :=
  (List.range n).map (fun k => next^[k] (next seed))

structure Inv (seed writes : UInt64) (st : State) : Prop where
  le : st.i ≤ writes
  s : st.s = next^[st.i.toNat] seed
  seen : st.seen = values seed st.i.toNat

theorem inv_body {seed writes : UInt64} {st : State} (h : Inv seed writes st)
    (hmore : st.i < writes) : Inv seed writes (body st) := by
  have hcount := toNat_add_one hmore
  constructor
  · rw [UInt64.le_iff_toNat_le]
    rw [UInt64.lt_iff_toNat_lt] at hmore
    simp only [body, hcount]
    exact hmore
  · simp only [body, hcount]
    rw [h.s, ← Function.iterate_succ_apply' next]
  · simp only [body, hcount]
    rw [values, List.range_succ, List.map_append, h.seen, h.s,
      ← Function.iterate_succ_apply' next, Function.iterate_succ_apply]
    rfl

theorem inv_loop {seed writes : UInt64} {st : State} (h : Inv seed writes st) :
    Inv seed writes (loop writes st) ∧ (loop writes st).i = writes := by
  fun_induction loop writes st with
  | case1 st hmore ih => exact ih (inv_body h hmore)
  | case2 st hdone =>
      refine ⟨h, ?_⟩
      exact UInt64.le_antisymm h.le (UInt64.not_lt.mp hdone)

theorem seen_loop (seed writes : UInt64) (mem : UInt64 -> UInt8) :
    (loop writes (start seed mem)).seen = values seed writes.toNat := by
  have hstart : Inv seed writes (start seed mem) :=
    ⟨UInt64.zero_le, rfl, rfl⟩
  rcases inv_loop hstart with ⟨hinv, hi⟩
  rw [hinv.seen, hi]

theorem values_distinct {seed : UInt64} (hseed : seed ≠ 0) {n : Nat} (hn : n < 2 ^ 64) :
    (values seed n).Nodup ∧ forall s, s ∈ values seed n -> s ≠ 0 := by
  rcases full_next with ⟨_, hzero, hperiod⟩
  have hfirst : next seed ≠ 0 := by
    rw [Ne, hzero]
    exact hseed
  have hlong := hperiod (next seed) hfirst
  constructor
  · apply List.nodup_range.map_on
    intro i hi j hj hij
    rw [List.mem_range] at hi hj
    exact (Function.iterate_eq_iterate_iff_of_lt_minimalPeriod (by lia) (by lia)).mp hij
  · intro s hs
    rcases List.mem_map.mp hs with ⟨k, _, rfl⟩
    have hreturn := Function.isPeriodicPt_minimalPeriod next (next seed)
    exact iterate_ne_zero ((hzero 0).mpr rfl) hfirst (by lia) hreturn k

/--
The step is a bijection with one orbit besides the fixed zero, so the values of
the loop are pairwise distinct and non-zero for every seed but zero.
-/
theorem generator_never_degenerates :
    (Function.Bijective next ∧ forall s, next s = 0 <-> s = 0) ∧
      (forall seed, seed ≠ 0 -> Function.minimalPeriod next seed = 2 ^ 64 - 1) ∧
      forall (seed writes : UInt64) (mem : UInt64 -> UInt8), seed ≠ 0 ->
        (loop writes (start seed mem)).seen.length = writes.toNat ∧
          (loop writes (start seed mem)).seen.Nodup ∧
          forall s, s ∈ (loop writes (start seed mem)).seen -> s ≠ 0 := by
  rcases full_next with ⟨hbijective, hzero, hperiod⟩
  have hleast (seed : UInt64) (hseed : seed ≠ 0) :
      Function.minimalPeriod next seed = 2 ^ 64 - 1 := by
    have hone := hperiod seed hseed
    lia
  refine ⟨⟨hbijective, hzero⟩, hleast, ?_⟩
  intro seed writes mem hseed
  rw [seen_loop]
  refine ⟨?_, values_distinct hseed writes.toNat_lt⟩
  rw [values, List.length_map, List.length_range]

theorem generator_never_degenerates_defaults :
    (loop 1000000000 (start 42 fun _ => 0)).seen.Nodup :=
  (generator_never_degenerates.right.right 42 1000000000 (fun _ => 0) (by decide)).right.left

end HugePages
end VidsContent
