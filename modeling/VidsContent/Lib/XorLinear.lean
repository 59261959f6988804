import Mathlib.Data.LawfulXor.Basic
import Mathlib.Data.Nat.Prime.Basic
import Mathlib.Dynamics.PeriodicPts.Defs
import Mathlib.SetTheory.Cardinal.NatCard

/-!
# Maps that respect exclusive or

Far iterates and periods of a map of words that respects exclusive or.  A
polynomial over two elements is coded by the bits of a number, the lowest one for
its constant term, and acts on a word through the iterates of the map.  Powers of
the indeterminate can be reduced by any polynomial that vanishes on the word.
-/

namespace XorLinear

section Polynomials

variable {alpha : Type _} [XorOp alpha] [Zero alpha]

def Linear (f : alpha -> alpha) : Prop := forall a b, f (a ^^^ b) = f a ^^^ f b

/-- The word that the polynomial `c` makes of `v`, where the indeterminate stands for `f`. -/
def act (f : alpha -> alpha) (c : Nat) (v : alpha) : alpha :=
  if c = 0 then 0 else (if c % 2 = 1 then v else 0) ^^^ f (act f (c / 2) v)
termination_by c
decreasing_by lia

def actWithin (f : alpha -> alpha) : Nat -> Nat -> alpha -> alpha
  | 0, _, _ => 0
  | fuel + 1, c, v => (if c % 2 = 1 then v else 0) ^^^ f (actWithin f fuel (c / 2) v)

/-- `X` times a polynomial, reduced by `X ^ degree + tail`. -/
def timesX (degree tail c : Nat) : Nat :=
  (2 * c % 2 ^ degree) ^^^ (tail * (c / 2 ^ (degree - 1) % 2))

def times (degree tail : Nat) : Nat -> Nat -> Nat -> Nat
  | 0, _, _ => 0
  | fuel + 1, a, b =>
      (a * (b % 2)) ^^^ timesX degree tail (times degree tail fuel a (b / 2))

/-- The power `X ^ e` for an exponent of at most `fuel` bits. -/
def power (degree tail : Nat) : Nat -> Nat -> Nat
  | 0, _ => 1
  | fuel + 1, e =>
      let half := power degree tail fuel (e / 2)
      let square := times degree tail degree half half
      if e % 2 = 1 then timesX degree tail square else square

/-!
## The action
-/

variable [LawfulXor alpha] {f : alpha -> alpha}

theorem Linear.map_zero (hf : Linear f) : f 0 = 0 := by
  have hdouble := hf 0 0
  rw [xor_zero] at hdouble
  rw [hdouble, LawfulXor.xor_self]

theorem xor_xor_xor_comm (a b c d : alpha) : (a ^^^ b) ^^^ (c ^^^ d) = (a ^^^ c) ^^^ (b ^^^ d) := by
  rw [xor_assoc, ← xor_assoc b c d, LawfulXor.xor_comm b c, xor_assoc c b d, ← xor_assoc]

omit [Zero alpha] [LawfulXor alpha] in
theorem Linear.comp {g : alpha -> alpha} (hg : Linear g) (hf : Linear f) :
    Linear (fun s => g (f s)) := by
  intro a b
  simp only
  rw [hf, hg]

theorem Linear.self_xor (hf : Linear f) : Linear (fun s => s ^^^ f s) := by
  intro a b
  simp only
  rw [hf, xor_xor_xor_comm]

omit [LawfulXor alpha] in
theorem act_zero (v : alpha) : act f 0 v = 0 := by
  rw [act, if_pos rfl]

theorem act_bit (hf : Linear f) (c : Nat) (v : alpha) :
    act f c v = (if c % 2 = 1 then v else 0) ^^^ f (act f (c / 2) v) := by
  by_cases hc : c = 0
  · rw [hc, act_zero, hf.map_zero, if_neg (by lia), xor_zero]
  · rw [act, if_neg hc]

theorem act_one (hf : Linear f) (v : alpha) : act f 1 v = v := by
  rw [act_bit hf, if_pos rfl, act_zero, hf.map_zero, xor_zero]

theorem act_two_mul (hf : Linear f) (c : Nat) (v : alpha) :
    act f (2 * c) v = f (act f c v) := by
  rw [act_bit hf, if_neg (by lia), zero_xor, Nat.mul_div_cancel_left c (by lia)]

theorem act_eq_actWithin (hf : Linear f) {fuel c : Nat} (hc : c < 2 ^ fuel) (v : alpha) :
    act f c v = actWithin f fuel c v := by
  induction fuel generalizing c with
  | zero =>
      have hzero : c = 0 := Nat.lt_one_iff.mp hc
      rw [hzero, act_zero, actWithin]
  | succ fuel ih =>
      rw [Nat.pow_succ] at hc
      rw [act_bit hf, actWithin, ih (by lia)]

theorem bit_xor (a b : Nat) (v : alpha) :
    (if (a ^^^ b) % 2 = 1 then v else 0) =
      (if a % 2 = 1 then v else 0) ^^^ (if b % 2 = 1 then v else 0) := by
  have hbit : (a ^^^ b) % 2 = 1 <-> ¬ (a % 2 = 1 <-> b % 2 = 1) := Nat.xor_mod_two_eq_one
  by_cases ha : a % 2 = 1
  · by_cases hb : b % 2 = 1
    · rw [if_neg (by lia), if_pos ha, if_pos hb, LawfulXor.xor_self]
    · rw [if_pos (by lia), if_pos ha, if_neg hb, xor_zero]
  · by_cases hb : b % 2 = 1
    · rw [if_pos (by lia), if_neg ha, if_pos hb, zero_xor]
    · rw [if_neg (by lia), if_neg ha, if_neg hb, xor_zero]

theorem act_xor (hf : Linear f) (a b : Nat) (v : alpha) :
    act f (a ^^^ b) v = act f a v ^^^ act f b v := by
  induction a using Nat.strong_induction_on generalizing b with
  | h a ih =>
      by_cases ha : a = 0
      · rw [ha, Nat.zero_xor, act_zero, zero_xor]
      · rw [act_bit hf (a ^^^ b), act_bit hf a, act_bit hf b, Nat.xor_div_two,
          ih (a / 2) (by lia), hf, bit_xor, xor_xor_xor_comm]

theorem act_map (hf : Linear f) (c : Nat) (v : alpha) : act f c (f v) = f (act f c v) := by
  induction c using Nat.strong_induction_on with
  | h c ih =>
      by_cases hc : c = 0
      · rw [hc, act_zero, act_zero, hf.map_zero]
      · rw [act_bit hf c v, hf, ← ih (c / 2) (by lia), act_bit hf c (f v)]
        congr 1
        split
        · rfl
        · rw [hf.map_zero]

theorem act_iterate (hf : Linear f) (c n : Nat) (v : alpha) :
    act f c (f^[n] v) = f^[n] (act f c v) := by
  induction n generalizing v with
  | zero => rfl
  | succ n ih => rw [Function.iterate_succ_apply, ih, act_map hf, Function.iterate_succ_apply]

theorem act_two_pow_add (hf : Linear f) (degree : Nat) {r : Nat} (hr : r < 2 ^ degree)
    (v : alpha) : act f (2 ^ degree + r) v = f^[degree] v ^^^ act f r v := by
  induction degree generalizing r with
  | zero =>
      have hzero : r = 0 := Nat.lt_one_iff.mp hr
      rw [hzero, Nat.pow_zero, act_one hf, act_zero, xor_zero]
      rfl
  | succ degree ih =>
      rw [Nat.pow_succ] at hr ⊢
      have hhalf : (2 ^ degree * 2 + r) / 2 = 2 ^ degree + r / 2 := by
        lia
      have hbit : (2 ^ degree * 2 + r) % 2 = r % 2 := by
        lia
      rw [act_bit hf, hhalf, hbit, ih (by lia), hf, act_bit hf r, ← xor_assoc,
        LawfulXor.xor_comm _ (f (f^[degree] v)), xor_assoc, Function.iterate_succ_apply']

/-!
## Reduced polynomials
-/

/-- `X ^ degree + tail` vanishes on `v`. -/
structure Vanishes (f : alpha -> alpha) (degree tail : Nat) (v : alpha) : Prop where
  linear : Linear f
  degree_pos : 0 < degree
  tail_lt : tail < 2 ^ degree
  relation : f^[degree] v = act f tail v

variable {degree tail : Nat} {v : alpha}

theorem mul_bit_lt {n bound : Nat} (h : n < bound) (c : Nat) : n * (c % 2) < bound := by
  rcases Nat.mod_two_eq_zero_or_one c with hzero | hone
  · rw [hzero, Nat.mul_zero]
    exact Nat.zero_lt_of_lt h
  · rw [hone, Nat.mul_one]
    exact h

theorem timesX_lt (htail : tail < 2 ^ degree) (c : Nat) : timesX degree tail c < 2 ^ degree := by
  have hlow : 2 * c % 2 ^ degree < 2 ^ degree := Nat.mod_lt _ (Nat.two_pow_pos degree)
  exact Nat.xor_lt_two_pow hlow (mul_bit_lt htail _)

theorem times_lt (htail : tail < 2 ^ degree) {a : Nat} (ha : a < 2 ^ degree) (fuel b : Nat) :
    times degree tail fuel a b < 2 ^ degree := by
  cases fuel with
  | zero => exact Nat.two_pow_pos degree
  | succ fuel => exact Nat.xor_lt_two_pow (mul_bit_lt ha b) (timesX_lt htail _)

theorem power_lt (hpos : 0 < degree) (htail : tail < 2 ^ degree) (fuel e : Nat) :
    power degree tail fuel e < 2 ^ degree := by
  induction fuel generalizing e with
  | zero => exact Nat.one_lt_two_pow (by lia)
  | succ fuel ih =>
      rw [power]
      split
      · exact timesX_lt htail _
      · exact times_lt htail (ih _) _ _

theorem act_timesX (h : Vanishes f degree tail v) {c : Nat} (hc : c < 2 ^ degree) :
    act f (timesX degree tail c) v = f (act f c v) := by
  rcases h with ⟨hf, hpos, htail, hrelation⟩
  have hdouble : 2 ^ degree = 2 * 2 ^ (degree - 1) := by
    rw [Nat.mul_comm, ← Nat.pow_succ, Nat.succ_eq_add_one, Nat.sub_add_cancel hpos]
  unfold timesX
  rw [← act_two_mul hf]
  by_cases hlow : c < 2 ^ (degree - 1)
  · rw [Nat.div_eq_of_lt hlow, Nat.zero_mod, Nat.mul_zero, Nat.xor_zero,
      Nat.mod_eq_of_lt (by lia)]
  · have hone : c / 2 ^ (degree - 1) = 1 := Nat.div_eq_of_lt_le (by lia) (by lia)
    have hrest : 2 * c = 2 ^ degree + (2 * c - 2 ^ degree) := by
      lia
    have hmod : 2 * c % 2 ^ degree = 2 * c - 2 ^ degree := by
      rw [Nat.mod_eq_sub_mod (by lia), Nat.mod_eq_of_lt (by lia)]
    rw [hone, Nat.one_mod, Nat.mul_one, hmod, act_xor hf, ← hrelation]
    conv =>
      right
      rw [hrest]
    rw [act_two_pow_add hf degree (by lia), LawfulXor.xor_comm]

theorem act_times (h : Vanishes f degree tail v) {fuel a b : Nat} (ha : a < 2 ^ degree)
    (hb : b < 2 ^ fuel) : act f (times degree tail fuel a b) v = act f b (act f a v) := by
  induction fuel generalizing b with
  | zero =>
      have hzero : b = 0 := Nat.lt_one_iff.mp hb
      rw [hzero, act_zero, times, act_zero]
  | succ fuel ih =>
      rw [Nat.pow_succ] at hb
      rw [times, act_xor h.linear, act_timesX h (times_lt h.tail_lt ha fuel (b / 2)),
        ih (by lia), act_bit h.linear b]
      congr 1
      rcases Nat.mod_two_eq_zero_or_one b with hzero | hone
      · rw [hzero, Nat.mul_zero, act_zero, if_neg (by lia)]
      · rw [hone, Nat.mul_one, if_pos rfl]

/-- A reduced power gives a far iterate. -/
theorem act_power (h : Vanishes f degree tail v) {fuel e : Nat} (he : e < 2 ^ fuel) :
    act f (power degree tail fuel e) v = f^[e] v := by
  induction fuel generalizing e with
  | zero =>
      have hzero : e = 0 := Nat.lt_one_iff.mp he
      rw [hzero, power, act_one h.linear]
      rfl
  | succ fuel ih =>
      rw [Nat.pow_succ] at he
      have hlt := power_lt h.degree_pos h.tail_lt fuel (e / 2)
      have hsquare : act f (times degree tail degree (power degree tail fuel (e / 2))
          (power degree tail fuel (e / 2))) v = f^[e / 2 + e / 2] v := by
        rw [act_times h hlt hlt, ih (by lia), act_iterate h.linear, ih (by lia),
          ← Function.iterate_add_apply]
      rw [power]
      split
      · rw [act_timesX h (times_lt h.tail_lt hlt _ _), hsquare, ← Function.iterate_succ_apply' f]
        congr 1
        lia
      · rw [hsquare]
        congr 1
        lia

theorem iterate_eq_actWithin (h : Vanishes f degree tail v) {fuel e : Nat} (he : e < 2 ^ fuel) :
    f^[e] v = actWithin f degree (power degree tail fuel e) v := by
  rw [← act_power h he, act_eq_actWithin h.linear (power_lt h.degree_pos h.tail_lt fuel e)]

end Polynomials

/-!
## Periods
-/

section Periods

variable {alpha : Type _} {f : alpha -> alpha} {x zero : alpha} {n : Nat}

/-- A period that no prime divides down to another period is the least one. -/
theorem minimalPeriod_eq_of_prime_div (hperiod : f^[n] x = x)
    (hprime : forall p, p.Prime -> p ∣ n -> f^[n / p] x ≠ x) :
    Function.minimalPeriod f x = n := by
  rcases Function.IsPeriodicPt.minimalPeriod_dvd hperiod with ⟨m, hm⟩
  by_cases hone : m = 1
  · rw [hone, Nat.mul_one] at hm
    exact hm.symm
  · rcases Nat.exists_prime_and_dvd hone with ⟨p, hp, k, hk⟩
    have hn : n = p * (Function.minimalPeriod f x * k) := by
      rw [hm, hk]
      exact Nat.mul_left_comm _ _ _
    have hquot : n / p = Function.minimalPeriod f x * k := by
      rw [hn, Nat.mul_div_cancel_left _ hp.pos]
    have hshort : f^[n / p] x = x := by
      rw [hquot]
      exact (Function.isPeriodicPt_minimalPeriod f x).mul_const k
    exact absurd hshort (hprime p hp ⟨_, hn⟩)

theorem iterate_ne_zero (hzero : f zero = zero) (hx : x ≠ zero) (hpos : 0 < n)
    (hperiod : f^[n] x = x) (i : Nat) : f^[i] x ≠ zero := by
  intro hi
  have hall : f^[n * i] x = x := Function.IsPeriodicPt.mul_const hperiod i
  have hle : i ≤ n * i := Nat.le_mul_of_pos_left i hpos
  rw [← Nat.sub_add_cancel hle, Function.iterate_add_apply, hi,
    Function.iterate_fixed hzero] at hall
  exact hx hall.symm

theorem minimalPeriod_pos_of_card [Finite alpha] (hx : x ≠ zero)
    (hcard : Function.minimalPeriod f x + 1 = Nat.card alpha) :
    0 < Function.minimalPeriod f x := by
  apply Nat.pos_of_ne_zero
  intro hnone
  rw [hnone] at hcard
  have hsingle := Finite.card_le_one_iff_subsingleton.mp (by lia : Nat.card alpha ≤ 1)
  exact hx (Subsingleton.elim x zero)

theorem exists_iterate_of_card [Finite alpha] (hzero : f zero = zero) (hx : x ≠ zero)
    (hcard : Function.minimalPeriod f x + 1 = Nat.card alpha) {y : alpha} (hy : y ≠ zero) :
    exists i, f^[i] x = y := by
  have hperiod := Function.isPeriodicPt_minimalPeriod f x
  have hpos := minimalPeriod_pos_of_card hx hcard
  let place : Option (Fin (Function.minimalPeriod f x)) -> alpha
    | none => zero
    | some i => f^[i] x
  have hinjective : Function.Injective place := by
    rintro (_ | i) (_ | j) hij
    · rfl
    · exact absurd hij.symm (iterate_ne_zero hzero hx hpos hperiod j)
    · exact absurd hij (iterate_ne_zero hzero hx hpos hperiod i)
    · have hval := (Function.iterate_eq_iterate_iff_of_lt_minimalPeriod i.isLt j.isLt).mp hij
      rw [Fin.ext hval]
  have hbijective : Function.Bijective place :=
    hinjective.bijective_of_nat_card_le (by simp [← hcard])
  rcases hbijective.surjective y with ⟨_ | i, hi⟩
  · exact absurd hi.symm hy
  · exact ⟨i, hi⟩

/-- Then every word but the fixed one has the same period, and the map is a bijection. -/
theorem full_period [Finite alpha] (hzero : f zero = zero) (hx : x ≠ zero)
    (hcard : Function.minimalPeriod f x + 1 = Nat.card alpha) :
    Function.Bijective f ∧ (forall y, f y = zero <-> y = zero) ∧
      forall y, y ≠ zero -> Function.minimalPeriod f y + 1 = Nat.card alpha := by
  have hpos := minimalPeriod_pos_of_card hx hcard
  have hsurjective : Function.Surjective f := by
    intro y
    by_cases hy : y = zero
    · exact ⟨zero, by rw [hzero, hy]⟩
    · rcases exists_iterate_of_card hzero hx hcard hy with ⟨i, rfl⟩
      refine ⟨f^[i + Function.minimalPeriod f x - 1] x, ?_⟩
      rw [← Function.iterate_succ_apply' f, Nat.succ_eq_add_one, Nat.sub_add_cancel (by lia)]
      exact Function.iterate_add_minimalPeriod_eq
  have hinjective : Function.Injective f := Finite.injective_iff_surjective.mpr hsurjective
  refine ⟨⟨hinjective, hsurjective⟩, ?_, ?_⟩
  · intro y
    constructor
    · intro hy
      rw [← hzero] at hy
      exact hinjective hy
    · intro hy
      rw [hy, hzero]
  · intro y hy
    rcases exists_iterate_of_card hzero hx hcard hy with ⟨i, rfl⟩
    have hmem := Function.minimalPeriod_pos_iff_mem_periodicPts.mp hpos
    rw [Function.minimalPeriod_apply_iterate hmem]
    exact hcard

end Periods

end XorLinear
