import Mathlib.Data.Int.Notation

/-!
# Checked signed arithmetic

Signed machine arithmetic whose overflow is undefined: an operation has a result
only where the exact one is in the range of the type.  The range is given by its
limit, the type's values running from `-limit` up to but not including `limit`.
-/

namespace Checked

def InRange (limit : Nat) (n : Int) : Prop := -(limit : Int) ≤ n ∧ n < limit

instance (limit : Nat) (n : Int) : Decidable (InRange limit n) :=
  inferInstanceAs (Decidable (_ ∧ _))

def check (limit : Nat) (n : Int) : Option Int :=
  if InRange limit n then some n else none

def add (limit : Nat) (a b : Int) : Option Int := check limit (a + b)

def sub (limit : Nat) (a b : Int) : Option Int := check limit (a - b)

def mul (limit : Nat) (a b : Int) : Option Int := check limit (a * b)

theorem check_of_inRange {limit : Nat} {n : Int} (h : InRange limit n) :
    check limit n = some n := by
  unfold check
  rw [if_pos h]

theorem check_eq_some_iff {limit : Nat} {n m : Int} :
    check limit n = some m <-> InRange limit n ∧ n = m := by
  unfold check
  rw [Option.ite_none_right_eq_some, Option.some.injEq]

theorem check_eq_none_iff {limit : Nat} {n : Int} :
    check limit n = none <-> ¬ InRange limit n := by
  unfold check
  rw [ite_eq_right_iff]
  exact ⟨fun h hrange => Option.some_ne_none n (h hrange), fun h hrange => absurd hrange h⟩

theorem add_of_inRange {limit : Nat} {a b : Int} (h : InRange limit (a + b)) :
    add limit a b = some (a + b) :=
  check_of_inRange h

theorem sub_of_inRange {limit : Nat} {a b : Int} (h : InRange limit (a - b)) :
    sub limit a b = some (a - b) :=
  check_of_inRange h

theorem mul_of_inRange {limit : Nat} {a b : Int} (h : InRange limit (a * b)) :
    mul limit a b = some (a * b) :=
  check_of_inRange h

theorem add_eq_some_iff {limit : Nat} {a b c : Int} :
    add limit a b = some c <-> InRange limit (a + b) ∧ a + b = c :=
  check_eq_some_iff

theorem sub_eq_some_iff {limit : Nat} {a b c : Int} :
    sub limit a b = some c <-> InRange limit (a - b) ∧ a - b = c :=
  check_eq_some_iff

theorem mul_eq_some_iff {limit : Nat} {a b c : Int} :
    mul limit a b = some c <-> InRange limit (a * b) ∧ a * b = c :=
  check_eq_some_iff

theorem mul_eq_none_iff {limit : Nat} {a b : Int} :
    mul limit a b = none <-> ¬ InRange limit (a * b) :=
  check_eq_none_iff

end Checked
