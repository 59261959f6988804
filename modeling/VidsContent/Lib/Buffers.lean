import VidsContent.Lib.Totals

/-!
# Pipes as buffers

A pipe is a row of buffers, of which it has a fixed number.  A transfer moves bytes from
the front: it may take a part of a buffer, which then stays in use.  Here a pipe is the
lengths of its buffers; what the bytes are does not matter for its room.
-/

namespace Buffers

open Totals

def held (bs : List Nat) : Nat := total id bs

/-- The buffers of the first `n` bytes, of which the last may be a part. -/
def first : Nat -> List Nat -> List Nat
  | _, [] => []
  | n, b :: bs => if n = 0 then [] else if n ≤ b then [n] else b :: first (n - b) bs

/-- The buffers in use behind the first `n` bytes. -/
def rest : Nat -> List Nat -> List Nat
  | _, [] => []
  | n, b :: bs => if n < b then (b - n) :: bs else rest (n - b) bs

def grow (n : Nat) : List Nat -> List Nat
  | [] => []
  | [b] => [b + n]
  | b :: c :: bs => b :: grow n (c :: bs)

/-- A row of buffers that holds `n` bytes, none of them empty. -/
structure Holds (bs : List Nat) (n : Nat) : Prop where
  pos : forall b, b ∈ bs -> 0 < b
  held_eq : held bs = n

@[simp] theorem held_nil : held [] = 0 := rfl

@[simp] theorem held_cons (b : Nat) (bs : List Nat) : held (b :: bs) = b + held bs := rfl

theorem held_append (as bs : List Nat) : held (as ++ bs) = held as + held bs := by
  induction as with
  | nil => exact (Nat.zero_add _).symm
  | cons a as ih => rw [List.cons_append, held_cons, held_cons, ih, Nat.add_assoc]

@[simp] theorem first_zero (bs : List Nat) : first 0 bs = [] := by
  cases bs with
  | nil => rfl
  | cons b bs => exact if_pos rfl

theorem held_first {n : Nat} {bs : List Nat} (hn : n ≤ held bs) : held (first n bs) = n := by
  induction bs generalizing n with
  | nil => exact (Nat.le_zero.mp hn).symm
  | cons b bs ih =>
      rw [held_cons] at hn
      unfold first
      split
      · rename_i hzero
        rw [hzero]
        rfl
      · split
        · exact Nat.add_zero n
        · rw [held_cons, ih (by lia)]
          lia

theorem held_rest (n : Nat) (bs : List Nat) : held (rest n bs) = held bs - n := by
  induction bs generalizing n with
  | nil => exact (Nat.zero_sub n).symm
  | cons b bs ih =>
      unfold rest
      split
      · rw [held_cons, held_cons]
        lia
      · rw [ih, held_cons]
        lia

theorem held_grow (n : Nat) {bs : List Nat} (hbs : bs ≠ []) : held (grow n bs) = held bs + n := by
  induction bs with
  | nil => exact absurd rfl hbs
  | cons b bs ih =>
      cases bs with
      | nil =>
          rw [grow, held_cons, held_cons, held_nil]
          lia
      | cons c bs =>
          rw [grow, held_cons, ih (List.cons_ne_nil c bs), held_cons b, Nat.add_assoc]

theorem pos_of_mem_first {n b : Nat} {bs : List Nat} (hpos : forall b, b ∈ bs -> 0 < b)
    (hb : b ∈ first n bs) : 0 < b ∧ b ≤ n := by
  induction bs generalizing n with
  | nil => cases hb
  | cons c bs ih =>
      rcases List.forall_mem_cons.mp hpos with ⟨hc, hbs⟩
      unfold first at hb
      split at hb
      · cases hb
      · split at hb
        · rw [List.mem_singleton.mp hb]
          lia
        · rcases List.mem_cons.mp hb with rfl | hlater
          · lia
          · have hsmall := ih hbs hlater
            lia

theorem pos_of_mem_rest {n b : Nat} {bs : List Nat} (hpos : forall b, b ∈ bs -> 0 < b)
    (hb : b ∈ rest n bs) : 0 < b := by
  induction bs generalizing n with
  | nil => cases hb
  | cons c bs ih =>
      rcases List.forall_mem_cons.mp hpos with ⟨_, hbs⟩
      unfold rest at hb
      split at hb
      · rcases List.mem_cons.mp hb with rfl | hlater
        · lia
        · exact hbs b hlater
      · exact ih hbs hb

theorem pos_of_mem_grow {n b : Nat} {bs : List Nat} (hpos : forall b, b ∈ bs -> 0 < b)
    (hb : b ∈ grow n bs) : 0 < b := by
  induction bs with
  | nil => cases hb
  | cons c bs ih =>
      rcases List.forall_mem_cons.mp hpos with ⟨hc, hbs⟩
      cases bs with
      | nil =>
          rw [List.mem_singleton.mp hb]
          lia
      | cons d bs =>
          rcases List.mem_cons.mp hb with rfl | hlater
          · exact hc
          · exact ih hbs hlater

theorem length_rest_le (n : Nat) (bs : List Nat) : (rest n bs).length ≤ bs.length := by
  induction bs generalizing n with
  | nil => exact Nat.le_refl 0
  | cons b bs ih =>
      unfold rest
      split
      · exact Nat.le_refl _
      · exact Nat.le_succ_of_le (ih _)

theorem length_rest_lt {n b : Nat} (bs : List Nat) (h : b ≤ n) :
    (rest n (b :: bs)).length < (b :: bs).length := by
  unfold rest
  rw [if_neg (Nat.not_lt.mpr h)]
  exact Nat.lt_succ_of_le (length_rest_le _ bs)

theorem le_of_mem_rest {n b bound : Nat} {bs : List Nat} (hle : forall b, b ∈ bs -> b ≤ bound)
    (hb : b ∈ rest n bs) : b ≤ bound := by
  induction bs generalizing n with
  | nil => cases hb
  | cons c bs ih =>
      rcases List.forall_mem_cons.mp hle with ⟨hc, hbs⟩
      unfold rest at hb
      split at hb
      · rcases List.mem_cons.mp hb with rfl | hlater
        · lia
        · exact hbs b hlater
      · exact ih hbs hb

theorem first_of_le {n b : Nat} (bs : List Nat) (hpos : 0 < n) (hle : n ≤ b) :
    first n (b :: bs) = [n] := by
  unfold first
  rw [if_neg (Nat.ne_of_gt hpos), if_pos hle]

namespace Holds

theorem nil : Holds [] 0 := ⟨fun _ hb => absurd hb List.not_mem_nil, rfl⟩

theorem first {bs : List Nat} {n k : Nat} (h : Holds bs n) (hk : k ≤ n) :
    Holds (first k bs) k := by
  constructor
  · intro b hb
    exact (pos_of_mem_first h.pos hb).left
  · apply held_first
    rw [h.held_eq]
    exact hk

theorem rest {bs : List Nat} {n : Nat} (h : Holds bs n) (k : Nat) : Holds (rest k bs) (n - k) := by
  constructor
  · intro b hb
    exact pos_of_mem_rest h.pos hb
  · rw [held_rest, h.held_eq]

theorem append {as bs : List Nat} {m n : Nat} (ha : Holds as m) (hb : Holds bs n) :
    Holds (as ++ bs) (m + n) := by
  constructor
  · intro b hin
    rcases List.mem_append.mp hin with hin | hin
    · exact ha.pos b hin
    · exact hb.pos b hin
  · rw [held_append, ha.held_eq, hb.held_eq]

theorem grow {bs : List Nat} {n : Nat} (h : Holds bs n) (k : Nat) (hk : bs = [] -> k = 0) :
    Holds (grow k bs) (n + k) := by
  constructor
  · intro b hb
    exact pos_of_mem_grow h.pos hb
  · cases bs with
    | nil =>
        rw [hk rfl]
        exact h.held_eq
    | cons b bs => rw [held_grow k (List.cons_ne_nil b bs), h.held_eq]

theorem eq_nil_iff {bs : List Nat} {n : Nat} (h : Holds bs n) : bs = [] <-> n = 0 := by
  have hheld := h.held_eq
  cases bs with
  | nil => exact ⟨fun _ => hheld.symm, fun _ => rfl⟩
  | cons b bs =>
      have hb := h.pos b List.mem_cons_self
      rw [held_cons] at hheld
      constructor
      · exact nofun
      · lia

theorem length_le {bs : List Nat} {n : Nat} (h : Holds bs n) : bs.length ≤ n := by
  have hle : bs.length ≤ total id bs := length_le_total h.pos
  rw [← h.held_eq]
  exact hle

end Holds

end Buffers
