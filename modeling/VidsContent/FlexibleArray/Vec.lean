import Mathlib.Data.List.Induction

/-!
# The vector with a flexible array member

`struct Vec` is one heap block: a header of two `size_t` and, behind it, the
cells of `content`.  The allocator is asked for a byte count that is computed
modulo 2^64 and always answers with a block of exactly that size.
-/

namespace VidsContent
namespace FlexibleArray

def sizeofVec : UInt64 := 16

def sizeofInt : UInt64 := 4

/--
The block of a vector.  A cell of `content` that the program has not written
is `none`, since `malloc` and `realloc` leave it indeterminate.
-/
structure Vec where
  capacity : UInt64
  length : UInt64
  content : List (Option Int32)
deriving DecidableEq

def Vec.size (v : Vec) : Nat := 16 + 4 * v.content.length

/-- An access that the block has no bytes for. -/
inductive Stop where
  | headerOutside (size : Nat)
  | contentOutside (index size : Nat)
deriving DecidableEq

def request (capacity : UInt64) : UInt64 := sizeofVec + capacity * sizeofInt

def cells (size : UInt64) : Nat := (size.toNat - 16) / 4

def vecNew (capacity : UInt64) : Except Stop Vec :=
  let size := request capacity
  if size < sizeofVec then
    .error (.headerOutside size.toNat)
  else
    .ok
      { capacity := capacity
        length := 0
        content := List.replicate (cells size) none }

/-- `realloc` to the size that `capacity` asks for, keeping what still fits. -/
def resize (v : Vec) : Except Stop Vec :=
  let size := request v.capacity
  if size < sizeofVec then
    .error (.headerOutside size.toNat)
  else
    .ok
      { v with
        content :=
          v.content.take (cells size) ++
            List.replicate (cells size - v.content.length) none }

def grow (v : Vec) : Except Stop Vec :=
  if v.length = v.capacity then
    resize { v with capacity := v.capacity * 2 }
  else
    .ok v

/-- `v->content[v->length] = x; v->length++;` -/
def store (v : Vec) (x : Int32) : Except Stop Vec :=
  if v.length.toNat < v.content.length then
    .ok
      { v with
        content := v.content.set v.length.toNat (some x)
        length := v.length + 1 }
  else
    .error (.contentOutside v.length.toNat v.size)

def vecPush (v : Vec) (x : Int32) : Except Stop Vec :=
  match grow v with
  | .error stop => .error stop
  | .ok v => store v x

def vecOf (capacity : UInt64) (xs : List Int32) : Except Stop Vec :=
  xs.foldl
    (fun result x =>
      match result with
      | .error stop => .error stop
      | .ok v => vecPush v x)
    (vecNew capacity)

theorem vecOf_append_singleton (capacity : UInt64) (xs : List Int32) (x : Int32) :
    vecOf capacity (xs ++ [x]) =
      match vecOf capacity xs with
      | .error stop => .error stop
      | .ok v => vecPush v x := by
  unfold vecOf
  rw [List.foldl_append]
  rfl

/-!
## Sizes
-/

theorem request_toNat (capacity : UInt64) :
    (request capacity).toNat = (16 + 4 * capacity.toNat) % 18446744073709551616 := by
  unfold request sizeofVec sizeofInt
  rw [UInt64.toNat_add, UInt64.toNat_mul]
  simp only [UInt64.reduceToNat]
  lia

theorem request_lt_iff (capacity : UInt64) :
    request capacity < sizeofVec <->
      (16 + 4 * capacity.toNat) % 18446744073709551616 < 16 := by
  rw [UInt64.lt_iff_toNat_lt, request_toNat]
  rfl

theorem size_of_cells {capacity : UInt64} (h : ¬ request capacity < sizeofVec) :
    16 + 4 * cells (request capacity) =
      (16 + 4 * capacity.toNat) % 18446744073709551616 := by
  rw [request_lt_iff] at h
  unfold cells
  rw [request_toNat]
  lia

/-- The byte count for a capacity fits in a `size_t`. -/
def Fits (capacity : Nat) : Prop := 16 + 4 * capacity < 18446744073709551616

theorem cells_of_fits {capacity : UInt64} (h : Fits capacity.toNat) :
    ¬ request capacity < sizeofVec ∧ cells (request capacity) = capacity.toNat := by
  unfold Fits at h
  have hsize : ¬ request capacity < sizeofVec := by
    rw [request_lt_iff]
    lia
  have hcells := size_of_cells hsize
  constructor
  · exact hsize
  · lia

def doubled (capacity : Nat) : Nat -> Nat
  | 0 => capacity
  | k + 1 => 2 * doubled capacity k

theorem doubled_le_doubled (capacity : Nat) {j k : Nat} (hjk : j ≤ k) :
    doubled capacity j ≤ doubled capacity k := by
  induction hjk with
  | refl => exact Nat.le_refl _
  | step _ ih =>
      simp only [doubled]
      lia

theorem doubled_pos_iff {capacity : Nat} (k : Nat) :
    0 < doubled capacity k <-> 0 < capacity := by
  induction k with
  | zero => exact Iff.rfl
  | succ k ih =>
      simp only [doubled]
      lia

/-!
## Bounds
-/

def InBounds (v : Vec) : Prop :=
  v.length ≤ v.capacity ∧ 16 + 4 * v.capacity.toNat ≤ v.size

/-- Every prefix of the pushes succeeds and leaves a vector in bounds. -/
def StaysInBounds (capacity : UInt64) (xs : List Int32) : Prop :=
  forall ys, ys <+: xs -> exists v, vecOf capacity ys = .ok v ∧ InBounds v

structure Inv (capacity n : Nat) (v : Vec) : Prop where
  length : v.length.toNat = n
  doublings : exists k, v.capacity.toNat = doubled capacity k
  le : n ≤ v.capacity.toNat
  fits : Fits v.capacity.toNat
  cells : v.content.length = v.capacity.toNat

theorem Inv.inBounds {capacity n : Nat} {v : Vec} (h : Inv capacity n v) : InBounds v := by
  constructor
  · rw [UInt64.le_iff_toNat_le, h.length]
    exact h.le
  · unfold Vec.size
    exact Nat.le_of_eq (by rw [h.cells])

theorem inv_vecNew {capacity : UInt64} (hfits : Fits capacity.toNat) :
    exists v, vecNew capacity = .ok v ∧ Inv capacity.toNat 0 v := by
  rcases cells_of_fits hfits with ⟨hsize, hcells⟩
  unfold vecNew
  simp only
  rw [if_neg hsize, hcells]
  exact ⟨_, rfl, rfl, ⟨0, rfl⟩, Nat.zero_le _, hfits, List.length_replicate⟩

theorem fits_of_vecNew {capacity : UInt64} {v : Vec} (hnew : vecNew capacity = .ok v)
    (hbounds : InBounds v) : Fits capacity.toNat := by
  unfold vecNew at hnew
  simp only at hnew
  split at hnew
  · cases hnew
  · rename_i hsize
    cases hnew
    have hroom := hbounds.right
    simp only [Vec.size, List.length_replicate] at hroom
    rw [size_of_cells hsize] at hroom
    unfold Fits
    lia

/-!
## One push
-/

theorem store_ok {v : Vec} (x : Int32) (hroom : v.length.toNat < v.content.length) :
    store v x =
      .ok
        { v with
          content := v.content.set v.length.toNat (some x)
          length := v.length + 1 } := by
  unfold store
  rw [if_pos hroom]

theorem length_add_one {v : Vec} {n : Nat} (hlength : v.length.toNat = n)
    (hfits : Fits n) : (v.length + 1).toNat = n + 1 := by
  unfold Fits at hfits
  rw [UInt64.toNat_add, hlength]
  simp only [UInt64.reduceToNat]
  lia

theorem inv_store {capacity n : Nat} {v : Vec} {x : Int32} (h : Inv capacity n v)
    (hroom : n < v.capacity.toNat) :
    exists next, store v x = .ok next ∧ Inv capacity (n + 1) next := by
  have hfits : Fits n := by
    have hcapacity := h.fits
    unfold Fits at hcapacity ⊢
    lia
  refine ⟨_, store_ok x (by rw [h.length, h.cells]; exact hroom),
    length_add_one h.length hfits, h.doublings, hroom, h.fits, ?_⟩
  simp only [List.length_set]
  exact h.cells

theorem grow_full {v : Vec} (hfull : v.length = v.capacity) :
    grow v = resize { v with capacity := v.capacity * 2 } := by
  unfold grow
  rw [if_pos hfull]

theorem capacity_mul_two {v : Vec} (hfits : Fits v.capacity.toNat) :
    (v.capacity * 2).toNat = 2 * v.capacity.toNat := by
  unfold Fits at hfits
  rw [UInt64.toNat_mul]
  simp only [UInt64.reduceToNat]
  lia

theorem inv_grow {capacity n : Nat} {v : Vec} (h : Inv capacity n v)
    (hfull : n = v.capacity.toNat) (hpos : 0 < n) (hfits : Fits (2 * v.capacity.toNat)) :
    exists next, grow v = .ok next ∧ Inv capacity n next ∧ n < next.capacity.toNat := by
  have hlength : v.length = v.capacity := by
    apply UInt64.toNat_inj.mp
    rw [h.length, hfull]
  have hdouble := capacity_mul_two h.fits
  rw [← hdouble] at hfits
  rcases cells_of_fits hfits with ⟨hsize, hcells⟩
  rcases h.doublings with ⟨k, hk⟩
  have hcontent := h.cells
  rw [grow_full hlength]
  unfold resize
  simp only
  rw [if_neg hsize, hcells]
  refine ⟨_, rfl, ⟨h.length, ⟨k + 1, ?_⟩, ?_, hfits, ?_⟩, ?_⟩
  · simp only [doubled]
    rw [hdouble, hk]
  · simp only
    lia
  · simp only [List.length_append, List.length_take, List.length_replicate]
    lia
  · simp only
    lia

theorem grow_with_room {capacity n : Nat} {v : Vec} (h : Inv capacity n v)
    (hroom : n < v.capacity.toNat) : grow v = .ok v := by
  unfold grow
  rw [if_neg]
  intro hfull
  rw [← hfull, h.length] at hroom
  exact Nat.lt_irrefl n hroom

theorem vecPush_of_grow {v grown : Vec} (x : Int32) (hgrow : grow v = .ok grown) :
    vecPush v x = store grown x := by
  unfold vecPush
  rw [hgrow]

theorem inv_push {capacity n : Nat} {v : Vec} (x : Int32) (h : Inv capacity n v)
    (hdouble : n = v.capacity.toNat -> 0 < n ∧ Fits (2 * v.capacity.toNat)) :
    exists next, vecPush v x = .ok next ∧ Inv capacity (n + 1) next := by
  rcases Nat.lt_or_eq_of_le h.le with hroom | hfull
  · rw [vecPush_of_grow x (grow_with_room h hroom)]
    exact inv_store h hroom
  · rcases hdouble hfull with ⟨hpos, hfits⟩
    rcases inv_grow h hfull hpos hfits with ⟨grown, hgrow, hinv, hroom⟩
    rw [vecPush_of_grow x hgrow]
    exact inv_store hinv hroom

theorem inv_vecPush {capacity n : Nat} {v : Vec} {x : Int32} (h : Inv capacity n v)
    (hfits : exists k, n + 1 ≤ doubled capacity k ∧ Fits (doubled capacity k)) :
    exists next, vecPush v x = .ok next ∧ Inv capacity (n + 1) next := by
  apply inv_push x h
  intro hfull
  rcases h.doublings with ⟨i, hi⟩
  rcases hfits with ⟨k, hk, hfitsK⟩
  have hik : i + 1 ≤ k := by
    apply Nat.lt_of_not_le
    intro hki
    have hmono := doubled_le_doubled capacity hki
    lia
  have hmore : doubled capacity (i + 1) ≤ doubled capacity k :=
    doubled_le_doubled capacity hik
  constructor
  · rw [hfull, hi, doubled_pos_iff, ← doubled_pos_iff k]
    lia
  · unfold Fits at hfitsK ⊢
    rw [hi]
    simp only [doubled] at hmore
    lia

/-!
## Pushes that leave the bounds
-/

theorem resize_spec {v next : Vec} (h : resize v = .ok next) :
    next.capacity = v.capacity ∧ next.length = v.length ∧
      next.size = (16 + 4 * v.capacity.toNat) % 18446744073709551616 := by
  unfold resize at h
  simp only at h
  split at h
  · cases h
  · rename_i hsize
    cases h
    refine ⟨rfl, rfl, ?_⟩
    rw [← size_of_cells hsize]
    simp only [Vec.size, List.length_append, List.length_take, List.length_replicate]
    lia

theorem store_spec {v next : Vec} {x : Int32} (h : store v x = .ok next) :
    next.capacity = v.capacity ∧ next.length = v.length + 1 ∧ next.size = v.size := by
  unfold store at h
  split at h
  · cases h
    exact ⟨rfl, rfl, by simp [Vec.size]⟩
  · cases h

theorem vecPush_ok {v next : Vec} {x : Int32} (h : vecPush v x = .ok next) :
    exists grown, grow v = .ok grown ∧ store grown x = .ok next := by
  unfold vecPush at h
  split at h
  · cases h
  · rename_i grown hgrow
    exact ⟨grown, hgrow, h⟩

/-- A full vector that is still in bounds after a push could double its capacity. -/
theorem fits_of_full {capacity n : Nat} {v next : Vec} {x : Int32}
    (h : Inv capacity n v) (hfull : n = v.capacity.toNat)
    (hpush : vecPush v x = .ok next) (hbounds : InBounds next) :
    0 < n ∧ Fits (2 * v.capacity.toNat) := by
  rcases vecPush_ok hpush with ⟨grown, hgrow, hstore⟩
  have hlength : v.length = v.capacity := by
    apply UInt64.toNat_inj.mp
    rw [h.length, hfull]
  rw [grow_full hlength] at hgrow
  rcases resize_spec hgrow with ⟨hcapacity, hlengthGrown, hsize⟩
  rcases store_spec hstore with ⟨hcapacity', hlength', hsize'⟩
  simp only at hcapacity hlengthGrown hsize
  rcases hbounds with ⟨hle, hroom⟩
  rw [UInt64.le_iff_toNat_le, hcapacity', hlength', hcapacity, hlengthGrown,
    length_add_one h.length (by rw [hfull]; exact h.fits), capacity_mul_two h.fits] at hle
  rw [hcapacity', hsize', hsize, hcapacity, capacity_mul_two h.fits] at hroom
  constructor
  · lia
  · unfold Fits
    lia

theorem inv_of_inBounds {capacity n : Nat} {v next : Vec} {x : Int32}
    (h : Inv capacity n v) (hpush : vecPush v x = .ok next) (hbounds : InBounds next) :
    Inv capacity (n + 1) next := by
  have hreached : exists other, vecPush v x = .ok other ∧ Inv capacity (n + 1) other :=
    inv_push x h fun hfull => fits_of_full h hfull hpush hbounds
  rcases hreached with ⟨other, hother, hinv⟩
  rw [hpush] at hother
  cases hother
  exact hinv

/-!
## All pushes
-/

theorem inv_vecOf (capacity : UInt64) (xs : List Int32) {k : Nat}
    (hle : xs.length ≤ doubled capacity.toNat k) (hfits : Fits (doubled capacity.toNat k)) :
    exists v, vecOf capacity xs = .ok v ∧ Inv capacity.toNat xs.length v := by
  induction xs using List.reverseRecOn with
  | nil =>
      have hstart : Fits capacity.toNat := by
        have hmono := doubled_le_doubled capacity.toNat (Nat.zero_le k)
        unfold Fits at hfits ⊢
        simp only [doubled] at hmono
        lia
      exact inv_vecNew hstart
  | append_singleton xs x ih =>
      rw [List.length_append, List.length_singleton] at hle
      rcases ih (by lia) with ⟨v, hv, hinv⟩
      rw [vecOf_append_singleton, hv, List.length_append, List.length_singleton]
      exact inv_vecPush hinv ⟨k, hle, hfits⟩

theorem inv_of_staysInBounds {capacity : UInt64} {xs : List Int32}
    (h : StaysInBounds capacity xs) :
    exists v, vecOf capacity xs = .ok v ∧ Inv capacity.toNat xs.length v := by
  induction xs using List.reverseRecOn with
  | nil =>
      rcases h [] (List.prefix_refl []) with ⟨v, hv, hbounds⟩
      exact inv_vecNew (fits_of_vecNew hv hbounds)
  | append_singleton xs x ih =>
      rcases ih fun ys hys => h ys (hys.trans (List.prefix_append xs [x])) with
        ⟨v, hv, hinv⟩
      rcases h (xs ++ [x]) (List.prefix_refl _) with ⟨next, hnext, hbounds⟩
      have hpush : vecPush v x = .ok next := by
        rw [vecOf_append_singleton, hv] at hnext
        exact hnext
      rw [List.length_append, List.length_singleton]
      exact ⟨next, hnext, inv_of_inBounds hinv hpush hbounds⟩

/--
The vector stays in bounds exactly when some doubling of the initial capacity
holds all the elements and the byte count for it still fits in a `size_t`.
-/
theorem staysInBounds_iff (capacity : UInt64) (xs : List Int32) :
    StaysInBounds capacity xs <->
      exists k, xs.length ≤ doubled capacity.toNat k ∧ Fits (doubled capacity.toNat k) := by
  constructor
  · intro h
    rcases inv_of_staysInBounds h with ⟨v, _, hinv⟩
    rcases hinv.doublings with ⟨k, hk⟩
    exact ⟨k, by rw [← hk]; exact hinv.le, by rw [← hk]; exact hinv.fits⟩
  · rintro ⟨k, hle, hfits⟩ ys hys
    rcases inv_vecOf capacity ys (Nat.le_trans hys.length_le hle) hfits with ⟨v, hv, hinv⟩
    exact ⟨v, hv, hinv.inBounds⟩

example : vecNew 4611686018427387900 = .error (.headerOutside 0) := by decide

/-- Doubling an empty capacity makes no room: the first store is outside the block. -/
theorem push_on_empty_capacity :
    vecOf 0 [7] = .error (.contentOutside 0 16) ∧ ¬ StaysInBounds 0 [7] := by
  have hpush : vecOf 0 [7] = .error (.contentOutside 0 16) := by decide
  constructor
  · exact hpush
  · intro h
    rcases h [7] (List.prefix_refl [7]) with ⟨v, hv, _⟩
    rw [hpush] at hv
    cases hv

end FlexibleArray
end VidsContent
