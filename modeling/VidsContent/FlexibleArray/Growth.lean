import Mathlib
import VidsContent.FlexibleArray.Vec

/-!
# Growth

What the pushes leave in the block and what the reallocations have carried over.
-/

namespace VidsContent
namespace FlexibleArray

/-- `carried` is history: the written cells in the block of each reallocation. -/
structure Traced where
  vec : Vec
  carried : List Nat

def growTraced (t : Traced) : Except Stop Traced :=
  if t.vec.length = t.vec.capacity then
    match resize { t.vec with capacity := t.vec.capacity * 2 } with
    | .error stop => .error stop
    | .ok grown =>
        .ok { vec := grown, carried := t.carried ++ [grown.content.countP Option.isSome] }
  else
    .ok t

def pushTraced (t : Traced) (x : Int32) : Except Stop Traced :=
  match growTraced t with
  | .error stop => .error stop
  | .ok grown =>
      match store grown.vec x with
      | .error stop => .error stop
      | .ok next => .ok { grown with vec := next }

def tracedNew (capacity : UInt64) : Except Stop Traced :=
  match vecNew capacity with
  | .error stop => .error stop
  | .ok v => .ok { vec := v, carried := [] }

def tracedOf (capacity : UInt64) (xs : List Int32) : Except Stop Traced :=
  xs.foldl
    (fun result x =>
      match result with
      | .error stop => .error stop
      | .ok t => pushTraced t x)
    (tracedNew capacity)

theorem tracedOf_append_singleton (capacity : UInt64) (xs : List Int32) (x : Int32) :
    tracedOf capacity (xs ++ [x]) =
      match tracedOf capacity xs with
      | .error stop => .error stop
      | .ok t => pushTraced t x := by
  unfold tracedOf
  rw [List.foldl_append]
  rfl

theorem growTraced_full {t : Traced} {grown : Vec} (hfull : t.vec.length = t.vec.capacity)
    (hresize : resize { t.vec with capacity := t.vec.capacity * 2 } = .ok grown) :
    growTraced t =
      .ok { vec := grown, carried := t.carried ++ [grown.content.countP Option.isSome] } := by
  unfold growTraced
  rw [if_pos hfull, hresize]

theorem growTraced_with_room {t : Traced} (hroom : t.vec.length ≠ t.vec.capacity) :
    growTraced t = .ok t := by
  unfold growTraced
  rw [if_neg hroom]

/-- The history is erased by the program's own `grow`. -/
theorem grow_of_growTraced {t grown : Traced} (h : growTraced t = .ok grown) :
    grow t.vec = .ok grown.vec := by
  by_cases hfull : t.vec.length = t.vec.capacity
  · rw [grow_full hfull]
    unfold growTraced at h
    rw [if_pos hfull] at h
    split at h
    · cases h
    · rename_i resized hresize
      cases h
      exact hresize
  · rw [growTraced_with_room hfull] at h
    cases h
    unfold grow
    rw [if_neg hfull]

theorem vecPush_of_pushTraced {t next : Traced} {x : Int32}
    (h : pushTraced t x = .ok next) : vecPush t.vec x = .ok next.vec := by
  unfold pushTraced at h
  split at h
  · cases h
  · rename_i grown hgrow
    rw [vecPush_of_grow x (grow_of_growTraced hgrow)]
    split at h
    · cases h
    · rename_i stored hstore
      cases h
      exact hstore

theorem vecOf_of_tracedOf {capacity : UInt64} {xs : List Int32} {t : Traced}
    (h : tracedOf capacity xs = .ok t) : vecOf capacity xs = .ok t.vec := by
  induction xs using List.reverseRecOn generalizing t with
  | nil =>
      simp only [tracedOf, List.foldl_nil, tracedNew] at h
      simp only [vecOf, List.foldl_nil]
      split at h
      · cases h
      · rename_i v hv
        cases h
        exact hv
  | append_singleton xs x ih =>
      rw [tracedOf_append_singleton] at h
      rw [vecOf_append_singleton]
      split at h
      · cases h
      · rename_i before hbefore
        rw [ih hbefore]
        exact vecPush_of_pushTraced h

theorem doubled_eq (capacity k : Nat) : doubled capacity k = capacity * 2 ^ k := by
  induction k with
  | zero => simp [doubled]
  | succ k ih =>
      rw [doubled, ih, Nat.pow_succ]
      lia

/-!
## What the pushes leave
-/

/-- The block behind `xs`: the elements in order, and cells that nothing has written. -/
def Holds (xs : List Int32) (v : Vec) : Prop :=
  v.content = xs.map some ++ List.replicate (v.capacity.toNat - xs.length) none

structure Grown (capacity : Nat) (xs : List Int32) (t : Traced) : Prop where
  inv : Inv capacity xs.length t.vec
  holds : Holds xs t.vec
  doublings : t.vec.capacity.toNat = doubled capacity t.carried.length
  least : forall j, xs.length ≤ doubled capacity j -> t.carried.length ≤ j
  carried : t.carried.sum + capacity = doubled capacity t.carried.length

theorem grown_tracedNew {capacity : UInt64} (hfits : Fits capacity.toNat) :
    exists t, tracedNew capacity = .ok t ∧ Grown capacity.toNat [] t := by
  rcases inv_vecNew hfits with ⟨v, hnew, hinv⟩
  have hv := hnew
  unfold vecNew at hv
  simp only at hv
  rw [if_neg (cells_of_fits hfits).left, (cells_of_fits hfits).right] at hv
  cases hv
  refine ⟨⟨_, []⟩, ?_, hinv, ?_, rfl, ?_, ?_⟩
  · unfold tracedNew
    rw [hnew]
  · simp [Holds]
  · intro j _
    exact Nat.zero_le j
  · simp [doubled]

theorem holds_store {capacity : Nat} {xs : List Int32} {v : Vec} {x : Int32}
    (hinv : Inv capacity xs.length v) (h : Holds xs v) (hroom : xs.length < v.capacity.toNat) :
    exists next, store v x = .ok next ∧ next.capacity = v.capacity ∧
      Inv capacity (xs ++ [x]).length next ∧ Holds (xs ++ [x]) next := by
  rcases inv_store hinv hroom with ⟨next, hstore, hnext⟩
  have hcell : v.length.toNat < v.content.length := by
    rw [hinv.length, hinv.cells]
    exact hroom
  have hroomOne : v.capacity.toNat - xs.length = v.capacity.toNat - (xs.length + 1) + 1 := by
    lia
  refine ⟨next, hstore, (store_spec hstore).left, by simpa using hnext, ?_⟩
  rw [store_ok x hcell] at hstore
  cases hstore
  unfold Holds at h ⊢
  simp only
  rw [hinv.length, h, hroomOne, List.replicate_succ,
    List.set_append_right _ _ (by rw [List.length_map]), List.length_map, Nat.sub_self,
    List.set_cons_zero]
  simp

theorem holds_resize {capacity : Nat} {xs : List Int32} {v : Vec}
    (hinv : Inv capacity xs.length v) (h : Holds xs v) (hfull : xs.length = v.capacity.toNat)
    (hfits : Fits (2 * v.capacity.toNat)) :
    exists grown, resize { v with capacity := v.capacity * 2 } = .ok grown ∧
      grown.capacity.toNat = 2 * v.capacity.toNat ∧ Holds xs grown := by
  have hdouble := capacity_mul_two hinv.fits
  rw [← hdouble] at hfits
  rcases cells_of_fits hfits with ⟨hsize, hcells⟩
  have hcontent := hinv.cells
  unfold resize
  simp only
  rw [if_neg hsize, hcells, List.take_of_length_le (by lia)]
  refine ⟨_, rfl, hdouble, ?_⟩
  unfold Holds at h ⊢
  simp only
  rw [hcontent, ← hfull, h, ← hfull, Nat.sub_self, List.replicate_zero, List.append_nil]

theorem countP_isSome_of_holds {xs : List Int32} {v : Vec} (h : Holds xs v) :
    v.content.countP Option.isSome = xs.length := by
  unfold Holds at h
  rw [h, List.countP_append]
  simp [List.countP_replicate, List.countP_map, Function.comp_def]

theorem pushTraced_of_store {t grown : Traced} {x : Int32} {next : Vec}
    (hgrow : growTraced t = .ok grown) (hstore : store grown.vec x = .ok next) :
    pushTraced t x = .ok { grown with vec := next } := by
  unfold pushTraced
  rw [hgrow]
  simp only
  rw [hstore]

theorem grown_full {capacity : Nat} {xs : List Int32} {t : Traced} (x : Int32)
    (h : Grown capacity xs t) (hfull : xs.length = t.vec.capacity.toNat) (hpos : 0 < xs.length)
    (hfits : Fits (2 * t.vec.capacity.toNat)) :
    exists next, pushTraced t x = .ok next ∧ Grown capacity (xs ++ [x]) next := by
  have hlength : t.vec.length = t.vec.capacity := by
    apply UInt64.toNat_inj.mp
    rw [h.inv.length, hfull]
  rcases inv_grow h.inv hfull hpos hfits with ⟨grown, hgrow, hinv, hroom⟩
  rcases holds_resize h.inv h.holds hfull hfits with ⟨resized, hresize, hdouble, hholds⟩
  have hsame : grown = resized := by
    rw [grow_full hlength, hresize] at hgrow
    exact (Except.ok.inj hgrow).symm
  subst hsame
  rcases holds_store hinv hholds hroom with ⟨next, hstore, hcapacity, hnext, hholdsNext⟩
  have hmore : next.capacity.toNat = doubled capacity (t.carried.length + 1) := by
    rw [hcapacity, hdouble, h.doublings]
    rfl
  refine ⟨_, pushTraced_of_store (growTraced_full hlength hresize) hstore, ?_⟩
  rw [countP_isSome_of_holds hholds]
  constructor
  · exact hnext
  · exact hholdsNext
  · rw [List.length_append, List.length_singleton]
    exact hmore
  · intro j hj
    rw [List.length_append, List.length_singleton] at hj ⊢
    apply Nat.lt_of_not_le
    intro hle
    have hmono := doubled_le_doubled capacity hle
    have hdoublings := h.doublings
    lia
  · have hcarried := h.carried
    have hdoublings := h.doublings
    simp only [List.sum_append, List.sum_singleton, List.length_append, List.length_singleton,
      doubled]
    lia

theorem grown_with_room {capacity : Nat} {xs : List Int32} {t : Traced} (x : Int32)
    (h : Grown capacity xs t) (hroom : xs.length < t.vec.capacity.toNat) :
    exists next, pushTraced t x = .ok next ∧ Grown capacity (xs ++ [x]) next := by
  have hlength : t.vec.length ≠ t.vec.capacity := by
    intro heq
    rw [← heq, h.inv.length] at hroom
    exact Nat.lt_irrefl _ hroom
  rcases holds_store h.inv h.holds hroom with ⟨next, hstore, hcapacity, hnext, hholds⟩
  refine ⟨_, pushTraced_of_store (growTraced_with_room hlength) hstore, ?_⟩
  constructor
  · exact hnext
  · exact hholds
  · simp only
    rw [hcapacity]
    exact h.doublings
  · intro j hj
    rw [List.length_append, List.length_singleton] at hj
    exact h.least j (by lia)
  · exact h.carried

theorem grown_push {capacity : Nat} {xs : List Int32} {t : Traced} {x : Int32} {k : Nat}
    (h : Grown capacity xs t) (hpos : 0 < capacity)
    (hle : (xs ++ [x]).length ≤ doubled capacity k) (hfits : Fits (doubled capacity k)) :
    exists next, pushTraced t x = .ok next ∧ Grown capacity (xs ++ [x]) next := by
  rw [List.length_append, List.length_singleton] at hle
  rcases Nat.lt_or_eq_of_le h.inv.le with hroom | hfull
  · exact grown_with_room x h hroom
  · have hdoublings := h.doublings
    have hlt : t.carried.length < k := by
      apply Nat.lt_of_not_le
      intro hkn
      have hmono := doubled_le_doubled capacity hkn
      lia
    have hmono : doubled capacity (t.carried.length + 1) ≤ doubled capacity k :=
      doubled_le_doubled capacity hlt
    have hsome : 0 < doubled capacity t.carried.length := (doubled_pos_iff _).mpr hpos
    apply grown_full x h hfull
    · lia
    · unfold Fits at hfits ⊢
      simp only [doubled] at hmono
      lia

theorem grown_tracedOf {capacity : UInt64} {xs : List Int32} {k : Nat}
    (hpos : 0 < capacity.toNat) (hle : xs.length ≤ doubled capacity.toNat k)
    (hfits : Fits (doubled capacity.toNat k)) :
    exists t, tracedOf capacity xs = .ok t ∧ Grown capacity.toNat xs t := by
  induction xs using List.reverseRecOn with
  | nil =>
      have hmono := doubled_le_doubled capacity.toNat (Nat.zero_le k)
      simp only [doubled] at hmono
      apply grown_tracedNew
      unfold Fits at hfits ⊢
      lia
  | append_singleton xs x ih =>
      have hbefore : xs.length ≤ doubled capacity.toNat k := by
        rw [List.length_append] at hle
        lia
      rcases ih hbefore with ⟨t, ht, hgrown⟩
      rw [tracedOf_append_singleton, ht]
      exact grown_push hgrown hpos hle hfits

theorem Grown.carried_lt {capacity : Nat} {xs : List Int32} {t : Traced}
    (h : Grown capacity xs t) (hpos : 0 < xs.length) : t.carried.sum < 2 * xs.length := by
  have hcarried := h.carried
  cases hk : t.carried.length with
  | zero =>
      rw [hk] at hcarried
      simp only [doubled] at hcarried
      lia
  | succ k =>
      have hshort : doubled capacity k < xs.length := by
        apply Nat.lt_of_not_le
        intro hle
        have hleast := h.least k hle
        lia
      rw [hk] at hcarried
      simp only [doubled] at hcarried
      lia

theorem exists_isLeast_doubling (n : Nat) {capacity : Nat} (hpos : 0 < capacity) :
    exists k, IsLeast {k | n ≤ capacity * 2 ^ k} k := by
  have hsome : exists k, n ≤ capacity * 2 ^ k := by
    have hpow : n < 2 ^ n := Nat.lt_two_pow_self
    exact ⟨n, Nat.le_trans hpow.le (Nat.le_mul_of_pos_left _ hpos)⟩
  exact ⟨Nat.find hsome, Nat.find_spec hsome, fun j hj => Nat.find_min' hsome hj⟩

/--
Pushing a list stores it in order, in a block that has been doubled as few times
as its length allows, each time with every element so far carried over.
-/
theorem vec_stores_list (capacity : UInt64) (xs : List Int32) (hpos : 1 ≤ capacity.toNat)
    (hfits : forall k, IsLeast {k | xs.length ≤ capacity.toNat * 2 ^ k} k ->
      Fits (capacity.toNat * 2 ^ k)) :
    exists t k, tracedOf capacity xs = .ok t ∧ vecOf capacity xs = .ok t.vec ∧
      t.vec.length.toNat = xs.length ∧
      t.vec.content.take xs.length = xs.map some ∧
      IsLeast {k | xs.length ≤ capacity.toNat * 2 ^ k} k ∧
      t.vec.capacity.toNat = capacity.toNat * 2 ^ k ∧
      t.carried.length = k ∧
      t.carried.sum = capacity.toNat * (2 ^ k - 1) ∧
      (0 < xs.length -> t.carried.sum < 2 * xs.length) := by
  rcases exists_isLeast_doubling xs.length hpos with ⟨k, hk⟩
  have hkFits := hfits k hk
  have hle : xs.length ≤ capacity.toNat * 2 ^ k := hk.left
  rw [← doubled_eq] at hkFits hle
  rcases grown_tracedOf hpos hle hkFits with ⟨t, ht, hgrown⟩
  have hleast : IsLeast {k | xs.length ≤ capacity.toNat * 2 ^ k} t.carried.length := by
    constructor
    · have hroom := hgrown.inv.le
      rw [hgrown.doublings, doubled_eq] at hroom
      exact hroom
    · intro j hj
      apply hgrown.least
      rw [doubled_eq]
      exact hj
  have hcarried := hgrown.carried
  refine ⟨t, t.carried.length, ht, vecOf_of_tracedOf ht, hgrown.inv.length, ?_, hleast, ?_,
    rfl, ?_, hgrown.carried_lt⟩
  · rw [hgrown.holds, List.take_append_of_le_length (by rw [List.length_map]),
      List.take_of_length_le (by rw [List.length_map])]
  · rw [hgrown.doublings, doubled_eq]
  · rw [doubled_eq] at hcarried
    rw [Nat.mul_sub, Nat.mul_one]
    lia

theorem vec_stores_list_squares :
    exists t k, tracedOf 4 [0, 1, 4, 9, 16, 25, 36, 49, 64, 81] = .ok t ∧
      t.vec.capacity.toNat = 4 * 2 ^ k ∧ t.carried.length = k ∧ t.carried.sum < 20 := by
  have hstores := vec_stores_list 4 [0, 1, 4, 9, 16, 25, 36, 49, 64, 81] (by decide) (by
    intro k hk
    have hle : k ≤ 2 := hk.right (by simp : 10 ≤ 4 * 2 ^ 2)
    have hpow : 2 ^ k ≤ 2 ^ 2 := Nat.pow_le_pow_right (by lia) hle
    unfold Fits
    simp only [UInt64.reduceToNat]
    lia)
  rcases hstores with ⟨t, k, ht, _, _, _, _, hcapacity, hk, _, hlt⟩
  exact ⟨t, k, ht, hcapacity, hk, hlt (by simp)⟩

end FlexibleArray
end VidsContent
