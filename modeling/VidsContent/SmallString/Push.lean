import VidsContent.SmallString.Operations

/-!
# Pushing refines list append

Whatever is pushed onto a new string, in whatever number, the string represents
the pushed list; the representation and the capacity depend on the length only.
-/

namespace VidsContent
namespace SmallString

/-- The capacity law of strings that were only pushed onto. -/
def PushedCapacity (s : String) : Prop :=
  (isSmall s = true ∧ s.length < stringSmallStorageSize) ∨
    (isSmall s = false ∧ stringSmallStorageSize ≤ s.length ∧
      s.capacity = s.length + (stringSmallStorageSize - 1))

theorem pushedCapacity_stringNew (garbage : Addr) :
    PushedCapacity (stringNew garbage) :=
  Or.inl ⟨rfl, Nat.succ_pos 7⟩

theorem pushedCapacity_push {h : Heap} {s s' : String} {cs : List UInt8}
    (hrep : Represents h s cs) (hlaw : PushedCapacity s)
    (hlength : s'.length = s.length + 1)
    (hcapacity : s'.capacity = grownCapacity s 1) : PushedCapacity s' := by
  rcases hlaw with ⟨hsmall, hlt⟩ | ⟨hlarge, hge, hcap⟩
  · have hcap := hrep.small_capacity hsmall
    by_cases hroom : s.length + 1 ≥ stringSmallStorageSize
    · right
      have hgrown : s'.capacity = s.length + stringSmallStorageSize := by
        rw [hcapacity, grownCapacity_switch hsmall hroom]
      rw [isSmall_eq_false_iff, hgrown, hlength]
      unfold stringSmallStorageSize at *
      lia
    · left
      have hkept : s'.capacity = s.capacity := by
        rw [hcapacity, grownCapacity_stay hsmall hroom]
      rw [isSmall_iff, hkept, hcap, hlength]
      unfold stringSmallStorageSize at *
      lia
  · right
    have hgrown : s'.capacity = s.capacity + 1 := by
      rw [hcapacity, grownCapacity_large 1 hlarge]
    rw [isSmall_eq_false_iff, hgrown, hlength, hcap]
    unfold stringSmallStorageSize at *
    lia

theorem pushAll_spec {h : Heap} {s : String} {cs : List UInt8}
    (pushes : List (UInt8 × Allocation)) (hrep : Represents h s cs)
    (hlaw : PushedCapacity s) :
    pushAll h s pushes = .error .allocationFailed ∨
      exists h' s', pushAll h s pushes = .ok (h', s') ∧
        Represents h' s' (cs ++ pushes.map Prod.fst) ∧ PushedCapacity s' := by
  induction pushes generalizing h s cs with
  | nil =>
      exact Or.inr ⟨h, s, rfl, by simpa using hrep, hlaw⟩
  | cons push pushes ih =>
      rcases push with ⟨c, a⟩
      rcases stringPushChar_spec a c hrep with
        hfail | ⟨h₁, s₁, hok, hrep₁, _, hcapacity⟩
      · left
        simp [pushAll, hfail, bind, Except.bind]
      · have hlength : s₁.length = s.length + 1 := by
          rw [hrep₁.length_eq, hrep.length_eq, List.length_append,
            List.length_singleton]
        have hlaw₁ := pushedCapacity_push hrep hlaw hlength hcapacity
        have hunfold : pushAll h s ((c, a) :: pushes) = pushAll h₁ s₁ pushes := by
          simp [pushAll, hok, bind, Except.bind]
        rw [hunfold]
        simpa [List.append_assoc] using ih hrep₁ hlaw₁

/--
Pushing a list of characters onto a new string, when every allocation succeeds:
no store leaves the storage in use, the data begin with the list and a NUL, the
string is small exactly up to seven characters, and a large one has capacity
`length + 7`.
-/
theorem pushAll_refines_append (h : Heap) (garbage : Addr)
    (pushes : List (UInt8 × Allocation))
    (hsucceeds : pushAll h (stringNew garbage) pushes ≠ .error .allocationFailed) :
    exists h' s' rest,
      pushAll h (stringNew garbage) pushes = .ok (h', s') ∧
        s'.length = pushes.length ∧
        stringData h' s' = some (pushes.map Prod.fst ++ 0 :: rest) ∧
        (isSmall s' = true <-> pushes.length ≤ 7) ∧
        (isSmall s' = false -> s'.capacity = s'.length + 7) := by
  rcases pushAll_spec pushes (stringNew_represents h garbage)
    (pushedCapacity_stringNew garbage) with hfail | ⟨h', s', hok, hrep, hlaw⟩
  · exact absurd hfail hsucceeds
  · rw [List.nil_append] at hrep
    rcases hrep.data with ⟨rest, hdata, _⟩
    have hlength : s'.length = pushes.length := by
      rw [hrep.length_eq, List.length_map]
    refine ⟨h', s', rest, hok, hlength, hdata, ?_⟩
    rw [← hlength]
    rcases hlaw with ⟨hsmall, hlt⟩ | ⟨hlarge, hge, hcap⟩
    · unfold stringSmallStorageSize at *
      constructor
      · constructor
        · intro _
          lia
        · intro _
          exact hsmall
      · intro hlarge
        rw [hsmall] at hlarge
        cases hlarge
    · unfold stringSmallStorageSize at *
      constructor
      · constructor
        · intro hsmall
          rw [hlarge] at hsmall
          cases hsmall
        · intro hle
          lia
      · intro _
        exact hcap

theorem pushAll_refines_append_nine :
    exists h' s' rest,
      pushAll (fun _ => none) (stringNew (Vector.replicate stringSmallStorageSize 0))
          ([104, 101, 0, 108, 111, 33, 33, 33, 33].map fun c =>
            (c, ⟨Vector.replicate stringSmallStorageSize 1, fun _ => 0⟩)) =
        .ok (h', s') ∧
        s'.length = 9 ∧
        stringData h' s' =
          some ([104, 101, 0, 108, 111, 33, 33, 33, 33] ++ 0 :: rest) ∧
        isSmall s' = false ∧ s'.capacity = 16 := by
  let pushes : List (UInt8 × Allocation) :=
    [104, 101, 0, 108, 111, 33, 33, 33, 33].map fun c =>
      (c, ⟨Vector.replicate stringSmallStorageSize 1, fun _ => 0⟩)
  have hsucceeds :
      pushAll (fun _ => none)
        (stringNew (Vector.replicate stringSmallStorageSize 0)) pushes ≠
          .error .allocationFailed := by
    intro hfail
    have hok := congrArg Except.isOk hfail
    revert hok
    decide
  rcases pushAll_refines_append _ _ pushes hsucceeds with
    ⟨h', s', rest, hok, hlength, hdata, hsmall, hcap⟩
  have hlarge : isSmall s' = false := by
    cases hcase : isSmall s' with
    | false => rfl
    | true => exact absurd (hsmall.mp hcase) (by decide)
  refine ⟨h', s', rest, hok, hlength, hdata, hlarge, ?_⟩
  rw [hcap hlarge, hlength]
  rfl

end SmallString
end VidsContent
