import VidsContent.SmallString.Represents

/-!
# Specifications of the string functions

One lemma for each function: from a represented list, either the allocator has
nothing to give, or the function returns a string that represents the expected
list and frames the blocks of every other string.
-/

namespace VidsContent
namespace SmallString

/-!
## Growing
-/

def grownCapacity (s : String) (addedCapacity : Nat) : Nat :=
  if isSmall s then
    if s.length + addedCapacity ≥ stringSmallStorageSize then
      s.length + stringSmallStorageSize
    else
      s.capacity
  else
    s.capacity + addedCapacity

theorem grownCapacity_large {s : String} (k : Nat) (hlarge : isSmall s = false) :
    grownCapacity s k = s.capacity + k := by
  rw [grownCapacity, if_neg (by simp [hlarge])]

theorem grownCapacity_switch {s : String} {k : Nat} (hsmall : isSmall s = true)
    (hgrow : s.length + k ≥ stringSmallStorageSize) :
    grownCapacity s k = s.length + stringSmallStorageSize := by
  rw [grownCapacity, if_pos hsmall, if_pos hgrow]

theorem grownCapacity_stay {s : String} {k : Nat} (hsmall : isSmall s = true)
    (hgrow : ¬ s.length + k ≥ stringSmallStorageSize) :
    grownCapacity s k = s.capacity := by
  rw [grownCapacity, if_pos hsmall, if_neg hgrow]

/-- A block placed where no other string lives, for a string that owned `own`. -/
theorem frame_of_place {h : Heap} {s s' : String} {a : Allocation}
    {block : List UInt8} {h' : Heap}
    (hplace : block? s = some a.addr ∨ h a.addr = none)
    (howner : block? s' = some a.addr)
    (hkept : forall p, p ≠ a.addr -> block? s ≠ some p -> h' p = h p) :
    Frame h s (Function.update h' a.addr (some block)) s' := by
  intro p bytes hp hother
  have hne : p ≠ a.addr := by
    intro heq
    rw [heq] at hp hother
    cases hplace with
    | inl hown => exact hother hown
    | inr hfree => rw [hfree] at hp; cases hp
  constructor
  · rw [Function.update_of_ne hne, hkept p hne hother]
    exact hp
  · rw [howner]
    intro heq
    exact hne (Option.some.inj heq).symm

/-- The switch to the heap: the inline bytes move into the new block. -/
theorem growFor_switch {a : Allocation} {h : Heap} {s : String} {cs : List UInt8}
    {k : Nat} (hrep : Represents h s cs) (hsmall : isSmall s = true)
    (hgrow : s.length + k ≥ stringSmallStorageSize) :
    growFor a h s k = .error .allocationFailed ∨
      exists h' s', growFor a h s k = .ok (h', s') ∧
        Represents h' s' cs ∧ Frame h s h' s' ∧
        s'.capacity = s.length + stringSmallStorageSize := by
  unfold growFor
  rw [if_pos hsmall, if_pos hgrow]
  cases malloc_cases a h (s.length + stringSmallStorageSize) with
  | inl hfail =>
      left
      simp [hfail, bind, Except.bind]
  | inr hok =>
      rcases hok with ⟨hfree, hmalloc⟩
      right
      generalize hfresh :
        resize a.fill [] (s.length + stringSmallStorageSize) = fresh at hmalloc
      have hfreshLen : fresh.length = s.length + stringSmallStorageSize := by
        rw [← hfresh, resize_length]
      let block := s.small.toList ++ fresh.drop s.small.toList.length
      let s' : String :=
        { s with
          overlay := a.addr
          capacity := s.length + stringSmallStorageSize }
      have hlarge : isSmall s' = false :=
        isSmall_eq_false_iff.mpr (Nat.le_add_left _ _)
      have hcopy :
          copyIn (Function.update h a.addr (some fresh)) s'.large s.small.toList =
            .ok (Function.update h a.addr (some block)) := by
        have hle : s.small.toList.length ≤ fresh.length := by
          rw [hfreshLen, small_toList_length]
          exact Nat.le_add_left _ _
        rw [show s'.large = a.addr from rfl,
          copyIn_of_le (Function.update_self a.addr (some fresh) h) hle,
          Function.update_idem]
      refine ⟨Function.update h a.addr (some block), s', ?_, ?_, ?_, rfl⟩
      · simp only [hmalloc, bind, Except.bind]
        rw [hcopy]
      · rcases hrep.inline hsmall with ⟨rest, hinline, hlen⟩
        have hblock : block = cs ++ 0 :: (rest ++ fresh.drop stringSmallStorageSize) := by
          simp only [block, small_toList_length]
          rw [hinline]
          simp
        apply represents_large hlarge hrep.length_eq
        · rw [show s'.large = a.addr from rfl, Function.update_self, hblock]
        · rw [← hblock]
          simp only [block, List.length_append, List.length_drop, hfreshLen, hinline,
            hlen, s']
          lia
      · exact frame_of_place (Or.inr hfree) (block?_large hlarge)
          (fun _ _ _ => rfl)

theorem growFor_large {a : Allocation} {h : Heap} {s : String} {cs : List UInt8}
    {k : Nat} (hrep : Represents h s cs) (hlargeOld : isSmall s = false) :
    growFor a h s k = .error .allocationFailed ∨
      exists h' s', growFor a h s k = .ok (h', s') ∧
        Represents h' s' cs ∧ Frame h s h' s' ∧
        s'.capacity = s.capacity + k := by
  rcases hrep.block hlargeOld with ⟨rest, hblock, hlen⟩
  unfold growFor
  rw [if_neg (by simp [hlargeOld])]
  cases realloc_cases a (s.capacity + k) hblock with
  | inl hfail =>
      left
      simp [hfail, bind, Except.bind]
  | inr hok =>
      rcases hok with ⟨hplace, hrealloc⟩
      right
      let s' : String :=
        { s with overlay := a.addr, capacity := s.capacity + k }
      have hlarge : isSmall s' = false :=
        isSmall_eq_false_iff.mpr
          (Nat.le_trans (isSmall_eq_false_iff.mp hlargeOld) (Nat.le_add_right _ _))
      refine ⟨Function.update (Function.update h s.large none) a.addr
        (some (resize a.fill (cs ++ 0 :: rest) (s.capacity + k))), s',
        by simp only [hrealloc, bind, Except.bind, s'], ?_, ?_, rfl⟩
      · rcases resize_of_le a.fill
          (show (cs ++ 0 :: rest).length ≤ s.capacity + k by lia) with
          ⟨more, hmore⟩
        have hblock : resize a.fill (cs ++ 0 :: rest) (s.capacity + k) =
            cs ++ 0 :: (rest ++ more) := by
          rw [hmore]
          simp
        apply represents_large hlarge hrep.length_eq
        · rw [show s'.large = a.addr from rfl, Function.update_self, hblock]
        · rw [← hblock, resize_length]
      · apply frame_of_place _ (block?_large hlarge)
        · intro p _ hother
          rw [block?_large hlargeOld] at hother
          exact Function.update_of_ne
            (fun heq => hother (congrArg some heq.symm)) none h
        · cases hplace with
          | inl hown => exact Or.inl (by rw [block?_large hlargeOld, hown])
          | inr hfree => exact Or.inr hfree

theorem growFor_spec {h : Heap} {s : String} {cs : List UInt8} (a : Allocation)
    (k : Nat) (hrep : Represents h s cs) :
    growFor a h s k = .error .allocationFailed ∨
      exists h' s', growFor a h s k = .ok (h', s') ∧
        Represents h' s' cs ∧ Frame h s h' s' ∧
        s'.capacity = grownCapacity s k := by
  cases hsmall : isSmall s with
  | false =>
      rw [grownCapacity_large k hsmall]
      exact growFor_large hrep hsmall
  | true =>
      by_cases hgrow : s.length + k ≥ stringSmallStorageSize
      · rw [grownCapacity_switch hsmall hgrow]
        exact growFor_switch hrep hsmall hgrow
      · right
        refine ⟨h, s, ?_, hrep, Frame.refl h s, (grownCapacity_stay hsmall hgrow).symm⟩
        unfold growFor
        rw [if_pos hsmall, if_neg hgrow]

/--
Growing leaves room for the requested characters and the terminator, except that
the switch to the heap counts on at most seven of them.
-/
theorem room_after_growFor_iff {h : Heap} {s s' : String} {cs : List UInt8} {k : Nat}
    (hrep : Represents h s cs) (hcapacity : s'.capacity = grownCapacity s k) :
    cs.length + k < storageSize s' <-> isSmall s = false ∨ k < stringSmallStorageSize := by
  have hlt := hrep.length_lt
  rw [← hrep.length_eq]
  cases hsmall : isSmall s with
  | false =>
      rw [grownCapacity_large k hsmall] at hcapacity
      rw [storageSize_large hsmall] at hlt
      have hlarge : isSmall s' = false := by
        rw [isSmall_eq_false_iff] at hsmall ⊢
        lia
      rw [storageSize_large hlarge, hcapacity]
      simp only [true_or, iff_true]
      lia
  | true =>
      by_cases hgrow : s.length + k ≥ stringSmallStorageSize
      · rw [grownCapacity_switch hsmall hgrow] at hcapacity
        have hlarge : isSmall s' = false := by
          rw [isSmall_eq_false_iff]
          lia
        rw [storageSize_large hlarge, hcapacity]
        simp only [Bool.true_eq_false, false_or]
        lia
      · rw [grownCapacity_stay hsmall hgrow] at hcapacity
        rw [storageSize_of_capacity hcapacity, storageSize_small hsmall]
        simp only [Bool.true_eq_false, false_or]
        lia

theorem room_after_growFor_one {h : Heap} {s s' : String} {cs : List UInt8}
    (hrep : Represents h s cs) (hcapacity : s'.capacity = grownCapacity s 1) :
    cs.length + 1 < storageSize s' := by
  apply (room_after_growFor_iff hrep hcapacity).mpr
  right
  unfold stringSmallStorageSize
  lia

/-!
## Pushing

The two stores of a push overwrite the terminator and the byte after it.
-/

theorem set_set_terminator (cs : List UInt8) (c : UInt8) {rest : List UInt8}
    (hroom : cs.length + 1 < (cs ++ 0 :: rest).length) :
    exists rest',
      ((cs ++ 0 :: rest).set cs.length c).set (cs.length + 1) 0 =
        (cs ++ [c]) ++ 0 :: rest' := by
  cases rest with
  | nil =>
      simp at hroom
  | cons b rest =>
      refine ⟨rest, ?_⟩
      rw [List.set_append_right _ _ (Nat.le_refl _),
        List.set_append_right _ _ (Nat.le_succ _)]
      simp

theorem storeSmall_terminate {h : Heap} {s : String} {cs : List UInt8} (c : UInt8)
    (hrep : Represents h s cs) (hsmall : isSmall s = true)
    (hroom : cs.length + 1 < storageSize s) :
    exists s₁ s₂, storeSmall s s.length c = .ok s₁ ∧
      storeSmall { s₁ with length := s₁.length + 1 } (s₁.length + 1) 0 = .ok s₂ ∧
      Represents h s₂ (cs ++ [c]) ∧ s₂.capacity = s.capacity := by
  rcases hrep.inline hsmall with ⟨rest, hinline, hlen⟩
  rw [storageSize_small hsmall] at hroom
  have hfirst : s.length < stringSmallStorageSize := by
    rw [hrep.length_eq]
    lia
  have hsecond : s.length + 1 < stringSmallStorageSize := by
    rw [hrep.length_eq]
    exact hroom
  rcases set_set_terminator cs c (by rw [hlen]; exact hroom) with ⟨rest', hset⟩
  refine ⟨_, _, storeSmall_of_lt s c hfirst, storeSmall_of_lt _ 0 hsecond, ?_, rfl⟩
  apply represents_small
  · exact hrep.small_capacity hsmall
  · simp [hrep.length_eq]
  · show ((s.small.set s.length c hfirst).set (s.length + 1) 0 hsecond).toList = _
    rw [Vector.toList_set, Vector.toList_set, hinline, hrep.length_eq]
    exact hset

theorem store_terminate {h : Heap} {s : String} {cs : List UInt8} (c : UInt8)
    (hrep : Represents h s cs) (hlarge : isSmall s = false)
    (hroom : cs.length + 1 < storageSize s) :
    exists h₁ h₂, store h s.large s.length c = .ok h₁ ∧
      store h₁ s.large (s.length + 1) 0 = .ok h₂ ∧
      Represents h₂ { s with length := s.length + 1 } (cs ++ [c]) ∧
      Frame h s h₂ { s with length := s.length + 1 } := by
  rcases hrep.block hlarge with ⟨rest, hblock, hlen⟩
  rw [storageSize_large hlarge] at hroom
  rcases set_set_terminator cs c (by rw [hlen]; exact hroom) with ⟨rest', hset⟩
  have hfirst : s.length < (cs ++ 0 :: rest).length := by
    rw [hlen, hrep.length_eq]
    lia
  have hsecond : s.length + 1 < ((cs ++ 0 :: rest).set s.length c).length := by
    rw [List.length_set, hlen, hrep.length_eq]
    exact hroom
  refine ⟨_, _, store_of_lt c hblock hfirst,
    store_of_lt 0 (Function.update_self s.large _ h) hsecond, ?_, ?_⟩
  · apply represents_large
    · exact hlarge
    · simp [hrep.length_eq]
    · show Function.update _ s.large _ s.large = _
      rw [Function.update_self, hrep.length_eq, hset]
    · rw [← hset]
      simpa using hlen
  · rw [Function.update_idem]
    exact frame_of_place (a := ⟨s.large, fun _ => 0⟩)
      (Or.inl (block?_large hlarge)) (block?_large hlarge) (fun _ _ _ => rfl)

def appendChar (h : Heap) (s : String) (c : UInt8) : Except Stop (Heap × String) :=
  if isSmall s then do
    let s <- storeSmall s s.length c
    let s := { s with length := s.length + 1 }
    let s <- storeSmall s s.length 0
    .ok (h, s)
  else do
    let h <- store h s.large s.length c
    let s := { s with length := s.length + 1 }
    let h <- store h s.large s.length 0
    .ok (h, s)

theorem stringPushChar_of_growFor {a : Allocation} {h h' : Heap} {s s' : String} (c : UInt8)
    (hgrow : growFor a h s 1 = .ok (h', s')) :
    stringPushChar a h s c = appendChar h' s' c := by
  unfold stringPushChar
  rw [hgrow]
  rfl

theorem appendChar_spec {h : Heap} {s : String} {cs : List UInt8} (c : UInt8)
    (hrep : Represents h s cs) (hroom : cs.length + 1 < storageSize s) :
    exists h' s', appendChar h s c = .ok (h', s') ∧
      Represents h' s' (cs ++ [c]) ∧ Frame h s h' s' ∧ s'.capacity = s.capacity := by
  unfold appendChar
  cases hsmall : isSmall s with
  | true =>
      rcases storeSmall_terminate c hrep hsmall hroom with
        ⟨s₁, s₂, hfirst, hsecond, hrep₂, hcap⟩
      refine ⟨h, s₂, ?_, hrep₂, ?_, hcap⟩
      · simp [bind, Except.bind, hfirst, hsecond]
      · have hsmall₂ : isSmall s₂ = true := by
          rw [isSmall_of_capacity hcap]
          exact hsmall
        intro p bytes hp _
        exact ⟨hp, by simp [block?_small hsmall₂]⟩
  | false =>
      rcases store_terminate c hrep hsmall hroom with
        ⟨h₁, h₂, hfirst, hsecond, hrep₂, hframe⟩
      refine ⟨h₂, { s with length := s.length + 1 }, ?_, hrep₂, hframe, rfl⟩
      have hlarge : ({ s with length := s.length + 1 } : String).large = s.large := rfl
      simp [bind, Except.bind, hfirst, hlarge, hsecond]

theorem stringPushChar_spec {h : Heap} {s : String} {cs : List UInt8}
    (a : Allocation) (c : UInt8) (hrep : Represents h s cs) :
    stringPushChar a h s c = .error .allocationFailed ∨
      exists h' s', stringPushChar a h s c = .ok (h', s') ∧
        Represents h' s' (cs ++ [c]) ∧ Frame h s h' s' ∧
        s'.capacity = grownCapacity s 1 := by
  rcases growFor_spec a 1 hrep with hfail | ⟨h₀, s₀, hgrow, hrep₀, hframe₀, hcap⟩
  · left
    simp [stringPushChar, hfail, bind, Except.bind]
  · right
    have hroom := room_after_growFor_one hrep hcap
    rcases appendChar_spec c hrep₀ hroom with ⟨h₁, s₁, hok, hrep₁, hframe₁, hcap₁⟩
    rw [stringPushChar_of_growFor c hgrow]
    exact ⟨h₁, s₁, hok, hrep₁, hframe₀.trans hframe₁, by rw [hcap₁, hcap]⟩

/-!
## Copying
-/

theorem stringCopy_small {s : String} (garbage : Addr) (a : Allocation) (h : Heap)
    (hsmall : isSmall s = true) : stringCopy garbage a h s = .ok (h, s) := by
  unfold stringCopy
  exact if_pos hsmall

theorem bind_eq_ok {α β : Type} {x : Except Stop α} {f : α -> Except Stop β} {b : β}
    (h : (x >>= f) = .ok b) : exists r, x = .ok r ∧ f r = .ok b := by
  cases x with
  | error stop => cases h
  | ok r => exact ⟨r, rfl, h⟩

theorem stringCopy_large {s x : String} {garbage : Addr} {a : Allocation}
    {h h' : Heap} (hlarge : isSmall s = false)
    (hcopy : stringCopy garbage a h s = .ok (h', x)) :
    x.length = s.capacity ∧ x.capacity = s.capacity := by
  unfold stringCopy at hcopy
  rw [if_neg (by simp [hlarge])] at hcopy
  rcases bind_eq_ok hcopy with ⟨⟨h₁, large⟩, _, hcopy₁⟩
  rcases bind_eq_ok hcopy₁ with ⟨bytes, _, hcopy₂⟩
  rcases bind_eq_ok hcopy₂ with ⟨h₂, _, hresult⟩
  cases hresult
  exact ⟨rfl, rfl⟩

end SmallString
end VidsContent
