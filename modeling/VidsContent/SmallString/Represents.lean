import VidsContent.SmallString.Model

/-!
# What a small string represents

A string represents a list of characters when its storage, inline or on the
heap, holds them followed by a NUL byte.  Each function is specified by what it
does to the represented list and by the blocks it leaves alone.
-/

namespace VidsContent
namespace SmallString

def storageSize (s : String) : Nat :=
  if isSmall s then stringSmallStorageSize else s.capacity

def block? (s : String) : Option Addr :=
  if isSmall s then none else some s.large

structure Represents (h : Heap) (s : String) (cs : List UInt8) : Prop where
  length_eq : s.length = cs.length
  data : exists rest, stringData h s = some (cs ++ 0 :: rest) ∧
    (cs ++ 0 :: rest).length = storageSize s
  small_capacity : isSmall s = true -> s.capacity = stringSmallStorageSize - 1

/--
A function that turns `s` in heap `h` into `s'` in heap `h'` leaves every block
of other strings as it was, and does not take it over.
-/
def Frame (h : Heap) (s : String) (h' : Heap) (s' : String) : Prop :=
  forall p bytes, h p = some bytes -> block? s ≠ some p ->
    h' p = some bytes ∧ block? s' ≠ some p

theorem Frame.refl (h : Heap) (s : String) : Frame h s h s := by
  intro p bytes hp hs
  exact ⟨hp, hs⟩

theorem Frame.trans {h h' h'' : Heap} {s s' s'' : String}
    (hfirst : Frame h s h' s') (hsecond : Frame h' s' h'' s'') :
    Frame h s h'' s'' := by
  intro p bytes hp hs
  rcases hfirst p bytes hp hs with ⟨hp', hs'⟩
  exact hsecond p bytes hp' hs'

/-!
## The two representations
-/

theorem isSmall_iff {s : String} :
    isSmall s = true <-> s.capacity < stringSmallStorageSize := by
  simp [isSmall]

theorem isSmall_eq_false_iff {s : String} :
    isSmall s = false <-> stringSmallStorageSize ≤ s.capacity := by
  simp [isSmall]

theorem isSmall_of_capacity {s s' : String} (h : s'.capacity = s.capacity) :
    isSmall s' = isSmall s := by
  rw [isSmall, isSmall, h]

theorem storageSize_of_capacity {s s' : String} (h : s'.capacity = s.capacity) :
    storageSize s' = storageSize s := by
  rw [storageSize, storageSize, isSmall_of_capacity h, h]

@[simp] theorem storageSize_small {s : String} (hs : isSmall s = true) :
    storageSize s = stringSmallStorageSize := by
  simp [storageSize, hs]

@[simp] theorem storageSize_large {s : String} (hs : isSmall s = false) :
    storageSize s = s.capacity := by
  simp [storageSize, hs]

@[simp] theorem stringData_small {h : Heap} {s : String} (hs : isSmall s = true) :
    stringData h s = some s.small.toList := by
  simp [stringData, hs]

@[simp] theorem stringData_large {h : Heap} {s : String} (hs : isSmall s = false) :
    stringData h s = h s.large := by
  simp [stringData, hs]

@[simp] theorem block?_small {s : String} (hs : isSmall s = true) :
    block? s = none := by
  simp [block?, hs]

@[simp] theorem block?_large {s : String} (hs : isSmall s = false) :
    block? s = some s.large := by
  simp [block?, hs]

theorem small_toList_length (s : String) :
    s.small.toList.length = stringSmallStorageSize := by
  simp

theorem represents_small {h : Heap} {s : String} {cs rest : List UInt8}
    (hcapacity : s.capacity = stringSmallStorageSize - 1)
    (hlength : s.length = cs.length)
    (hbytes : s.small.toList = cs ++ 0 :: rest) : Represents h s cs where
  length_eq := hlength
  data := by
    have hsmall : isSmall s = true := by
      rw [isSmall_iff, hcapacity]
      decide
    refine ⟨rest, ?_, ?_⟩
    · rw [stringData_small hsmall, hbytes]
    · rw [storageSize_small hsmall, ← hbytes, small_toList_length]
  small_capacity := fun _ => hcapacity

theorem represents_large {h : Heap} {s : String} {cs rest : List UInt8}
    (hlarge : isSmall s = false) (hlength : s.length = cs.length)
    (hblock : h s.large = some (cs ++ 0 :: rest))
    (hsize : (cs ++ 0 :: rest).length = s.capacity) : Represents h s cs where
  length_eq := hlength
  data := by
    refine ⟨rest, ?_, ?_⟩
    · rw [stringData_large hlarge, hblock]
    · rw [storageSize_large hlarge, hsize]
  small_capacity := by
    intro hsmall
    rw [hlarge] at hsmall
    cases hsmall

theorem Represents.inline {h : Heap} {s : String} {cs : List UInt8}
    (hrep : Represents h s cs) (hs : isSmall s = true) :
    exists rest, s.small.toList = cs ++ 0 :: rest ∧
      (cs ++ 0 :: rest).length = stringSmallStorageSize := by
  simpa [hs] using hrep.data

theorem Represents.of_small {h h' : Heap} {s : String} {cs : List UInt8}
    (hs : isSmall s = true) (hrep : Represents h s cs) :
    Represents h' s cs where
  length_eq := hrep.length_eq
  data := by
    simpa [hs] using hrep.data
  small_capacity := hrep.small_capacity

theorem Represents.length_lt {h : Heap} {s : String} {cs : List UInt8}
    (hrep : Represents h s cs) : s.length < storageSize s := by
  rcases hrep.data with ⟨rest, _, hlen⟩
  rw [hrep.length_eq, ← hlen]
  simp

theorem Represents.block {h : Heap} {s : String} {cs : List UInt8}
    (hrep : Represents h s cs) (hs : isSmall s = false) :
    exists rest, h s.large = some (cs ++ 0 :: rest) ∧
      (cs ++ 0 :: rest).length = s.capacity := by
  simpa [hs] using hrep.data

/-- A string keeps its meaning when another one is changed within its frame. -/
theorem Represents.frame {h h' : Heap} {s s' t : String} {ds : List UInt8}
    (hframe : Frame h s h' s') (ht : Represents h t ds)
    (hdisjoint : forall p, block? t = some p -> block? s ≠ some p) :
    Represents h' t ds := by
  cases hsmall : isSmall t with
  | true => exact ht.of_small hsmall
  | false =>
      rcases ht.block hsmall with ⟨rest, hblock, hlen⟩
      have hother : block? s ≠ some t.large :=
        hdisjoint t.large (block?_large hsmall)
      have hkept : h' t.large = some (ds ++ 0 :: rest) :=
        (hframe t.large _ hblock hother).left
      exact represents_large hsmall ht.length_eq hkept hlen

theorem stringNew_represents (h : Heap) (garbage : Addr) :
    Represents h (stringNew garbage) [] := by
  have hcons : (stringNew garbage).small.toList =
      0 :: (stringNew garbage).small.toList.tail := by
    simp only [stringNew, String.small, Vector.toList_set]
    cases hg : garbage.toList with
    | nil =>
        have hlen : garbage.toList.length = stringSmallStorageSize :=
          Vector.length_toList
        rw [hg] at hlen
        cases hlen
    | cons b bs => rfl
  exact represents_small rfl rfl hcons

/-!
## Blocks
-/

@[simp] theorem resize_length (fill : Nat -> UInt8) (old : List UInt8) (n : Nat) :
    (resize fill old n).length = n := by
  simp [resize]

theorem resize_of_le (fill : Nat -> UInt8) {old : List UInt8} {n : Nat}
    (hle : old.length ≤ n) :
    exists more, resize fill old n = old ++ more := by
  refine ⟨(resize fill old n).drop old.length, ?_⟩
  have htake : (resize fill old n).take old.length = old := by
    apply List.ext_getElem
    · simp [hle]
    · intro i hi hold
      simp [resize, hold]
  calc
    resize fill old n =
        (resize fill old n).take old.length ++
          (resize fill old n).drop old.length :=
      (List.take_append_drop old.length (resize fill old n)).symm
    _ = old ++ (resize fill old n).drop old.length := by rw [htake]

theorem malloc_cases (a : Allocation) (h : Heap) (n : Nat) :
    malloc a h n = .error .allocationFailed ∨
      h a.addr = none ∧
        malloc a h n =
          .ok (Function.update h a.addr (some (resize a.fill [] n)), a.addr) := by
  unfold malloc
  by_cases hfree : h a.addr = none
  · exact Or.inr ⟨hfree, if_pos hfree⟩
  · exact Or.inl (if_neg hfree)

theorem realloc_cases (a : Allocation) {h : Heap} {p : Addr} {old : List UInt8}
    (n : Nat) (hp : h p = some old) :
    realloc a h p n = .error .allocationFailed ∨
      (a.addr = p ∨ h a.addr = none) ∧
        realloc a h p n =
          .ok (Function.update (Function.update h p none) a.addr
            (some (resize a.fill old n)), a.addr) := by
  unfold realloc
  rw [hp]
  by_cases hplace : a.addr = p ∨ h a.addr = none
  · exact Or.inr ⟨hplace, if_pos hplace⟩
  · exact Or.inl (if_neg hplace)

theorem copyIn_of_le {h : Heap} {p : Addr} {block bytes : List UInt8}
    (hp : h p = some block) (hle : bytes.length ≤ block.length) :
    copyIn h p bytes =
      .ok (Function.update h p (some (bytes ++ block.drop bytes.length))) := by
  unfold copyIn
  rw [hp]
  exact if_pos hle

theorem store_of_lt {h : Heap} {p : Addr} {block : List UInt8} {i : Nat}
    (c : UInt8) (hp : h p = some block) (hi : i < block.length) :
    store h p i c = .ok (Function.update h p (some (block.set i c))) := by
  unfold store
  rw [hp]
  exact if_pos hi

theorem storeSmall_of_lt (s : String) {i : Nat} (c : UInt8)
    (hi : i < stringSmallStorageSize) :
    storeSmall s i c = .ok { s with overlay := s.small.set i c hi } := by
  unfold storeSmall
  exact dif_pos hi

end SmallString
end VidsContent
