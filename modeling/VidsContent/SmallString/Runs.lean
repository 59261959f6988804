import VidsContent.SmallString.Operations

/-!
# Runs over many strings

The invariant of a program that creates, extends and copies strings: every
string represents some list, and no two strings share a block.  Creating,
pushing, and copying a small string preserve it; copying a large string breaks
the length law at once.
-/

namespace VidsContent
namespace SmallString

open Transition

structure WellFormed (h : Heap) (s : String) : Prop where
  length_lt : s.length < storageSize s
  terminated : exists data, stringData h s = some data ∧
    data.length = storageSize s ∧ data[s.length]? = some 0

/-- No access went outside the storage in use, and every live string is well formed. -/
def Sound (w : World) : Prop :=
  w.fault = none ∧ forall s, s ∈ w.strings -> WellFormed w.heap s

/-- The condition on a step: a copied string is in the small representation. -/
def CopiesSmall (w : World) : Op -> Prop
  | .copy i _ _ => forall s, w.strings[i]? = some s -> isSmall s = true
  | _ => True

structure Valid (w : World) : Prop where
  no_fault : w.fault = none
  represented : forall (i : Nat) s, w.strings[i]? = some s ->
    exists cs, Represents w.heap s cs
  separate : forall (i j : Nat) s t p,
    w.strings[i]? = some s -> w.strings[j]? = some t ->
    block? s = some p -> block? t = some p -> i = j

theorem Represents.wellFormed {h : Heap} {s : String} {cs : List UInt8}
    (hrep : Represents h s cs) : WellFormed h s where
  length_lt := hrep.length_lt
  terminated := by
    rcases hrep.data with ⟨rest, hdata, hlen⟩
    refine ⟨_, hdata, hlen, ?_⟩
    rw [hrep.length_eq]
    simp

theorem Valid.sound {w : World} (hvalid : Valid w) : Sound w := by
  constructor
  · exact hvalid.no_fault
  · intro s hs
    rcases List.getElem?_of_mem hs with ⟨i, hi⟩
    rcases hvalid.represented i s hi with ⟨cs, hrep⟩
    exact hrep.wellFormed

theorem valid_empty : Valid World.empty where
  no_fault := rfl
  represented := by
    intro i s hi
    simp [World.empty] at hi
  separate := by
    intro i j s t p hi
    simp [World.empty] at hi

/-!
## One step
-/

theorem getElem?_append_singleton {xs : List String} {x s : String} {i : Nat}
    (h : (xs ++ [x])[i]? = some s) :
    xs[i]? = some s ∨ i = xs.length ∧ s = x := by
  rw [List.getElem?_append] at h
  split at h
  · exact Or.inl h
  · right
    have hi : i - xs.length < 1 := by
      rw [← List.length_singleton (a := x)]
      exact (List.getElem?_eq_some_iff.mp h).choose
    have hzero : i - xs.length = 0 := by lia
    rw [hzero] at h
    cases h
    exact ⟨by lia, rfl⟩

theorem Valid.append_small {w : World} {x : String} {cs : List UInt8}
    (hvalid : Valid w) (hsmall : isSmall x = true) (hrep : Represents w.heap x cs) :
    Valid { w with strings := w.strings ++ [x] } where
  no_fault := hvalid.no_fault
  represented := by
    intro i s hi
    rcases getElem?_append_singleton hi with hold | ⟨_, rfl⟩
    · exact hvalid.represented i s hold
    · exact ⟨cs, hrep⟩
  separate := by
    intro i j s t p hi hj hs ht
    rcases getElem?_append_singleton hi with holdi | ⟨_, rfl⟩
    · rcases getElem?_append_singleton hj with holdj | ⟨_, rfl⟩
      · exact hvalid.separate i j s t p holdi holdj hs ht
      · rw [block?_small hsmall] at ht
        cases ht
    · rw [block?_small hsmall] at hs
      cases hs

/-- One string and the heap change within the frame of that string. -/
theorem Valid.replace {w : World} {i : Nat} {s s' : String} {h' : Heap}
    {cs : List UInt8} (hvalid : Valid w) (hi : w.strings[i]? = some s)
    (hrep : Represents h' s' cs) (hframe : Frame w.heap s h' s') :
    Valid { heap := h', strings := w.strings.set i s', fault := none } := by
  -- another string's block is allocated and not owned by `s`, so it stays as it was
  have hother : forall (j : Nat) t p, j ≠ i -> w.strings[j]? = some t -> block? t = some p ->
      block? s ≠ some p ∧ block? s' ≠ some p := by
    intro j t p hne hj ht
    have hs : block? s ≠ some p := by
      intro hs
      exact hne (hvalid.separate j i t s p hj hi ht hs)
    constructor
    · exact hs
    · rcases hvalid.represented j t hj with ⟨ds, hrepT⟩
      cases hsmall : isSmall t with
      | true =>
          rw [block?_small hsmall] at ht
          cases ht
      | false =>
          rcases hrepT.block hsmall with ⟨rest, hblock, _⟩
          rw [block?_large hsmall] at ht
          cases ht
          exact (hframe t.large _ hblock hs).right
  have hlt : i < w.strings.length := (List.getElem?_eq_some_iff.mp hi).choose
  constructor
  · rfl
  · intro j t hj
    by_cases hji : j = i
    · rw [hji, List.getElem?_set_self hlt] at hj
      cases hj
      exact ⟨cs, hrep⟩
    · rw [List.getElem?_set_ne (Ne.symm hji)] at hj
      rcases hvalid.represented j t hj with ⟨ds, hrepT⟩
      exact ⟨ds, hrepT.frame hframe (fun p ht => (hother j t p hji hj ht).left)⟩
  · intro j k t u p hj hk ht hu
    by_cases hji : j = i
    · by_cases hki : k = i
      · rw [hji, hki]
      · rw [hji, List.getElem?_set_self hlt] at hj
        rw [List.getElem?_set_ne (Ne.symm hki)] at hk
        cases hj
        exact absurd ht (hother k u p hki hk hu).right
    · rw [List.getElem?_set_ne (Ne.symm hji)] at hj
      by_cases hki : k = i
      · rw [hki, List.getElem?_set_self hlt] at hk
        cases hk
        exact absurd hu (hother j t p hji hj ht).right
      · rw [List.getElem?_set_ne (Ne.symm hki)] at hk
        exact hvalid.separate j k t u p hj hk ht hu

theorem step_cases {w next : World} {op : Op} (hstep : w.step op = some next) :
    (exists garbage, op = .new garbage ∧
      next = { w with strings := w.strings ++ [stringNew garbage] }) ∨
    (exists i c a s, op = .push i c a ∧ w.strings[i]? = some s ∧
      w.settle (fun s' => w.strings.set i s') (stringPushChar a w.heap s c) =
        some next) ∨
    (exists i garbage a s, op = .copy i garbage a ∧ w.strings[i]? = some s ∧
      w.settle (fun x => w.strings ++ [x]) (stringCopy garbage a w.heap s) =
        some next) := by
  unfold World.step at hstep
  split at hstep
  · cases op with
    | new garbage =>
        exact Or.inl ⟨garbage, rfl, (Option.some.inj hstep).symm⟩
    | push i c a =>
        cases hs : w.strings[i]? with
        | none => simp [hs] at hstep
        | some s =>
            simp only [hs] at hstep
            exact Or.inr (Or.inl ⟨i, c, a, s, rfl, hs, hstep⟩)
    | copy i garbage a =>
        cases hs : w.strings[i]? with
        | none => simp [hs] at hstep
        | some s =>
            simp only [hs] at hstep
            exact Or.inr (Or.inr ⟨i, garbage, a, s, rfl, hs, hstep⟩)
  · cases hstep

theorem valid_step {w next : World} {op : Op} (hvalid : Valid w)
    (hcopy : CopiesSmall w op) (hstep : w.step op = some next) : Valid next := by
  rcases step_cases hstep with ⟨garbage, rfl, rfl⟩ |
    ⟨i, c, a, s, rfl, hi, hsettle⟩ | ⟨i, garbage, a, s, rfl, hi, hsettle⟩
  · exact hvalid.append_small rfl (stringNew_represents w.heap garbage)
  · rcases hvalid.represented i s hi with ⟨cs, hrep⟩
    rcases stringPushChar_spec a c hrep with hfail | ⟨h', s', hok, hrep', hframe, _⟩
    · rw [hfail] at hsettle
      cases hsettle
    · rw [hok] at hsettle
      cases hsettle
      exact hvalid.replace hi hrep' hframe
  · have hsmall : isSmall s = true := hcopy s hi
    rcases hvalid.represented i s hi with ⟨cs, hrep⟩
    rw [stringCopy_small garbage a w.heap hsmall] at hsettle
    cases hsettle
    have hnext := hvalid.append_small hsmall hrep
    rw [hvalid.no_fault] at hnext
    exact hnext

theorem not_sound_of_large_copy {w next : World} {op : Op}
    (hcopy : ¬ CopiesSmall w op) (hstep : w.step op = some next) :
    ¬ Sound next := by
  rcases step_cases hstep with ⟨garbage, rfl, rfl⟩ |
    ⟨i, c, a, s, rfl, hi, hsettle⟩ | ⟨i, garbage, a, s, rfl, hi, hsettle⟩
  · exact absurd trivial hcopy
  · exact absurd trivial hcopy
  · have hlarge : isSmall s = false := by
      cases hsmall : isSmall s with
      | false => rfl
      | true =>
          exfalso
          apply hcopy
          intro t ht
          rw [hi] at ht
          cases ht
          exact hsmall
    rintro ⟨hfault, hformed⟩
    cases hresult : stringCopy garbage a w.heap s with
    | error f =>
        rw [hresult] at hsettle
        cases f <;> cases hsettle <;> cases hfault
    | ok r =>
        rw [hresult] at hsettle
        cases hsettle
        rcases stringCopy_large hlarge hresult with ⟨hlength, hcapacity⟩
        have hlt := (hformed r.2 (by simp)).length_lt
        have hlargeCopy : isSmall r.2 = false := by
          rw [isSmall_of_capacity hcapacity]
          exact hlarge
        rw [storageSize_large hlargeCopy, hlength, hcapacity] at hlt
        exact Nat.lt_irrefl _ hlt

/-!
## Whole runs
-/

/--
A run keeps every access inside the storage in use and every string well formed,
from the first operation to the last, exactly when no large string is copied.
-/
theorem run_sound_iff_copiesSmall (ops : List Op) (w : World)
    (hrun : exec World.step World.empty ops = some w) :
    AllStates World.step Sound World.empty ops <->
      AllSteps World.step CopiesSmall World.empty ops :=
  allStates_iff_allSteps (fun _ hvalid => hvalid.sound) valid_step
    (fun _ hcopy hstep => not_sound_of_large_copy hcopy hstep) valid_empty hrun

def copyRun (characters : Nat) : List Op :=
  .new (Vector.replicate stringSmallStorageSize 0) ::
    (List.replicate characters
      (.push 0 97 ⟨Vector.replicate stringSmallStorageSize 1, fun _ => 0⟩) ++
    [.copy 0 (Vector.replicate stringSmallStorageSize 0)
      ⟨Vector.replicate stringSmallStorageSize 2, fun _ => 0⟩])

def pushOntoCopy : Op :=
  .push 1 98 ⟨Vector.replicate stringSmallStorageSize 2, fun _ => 0⟩

theorem copyRun_two_sound :
    AllStates World.step Sound World.empty (copyRun 2) := by
  have hrun : exists w, exec World.step World.empty (copyRun 2) = some w :=
    ⟨_, rfl⟩
  rcases hrun with ⟨w, hrun⟩
  apply (run_sound_iff_copiesSmall (copyRun 2) w hrun).mpr
  refine ⟨trivial, fun _ hnew => ?_⟩
  cases hnew
  refine ⟨trivial, fun _ hpush => ?_⟩
  cases hpush
  refine ⟨trivial, fun _ hpush => ?_⟩
  cases hpush
  refine ⟨?_, fun _ _ => trivial⟩
  intro s hs
  cases hs
  rfl

/-- The copy of eight characters is ill formed, and one push onto it overflows. -/
theorem copyRun_eight_unsound :
    (exists w, exec World.step World.empty (copyRun 8) = some w ∧ ¬ Sound w) ∧
      (exec World.step World.empty (copyRun 8 ++ [pushOntoCopy])).map World.fault =
        some (some (.outOfBounds 16 16)) := by
  constructor
  · have hrun : exists w, exec World.step World.empty (copyRun 8) = some w ∧
        w.strings.map (fun s => (s.length, s.capacity)) = [(8, 15), (15, 15)] :=
      ⟨_, rfl, rfl⟩
    rcases hrun with ⟨w, hrun, hshape⟩
    refine ⟨w, hrun, ?_⟩
    rintro ⟨_, hformed⟩
    have hmem : (15, 15) ∈ w.strings.map (fun s => (s.length, s.capacity)) := by
      rw [hshape]
      decide
    rcases List.mem_map.mp hmem with ⟨x, hx, hfields⟩
    injection hfields with hlength hcapacity
    have hlt := (hformed x hx).length_lt
    rw [hlength, storageSize, isSmall, hcapacity] at hlt
    exact absurd hlt (by decide)
  · rfl

end SmallString
end VidsContent
