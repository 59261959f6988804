import VidsContent.SmallString.Push
import VidsContent.SmallString.Runs

/-!
# Copies as strings of their own

What a program can observe of a copy: its length, its bytes, and what further
pushes make of it.  In every run the small strings represent a list, also after
a copy has broken the length law of a large one.
-/

namespace VidsContent
namespace SmallString

open Transition

/-- The string `x` in heap `h'` looks like `s` in heap `h`, now and after every push. -/
structure ObservablyEqual (h : Heap) (s : String) (h' : Heap) (x : String) : Prop where
  length : x.length = s.length
  bytes : exists data dataX, stringData h s = some data ∧ stringData h' x = some dataX ∧
    dataX.take s.length = data.take s.length ∧ dataX[s.length]? = some 0
  pushes : forall pushes, pushAll h' x pushes ≠ .error .allocationFailed ->
    exists data h'' x' rest, stringData h s = some data ∧
      pushAll h' x pushes = .ok (h'', x') ∧
      x'.length = s.length + pushes.length ∧
      stringData h'' x' =
        some (data.take s.length ++ pushes.map Prod.fst ++ 0 :: rest)

/-!
## The two representations
-/

theorem Represents.observablyEqual {h : Heap} {s : String} {cs : List UInt8}
    (hrep : Represents h s cs) (hsmall : isSmall s = true) : ObservablyEqual h s h s := by
  rcases hrep.data with ⟨rest, hdata, _⟩
  have htake : (cs ++ 0 :: rest).take s.length = cs := by
    rw [hrep.length_eq, List.take_left]
  constructor
  · rfl
  · refine ⟨_, _, hdata, hdata, rfl, ?_⟩
    rw [hrep.length_eq]
    simp
  · intro pushes hsucceeds
    have hlaw : PushedCapacity s := by
      left
      constructor
      · exact hsmall
      · rw [← storageSize_small hsmall]
        exact hrep.length_lt
    rcases pushAll_spec pushes hrep hlaw with hfail | ⟨h', s', hok, hrep', _⟩
    · exact absurd hfail hsucceeds
    · rcases hrep'.data with ⟨rest', hdata', _⟩
      refine ⟨_, h', s', rest', hdata, hok, ?_, ?_⟩
      · rw [hrep'.length_eq, List.length_append, List.length_map, hrep.length_eq]
      · rw [htake]
        exact hdata'

theorem malloc_ok {a : Allocation} {h h' : Heap} {n : Nat} {p : Addr}
    (hmalloc : malloc a h n = .ok (h', p)) :
    exists block, h' p = some block ∧ block.length = n := by
  rcases malloc_cases a h n with hfail | ⟨_, hok⟩
  · rw [hfail] at hmalloc
    cases hmalloc
  · rw [hok] at hmalloc
    cases hmalloc
    exact ⟨_, Function.update_self _ _ _, resize_length _ _ _⟩

theorem copyIn_ok {h h' : Heap} {p : Addr} {block bytes : List UInt8}
    (hp : h p = some block) (hcopy : copyIn h p bytes = .ok h') :
    exists block', h' p = some block' ∧ block'.length = block.length := by
  unfold copyIn at hcopy
  rw [hp] at hcopy
  simp only at hcopy
  split at hcopy
  · rename_i hle
    cases hcopy
    refine ⟨_, Function.update_self _ _ _, ?_⟩
    rw [List.length_append, List.length_drop]
    lia
  · cases hcopy

theorem stringCopy_large_block {s x : String} {garbage : Addr} {a : Allocation}
    {h h' : Heap} (hlarge : isSmall s = false)
    (hcopy : stringCopy garbage a h s = .ok (h', x)) :
    exists block, stringData h' x = some block ∧ block.length = x.length := by
  rcases stringCopy_large hlarge hcopy with ⟨hlength, hcapacity⟩
  have hlargeCopy : isSmall x = false := by
    rw [isSmall_of_capacity hcapacity]
    exact hlarge
  rw [stringData_large hlargeCopy, hlength]
  unfold stringCopy at hcopy
  rw [if_neg (by simp [hlarge])] at hcopy
  rcases bind_eq_ok hcopy with ⟨⟨h₁, large⟩, hmalloc, hcopy₁⟩
  rcases bind_eq_ok hcopy₁ with ⟨bytes, _, hcopy₂⟩
  rcases bind_eq_ok hcopy₂ with ⟨h₂, hcopyIn, hresult⟩
  rcases malloc_ok hmalloc with ⟨block, hblock, hblockLength⟩
  rcases copyIn_ok hblock hcopyIn with ⟨block', hblock', hlength'⟩
  cases hresult
  exact ⟨block', hblock', by rw [hlength', hblockLength]⟩

theorem not_observablyEqual_of_large {s x : String} {garbage : Addr} {a : Allocation}
    {h h' : Heap} (hlarge : isSmall s = false)
    (hcopy : stringCopy garbage a h s = .ok (h', x)) : ¬ ObservablyEqual h s h' x := by
  intro hequal
  rcases stringCopy_large_block hlarge hcopy with ⟨block, hblock, hlength⟩
  rcases hequal.bytes with ⟨data, dataX, _, hdataX, _, hnul⟩
  rw [hblock] at hdataX
  cases hdataX
  rw [← hequal.length, ← hlength, List.getElem?_length] at hnul
  cases hnul

/-!
## Every run
-/

def SmallRepresented (w : World) : Prop :=
  forall s, s ∈ w.strings -> isSmall s = true -> exists cs, Represents w.heap s cs

theorem smallRepresented_of_mem {w next : World} {x : String} (h : SmallRepresented w)
    (hstrings : forall s, s ∈ next.strings -> s ∈ w.strings ∨ s = x)
    (hx : isSmall x = true -> exists cs, Represents next.heap x cs) :
    SmallRepresented next := by
  intro s hs hsmall
  rcases hstrings s hs with hold | rfl
  · rcases h s hold hsmall with ⟨cs, hrep⟩
    exact ⟨cs, hrep.of_small hsmall⟩
  · exact hx hsmall

theorem settle_cases {w next : World} {place : String -> List String}
    {result : Except Stop (Heap × String)} (h : w.settle place result = some next) :
    (exists h' s', result = .ok (h', s') ∧
      next = { heap := h', strings := place s', fault := none }) ∨
    (next.strings = w.strings ∧ next.heap = w.heap) := by
  cases result with
  | ok r =>
      cases h
      exact Or.inl ⟨r.1, r.2, rfl, rfl⟩
  | error f =>
      right
      cases f <;> cases h <;> exact ⟨rfl, rfl⟩

theorem smallRepresented_of_same {w next : World} (h : SmallRepresented w)
    (hstrings : next.strings = w.strings) (hheap : next.heap = w.heap) :
    SmallRepresented next := by
  intro s hs hsmall
  rw [hstrings] at hs
  rw [hheap]
  exact h s hs hsmall

theorem stringPushChar_large {a : Allocation} {h h' : Heap} {s s' : String} {c : UInt8}
    (hlarge : isSmall s = false) (hpush : stringPushChar a h s c = .ok (h', s')) :
    isSmall s' = false := by
  unfold stringPushChar at hpush
  rcases bind_eq_ok hpush with ⟨⟨h₀, s₀⟩, hgrow, hstore⟩
  have hcapacity : s₀.capacity = s.capacity + 1 := by
    unfold growFor at hgrow
    rw [if_neg (by simp [hlarge])] at hgrow
    rcases bind_eq_ok hgrow with ⟨⟨h₁, large⟩, _, hresult⟩
    cases hresult
    rfl
  have hlarge₀ : isSmall s₀ = false := by
    rw [isSmall_eq_false_iff] at hlarge ⊢
    lia
  simp only [hlarge₀] at hstore
  rcases bind_eq_ok hstore with ⟨h₁, _, hstore₁⟩
  rcases bind_eq_ok hstore₁ with ⟨h₂, _, hresult⟩
  cases hresult
  exact hlarge₀

theorem smallRepresented_step {w next : World} {op : Op} (h : SmallRepresented w)
    (hstep : w.step op = some next) : SmallRepresented next := by
  rcases step_cases hstep with ⟨garbage, rfl, rfl⟩ |
    ⟨i, c, a, s, rfl, hi, hsettle⟩ | ⟨i, garbage, a, s, rfl, hi, hsettle⟩
  · apply smallRepresented_of_mem (x := stringNew garbage) h
    · intro s hs
      simpa using hs
    · exact fun _ => ⟨[], stringNew_represents w.heap garbage⟩
  · rcases settle_cases hsettle with ⟨h', s', hok, rfl⟩ | ⟨hstrings, hheap⟩
    · apply smallRepresented_of_mem (x := s') h
      · intro t ht
        exact List.mem_or_eq_of_mem_set ht
      · intro hsmall'
        cases hsmall : isSmall s with
        | false =>
            rw [stringPushChar_large hsmall hok] at hsmall'
            cases hsmall'
        | true =>
            rcases h s (List.mem_of_getElem? hi) hsmall with ⟨cs, hrep⟩
            rcases stringPushChar_spec a c hrep with hfail | ⟨_, _, hspec, hrep', _⟩
            · rw [hok] at hfail
              cases hfail
            · rw [hok] at hspec
              cases hspec
              exact ⟨_, hrep'⟩
    · exact smallRepresented_of_same h hstrings hheap
  · rcases settle_cases hsettle with ⟨h', x, hok, rfl⟩ | ⟨hstrings, hheap⟩
    · apply smallRepresented_of_mem (x := x) h
      · intro t ht
        simpa using ht
      · intro hsmall'
        cases hsmall : isSmall s with
        | false =>
            rw [isSmall_of_capacity (stringCopy_large hsmall hok).right, hsmall] at hsmall'
            cases hsmall'
        | true =>
            rw [stringCopy_small garbage a w.heap hsmall] at hok
            cases hok
            exact h s (List.mem_of_getElem? hi) hsmall
    · exact smallRepresented_of_same h hstrings hheap

/--
Of every string of every run, a copy is observably equal to it exactly when
the string is small.
-/
theorem stringCopy_equal_iff_small (ops : List Op) (w : World) (i : Nat) (s : String)
    (garbage : Addr) (a : Allocation) (h' : Heap) (x : String)
    (hrun : exec World.step World.empty ops = some w) (hi : w.strings[i]? = some s)
    (hcopy : stringCopy garbage a w.heap s = .ok (h', x)) :
    ObservablyEqual w.heap s h' x <-> isSmall s = true := by
  constructor
  · intro hequal
    cases hsmall : isSmall s with
    | true => rfl
    | false => exact absurd hequal (not_observablyEqual_of_large hsmall hcopy)
  · intro hsmall
    have hempty : SmallRepresented World.empty := by
      intro t ht
      cases ht
    have hall : SmallRepresented w := exec_invariant smallRepresented_step hempty hrun
    rcases hall s (List.mem_of_getElem? hi) hsmall with ⟨cs, hrep⟩
    rw [stringCopy_small garbage a w.heap hsmall] at hcopy
    cases hcopy
    exact hrep.observablyEqual hsmall

def pushRun (characters : Nat) : List Op :=
  .new (Vector.replicate stringSmallStorageSize 0) ::
    List.replicate characters
      (.push 0 97 ⟨Vector.replicate stringSmallStorageSize 1, fun _ => 0⟩)

def copyAllocation : Allocation := ⟨Vector.replicate stringSmallStorageSize 2, fun _ => 0⟩

theorem stringCopy_equal_two :
    exists w s h' x,
      exec World.step World.empty (pushRun 2) = some w ∧ w.strings[0]? = some s ∧
      stringCopy copyAllocation.addr copyAllocation w.heap s = .ok (h', x) ∧
      ObservablyEqual w.heap s h' x := by
  have hrun : exists w s h' x,
      exec World.step World.empty (pushRun 2) = some w ∧ w.strings[0]? = some s ∧
      stringCopy copyAllocation.addr copyAllocation w.heap s = .ok (h', x) ∧
      isSmall s = true :=
    ⟨_, _, _, _, rfl, rfl, rfl, rfl⟩
  rcases hrun with ⟨w, s, h', x, hrun, hs, hcopy, hsmall⟩
  exact ⟨w, s, h', x, hrun, hs, hcopy,
    (stringCopy_equal_iff_small _ w 0 s _ _ h' x hrun hs hcopy).mpr hsmall⟩

/-- The copy of eight characters has the capacity for its length. -/
theorem stringCopy_eight_differs :
    exists w s h' x,
      exec World.step World.empty (pushRun 8) = some w ∧ w.strings[0]? = some s ∧
      stringCopy copyAllocation.addr copyAllocation w.heap s = .ok (h', x) ∧
      s.length = 8 ∧ x.length = 15 ∧ ¬ ObservablyEqual w.heap s h' x := by
  have hrun : exists w s h' x,
      exec World.step World.empty (pushRun 8) = some w ∧ w.strings[0]? = some s ∧
      stringCopy copyAllocation.addr copyAllocation w.heap s = .ok (h', x) ∧
      s.length = 8 ∧ x.length = 15 :=
    ⟨_, _, _, _, rfl, rfl, rfl, rfl, rfl⟩
  rcases hrun with ⟨w, s, h', x, hrun, hs, hcopy, hlength, hlengthX⟩
  refine ⟨w, s, h', x, hrun, hs, hcopy, hlength, hlengthX, ?_⟩
  intro hequal
  have hsame := hequal.length
  rw [hlength, hlengthX] at hsame
  cases hsame

end SmallString
end VidsContent
