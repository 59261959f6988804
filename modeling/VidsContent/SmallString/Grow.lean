import VidsContent.SmallString.Runs

/-!
# Growing by any amount

`grow_for` takes the number of characters to make room for.  Its only caller asks
for one; here it is asked for any number, on any well-formed string.
-/

namespace VidsContent
namespace SmallString

def appendAll (h : Heap) (s : String) : List UInt8 -> Except Stop (Heap × String)
  | [] => .ok (h, s)
  | c :: cs => do
      let (h, s) <- appendChar h s c
      appendAll h s cs

/-- What growing `s` by `k` is for: nothing is lost, and `k` more characters fit. -/
structure MakesRoom (h : Heap) (s : String) (k : Nat) (h' : Heap) (s' : String) : Prop where
  length : s'.length = s.length
  kept : exists data data', stringData h s = some data ∧ stringData h' s' = some data' ∧
    data'.take (s.length + 1) = data.take (s.length + 1)
  formed : WellFormed h' s'
  small_capacity : isSmall s' = true -> s'.capacity = stringSmallStorageSize - 1
  room : s.length + k + 1 ≤ storageSize s'
  stores : forall cs, cs.length ≤ k -> exists h'' s'', appendAll h' s' cs = .ok (h'', s'')

/-!
## Well-formed strings
-/

theorem WellFormed.represents {h : Heap} {s : String} (hformed : WellFormed h s)
    (hcapacity : isSmall s = true -> s.capacity = stringSmallStorageSize - 1) :
    exists cs, Represents h s cs := by
  rcases hformed.terminated with ⟨data, hdata, hlength, hnul⟩
  rcases List.getElem?_eq_some_iff.mp hnul with ⟨hlt, hzero⟩
  have hsplit : data = data.take s.length ++ 0 :: data.drop (s.length + 1) := by
    rw [← hzero, ← List.drop_eq_getElem_cons hlt, List.take_append_drop]
  refine ⟨data.take s.length, ?_, ⟨data.drop (s.length + 1), ?_, ?_⟩, hcapacity⟩
  · rw [List.length_take_of_le (Nat.le_of_lt hlt)]
  · rw [← hsplit]
    exact hdata
  · rw [← hsplit]
    exact hlength

theorem Represents.kept {h h' : Heap} {s s' : String} {cs : List UInt8}
    (hrep : Represents h s cs) (hrep' : Represents h' s' cs) :
    exists data data', stringData h s = some data ∧ stringData h' s' = some data' ∧
      data'.take (s.length + 1) = data.take (s.length + 1) := by
  rcases hrep.data with ⟨rest, hdata, _⟩
  rcases hrep'.data with ⟨rest', hdata', _⟩
  refine ⟨_, _, hdata, hdata', ?_⟩
  rw [hrep.length_eq, List.take_length_add_append, List.take_length_add_append]
  rfl

/-!
## Appending into the room
-/

theorem appendAll_spec {h : Heap} {s : String} {cs : List UInt8} (ds : List UInt8)
    (hrep : Represents h s cs) (hroom : cs.length + ds.length < storageSize s) :
    exists h' s', appendAll h s ds = .ok (h', s') ∧ Represents h' s' (cs ++ ds) := by
  induction ds generalizing h s cs with
  | nil =>
      refine ⟨h, s, rfl, ?_⟩
      rw [List.append_nil]
      exact hrep
  | cons d ds ih =>
      rw [List.length_cons] at hroom
      rcases appendChar_spec d hrep (by lia) with ⟨h₁, s₁, hok, hrep₁, _, hcap⟩
      have hroom₁ : (cs ++ [d]).length + ds.length < storageSize s₁ := by
        rw [storageSize_of_capacity hcap, List.length_append, List.length_singleton]
        lia
      rcases ih hrep₁ hroom₁ with ⟨h₂, s₂, hrest, hrep₂⟩
      refine ⟨h₂, s₂, ?_, ?_⟩
      · simp [appendAll, hok, bind, Except.bind, hrest]
      · rw [List.append_assoc] at hrep₂
        exact hrep₂

theorem makesRoom_iff_room {h h' : Heap} {s s' : String} {cs : List UInt8} {k : Nat}
    (hrep : Represents h s cs) (hrep' : Represents h' s' cs) :
    MakesRoom h s k h' s' <-> cs.length + k < storageSize s' := by
  constructor
  · intro hroom
    have hbytes := hroom.room
    rw [hrep.length_eq] at hbytes
    lia
  · intro hroom
    constructor
    · rw [hrep'.length_eq, hrep.length_eq]
    · exact hrep.kept hrep'
    · exact hrep'.wellFormed
    · exact hrep'.small_capacity
    · rw [hrep.length_eq]
      exact hroom
    · intro ds hds
      rcases appendAll_spec ds hrep' (by lia) with ⟨h'', s'', hok, _⟩
      exact ⟨h'', s'', hok⟩

/--
Growing a well-formed string makes the room that was asked for exactly when the
string is on the heap already or no more than seven characters are to be added.
-/
theorem growFor_makesRoom_iff {h : Heap} {s : String} (a : Allocation) (k : Nat)
    (hformed : WellFormed h s)
    (hcapacity : isSmall s = true -> s.capacity = stringSmallStorageSize - 1)
    (hsucceeds : growFor a h s k ≠ .error .allocationFailed) :
    (exists h' s', growFor a h s k = .ok (h', s') ∧ MakesRoom h s k h' s') <->
      isSmall s = false ∨ k < stringSmallStorageSize := by
  rcases hformed.represents hcapacity with ⟨cs, hrep⟩
  rcases growFor_spec a k hrep with hfail | ⟨h₁, s₁, hgrow, hrep₁, _, hcap⟩
  · exact absurd hfail hsucceeds
  · rw [← room_after_growFor_iff hrep hcap, ← makesRoom_iff_room hrep hrep₁]
    constructor
    · rintro ⟨h', s', hok, hroom⟩
      rw [hgrow] at hok
      cases hok
      exact hroom
    · intro hroom
      exact ⟨h₁, s₁, hgrow, hroom⟩

def growAllocation : Allocation := ⟨Vector.replicate stringSmallStorageSize 1, fun _ => 0⟩

def stringAbc : String where
  overlay := ⟨#[97, 98, 99, 0, 0, 0, 0, 0], rfl⟩
  length := 3
  capacity := 7

theorem growFor_makesRoom_abc :
    exists h' s', growFor growAllocation (fun _ => none) stringAbc 7 = .ok (h', s') ∧
      MakesRoom (fun _ => none) stringAbc 7 h' s' := by
  apply (growFor_makesRoom_iff growAllocation 7 ?_ (fun _ => rfl) ?_).mpr
  · right
    unfold stringSmallStorageSize
    lia
  · constructor
    · rw [storageSize_small rfl]
      exact show 3 < 8 by lia
    · exact ⟨_, stringData_small rfl, rfl, rfl⟩
  · intro hfail
    cases hfail

/-- Eight characters do not fit into what growing an empty string by eight leaves. -/
theorem growFor_eight_no_room :
    WellFormed (fun _ => none) (stringNew growAllocation.addr) ∧
      (stringNew growAllocation.addr).capacity = stringSmallStorageSize - 1 ∧
      exists h' s',
        growFor growAllocation (fun _ => none) (stringNew growAllocation.addr) 8 =
          .ok (h', s') ∧
        s'.length = 0 ∧ storageSize s' = 8 ∧
        ¬ MakesRoom (fun _ => none) (stringNew growAllocation.addr) 8 h' s' ∧
        appendAll h' s' (List.replicate 8 97) = .error (.outOfBounds 8 8) := by
  refine ⟨(stringNew_represents _ _).wellFormed, rfl, ?_⟩
  have hgrow : exists h' s',
      growFor growAllocation (fun _ => none) (stringNew growAllocation.addr) 8 =
        .ok (h', s') ∧
      s'.length = 0 ∧ storageSize s' = 8 ∧
      appendAll h' s' (List.replicate 8 97) = .error (.outOfBounds 8 8) :=
    ⟨_, _, rfl, rfl, rfl, rfl⟩
  rcases hgrow with ⟨h', s', hgrow, hlength, hsize, hoverflow⟩
  refine ⟨h', s', hgrow, hlength, hsize, ?_, hoverflow⟩
  intro hmakes
  have hroom := hmakes.room
  rw [hsize] at hroom
  exact absurd hroom (show ¬ 0 + 8 + 1 ≤ 8 by lia)

end SmallString
end VidsContent
