import VidsContent.FileHole.Layout

/-!
# Listing the holes of a file

The loop of the hole lister alternates two seeks, reads 32 bytes of the data it
found, and steps back by 32 bytes whatever the read returned.  An offset is
`none` where the source holds -1.
-/

namespace VidsContent
namespace FileHole

inductive Line where
  | holeFound (offset : Nat)
  | dataFound (offset : Nat) (buf : List UInt8)
deriving DecidableEq

def Line.offset : Line -> Nat
  | .holeFound offset => offset
  | .dataFound offset _ => offset

def Line.hole? : Line -> Option Nat
  | .holeFound offset => some offset
  | .dataFound _ _ => none

def Line.data? : Line -> Option Nat
  | .holeFound _ => none
  | .dataFound offset _ => some offset

/-- `lseek64(fd, -count, SEEK_CUR)`. -/
def lseekBack (position count : Nat) : Option Nat :=
  if count ≤ position then some (position - count) else none

namespace Image

/-- `lseek64(fd, offset, SEEK_HOLE)`. -/
def lseekHole (f : Image) : Option Nat -> Option Nat
  | none => none
  | some off => if off < f.size then some (seekHole f.extents off) else none

/-- `lseek64(fd, offset, SEEK_DATA)`. -/
def lseekData (f : Image) : Option Nat -> Option Nat
  | none => none
  | some off => if off < f.size then seekData f.extents off else none

def read (f : Image) (position count : Nat) : List UInt8 :=
  (List.range (min count (f.size - position))).map fun i => f.content (position + i)

def iteration (f : Image) (offset : Option Nat) : List Line × Option (Option Nat) :=
  match f.lseekHole offset with
  | none => ([], none)
  | some hole =>
      match f.lseekData (some hole) with
      | none => ([.holeFound hole], none)
      | some data =>
          let buf := f.read data 32
          ([.holeFound hole, .dataFound data buf],
            some (lseekBack (data + buf.length) 32))

/-- The loop with a bound on its passes; `none` when the bound is not enough. -/
def listHoles (f : Image) : Nat -> Option Nat -> Option (List Line)
  | 0, _ => none
  | fuel + 1, offset =>
      match f.iteration offset with
      | (lines, none) => some lines
      | (lines, some next) => (listHoles f fuel next).map (lines ++ ·)

end Image

/-!
## What the listing should be
-/

def holeStarts : List Extent -> Nat -> List Nat
  | [], _ => []
  | e :: rest, base =>
      match e.kind with
      | .hole => base :: holeStarts rest (base + e.length)
      | .data => holeStarts rest (base + e.length)

/-- The end of a file that ends in data, which counts as a hole. -/
def endHole : List Extent -> Nat -> List Nat
  | [], _ => []
  | [last], base =>
      match last.kind with
      | .hole => []
      | .data => [base + last.length]
  | e :: next :: rest, base => endHole (next :: rest) (base + e.length)

def dataStartsAfterHole : List Extent -> Nat -> List Nat
  | [], _ => []
  | [_], _ => []
  | e :: next :: rest, base =>
      match e.kind, next.kind with
      | .hole, .data =>
          (base + e.length) :: dataStartsAfterHole (next :: rest) (base + e.length)
      | _, _ => dataStartsAfterHole (next :: rest) (base + e.length)

/-- The loop ends, and its lines name every extent once, in increasing order. -/
def EnumeratesExactly (f : SparseFile) : Prop :=
  exists fuel lines, f.listHoles fuel (some 0) = some lines ∧
    (lines.map Line.offset).Pairwise (· < ·) ∧
    lines.filterMap Line.hole? = holeStarts f.extents 0 ++ endHole f.extents 0 ∧
    lines.filterMap Line.data? = dataStartsAfterHole f.extents 0

/-- The file ends in fewer than 32 bytes of data behind a hole. -/
def ShortTail (exts : List Extent) : Prop :=
  exists pre hole data, exts = pre ++ [⟨.hole, hole⟩, ⟨.data, data⟩] ∧ data < 32

/-!
## One pass
-/

namespace Image

theorem listHoles_of_break {f : Image} {offset : Option Nat} {lines : List Line}
    (h : f.iteration offset = (lines, none)) : f.listHoles 1 offset = some lines := by
  simp [listHoles, h]

theorem listHoles_of_continue {f : Image} {offset next : Option Nat}
    {lines more : List Line} {fuel : Nat}
    (h : f.iteration offset = (lines, some next))
    (hrest : f.listHoles fuel next = some more) :
    f.listHoles (fuel + 1) offset = some (lines ++ more) := by
  simp [listHoles, h, hrest]

theorem read_length (f : Image) (position count : Nat) :
    (f.read position count).length = min count (f.size - position) := by
  simp [read]

section Position

variable {f : Image} {pre rest : List Extent}

theorem lseekHole_at (hsplit : f.extents = pre ++ rest) {off : Nat}
    (hoff : off < totalLength rest) :
    f.lseekHole (some (totalLength pre + off)) =
      some (totalLength pre + seekHole rest off) := by
  simp only [lseekHole, Image.size, hsplit, totalLength_append]
  rw [if_pos (by lia), seekHole_append]

theorem lseekData_at (hsplit : f.extents = pre ++ rest) {off : Nat}
    (hoff : off < totalLength rest) :
    f.lseekData (some (totalLength pre + off)) =
      (seekData rest off).map (totalLength pre + ·) := by
  simp only [lseekData, Image.size, hsplit, totalLength_append]
  rw [if_pos (by lia), seekData_append]

theorem size_at (hsplit : f.extents = pre ++ rest) :
    f.size = totalLength pre + totalLength rest := by
  rw [Image.size, hsplit, totalLength_append]

theorem iteration_nil (hsplit : f.extents = pre ++ []) :
    f.iteration (some (totalLength pre)) = ([], none) := by
  have hsize : f.size = totalLength pre := by
    simpa [totalLength] using size_at hsplit
  simp [iteration, lseekHole, hsize]

theorem iteration_last_hole {h : Nat} (hpos : 0 < h)
    (hsplit : f.extents = pre ++ [⟨.hole, h⟩]) :
    f.iteration (some (totalLength pre)) =
      ([.holeFound (totalLength pre)], none) := by
  have hlt : 0 < totalLength [⟨.hole, h⟩] := by simpa [totalLength] using hpos
  have hhole := lseekHole_at hsplit hlt
  have hdata := lseekData_at hsplit hlt
  simp [seekHole, hpos] at hhole
  simp [seekData] at hdata
  simp [iteration, hhole, hdata]

theorem iteration_last_data {d : Nat} (hpos : 0 < d)
    (hsplit : f.extents = pre ++ [⟨.data, d⟩]) :
    f.iteration (some (totalLength pre)) =
      ([.holeFound (totalLength pre + d)], none) := by
  have hlt : 0 < totalLength [⟨.data, d⟩] := by simpa [totalLength] using hpos
  have hhole := lseekHole_at hsplit hlt
  have hsize : f.size = totalLength pre + d := by
    simpa [totalLength] using size_at hsplit
  simp [seekHole] at hhole
  simp [iteration, hhole, lseekData, hsize]

theorem iteration_data {d h : Nat} (hd : 0 < d) (hh : 0 < h)
    (hsplit : f.extents = pre ++ ⟨.data, d⟩ :: ⟨.hole, h⟩ :: rest) :
    f.iteration (some (totalLength pre)) =
      f.iteration (some (totalLength pre + d)) := by
  have hhere := lseekHole_at hsplit (show 0 < _ by simp [totalLength]; lia)
  have hthere := lseekHole_at hsplit (show d < _ by simp [totalLength]; lia)
  simp [seekHole, hh] at hhere hthere
  unfold iteration
  rw [hhere, hthere]

theorem iteration_hole {h d : Nat} (hh : 0 < h) (hd : 0 < d)
    (hsplit : f.extents = pre ++ ⟨.hole, h⟩ :: ⟨.data, d⟩ :: rest) :
    f.iteration (some (totalLength pre)) =
      ([.holeFound (totalLength pre),
          .dataFound (totalLength pre + h) (f.read (totalLength pre + h) 32)],
        some (lseekBack
          (totalLength pre + h + (f.read (totalLength pre + h) 32).length) 32)) := by
  have hlt : 0 < totalLength (⟨.hole, h⟩ :: ⟨.data, d⟩ :: rest) := by
    simp [totalLength]
    lia
  have hhole := lseekHole_at hsplit hlt
  have hdata := lseekData_at hsplit hlt
  simp [seekHole, hh] at hhole
  simp [seekData, hd] at hdata
  simp [iteration, hhole, hdata]

theorem lseekBack_read {d : Nat} {tail : List Extent} {h : Nat}
    (hsplit : f.extents = pre ++ ⟨.hole, h⟩ :: ⟨.data, d⟩ :: tail) (hfull : 32 ≤ d) :
    lseekBack (totalLength pre + h + (f.read (totalLength pre + h) 32).length) 32 =
      some (totalLength pre + h) := by
  have hsize := size_at hsplit
  simp only [totalLength] at hsize
  have hlength : (f.read (totalLength pre + h) 32).length = 32 := by
    rw [read_length]
    lia
  rw [hlength, lseekBack, if_pos (by lia), Nat.add_sub_cancel]

end Position

end Image

/-!
## The whole listing
-/

structure Listing (rest : List Extent) (base : Nat) (lines : List Line) : Prop where
  increasing : (lines.map Line.offset).Pairwise (· < ·)
  from_base : forall line, line ∈ lines -> base ≤ line.offset
  behind_data : (exists d tail, rest = ⟨.data, d⟩ :: tail) ->
    forall line, line ∈ lines -> base < line.offset
  holes : lines.filterMap Line.hole? = holeStarts rest base ++ endHole rest base
  datas : lines.filterMap Line.data? = dataStartsAfterHole rest base

theorem listing_nil (base : Nat) : Listing [] base [] where
  increasing := List.Pairwise.nil
  from_base := by simp
  behind_data := by simp
  holes := rfl
  datas := rfl

theorem listing_last_hole (base h : Nat) :
    Listing [⟨.hole, h⟩] base [.holeFound base] where
  increasing := by simp
  from_base := by simp [Line.offset]
  behind_data := by simp
  holes := rfl
  datas := rfl

theorem listing_last_data {d : Nat} (base : Nat) (hd : 0 < d) :
    Listing [⟨.data, d⟩] base [.holeFound (base + d)] where
  increasing := by simp
  from_base := by simp [Line.offset]
  behind_data := by
    intro _ line hline
    rw [List.mem_singleton] at hline
    subst hline
    simp only [Line.offset]
    lia
  holes := rfl
  datas := rfl

theorem Listing.data {d h base : Nat} {rest : List Extent} {lines : List Line}
    (hd : 0 < d)
    (hlisting : Listing (⟨.hole, h⟩ :: rest) (base + d) lines) :
    Listing (⟨.data, d⟩ :: ⟨.hole, h⟩ :: rest) base lines where
  increasing := hlisting.increasing
  from_base := by
    intro line hline
    have hge := hlisting.from_base line hline
    lia
  behind_data := by
    intro _ line hline
    have hge := hlisting.from_base line hline
    lia
  holes := hlisting.holes
  datas := hlisting.datas

theorem Listing.hole {h d base : Nat} {rest : List Extent} {lines : List Line}
    (hh : 0 < h) (buf : List UInt8)
    (hlisting : Listing (⟨.data, d⟩ :: rest) (base + h) lines) :
    Listing (⟨.hole, h⟩ :: ⟨.data, d⟩ :: rest) base
      (.holeFound base :: .dataFound (base + h) buf :: lines) where
  increasing := by
    have hbehind := hlisting.behind_data ⟨d, rest, rfl⟩
    rw [List.map_cons, List.map_cons, List.pairwise_cons, List.pairwise_cons]
    refine ⟨?_, ?_, hlisting.increasing⟩
    · intro o ho
      show base < o
      rcases List.mem_cons.mp ho with rfl | ho
      · show base < base + h
        lia
      · rcases List.mem_map.mp ho with ⟨line, hline, rfl⟩
        have hlt := hbehind line hline
        lia
    · intro o ho
      rcases List.mem_map.mp ho with ⟨line, hline, rfl⟩
      exact hbehind line hline
  from_base := by
    intro line hline
    rcases List.mem_cons.mp hline with rfl | hline
    · exact Nat.le_refl base
    · rcases List.mem_cons.mp hline with rfl | hline
      · exact Nat.le_add_right base h
      · have hge := hlisting.from_base line hline
        lia
  behind_data := by simp
  holes := by
    simp only [List.filterMap_cons, Line.hole?, hlisting.holes]
    rfl
  datas := by
    simp only [List.filterMap_cons, Line.data?, hlisting.datas]
    rfl

theorem ShortTail.cons {e : Extent} {rest : List Extent} (h : ShortTail rest) :
    ShortTail (e :: rest) := by
  rcases h with ⟨pre, hole, data, hrest, hshort⟩
  exact ⟨e :: pre, hole, data, by rw [hrest, List.cons_append], hshort⟩

theorem full_read_of_not_shortTail {h d : Nat} {rest : List Extent}
    (hvalid : ValidExtents (⟨.hole, h⟩ :: ⟨.data, d⟩ :: rest))
    (htail : ¬ ShortTail (⟨.hole, h⟩ :: ⟨.data, d⟩ :: rest)) : 32 ≤ d := by
  cases rest with
  | nil =>
      apply Nat.le_of_not_lt
      intro hshort
      exact htail ⟨[], h, d, rfl, hshort⟩
  | cons next rest =>
      have hblocks : 512 ≤ d := hvalid.tail.left
      lia

namespace Image

/--
The loop started at the first offset of the extents `rest` prints their listing.
The induction is on `rest`: a pass at a hole moves to the data behind it.
-/
theorem listHoles_from {f : Image} {rest : List Extent} (pre : List Extent)
    (hvalid : ValidExtents rest) (hsplit : f.extents = pre ++ rest)
    (htail : ¬ ShortTail rest) :
    exists fuel lines,
      f.listHoles fuel (some (totalLength pre)) = some lines ∧
        Listing rest (totalLength pre) lines := by
  induction rest generalizing pre with
  | nil =>
      exact ⟨1, [], listHoles_of_break (iteration_nil hsplit), listing_nil _⟩
  | cons e rest ih =>
      rcases e with ⟨kind, len⟩
      have hlen : 0 < len := hvalid.head_pos
      have hstep := ih (pre ++ [⟨kind, len⟩]) hvalid.tail
        (by rw [hsplit, List.append_assoc, List.singleton_append])
        (fun hrest => htail hrest.cons)
      rw [totalLength_append, show totalLength [⟨kind, len⟩] = len by
        simp [totalLength]] at hstep
      cases kind with
      | data =>
          cases rest with
          | nil =>
              exact ⟨1, _, listHoles_of_break (iteration_last_data hlen hsplit),
                listing_last_data _ hlen⟩
          | cons next rest =>
              rcases next with ⟨nextKind, nextLen⟩
              cases nextKind with
              | data => exact absurd rfl hvalid.right.left
              | hole =>
                  rcases hstep with ⟨fuel, lines, hlist, hlisting⟩
                  refine ⟨fuel, lines, ?_, hlisting.data hlen⟩
                  cases fuel with
                  | zero => cases hlist
                  | succ fuel =>
                      rw [listHoles, iteration_data hlen hvalid.tail.head_pos hsplit]
                      exact hlist
      | hole =>
          cases rest with
          | nil =>
              exact ⟨1, _, listHoles_of_break (iteration_last_hole hlen hsplit),
                listing_last_hole _ _⟩
          | cons next rest =>
              rcases next with ⟨nextKind, nextLen⟩
              cases nextKind with
              | hole => exact absurd rfl hvalid.right.left
              | data =>
                  rcases hstep with ⟨fuel, lines, hlist, hlisting⟩
                  have hpass := iteration_hole hlen hvalid.tail.head_pos hsplit
                  rw [lseekBack_read hsplit
                    (full_read_of_not_shortTail hvalid htail)] at hpass
                  exact ⟨fuel + 1, _, listHoles_of_continue hpass hlist,
                    hlisting.hole hlen _⟩

/-!
## The short tail
-/

/--
With a short tail the loop never reaches the last extent: the step back from it
lands in the hole before it.
-/
theorem iteration_shortTail {f : Image} {pre : List Extent} {h d off : Nat}
    (hsplit : f.extents = pre ++ [⟨.hole, h⟩, ⟨.data, d⟩]) (hd : 0 < d)
    (hblock : 512 ≤ h) (hshort : d < 32) (hoff : off < totalLength pre + h) :
    exists lines next, f.iteration (some off) = (lines, some (some next)) ∧
      next < totalLength pre + h := by
  have hsize : f.size = totalLength pre + (h + d) := by
    simpa [totalLength] using size_at hsplit
  have hhole := seekHole_isLeast f.extents off (by rw [← Image.size]; lia)
  have hnear : seekHole f.extents off < totalLength pre + h := by
    have hin : kindAt f.extents (max off (totalLength pre)) = some .hole := by
      rw [hsplit, show max off (totalLength pre) =
        totalLength pre + (max off (totalLength pre) - totalLength pre) by lia,
        kindAt_append, kindAt, if_pos (by simp only; lia)]
    have hle := hhole.right ⟨Nat.le_max_left off (totalLength pre), Or.inl hin⟩
    lia
  have hdata : kindAt f.extents (totalLength pre + h) = some .data := by
    rw [hsplit, kindAt_append]
    simp [kindAt, hd]
  have hseekHole : f.lseekHole (some off) = some (seekHole f.extents off) := by
    simp only [lseekHole]
    rw [if_pos (by lia)]
  have hseekData : f.lseekData (some (seekHole f.extents off)) =
      seekData f.extents (seekHole f.extents off) := by
    simp only [lseekData]
    rw [if_pos (by lia)]
  cases hfound : seekData f.extents (seekHole f.extents off) with
  | none => exact absurd hdata (seekData_eq_none hfound (Nat.le_of_lt hnear))
  | some data =>
      have hle : data ≤ totalLength pre + h :=
        (seekData_isLeast hfound).right ⟨Nat.le_of_lt hnear, hdata⟩
      have hlength := read_length f data 32
      refine ⟨[.holeFound (seekHole f.extents off),
        .dataFound data (f.read data 32)], data + (f.read data 32).length - 32, ?_, ?_⟩
      · simp only [iteration, hseekHole, hseekData, hfound, lseekBack]
        rw [if_pos (by lia)]
      · lia

theorem listHoles_shortTail {f : Image} {pre : List Extent} {h d off : Nat}
    (hsplit : f.extents = pre ++ [⟨.hole, h⟩, ⟨.data, d⟩]) (hd : 0 < d)
    (hblock : 512 ≤ h) (hshort : d < 32) (hoff : off < totalLength pre + h)
    (fuel : Nat) : f.listHoles fuel (some off) = none := by
  induction fuel generalizing off with
  | zero => rfl
  | succ fuel ih =>
      rcases iteration_shortTail hsplit hd hblock hshort hoff with
        ⟨lines, next, hpass, hnext⟩
      simp [listHoles, hpass, ih hnext]

end Image

theorem listHoles_diverges {f : SparseFile} (htail : ShortTail f.extents)
    (fuel : Nat) : f.listHoles fuel (some 0) = none := by
  rcases htail with ⟨pre, h, d, hsplit, hshort⟩
  have hvalid : ValidExtents [⟨.hole, h⟩, ⟨.data, d⟩] := by
    have hall := f.valid
    rw [hsplit] at hall
    exact hall.suffix
  have hblock : 512 ≤ h := hvalid.left
  have hd : 0 < d := hvalid.right.right
  exact Image.listHoles_shortTail hsplit hd hblock hshort (by lia) fuel

/--
The lister ends with every hole and every data extent behind a hole, in order
and once, exactly for the files without a short tail.
-/
theorem enumeratesExactly_iff_not_shortTail (f : SparseFile) :
    EnumeratesExactly f <-> ¬ ShortTail f.extents := by
  constructor
  · rintro ⟨fuel, lines, hlist, _⟩ htail
    rw [listHoles_diverges htail fuel] at hlist
    cases hlist
  · intro htail
    rcases Image.listHoles_from [] f.valid rfl htail with
      ⟨fuel, lines, hlist, hlisting⟩
    exact ⟨fuel, lines, hlist, hlisting.increasing, hlisting.holes, hlisting.datas⟩

def shortTailFile : SparseFile where
  extents := [⟨.hole, 512⟩, ⟨.data, 10⟩]
  valid := by simp [ValidExtents]
  content := fun _ => 0

theorem shortTailFile_not_enumerated :
    ¬ EnumeratesExactly shortTailFile ∧
      forall fuel, shortTailFile.listHoles fuel (some 0) = none := by
  have htail : ShortTail shortTailFile.extents := ⟨[], 512, 10, rfl, by decide⟩
  refine ⟨?_, listHoles_diverges htail⟩
  rintro ⟨fuel, lines, hlist, _⟩
  rw [listHoles_diverges htail fuel] at hlist
  cases hlist

end FileHole
end VidsContent
