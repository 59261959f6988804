import VidsContent.FileHole.ListHoles

/-!
# A pass by what the seeks find

The extents of a file may have any lengths and need not alternate, as they come from a
table of blocks: what a pass prints then depends only on where the next hole and the next
data are.
-/

namespace VidsContent
namespace FileHole
namespace Image

def holesFrom (f : Image) (off : Nat) : Set Nat :=
  {o | off ≤ o ∧ (kindAt f.extents o = some .hole ∨ o = f.size)}

def datasFrom (f : Image) (off : Nat) : Set Nat :=
  {o | off ≤ o ∧ kindAt f.extents o = some .data}

theorem lseekHole_of_isLeast {f : Image} {off hole : Nat} (hoff : off < f.size)
    (hhole : IsLeast (f.holesFrom off) hole) : f.lseekHole (some off) = some hole := by
  have hseek : IsLeast (f.holesFrom off) (seekHole f.extents off) :=
    seekHole_isLeast f.extents off (Nat.le_of_lt hoff)
  simp only [lseekHole]
  rw [if_pos hoff, hseek.unique hhole]

theorem lseekData_of_isLeast {f : Image} {off data : Nat} (hoff : off < f.size)
    (hdata : IsLeast (f.datasFrom off) data) : f.lseekData (some off) = some data := by
  simp only [lseekData]
  rw [if_pos hoff]
  cases hseek : seekData f.extents off with
  | none => exact absurd hdata.left.right (seekData_eq_none hseek hdata.left.left)
  | some found =>
      have hfound : IsLeast (f.datasFrom off) found := seekData_isLeast hseek
      rw [hfound.unique hdata]

theorem iteration_of_isLeast {f : Image} {off hole data : Nat} (hoff : off < f.size)
    (hhole : IsLeast (f.holesFrom off) hole) (hlt : hole < f.size)
    (hdata : IsLeast (f.datasFrom hole) data) :
    f.iteration (some off) =
      ([.holeFound hole, .dataFound data (f.read data 32)],
        some (lseekBack (data + (f.read data 32).length) 32)) := by
  unfold iteration
  rw [lseekHole_of_isLeast hoff hhole]
  simp only
  rw [lseekData_of_isLeast hlt hdata]

theorem iteration_of_end {f : Image} {off : Nat} (hoff : off < f.size)
    (hhole : IsLeast (f.holesFrom off) f.size) :
    f.iteration (some off) = ([.holeFound f.size], none) := by
  have hdata : f.lseekData (some f.size) = none := by
    simp only [lseekData]
    rw [if_neg (Nat.lt_irrefl _)]
  unfold iteration
  rw [lseekHole_of_isLeast hoff hhole]
  simp only
  rw [hdata]

end Image
end FileHole
end VidsContent
