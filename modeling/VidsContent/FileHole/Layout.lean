import Mathlib.Order.Bounds.Basic

/-!
# Sparse files

A sparse file is a list of data and hole extents, alternating in kind.  Every
extent but the last consists of whole blocks of at least 512 bytes; the last
one may be cut short by the end of the file.  Seeking finds the nearest offset
of a kind, with the end of the file counting as a hole.
-/

namespace VidsContent
namespace FileHole

inductive Kind where
  | data
  | hole
deriving DecidableEq

structure Extent where
  kind : Kind
  length : Nat
deriving DecidableEq

/-- Alternating extents that only the end of the file can make short. -/
def ValidExtents : List Extent -> Prop
  | [] => True
  | [last] => 0 < last.length
  | e :: next :: rest =>
      512 ≤ e.length ∧ e.kind ≠ next.kind ∧ ValidExtents (next :: rest)

def totalLength : List Extent -> Nat
  | [] => 0
  | e :: rest => e.length + totalLength rest

structure Image where
  extents : List Extent
  content : Nat -> UInt8

structure SparseFile extends Image where
  valid : ValidExtents extents

def Image.size (f : Image) : Nat := totalLength f.extents

def kindAt : List Extent -> Nat -> Option Kind
  | [], _ => none
  | e :: rest, off =>
      if off < e.length then some e.kind else kindAt rest (off - e.length)

/-- The nearest hole at or after an offset, the end of the file included. -/
def seekHole : List Extent -> Nat -> Nat
  | [], _ => 0
  | e :: rest, off =>
      if off < e.length ∧ e.kind = .hole then
        off
      else
        e.length + seekHole rest (off - e.length)

def seekData : List Extent -> Nat -> Option Nat
  | [], _ => none
  | e :: rest, off =>
      if off < e.length ∧ e.kind = .data then
        some off
      else
        (seekData rest (off - e.length)).map (e.length + ·)

@[simp] theorem totalLength_append (pre rest : List Extent) :
    totalLength (pre ++ rest) = totalLength pre + totalLength rest := by
  induction pre with
  | nil => simp [totalLength]
  | cons e pre ih =>
      rw [List.cons_append, totalLength, totalLength, ih, Nat.add_assoc]

theorem ValidExtents.tail {e : Extent} {rest : List Extent}
    (h : ValidExtents (e :: rest)) : ValidExtents rest := by
  cases rest with
  | nil => trivial
  | cons next rest => exact h.right.right

theorem ValidExtents.suffix {pre rest : List Extent}
    (h : ValidExtents (pre ++ rest)) : ValidExtents rest := by
  induction pre with
  | nil => exact h
  | cons e pre ih => exact ih h.tail

theorem ValidExtents.head_pos {e : Extent} {rest : List Extent}
    (h : ValidExtents (e :: rest)) : 0 < e.length := by
  cases rest with
  | nil => exact h
  | cons next rest =>
      have hblocks : 512 ≤ e.length := h.left
      lia

/-!
## What seeking finds
-/

theorem seekHole_isLeast (exts : List Extent) (off : Nat)
    (hoff : off ≤ totalLength exts) :
    IsLeast {o | off ≤ o ∧ (kindAt exts o = some .hole ∨ o = totalLength exts)}
      (seekHole exts off) := by
  induction exts generalizing off with
  | nil =>
      have hzero : off = 0 := by simpa [totalLength] using hoff
      subst hzero
      exact ⟨⟨Nat.le_refl 0, Or.inr rfl⟩, fun o _ => Nat.zero_le o⟩
  | cons e rest ih =>
      unfold totalLength at hoff ⊢
      unfold seekHole
      split
      · rename_i hin
        refine ⟨⟨Nat.le_refl off, Or.inl ?_⟩, fun o ho => ho.left⟩
        rw [kindAt, if_pos hin.left, hin.right]
      · rename_i hout
        have hrest := ih (off - e.length) (by lia)
        rcases hrest with ⟨⟨hge, hkind⟩, hleast⟩
        refine ⟨⟨by lia, ?_⟩, ?_⟩
        · cases hkind with
          | inl hhole =>
              left
              rw [kindAt, if_neg (by lia), Nat.add_sub_cancel_left]
              exact hhole
          | inr hend =>
              right
              rw [hend]
        · rintro o ⟨ho, hoKind⟩
          by_cases hlt : o < e.length
          · exfalso
            cases hoKind with
            | inl hhole =>
                rw [kindAt, if_pos hlt] at hhole
                exact hout ⟨by lia, Option.some.inj hhole⟩
            | inr hend => lia
          · have hmem := hleast (a := o - e.length)
              ⟨by lia, by
                cases hoKind with
                | inl hhole =>
                    left
                    rwa [kindAt, if_neg hlt] at hhole
                | inr hend =>
                    right
                    lia⟩
            lia

theorem seekData_isLeast {exts : List Extent} {off d : Nat}
    (hseek : seekData exts off = some d) :
    IsLeast {o | off ≤ o ∧ kindAt exts o = some .data} d := by
  induction exts generalizing off d with
  | nil => cases hseek
  | cons e rest ih =>
      unfold seekData at hseek
      split at hseek
      · rename_i hin
        cases hseek
        refine ⟨⟨Nat.le_refl _, ?_⟩, fun o ho => ho.left⟩
        rw [kindAt, if_pos hin.left, hin.right]
      · rename_i hout
        rcases Option.map_eq_some_iff.mp hseek with ⟨r, hr, rfl⟩
        rcases ih hr with ⟨⟨hge, hkind⟩, hleast⟩
        refine ⟨⟨by lia, ?_⟩, ?_⟩
        · rw [kindAt, if_neg (by lia), Nat.add_sub_cancel_left]
          exact hkind
        · rintro o ⟨ho, hoKind⟩
          by_cases hlt : o < e.length
          · exfalso
            rw [kindAt, if_pos hlt] at hoKind
            exact hout ⟨by lia, Option.some.inj hoKind⟩
          · rw [kindAt, if_neg hlt] at hoKind
            have hmem := hleast (a := o - e.length) ⟨by lia, hoKind⟩
            lia

theorem seekData_eq_none {exts : List Extent} {off o : Nat}
    (hseek : seekData exts off = none) (ho : off ≤ o) :
    kindAt exts o ≠ some .data := by
  induction exts generalizing off o with
  | nil => simp [kindAt]
  | cons e rest ih =>
      unfold seekData at hseek
      split at hseek
      · cases hseek
      · rename_i hout
        rw [Option.map_eq_none_iff] at hseek
        unfold kindAt
        split
        · rename_i hlt
          intro hdata
          exact hout ⟨by lia, Option.some.inj hdata⟩
        · exact ih hseek (by lia)

/-!
## Seeking past a list of extents
-/

theorem kindAt_append (pre rest : List Extent) (off : Nat) :
    kindAt (pre ++ rest) (totalLength pre + off) = kindAt rest off := by
  induction pre with
  | nil => simp [totalLength]
  | cons e pre ih =>
      rw [List.cons_append, kindAt, totalLength, if_neg (by lia),
        show e.length + totalLength pre + off - e.length =
          totalLength pre + off by lia, ih]

theorem seekHole_append (pre rest : List Extent) (off : Nat) :
    seekHole (pre ++ rest) (totalLength pre + off) =
      totalLength pre + seekHole rest off := by
  induction pre with
  | nil => simp [totalLength]
  | cons e pre ih =>
      rw [List.cons_append, seekHole, totalLength, if_neg (by lia),
        show e.length + totalLength pre + off - e.length =
          totalLength pre + off by lia, ih, Nat.add_assoc]

theorem seekData_append (pre rest : List Extent) (off : Nat) :
    seekData (pre ++ rest) (totalLength pre + off) =
      (seekData rest off).map (totalLength pre + ·) := by
  induction pre with
  | nil => simp [totalLength]
  | cons e pre ih =>
      rw [List.cons_append, seekData, totalLength, if_neg (by lia),
        show e.length + totalLength pre + off - e.length =
          totalLength pre + off by lia, ih, Option.map_map]
      congr 1
      funext d
      exact (Nat.add_assoc _ _ _).symm

end FileHole
end VidsContent
