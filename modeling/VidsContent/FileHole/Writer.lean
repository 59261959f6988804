import VidsContent.FileHole.Layout

/-!
# The hole writer

`main.c` moves forward by a stride, writes a record of 32 bytes and moves back
to the start of that record, ten times with a stride of 1000 * 1000 * 1000000
bytes.  The file system allocates the blocks that a write touches and no others.
The number of records and the stride are parameters here.
-/

namespace VidsContent
namespace FileHole

structure BlockFile where
  blockSize : Nat
  size : Nat
  content : Nat -> UInt8
  allocated : Nat -> Bool
  position : Nat

def offsetLimit : Nat := 9223372036854775808

def intMax : Nat := 2147483647

/-- `open` with `O_CREAT | O_TRUNC`. -/
def create (blockSize : Nat) : BlockFile where
  blockSize := blockSize
  size := 0
  content := fun _ => 0
  allocated := fun _ => false
  position := 0

/-- `lseek64(fd, offset, SEEK_CUR)`, which leaves the position where it fails. -/
def lseekCur (f : BlockFile) (offset : Int) : BlockFile :=
  if 0 ≤ f.position + offset ∧ f.position + offset < offsetLimit then
    { f with position := (f.position + offset).toNat }
  else
    f

/-- A write of all its bytes, unless they reach past the last offset. -/
def write (f : BlockFile) (bytes : List UInt8) : BlockFile :=
  let stop := f.position + bytes.length
  if stop < offsetLimit then
    { f with
      size := max f.size stop
      content := fun o =>
        if f.position ≤ o ∧ o < stop then bytes.getD (o - f.position) 0 else f.content o
      allocated := fun c =>
        f.allocated c ||
          decide (c * f.blockSize < stop ∧ f.position < (c + 1) * f.blockSize)
      position := stop }
  else
    f

/-- What `sprintf` prints for `"i=%d"`. -/
def recordText (i : Nat) : List UInt8 :=
  ("i=".toList ++ Nat.toDigits 10 i).map fun c => UInt8.ofNat c.toNat

/-- `buf`: 32 zeros overwritten with the text and its terminator. -/
def recordBytes (i : Nat) : List UInt8 :=
  recordText i ++ List.replicate (32 - (recordText i).length) 0

def writeRecord (stride i : Nat) (f : BlockFile) : BlockFile :=
  lseekCur (write (lseekCur f stride) (recordBytes i)) (-32)

/--
The loop with `left` turns to go.  Its counter is an `int`: behind `INT_MAX` the
increment is undefined.
-/
def writeLoop (stride : Nat) : Nat -> Nat -> BlockFile -> Option BlockFile
  | 0, _, f => some f
  | left + 1, i, f =>
      if i < intMax then
        writeLoop stride left (i + 1) (writeRecord stride i f)
      else
        none

def writeHoles (blockSize stride records : Nat) : Option BlockFile :=
  writeLoop stride records 0 (create blockSize)

/-!
## The layout of a table of blocks
-/

def blockExtents (blockSize : Nat) (allocated : Nat -> Bool) : Nat -> Nat -> Nat -> List Extent
  | 0, _, _ => []
  | count + 1, c, left =>
      ⟨if allocated c then .data else .hole, min blockSize left⟩ ::
        blockExtents blockSize allocated count (c + 1) (left - blockSize)

def BlockFile.image (f : BlockFile) : Image where
  extents :=
    blockExtents f.blockSize f.allocated ((f.size + f.blockSize - 1) / f.blockSize) 0 f.size
  content := f.content

theorem totalLength_blockExtents {b : Nat} (allocated : Nat -> Bool) {count c left : Nat}
    (hleft : left ≤ count * b) :
    totalLength (blockExtents b allocated count c left) = left := by
  induction count generalizing c left with
  | zero =>
      simp only [blockExtents, totalLength]
      lia
  | succ count ih =>
      rw [Nat.add_mul, Nat.one_mul] at hleft
      simp only [blockExtents, totalLength]
      rw [ih (by lia)]
      lia

theorem kindAt_blockExtents {b : Nat} (hb : 0 < b) (allocated : Nat -> Bool)
    {count c left o : Nat} (hleft : left ≤ count * b) (ho : o < left) :
    kindAt (blockExtents b allocated count c left) o =
      some (if allocated (c + o / b) then .data else .hole) := by
  induction count generalizing c left o with
  | zero => lia
  | succ count ih =>
      rw [Nat.add_mul, Nat.one_mul] at hleft
      simp only [blockExtents, kindAt]
      by_cases hin : o < b
      · rw [if_pos (by lia), Nat.div_eq_of_lt hin, Nat.add_zero]
      · have hmin : min b left = b := by lia
        have hdiv : o / b = (o - b) / b + 1 := by
          rw [Nat.div_eq_sub_div hb (Nat.le_of_not_lt hin)]
        rw [if_neg (by lia), hmin, ih (by lia) (by lia), hdiv,
          show c + ((o - b) / b + 1) = c + 1 + (o - b) / b by lia]

theorem blocks_cover {b : Nat} (hb : 0 < b) (size : Nat) :
    size ≤ (size + b - 1) / b * b := by
  have hmod := Nat.mod_lt (size + b - 1) hb
  have hsplit := Nat.div_add_mod' (size + b - 1) b
  lia

theorem image_size {f : BlockFile} (hb : 0 < f.blockSize) : f.image.size = f.size :=
  totalLength_blockExtents f.allocated (blocks_cover hb f.size)

theorem kindAt_image {f : BlockFile} (hb : 0 < f.blockSize) {o : Nat} (ho : o < f.size) :
    kindAt f.image.extents o =
      some (if f.allocated (o / f.blockSize) then .data else .hole) := by
  have hkind := kindAt_blockExtents (c := 0) hb f.allocated (blocks_cover hb f.size) ho
  rw [Nat.zero_add] at hkind
  exact hkind

/-!
## Records
-/

/-- What `printf` prints of a buffer for `%s`. -/
def printedText (buf : List UInt8) : List UInt8 := buf.takeWhile fun b => b ≠ 0

theorem recordText_length {i : Nat} (hi : i ≤ intMax) : (recordText i).length ≤ 12 := by
  have hdigits : (Nat.toDigits 10 i).length ≤ 10 := by
    rw [Nat.length_toDigits_le_iff (by lia) (by lia)]
    unfold intMax at hi
    lia
  unfold recordText
  rw [List.length_map, List.length_append]
  have hprefix : "i=".toList.length = 2 := rfl
  lia

theorem recordBytes_length {i : Nat} (hi : i ≤ intMax) : (recordBytes i).length = 32 := by
  have hlength := recordText_length hi
  unfold recordBytes
  rw [List.length_append, List.length_replicate]
  lia

theorem ofNat_toNat_ne_zero {c : Char} (hlow : 48 ≤ c.toNat) (hhigh : c.toNat ≤ 61 ∨ c = 'i') :
    UInt8.ofNat c.toNat ≠ 0 := by
  rcases hhigh with hhigh | rfl
  · intro hzero
    have hbyte := congrArg UInt8.toNat hzero
    rw [UInt8.toNat_ofNat', UInt8.toNat_zero] at hbyte
    lia
  · decide

theorem ne_zero_of_mem_recordText {i : Nat} {b : UInt8} (hb : b ∈ recordText i) : b ≠ 0 := by
  unfold recordText at hb
  rcases List.mem_map.mp hb with ⟨c, hc, rfl⟩
  rcases List.mem_append.mp hc with hprefix | hdigit
  · have hchars : "i=".toList = ['i', '='] := rfl
    rw [hchars, List.mem_cons, List.mem_singleton] at hprefix
    rcases hprefix with rfl | rfl
    · exact ofNat_toNat_ne_zero (by decide) (Or.inr rfl)
    · exact ofNat_toNat_ne_zero (by decide) (Or.inl (by decide))
  · have hrange := Char.isDigit_iff_toNat.mp
      (Nat.isDigit_of_mem_toDigits (by lia) (by lia) hdigit)
    have hzero : '0'.toNat = 48 := rfl
    have hnine : '9'.toNat = 57 := rfl
    exact ofNat_toNat_ne_zero (by lia) (Or.inl (by lia))

theorem printedText_recordBytes {i : Nat} (hi : i ≤ intMax) :
    printedText (recordBytes i) = recordText i := by
  have hlength := recordText_length hi
  unfold printedText recordBytes
  rw [List.takeWhile_append_of_pos]
  · cases hpadding : 32 - (recordText i).length with
    | zero => lia
    | succ n => simp [List.replicate_succ]
  · intro b hb
    simpa using ne_zero_of_mem_recordText hb

/-!
## What the writer leaves
-/

/-- The strides and blocks that keep every record in a block of its own. -/
structure Strides (b stride : Nat) : Prop where
  divides : b ∣ stride
  holds : 32 ≤ b
  apart : b < stride

theorem Strides.block_pos {b stride : Nat} (hs : Strides b stride) : 0 < b :=
  Nat.lt_of_lt_of_le (by lia) hs.holds

theorem Strides.block_of_record {b stride : Nat} (hs : Strides b stride) (k : Nat) :
    exists c, (k + 1) * stride = c * b := by
  rcases hs.divides with ⟨d, rfl⟩
  exact ⟨(k + 1) * d, by rw [Nat.mul_comm b d, Nat.mul_assoc]⟩

structure Written (b stride k : Nat) (f : BlockFile) : Prop where
  blockSize : f.blockSize = b
  position : f.position = k * stride
  size : f.size = if k = 0 then 0 else k * stride + 32
  records : forall j t, j < k -> t < 32 ->
    f.content ((j + 1) * stride + t) = (recordBytes j).getD t 0
  zero : forall o, (forall j, j < k -> o < (j + 1) * stride ∨ (j + 1) * stride + 32 ≤ o) ->
    f.content o = 0
  blocks : forall c, f.allocated c = true <-> exists j, j < k ∧ c * b = (j + 1) * stride

theorem written_create (b stride : Nat) : Written b stride 0 (create b) where
  blockSize := rfl
  position := (Nat.zero_mul stride).symm
  size := rfl
  records := fun j t hj => absurd hj (Nat.not_lt_zero j)
  zero := fun _ _ => rfl
  blocks := by
    intro c
    constructor
    · intro h
      cases h
    · rintro ⟨j, hj, _⟩
      exact absurd hj (Nat.not_lt_zero j)

theorem writeRecord_eq {stride i p : Nat} {f : BlockFile} (hi : i ≤ intMax)
    (hposition : f.position + stride = p) (hfits : p + 32 < offsetLimit) :
    writeRecord stride i f =
      { f with
        size := max f.size (p + 32)
        content := fun o =>
          if p ≤ o ∧ o < p + 32 then (recordBytes i).getD (o - p) 0 else f.content o
        allocated := fun c =>
          f.allocated c || decide (c * f.blockSize < p + 32 ∧ p < (c + 1) * f.blockSize)
        position := p } := by
  have hforward : lseekCur f stride = { f with position := p } := by
    unfold lseekCur
    rw [if_pos (by lia), show ((f.position : Int) + stride).toNat = p by lia]
  have hlength := recordBytes_length hi
  have hback : ((p + 32 : Nat) : Int) + -32 = p := by lia
  unfold writeRecord
  rw [hforward]
  unfold write lseekCur
  simp only
  rw [hlength, if_pos hfits, if_pos (by simp only; lia)]
  simp only
  rw [hback]
  rfl

theorem Strides.touches_iff {b stride : Nat} (hs : Strides b stride) (k c : Nat) :
    (c * b < (k + 1) * stride + 32 ∧ (k + 1) * stride < (c + 1) * b) <->
      c * b = (k + 1) * stride := by
  have hholds := hs.holds
  rcases hs.block_of_record k with ⟨q, hq⟩
  rw [hq]
  constructor
  · rintro ⟨hlow, hhigh⟩
    have hle : q < c + 1 := Nat.lt_of_mul_lt_mul_right hhigh
    have hge : c < q + 1 := by
      apply Nat.lt_of_mul_lt_mul_right (a := b)
      rw [Nat.add_mul q, Nat.one_mul]
      lia
    have heq : c = q := by lia
    rw [heq]
  · intro heq
    rw [Nat.add_mul, Nat.one_mul, heq]
    exact ⟨by lia, by lia⟩

theorem record_before (stride : Nat) {j k : Nat} (hjk : j < k) :
    (j + 1) * stride + stride ≤ (k + 1) * stride := by
  have hle : (j + 1 + 1) * stride ≤ (k + 1) * stride := Nat.mul_le_mul_right stride (by lia)
  rw [Nat.add_mul, Nat.one_mul] at hle
  exact hle

theorem written_writeRecord {b stride k : Nat} {f : BlockFile} (hs : Strides b stride)
    (hk : k ≤ intMax) (hfits : (k + 1) * stride + 32 < offsetLimit)
    (h : Written b stride k f) : Written b stride (k + 1) (writeRecord stride k f) := by
  have hholds := hs.holds
  have hapart := hs.apart
  have hposition : f.position + stride = (k + 1) * stride := by
    rw [h.position, Nat.add_mul, Nat.one_mul]
  rw [writeRecord_eq hk hposition hfits]
  refine ⟨h.blockSize, rfl, ?size, ?records, ?zero, ?blocks⟩
  case size =>
    have hle : f.size ≤ (k + 1) * stride + 32 := by
      have hsize := h.size
      rw [Nat.add_mul, Nat.one_mul]
      split at hsize <;> lia
    rw [if_neg (Nat.succ_ne_zero k)]
    exact Nat.max_eq_right hle
  case records =>
    intro j t hj ht
    simp only
    rcases Nat.lt_succ_iff_lt_or_eq.mp hj with hj | rfl
    · have hbefore := record_before stride hj
      rw [if_neg (by lia)]
      exact h.records j t hj ht
    · rw [if_pos ⟨Nat.le_add_right _ t, Nat.add_lt_add_left ht _⟩, Nat.add_sub_cancel_left]
  case zero =>
    intro o houtside
    have hlast := houtside k (Nat.lt_succ_self k)
    simp only
    rw [if_neg (by lia)]
    exact h.zero o fun j hj => houtside j (Nat.lt_succ_of_lt hj)
  case blocks =>
    intro c
    simp only
    rw [Bool.or_eq_true, decide_eq_true_eq, h.blockSize, hs.touches_iff, h.blocks]
    constructor
    · rintro (⟨j, hj, heq⟩ | heq)
      · exact ⟨j, Nat.lt_succ_of_lt hj, heq⟩
      · exact ⟨k, Nat.lt_succ_self k, heq⟩
    · rintro ⟨j, hj, heq⟩
      rcases Nat.lt_succ_iff_lt_or_eq.mp hj with hj | rfl
      · exact Or.inl ⟨j, hj, heq⟩
      · exact Or.inr heq

theorem written_writeLoop {b stride : Nat} (hs : Strides b stride) {left i : Nat}
    {f : BlockFile} (hint : i + left ≤ intMax)
    (hfits : (i + left) * stride + 32 < offsetLimit) (h : Written b stride i f) :
    exists g, writeLoop stride left i f = some g ∧ Written b stride (i + left) g := by
  induction left generalizing i f with
  | zero => exact ⟨f, rfl, h⟩
  | succ left ih =>
      have hturns : i + (left + 1) = i + 1 + left := by lia
      rw [hturns] at hint hfits ⊢
      have hle : (i + 1) * stride ≤ (i + 1 + left) * stride :=
        Nat.mul_le_mul_right stride (by lia)
      have hnext := written_writeRecord hs (by lia) (by lia) h
      unfold writeLoop
      rw [if_pos (by lia)]
      exact ih hint hfits hnext

/-- The counter overflows where the loop has more turns than an `int` can count. -/
theorem writeLoop_overflow (stride : Nat) {left i : Nat} (f : BlockFile) (hi : i ≤ intMax)
    (hover : intMax < i + left) : writeLoop stride left i f = none := by
  induction left generalizing i f with
  | zero => lia
  | succ left ih =>
      unfold writeLoop
      by_cases hlt : i < intMax
      · rw [if_pos hlt]
        exact ih (writeRecord stride i f) (by lia) (by lia)
      · rw [if_neg hlt]

end FileHole
end VidsContent
