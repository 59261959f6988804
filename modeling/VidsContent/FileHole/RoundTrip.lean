import VidsContent.FileHole.Pass
import VidsContent.FileHole.Writer

/-!
# Listing what was written

The lister stops at each block that the writer touched: it finds the hole in
front of it, reads the record at its start and steps back to that start.
-/

namespace VidsContent
namespace FileHole

def recordLines (b stride n k : Nat) : List Line :=
  [.dataFound ((k + 1) * stride) (recordBytes k),
    .holeFound (if k + 1 = n then n * stride + 32 else (k + 1) * stride + b)]

def listing (b stride n : Nat) : List Line :=
  .holeFound 0 :: (List.range n).flatMap (recordLines b stride n)

/-- The hole that is found from the start of the last record before `k`. -/
def holeBefore (b stride n k : Nat) : Nat :=
  if k = 0 then 0 else if k = n then n * stride + 32 else k * stride + b

def InRecordBlock (b stride n o : Nat) : Prop :=
  exists j, j < n ∧ (j + 1) * stride ≤ o ∧ o < (j + 1) * stride + b

/-!
## Where the data are
-/

section Listing

variable {b stride n : Nat} {f : BlockFile}

theorem Strides.block_iff (hs : Strides b stride) (k o : Nat) :
    o / b * b = (k + 1) * stride <->
      (k + 1) * stride ≤ o ∧ o < (k + 1) * stride + b := by
  have hb := hs.block_pos
  rcases hs.block_of_record k with ⟨c, hc⟩
  rw [hc]
  constructor
  · intro heq
    have hsplit := Nat.div_add_mod' o b
    have hmod := Nat.mod_lt o hb
    exact ⟨by lia, by lia⟩
  · rintro ⟨hlow, hhigh⟩
    rw [Nat.div_eq_of_lt_le hlow (by rw [Nat.add_mul, Nat.one_mul]; exact hhigh)]

theorem Written.blockSize_pos (hs : Strides b stride) (h : Written b stride n f) :
    0 < f.blockSize := by
  rw [h.blockSize]
  exact hs.block_pos

theorem Written.image_size (hs : Strides b stride) (h : Written b stride n f) :
    f.image.size = f.size :=
  FileHole.image_size (h.blockSize_pos hs)

theorem Written.size_of_pos (h : Written b stride n f) (hn : 0 < n) :
    f.size = n * stride + 32 := by
  rw [h.size, if_neg (Nat.ne_of_gt hn)]

theorem Written.record_inside (h : Written b stride n f) {k : Nat} (hk : k < n) :
    (k + 1) * stride + 32 ≤ f.size := by
  rw [h.size_of_pos (Nat.zero_lt_of_lt hk)]
  exact Nat.add_le_add_right (Nat.mul_le_mul_right stride hk) 32

theorem Written.kindAt_eq (hs : Strides b stride) (h : Written b stride n f) {o : Nat}
    (ho : o < f.size) :
    (kindAt f.image.extents o = some .data ∧ InRecordBlock b stride n o) ∨
      (kindAt f.image.extents o = some .hole ∧ ¬ InRecordBlock b stride n o) := by
  have hblocks : f.allocated (o / b) = true <-> InRecordBlock b stride n o := by
    rw [h.blocks]
    unfold InRecordBlock
    simp only [hs.block_iff]
  rw [kindAt_image (h.blockSize_pos hs) ho, h.blockSize]
  cases hallocated : f.allocated (o / b) with
  | true => exact Or.inl ⟨rfl, hblocks.mp hallocated⟩
  | false =>
      refine Or.inr ⟨rfl, fun hin => ?_⟩
      rw [hblocks.mpr hin] at hallocated
      cases hallocated

theorem Written.data_iff (hs : Strides b stride) (h : Written b stride n f) {o : Nat}
    (ho : o < f.size) :
    kindAt f.image.extents o = some .data <-> InRecordBlock b stride n o := by
  rcases h.kindAt_eq hs ho with ⟨hkind, hin⟩ | ⟨hkind, hout⟩ <;> rw [hkind]
  · exact iff_of_true rfl hin
  · exact iff_of_false nofun hout

theorem Written.hole_iff (hs : Strides b stride) (h : Written b stride n f) {o : Nat}
    (ho : o < f.size) :
    kindAt f.image.extents o = some .hole <-> ¬ InRecordBlock b stride n o := by
  rcases h.kindAt_eq hs ho with ⟨hkind, hin⟩ | ⟨hkind, hout⟩ <;> rw [hkind]
  · exact iff_of_false nofun (not_not_intro hin)
  · exact iff_of_true rfl hout

theorem inRecordBlock_behind {k o : Nat} (hpos : 0 < k) (hk : k ≤ n) (hlow : k * stride ≤ o)
    (hhigh : o < k * stride + b) : InRecordBlock b stride n o := by
  refine ⟨k - 1, by lia, ?_⟩
  rw [Nat.sub_add_cancel hpos]
  exact ⟨hlow, hhigh⟩

/-!
## Where the seeks stop
-/

theorem Written.hole_at_end (hs : Strides b stride) (h : Written b stride n f) (hn : 0 < n) :
    IsLeast (f.image.holesFrom (n * stride)) f.image.size := by
  have hsize := h.size_of_pos hn
  rw [h.image_size hs]
  constructor
  · exact ⟨by lia, Or.inr (h.image_size hs).symm⟩
  · rintro o ⟨hlow, hstop⟩
    rw [h.image_size hs] at hstop
    rcases hstop with hhole | hend
    · by_contra hlt
      have hholds := hs.holds
      have hin : InRecordBlock b stride n o :=
        inRecordBlock_behind hn (Nat.le_refl n) hlow (by lia)
      exact (h.hole_iff hs (by lia)).mp hhole hin
    · exact Nat.le_of_eq hend.symm

theorem holeBefore_bounds (hs : Strides b stride) {k : Nat} (hk : k < n) :
    k * stride ≤ holeBefore b stride n k ∧ holeBefore b stride n k < (k + 1) * stride := by
  have hapart := hs.apart
  rw [Nat.add_mul, Nat.one_mul]
  unfold holeBefore
  split
  · rename_i hzero
    rw [hzero]
    lia
  · rw [if_neg (Nat.ne_of_lt hk)]
    lia

theorem holeBefore_of_pos {k : Nat} (hpos : 0 < k) (hk : k < n) :
    holeBefore b stride n k = k * stride + b := by
  unfold holeBefore
  rw [if_neg (Nat.ne_of_gt hpos), if_neg (Nat.ne_of_lt hk)]

theorem holeBefore_between {k o : Nat} (hk : k < n)
    (hlow : holeBefore b stride n k ≤ o) (hhigh : o < (k + 1) * stride) :
    ¬ InRecordBlock b stride n o := by
  rintro ⟨j, hj, hstart, hstop⟩
  have hjk : j + 1 < k + 1 := Nat.lt_of_mul_lt_mul_right (a := stride) (by lia)
  have hle : (j + 1) * stride ≤ k * stride := Nat.mul_le_mul_right stride (by lia)
  rw [holeBefore_of_pos (by lia) hk] at hlow
  lia

theorem Written.hole_from (hs : Strides b stride) (h : Written b stride n f) {k : Nat}
    (hk : k < n) : IsLeast (f.image.holesFrom (k * stride)) (holeBefore b stride n k) := by
  have hinside := h.record_inside hk
  have hbounds := holeBefore_bounds hs hk
  constructor
  · have hout := holeBefore_between hk (Nat.le_refl _) hbounds.right
    exact ⟨hbounds.left, Or.inl ((h.hole_iff hs (by lia)).mpr hout)⟩
  · rintro o ⟨hlow, hstop⟩
    rw [h.image_size hs] at hstop
    rcases hstop with hhole | hend
    · by_contra hlt
      rcases Nat.eq_zero_or_pos k with rfl | hpos
      · exact hlt (Nat.zero_le o)
      · rw [holeBefore_of_pos hpos hk] at hlt
        have hin : InRecordBlock b stride n o :=
          inRecordBlock_behind hpos (Nat.le_of_lt hk) hlow (by lia)
        rw [holeBefore_of_pos hpos hk] at hbounds
        exact (h.hole_iff hs (by lia)).mp hhole hin
    · lia

theorem Written.data_from (hs : Strides b stride) (h : Written b stride n f) {k : Nat}
    (hk : k < n) :
    IsLeast (f.image.datasFrom (holeBefore b stride n k)) ((k + 1) * stride) := by
  have hinside := h.record_inside hk
  have hbounds := holeBefore_bounds hs hk
  constructor
  · have hb := hs.block_pos
    have hin : InRecordBlock b stride n ((k + 1) * stride) :=
      inRecordBlock_behind (Nat.succ_pos k) hk (Nat.le_refl _) (by lia)
    exact ⟨Nat.le_of_lt hbounds.right, (h.data_iff hs (by lia)).mpr hin⟩
  · rintro o ⟨hlow, hdata⟩
    by_contra hlt
    have hin := (h.data_iff hs (by lia)).mp hdata
    exact holeBefore_between hk hlow (by lia) hin

theorem Written.read_record (hs : Strides b stride) (h : Written b stride n f) {k : Nat}
    (hk : k < n) (hint : n ≤ intMax) :
    f.image.read ((k + 1) * stride) 32 = recordBytes k := by
  have hinside := h.record_inside hk
  have hlength : (recordBytes k).length = 32 := recordBytes_length (by lia)
  unfold Image.read
  rw [h.image_size hs, show min 32 (f.size - (k + 1) * stride) = 32 by lia]
  apply List.ext_getElem
  · rw [List.length_map, List.length_range, hlength]
  · intro t ht _
    rw [List.length_map, List.length_range] at ht
    rw [List.getElem_map, List.getElem_range]
    rw [show f.image.content = f.content from rfl, h.records k t hk ht]
    rw [List.getD_eq_getElem?_getD, List.getElem?_eq_getElem (by lia), Option.getD_some]

/-!
## The passes
-/

theorem Written.iteration (hs : Strides b stride) (h : Written b stride n f) {k : Nat}
    (hk : k < n) (hint : n ≤ intMax) :
    f.image.iteration (some (k * stride)) =
      ([.holeFound (holeBefore b stride n k), .dataFound ((k + 1) * stride) (recordBytes k)],
        some (some ((k + 1) * stride))) := by
  have hinside := h.record_inside hk
  have himage := h.image_size hs
  have hbounds := holeBefore_bounds hs hk
  have hlength : (recordBytes k).length = 32 := recordBytes_length (by lia)
  rw [Image.iteration_of_isLeast (by lia) (h.hole_from hs hk) (by lia) (h.data_from hs hk),
    h.read_record hs hk hint, hlength]
  simp [lseekBack]

theorem Written.listHoles_from (hs : Strides b stride) (h : Written b stride n f)
    (hn : 0 < n) (hint : n ≤ intMax) {k r : Nat} (hsum : k + r = n) :
    f.image.listHoles (r + 1) (some (k * stride)) =
      some (.holeFound (holeBefore b stride n k) ::
        (List.range' k r).flatMap (recordLines b stride n)) := by
  induction r generalizing k with
  | zero =>
      rw [Nat.add_zero] at hsum
      rw [hsum]
      have hsize : f.image.size = n * stride + 32 := by
        rw [h.image_size hs, h.size_of_pos hn]
      have hend : holeBefore b stride n n = n * stride + 32 := by
        unfold holeBefore
        rw [if_neg (Nat.ne_of_gt hn), if_pos rfl]
      have hpass := Image.iteration_of_end (by lia) (h.hole_at_end hs hn)
      rw [Image.listHoles_of_break hpass, hsize, hend]
      rfl
  | succ r ih =>
      have hpass := h.iteration hs (k := k) (by lia) hint
      rw [Image.listHoles_of_continue hpass (ih (by lia)), List.range'_succ,
        List.flatMap_cons]
      rfl

theorem Written.listHoles_image (hs : Strides b stride) (h : Written b stride n f)
    (hn : 0 < n) (hint : n ≤ intMax) :
    f.image.listHoles (n + 1) (some 0) = some (listing b stride n) := by
  have hlist := h.listHoles_from hs hn hint (k := 0) (Nat.zero_add n)
  rw [Nat.zero_mul, ← List.range_eq_range'] at hlist
  exact hlist

end Listing

/-- What a run of the writer leaves, and what the lister prints of it. -/
theorem listHoles_writeHoles {b stride n : Nat} (hn : 1 ≤ n) (hint : n ≤ intMax)
    (hs : Strides b stride) (hfits : n * stride + 32 < offsetLimit) :
    exists f, writeHoles b stride n = some f ∧
      f.size = n * stride + 32 ∧ f.image.size = f.size ∧
      (forall k t, k < n -> t < 32 ->
        f.content ((k + 1) * stride + t) = (recordBytes k).getD t 0) ∧
      (forall o, (forall k, k < n -> o < (k + 1) * stride ∨ (k + 1) * stride + 32 ≤ o) ->
        f.content o = 0) ∧
      f.image.listHoles (n + 1) (some 0) = some (listing b stride n) ∧
      forall k, k < n ->
        (recordBytes k).length = 32 ∧ printedText (recordBytes k) = recordText k := by
  have hloop : exists f, writeHoles b stride n = some f ∧ Written b stride (0 + n) f :=
    written_writeLoop hs (by lia) (by rwa [Nat.zero_add]) (written_create b stride)
  rcases hloop with ⟨f, hrun, hwritten⟩
  rw [Nat.zero_add] at hwritten
  refine ⟨f, hrun, hwritten.size_of_pos hn, ?_, hwritten.records, hwritten.zero,
    hwritten.listHoles_image hs hn hint, ?_⟩
  · exact hwritten.image_size hs
  · intro k hk
    exact ⟨recordBytes_length (by lia), printedText_recordBytes (by lia)⟩

theorem strides_of_three_blocks : Strides 4096 12288 where
  divides := ⟨3, rfl⟩
  holds := by lia
  apart := by lia

theorem listHoles_writeHoles_two :
    exists f, writeHoles 4096 12288 2 = some f ∧ f.size = 24608 ∧
      f.image.listHoles 3 (some 0) = some (listing 4096 12288 2) := by
  rcases listHoles_writeHoles (n := 2) (by decide) (by decide) strides_of_three_blocks
    (by decide) with ⟨f, hrun, hsize, _, _, _, hlist, _⟩
  exact ⟨f, hrun, hsize, hlist⟩

/-- More records than the counter can count, on offsets that would all fit. -/
theorem writeHoles_counter_overflow :
    (1 ≤ 2147483648 ∧ Strides 4096 12288 ∧ 2147483648 * 12288 + 32 < offsetLimit) ∧
      writeHoles 4096 12288 2147483648 = none := by
  refine ⟨⟨by decide, strides_of_three_blocks, by decide⟩, ?_⟩
  exact writeLoop_overflow 12288 (create 4096) (by decide) (by decide)

end FileHole
end VidsContent
