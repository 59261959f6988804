import Mathlib.Data.List.Nodup

/-!
# A text that is sent in pieces

Each piece of a text is sent with a call of its own, and each call may take less than
its piece.  What arrives is a part of the text from its beginning exactly when nothing
is sent behind the first piece that was cut.
-/

namespace Pieces

variable {alpha : Type}

def sent : List (List alpha) -> List Nat -> List alpha
  | p :: ps, k :: ks => p.take k ++ sent ps ks
  | _, _ => []

/-- Behind the first piece that is cut nothing is sent. -/
def CutOnce : List (List alpha) -> List Nat -> Prop
  | p :: ps, k :: ks => if p.length ≤ k then CutOnce ps ks else sent ps ks = []
  | _, _ => True

instance decidableCutOnce [DecidableEq alpha] :
    forall (ps : List (List alpha)) (ks : List Nat), Decidable (CutOnce ps ks)
  | [], _ => isTrue trivial
  | _ :: _, [] => isTrue trivial
  | p :: ps, k :: ks =>
      have := decidableCutOnce ps ks
      inferInstanceAs (Decidable (if p.length ≤ k then CutOnce ps ks else sent ps ks = []))

@[simp] theorem sent_nil (ps : List (List alpha)) : sent ps [] = [] := by
  cases ps with
  | nil => rfl
  | cons p ps => rfl

theorem sent_concat {ps : List (List alpha)} {ks : List Nat} {p : List alpha}
    (hget : ps[ks.length]? = some p) (k : Nat) :
    sent ps (ks ++ [k]) = sent ps ks ++ p.take k := by
  induction ps generalizing ks with
  | nil => cases hget
  | cons q ps ih =>
      cases ks with
      | nil =>
          cases hget
          rw [List.nil_append, sent_nil, sent, sent_nil, List.append_nil, List.nil_append]
      | cons l ks =>
          rw [List.cons_append, sent, sent, ih hget, List.append_assoc]

theorem sent_subset (ps : List (List alpha)) (ks : List Nat) : sent ps ks ⊆ ps.flatten := by
  induction ps generalizing ks with
  | nil => exact List.nil_subset _
  | cons p ps ih =>
      cases ks with
      | nil => exact List.nil_subset _
      | cons k ks =>
          intro x hx
          rw [List.flatten_cons, List.mem_append]
          rcases List.mem_append.mp hx with hin | hlater
          · exact .inl (List.mem_of_mem_take hin)
          · exact .inr (ih ks hlater)

theorem part_of_cutOnce {ps : List (List alpha)} {ks : List Nat} (h : CutOnce ps ks) :
    sent ps ks <+: ps.flatten := by
  induction ps generalizing ks with
  | nil => exact List.nil_prefix
  | cons p ps ih =>
      cases ks with
      | nil => exact List.nil_prefix
      | cons k ks =>
          rw [sent, List.flatten_cons]
          by_cases hall : p.length ≤ k
          · rw [CutOnce, if_pos hall] at h
            rw [List.take_of_length_le hall]
            exact (List.prefix_append_right_inj p).mpr (ih h)
          · rw [CutOnce, if_neg hall] at h
            rw [h, List.append_nil]
            exact (List.take_prefix k p).trans (List.prefix_append p ps.flatten)

/-- What follows a cut piece would have to be the rest of that piece. -/
theorem cutOnce_of_part {ps : List (List alpha)} {ks : List Nat} (hnodup : ps.flatten.Nodup)
    (h : sent ps ks <+: ps.flatten) : CutOnce ps ks := by
  induction ps generalizing ks with
  | nil => trivial
  | cons p ps ih =>
      cases ks with
      | nil => trivial
      | cons k ks =>
          rw [sent, List.flatten_cons] at h
          rw [List.flatten_cons, List.nodup_append'] at hnodup
          rcases hnodup with ⟨_, hrest, hapart⟩
          rw [CutOnce]
          by_cases hall : p.length ≤ k
          · rw [if_pos hall]
            rw [List.take_of_length_le hall] at h
            exact ih hrest ((List.prefix_append_right_inj p).mp h)
          · rw [if_neg hall]
            have hk : k < p.length := Nat.not_le.mp hall
            have hlength : (p.take k).length = k := List.length_take_of_le (Nat.le_of_lt hk)
            cases hsent : sent ps ks with
            | nil => rfl
            | cons x xs =>
                have hx : x ∈ ps.flatten := by
                  apply sent_subset ps ks
                  rw [hsent]
                  exact List.mem_cons_self
                rw [hsent] at h
                have hhere : (p ++ ps.flatten)[k]? = some x := by
                  rcases h with ⟨tail, htail⟩
                  rw [← htail, List.append_assoc, List.getElem?_append_right (Nat.le_of_eq hlength),
                    hlength, Nat.sub_self]
                  rfl
                rw [List.getElem?_append_left hk] at hhere
                exact absurd hx (hapart (List.mem_of_getElem? hhere))

theorem part_iff_cutOnce {ps : List (List alpha)} {ks : List Nat} (hnodup : ps.flatten.Nodup) :
    sent ps ks <+: ps.flatten <-> CutOnce ps ks :=
  ⟨cutOnce_of_part hnodup, part_of_cutOnce⟩

theorem sent_lengths (ps : List (List alpha)) : sent ps (ps.map List.length) = ps.flatten := by
  induction ps with
  | nil => rfl
  | cons p ps ih =>
      rw [List.map_cons, sent, List.take_length, ih, List.flatten_cons]

/-!
## Places in the text
-/

/-- The places of a text's pieces, from `first` on. -/
def places (first : Nat) : List (List alpha) -> List (List Nat)
  | [] => []
  | p :: ps => List.range' first p.length :: places (first + p.length) ps

theorem flatten_places (first : Nat) (ps : List (List alpha)) :
    (places first ps).flatten = List.range' first ps.flatten.length := by
  induction ps generalizing first with
  | nil => rfl
  | cons p ps ih =>
      rw [places, List.flatten_cons, ih, List.flatten_cons, List.length_append,
        List.range'_append_1]

theorem length_places (first : Nat) (ps : List (List alpha)) :
    (places first ps).map List.length = ps.map List.length := by
  induction ps generalizing first with
  | nil => rfl
  | cons p ps ih => rw [places, List.map_cons, List.map_cons, List.length_range', ih]

theorem nodup_places (ps : List (List alpha)) : (places 0 ps).flatten.Nodup := by
  rw [flatten_places]
  exact List.nodup_range'

def textAt (text : List alpha) (positions : List Nat) : List alpha :=
  positions.filterMap fun i => text[i]?

theorem textAt_rest (front text : List alpha) :
    textAt (front ++ text) (List.range' front.length text.length) = text := by
  induction text generalizing front with
  | nil => rfl
  | cons x text ih =>
      have hrest := ih (front ++ [x])
      rw [List.append_assoc, List.length_append] at hrest
      have hhere : (front ++ x :: text)[front.length]? = some x := by
        rw [List.getElem?_append_right (Nat.le_refl _), Nat.sub_self]
        rfl
      unfold textAt at hrest ⊢
      rw [List.length_cons, List.range'_succ, List.filterMap_cons, hhere]
      exact congrArg (List.cons x) hrest

theorem textAt_part {text : List alpha} {positions : List Nat}
    (h : positions <+: List.range' 0 text.length) : textAt text positions <+: text := by
  have hall : textAt text (List.range' 0 text.length) = text := textAt_rest [] text
  have hpart := h.filterMap fun i => text[i]?
  unfold textAt at hall ⊢
  rw [hall] at hpart
  exact hpart

end Pieces
