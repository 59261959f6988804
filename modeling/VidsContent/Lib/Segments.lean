import Mathlib.Data.List.Chain
import Mathlib.Data.List.Range

/-!
# Stretches of memory

A segment is a base address and a length.  A list of segments stands for the
addresses that a gathering call visits, in order.  Two neighbours of which the
first ends where the second starts can be one; a list without such neighbours is
the shortest that visits its addresses.
-/

namespace Segments

structure Segment where
  base : Nat
  len : Nat
deriving DecidableEq

def Segment.addrs (v : Segment) : List Nat := List.range' v.base v.len

def Segment.stop (v : Segment) : Nat := v.base + v.len

def addrs (vs : List Segment) : List Nat := vs.flatMap Segment.addrs

def extendLast (n : Nat) : List Segment -> List Segment
  | [] => []
  | [v] => [{ v with len := v.len + n }]
  | v :: w :: vs => v :: extendLast n (w :: vs)

/-- No segment starts where the one before it ends. -/
def Coalesced (vs : List Segment) : Prop := vs.IsChain fun v w => v.stop ≠ w.base

/-!
## Addresses
-/

@[simp] theorem segment_addrs_length (v : Segment) : v.addrs.length = v.len := by
  simp [Segment.addrs]

@[simp] theorem addrs_nil : addrs [] = [] := rfl

@[simp] theorem addrs_cons (v : Segment) (vs : List Segment) :
    addrs (v :: vs) = v.addrs ++ addrs vs := rfl

theorem addrs_append (vs ws : List Segment) : addrs (vs ++ ws) = addrs vs ++ addrs ws :=
  List.flatMap_append

theorem addrs_concat (vs : List Segment) (v : Segment) :
    addrs (vs ++ [v]) = addrs vs ++ v.addrs := by
  rw [addrs_append, addrs_cons, addrs_nil, List.append_nil]

theorem range'_split (base m n : Nat) :
    List.range' base m ++ List.range' (base + m) n = List.range' base (m + n) := by
  simp

theorem extendLast_concat (n : Nat) (vs : List Segment) (v : Segment) :
    extendLast n (vs ++ [v]) = vs ++ [{ v with len := v.len + n }] := by
  induction vs with
  | nil => rfl
  | cons w vs ih =>
      cases vs with
      | nil => rfl
      | cons x vs =>
          simp only [List.cons_append, extendLast] at ih ⊢
          rw [ih]

theorem addrs_extendLast_concat (n : Nat) (vs : List Segment) (v : Segment) :
    addrs (extendLast n (vs ++ [v])) = addrs (vs ++ [v]) ++ List.range' v.stop n := by
  rw [extendLast_concat, addrs_concat, addrs_concat, List.append_assoc]
  congr 1
  exact (range'_split v.base v.len n).symm

/-!
## Neighbours
-/

theorem coalesced_singleton (v : Segment) : Coalesced [v] := List.isChain_singleton v

theorem coalesced_concat {vs : List Segment} {v w : Segment} (h : Coalesced (vs ++ [v]))
    (hne : v.stop ≠ w.base) : Coalesced (vs ++ [v] ++ [w]) := by
  rw [List.append_assoc]
  exact List.isChain_append_cons_cons.mpr ⟨h, hne, List.isChain_singleton w⟩

theorem coalesced_extendLast_concat {vs : List Segment} {v : Segment} (n : Nat)
    (h : Coalesced (vs ++ [v])) : Coalesced (extendLast n (vs ++ [v])) := by
  rw [extendLast_concat]
  rcases List.eq_nil_or_concat' vs with rfl | ⟨us, u, rfl⟩
  · exact coalesced_singleton _
  · rw [List.append_assoc] at h ⊢
    rcases List.isChain_append_cons_cons.mp h with ⟨hfront, hne, _⟩
    exact List.isChain_append_cons_cons.mpr ⟨hfront, hne, List.isChain_singleton _⟩

/-!
## The shortest list

A list of addresses breaks where an address is not the successor of the one
before it.  Every break needs a segment of its own.
-/

/-- How often a list of addresses does not go on with the next address. -/
def breaks : List Nat -> Nat
  | [] => 0
  | [_] => 0
  | a :: b :: as => (if b = a + 1 then 0 else 1) + breaks (b :: as)

theorem breaks_append (as bs : List Nat) (a b : Nat) :
    breaks (as ++ a :: b :: bs) =
      breaks (as ++ [a]) + (if b = a + 1 then 0 else 1) + breaks (b :: bs) := by
  induction as with
  | nil => simp [breaks]
  | cons c as ih =>
      cases as with
      | nil =>
          simp only [List.cons_append, List.nil_append, breaks]
          lia
      | cons d as =>
          simp only [List.cons_append, breaks] at ih ⊢
          rw [ih]
          lia

theorem breaks_range' (base n : Nat) : breaks (List.range' base n) = 0 := by
  induction n generalizing base with
  | zero => rfl
  | succ n ih =>
      cases n with
      | zero => rfl
      | succ n =>
          have hrest := ih (base + 1)
          simp only [List.range'_succ, breaks] at hrest ⊢
          rw [if_pos trivial, hrest]

theorem breaks_append_le (as bs : List Nat) :
    breaks (as ++ bs) ≤ breaks as + 1 + breaks bs := by
  rcases List.eq_nil_or_concat' as with rfl | ⟨front, a, rfl⟩
  · rw [List.nil_append]
    lia
  · cases bs with
    | nil =>
        rw [List.append_nil]
        lia
    | cons b bs =>
        rw [List.append_assoc, List.singleton_append, breaks_append]
        split <;> lia

theorem breaks_addrs_lt (v : Segment) (vs : List Segment) :
    breaks (addrs (v :: vs)) < (v :: vs).length := by
  induction vs generalizing v with
  | nil =>
      rw [addrs_cons, addrs_nil, List.append_nil, Segment.addrs, breaks_range']
      exact Nat.one_pos
  | cons w vs ih =>
      have hjoin := breaks_append_le v.addrs (addrs (w :: vs))
      have hfirst : breaks v.addrs = 0 := breaks_range' v.base v.len
      have hrest := ih w
      rw [addrs_cons, List.length_cons]
      lia

/-- Between coalesced segments that are not empty every boundary is a break. -/
theorem breaks_addrs_of_coalesced {v : Segment} {vs : List Segment}
    (hpos : forall w, w ∈ v :: vs -> 0 < w.len) (h : Coalesced (v :: vs)) :
    breaks (addrs (v :: vs)) + 1 = (v :: vs).length := by
  induction vs generalizing v with
  | nil =>
      rw [addrs_cons, addrs_nil, List.append_nil, Segment.addrs, breaks_range']
      rfl
  | cons w vs ih =>
      rcases List.isChain_cons_cons.mp h with ⟨hne, hrest⟩
      have hcount := ih (fun x hx => hpos x (List.mem_cons_of_mem v hx)) hrest
      obtain ⟨m, hm⟩ : exists m, v.len = m + 1 :=
        Nat.exists_eq_add_one.mpr (hpos v List.mem_cons_self)
      obtain ⟨n, hn⟩ : exists n, w.len = n + 1 :=
        Nat.exists_eq_add_one.mpr (hpos w (by simp))
      have hlast : v.addrs = List.range' v.base m ++ [v.base + m] := by
        rw [Segment.addrs, hm, List.range'_1_concat]
      have hhead : addrs (w :: vs) = w.base :: (List.range' (w.base + 1) n ++ addrs vs) := by
        rw [addrs_cons, Segment.addrs, hn, List.range'_succ, List.cons_append]
      have hgap : ¬ w.base = v.base + m + 1 := by
        intro heq
        apply hne
        rw [Segment.stop, hm, heq, Nat.add_assoc]
      have hfirst : breaks (List.range' v.base m ++ [v.base + m]) = 0 := by
        rw [← hlast]
        exact breaks_range' v.base v.len
      rw [addrs_cons, hlast, hhead, List.append_assoc, List.singleton_append, breaks_append,
        if_neg hgap, hfirst, ← hhead, List.length_cons]
      lia

/--
The shortest list: coalesced segments that are not empty are no more than any
others that visit the same addresses in the same order.
-/
theorem length_le_of_coalesced {vs ws : List Segment}
    (hpos : forall v, v ∈ vs -> 0 < v.len) (h : Coalesced vs) (hsame : addrs vs = addrs ws) :
    vs.length ≤ ws.length := by
  cases vs with
  | nil => exact Nat.zero_le _
  | cons v vs =>
      have hcount := breaks_addrs_of_coalesced hpos h
      cases ws with
      | nil =>
          have hempty : v.addrs.length = 0 := by
            rw [List.append_eq_nil_iff.mp hsame |>.left, List.length_nil]
          rw [segment_addrs_length] at hempty
          exact absurd (hpos v List.mem_cons_self) (by lia)
      | cons w ws =>
          have hother := breaks_addrs_lt w ws
          rw [← hsame] at hother
          lia

end Segments
