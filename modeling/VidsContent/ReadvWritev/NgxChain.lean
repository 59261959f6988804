import VidsContent.Lib.Segments

/-!
# From an output chain to an I/O vector

`ngx_output_chain_to_iovec` walks a chain of buffers and describes the bytes of
the buffers in memory by as few entries of an I/O vector as it can, up to a limit
on the bytes and on the entries.  The macros that classify a buffer are answered
by the buffer itself.
-/

namespace VidsContent
namespace ReadvWritev

open Segments

/-- A buffer of the chain, with what `ngx_buf_special` and `ngx_buf_in_memory` say of it. -/
structure Buf where
  pos : Nat
  last : Nat
  inFile : Bool
  special : Bool
  inMemory : Bool
  pos_le_last : pos ≤ last

inductive Stop where
  | chainError (alert : String) (buf : Buf)
  | nullIovec

/-- The vector so far: `prev` is the end of its last entry, and `NULL` before the first. -/
structure Iovec where
  iovs : List Segment
  prev : Nat
  total : Nat

def emptyIovec : Iovec where
  iovs := []
  prev := 0
  total := 0

def clampedSize (limit total : Nat) (b : Buf) : Nat :=
  if b.last - b.pos > limit - total then limit - total else b.last - b.pos

def Iovec.extend (vec : Iovec) (limit : Nat) (b : Buf) : Iovec where
  iovs := extendLast (clampedSize limit vec.total b) vec.iovs
  prev := b.pos + clampedSize limit vec.total b
  total := vec.total + clampedSize limit vec.total b

def Iovec.push (vec : Iovec) (limit : Nat) (b : Buf) : Iovec where
  iovs := vec.iovs ++ [⟨b.pos, clampedSize limit vec.total b⟩]
  prev := b.pos + clampedSize limit vec.total b
  total := vec.total + clampedSize limit vec.total b

def gatherFrom (nalloc limit : Nat) : Iovec -> List Buf -> Except Stop (Iovec × List Buf)
  | vec, [] => .ok (vec, [])
  | vec, b :: rest =>
      if vec.total < limit then
        if b.special then
          gatherFrom nalloc limit vec rest
        else if b.inFile then
          .ok (vec, b :: rest)
        else if !b.inMemory then
          .error (.chainError "bad buf in output chain" b)
        else if vec.prev = b.pos then
          -- `iov` points to the last entry, if there is one
          if vec.iovs.isEmpty then
            .error .nullIovec
          else
            gatherFrom nalloc limit (vec.extend limit b) rest
        else if vec.iovs.length = nalloc then
          .ok (vec, b :: rest)
        else
          gatherFrom nalloc limit (vec.push limit b) rest
      else
        .ok (vec, b :: rest)

def ngxOutputChainToIovec (nalloc limit : Nat) (chain : List Buf) :
    Except Stop (Iovec × List Buf) :=
  gatherFrom nalloc limit emptyIovec chain

/-!
## What a chain holds
-/

def Buf.addrs (b : Buf) : List Nat :=
  if b.special then [] else List.range' b.pos (b.last - b.pos)

/-- The addresses that a chain has to send, in order. -/
def content (chain : List Buf) : List Nat := chain.flatMap Buf.addrs

def Buf.Plain (b : Buf) : Prop := b.special = true ∨ b.inFile = false ∧ b.inMemory = true

@[simp] theorem content_nil : content [] = [] := rfl

@[simp] theorem content_cons (b : Buf) (chain : List Buf) :
    content (b :: chain) = b.addrs ++ content chain := rfl

theorem content_append (front back : List Buf) :
    content (front ++ back) = content front ++ content back :=
  List.flatMap_append

theorem content_special {b : Buf} (hspecial : b.special = true) : b.addrs = [] := by
  rw [Buf.addrs, if_pos hspecial]

theorem addrs_of_not_special {b : Buf} (hspecial : ¬ b.special = true) :
    b.addrs = List.range' b.pos (b.last - b.pos) := by
  rw [Buf.addrs, if_neg hspecial]

theorem addrs_take {limit total : Nat} {b : Buf} (hspecial : ¬ b.special = true) :
    b.addrs.take (limit - total) = List.range' b.pos (clampedSize limit total b) := by
  rw [addrs_of_not_special hspecial, clampedSize]
  split
  · exact List.take_range'_of_length_ge (by lia)
  · exact List.take_range'_of_length_le (by lia)

/-!
## One buffer after another
-/

inductive Ends (nalloc limit : Nat) (vec : Iovec) : List Buf -> Prop where
  | chain : Ends nalloc limit vec []
  | limit {rest : List Buf} : vec.total = limit -> Ends nalloc limit vec rest
  | file {b : Buf} {rest : List Buf} : b.special = false -> b.inFile = true ->
      Ends nalloc limit vec (b :: rest)
  | full {b : Buf} {rest : List Buf} : vec.iovs.length = nalloc -> vec.prev ≠ b.pos ->
      Ends nalloc limit vec (b :: rest)

/-- The vector describes the addresses `seen`, with no more entries than it needs. -/
structure Describes (nalloc limit : Nat) (seen : List Nat) (vec : Iovec) : Prop where
  addrs_eq : addrs vec.iovs = seen
  total_eq : vec.total = seen.length
  total_le : vec.total ≤ limit
  count_le : vec.iovs.length ≤ nalloc
  coalesced : Coalesced vec.iovs
  prev_eq : forall front v, vec.iovs = front ++ [v] -> vec.prev = v.stop
  prev_null : vec.iovs = [] -> vec.prev = 0

theorem describes_empty (nalloc limit : Nat) : Describes nalloc limit [] emptyIovec where
  addrs_eq := rfl
  total_eq := rfl
  total_le := Nat.zero_le _
  count_le := Nat.zero_le _
  coalesced := List.isChain_nil
  prev_eq := by
    intro front v h
    cases front <;> cases h
  prev_null := fun _ => rfl

theorem Describes.extend {nalloc limit : Nat} {seen : List Nat} {vec : Iovec} {n pos : Nat}
    (h : Describes nalloc limit seen vec) (hprev : vec.prev = pos)
    (hnonempty : vec.iovs ≠ []) (hfits : vec.total + n ≤ limit) :
    Describes nalloc limit (seen ++ List.range' pos n)
      { iovs := extendLast n vec.iovs, prev := pos + n, total := vec.total + n } := by
  rcases List.eq_nil_or_concat' vec.iovs with hnil | ⟨front, v, hiovs⟩
  · exact absurd hnil hnonempty
  · have hstop : v.stop = pos := by
      rw [← h.prev_eq front v hiovs, hprev]
    constructor
    · rw [hiovs, addrs_extendLast_concat, hstop, ← hiovs, h.addrs_eq]
    · rw [List.length_append, List.length_range', h.total_eq]
    · exact hfits
    · have hcount := h.count_le
      rw [hiovs] at hcount ⊢
      rw [extendLast_concat]
      simpa using hcount
    · have hchain := h.coalesced
      rw [hiovs] at hchain ⊢
      exact coalesced_extendLast_concat n hchain
    · intro front' w heq
      rw [hiovs, extendLast_concat] at heq
      rcases List.append_inj' heq rfl with ⟨_, hlast⟩
      cases hlast
      rw [← hstop]
      simp only [Segment.stop]
      lia
    · intro hnil
      rw [hiovs, extendLast_concat] at hnil
      simp at hnil

theorem Describes.push {nalloc limit : Nat} {seen : List Nat} {vec : Iovec} {n pos : Nat}
    (h : Describes nalloc limit seen vec) (hprev : vec.prev ≠ pos)
    (hroom : vec.iovs.length ≠ nalloc) (hfits : vec.total + n ≤ limit) :
    Describes nalloc limit (seen ++ List.range' pos n)
      { iovs := vec.iovs ++ [⟨pos, n⟩], prev := pos + n, total := vec.total + n } := by
  constructor
  · rw [addrs_concat, h.addrs_eq]
    rfl
  · rw [List.length_append, List.length_range', h.total_eq]
  · exact hfits
  · have hcount := h.count_le
    rw [List.length_append, List.length_singleton]
    lia
  · rcases List.eq_nil_or_concat' vec.iovs with hnil | ⟨front, v, hiovs⟩
    · rw [hnil]
      exact coalesced_singleton _
    · have hchain := h.coalesced
      rw [hiovs] at hchain ⊢
      apply coalesced_concat hchain
      rw [← h.prev_eq front v hiovs]
      exact hprev
  · intro front w heq
    rcases List.append_inj' heq rfl with ⟨_, hlast⟩
    cases hlast
    rfl
  · intro hnil
    simp at hnil

theorem clampedSize_le {limit total : Nat} (b : Buf) (h : total ≤ limit) :
    total + clampedSize limit total b ≤ limit := by
  unfold clampedSize
  lia

theorem take_content_cons {limit total : Nat} {b : Buf} (walked : List Buf)
    (hspecial : ¬ b.special = true) :
    (content (b :: walked)).take (limit - total) =
      List.range' b.pos (clampedSize limit total b) ++
        (content walked).take (limit - (total + clampedSize limit total b)) := by
  rw [content_cons, List.take_append, addrs_take hspecial, addrs_of_not_special hspecial,
    List.length_range']
  congr 2
  unfold clampedSize
  lia

inductive FirstBuf (nalloc limit : Nat) (vec : Iovec) (b : Buf) (chain : List Buf)
    (result : Except Stop (Iovec × List Buf)) : Prop where
  | limit : limit ≤ vec.total -> result = .ok (vec, b :: chain) ->
      FirstBuf nalloc limit vec b chain result
  | special : b.special = true -> result = gatherFrom nalloc limit vec chain ->
      FirstBuf nalloc limit vec b chain result
  | file : b.special = false -> b.inFile = true -> result = .ok (vec, b :: chain) ->
      FirstBuf nalloc limit vec b chain result
  | bad : b.special = false -> b.inFile = false -> b.inMemory = false ->
      result = .error (.chainError "bad buf in output chain" b) ->
      FirstBuf nalloc limit vec b chain result
  | null : b.special = false -> vec.prev = b.pos -> vec.iovs = [] ->
      result = .error .nullIovec -> FirstBuf nalloc limit vec b chain result
  | extend : b.special = false -> b.Plain -> vec.total < limit -> vec.prev = b.pos ->
      vec.iovs ≠ [] -> result = gatherFrom nalloc limit (vec.extend limit b) chain ->
      FirstBuf nalloc limit vec b chain result
  | full : vec.prev ≠ b.pos -> vec.iovs.length = nalloc -> result = .ok (vec, b :: chain) ->
      FirstBuf nalloc limit vec b chain result
  | push : b.special = false -> b.Plain -> vec.total < limit -> vec.prev ≠ b.pos ->
      vec.iovs.length ≠ nalloc -> result = gatherFrom nalloc limit (vec.push limit b) chain ->
      FirstBuf nalloc limit vec b chain result

theorem firstBuf (nalloc limit : Nat) (vec : Iovec) (b : Buf) (chain : List Buf) :
    FirstBuf nalloc limit vec b chain (gatherFrom nalloc limit vec (b :: chain)) := by
  rw [gatherFrom]
  by_cases hlimit : vec.total < limit
  · rw [if_pos hlimit]
    cases hspecial : b.special with
    | true => exact .special hspecial rfl
    | false =>
        cases hfile : b.inFile with
        | true => exact .file hspecial hfile rfl
        | false =>
            cases hmemory : b.inMemory with
            | false => exact .bad hspecial hfile hmemory rfl
            | true =>
                have hplain : b.Plain := Or.inr ⟨hfile, hmemory⟩
                by_cases hprev : vec.prev = b.pos
                · by_cases hempty : vec.iovs = []
                  · exact .null hspecial hprev hempty (by simp [hprev, hempty])
                  · exact .extend hspecial hplain hlimit hprev hempty
                      (by simp [hprev, hempty])
                · by_cases hfull : vec.iovs.length = nalloc
                  · exact .full hprev hfull (by simp [hprev, hfull])
                  · exact .push hspecial hplain hlimit hprev hfull
                      (by simp [hprev, hfull])
  · rw [if_neg hlimit]
    exact .limit (Nat.not_lt.mp hlimit) rfl

/-- The walk describes the buffers it passes, up to the limit. -/
theorem gatherFrom_spec {nalloc limit : Nat} {vec vec' : Iovec} {chain rest : List Buf}
    {seen : List Nat} (h : Describes nalloc limit seen vec)
    (hgather : gatherFrom nalloc limit vec chain = .ok (vec', rest)) :
    exists walked, chain = walked ++ rest ∧ (forall b, b ∈ walked -> b.Plain) ∧
      Describes nalloc limit (seen ++ (content walked).take (limit - vec.total)) vec' ∧
      Ends nalloc limit vec' rest := by
  induction chain generalizing vec seen with
  | nil =>
      cases hgather
      exact ⟨[], rfl, by simp, by simpa using h, .chain⟩
  | cons b chain ih =>
      have hstay (hok : (.ok (vec, b :: chain) : Except Stop _) = .ok (vec', rest))
          (hends : Ends nalloc limit vec (b :: chain)) :
          exists walked, b :: chain = walked ++ rest ∧ (forall b, b ∈ walked -> b.Plain) ∧
            Describes nalloc limit (seen ++ (content walked).take (limit - vec.total)) vec' ∧
            Ends nalloc limit vec' rest := by
        cases hok
        exact ⟨[], rfl, by simp, by simpa using h, hends⟩
      -- a buffer in memory, and then the walk over the rest of the chain
      have hwalk {vec₁ : Iovec} (hspecial : b.special = false) (hplain : b.Plain)
          (htotal : vec₁.total = vec.total + clampedSize limit vec.total b)
          (hdescribes : Describes nalloc limit
            (seen ++ List.range' b.pos (clampedSize limit vec.total b)) vec₁)
          (hrest : gatherFrom nalloc limit vec₁ chain = .ok (vec', rest)) :
          exists walked, b :: chain = walked ++ rest ∧ (forall b, b ∈ walked -> b.Plain) ∧
            Describes nalloc limit (seen ++ (content walked).take (limit - vec.total)) vec' ∧
            Ends nalloc limit vec' rest := by
        rcases ih hdescribes hrest with ⟨walked, rfl, hall, hresult, hends⟩
        refine ⟨b :: walked, rfl, List.forall_mem_cons.mpr ⟨hplain, hall⟩, ?_, hends⟩
        rw [take_content_cons walked (by simp [hspecial]), ← List.append_assoc, ← htotal]
        exact hresult
      have hfits := clampedSize_le b h.total_le
      cases firstBuf nalloc limit vec b chain with
      | limit hlimit hresult =>
          have hle := h.total_le
          exact hstay (hresult.symm.trans hgather) (.limit (by lia))
      | special hspecial hresult =>
          rcases ih h (hresult.symm.trans hgather) with ⟨walked, rfl, hall, hdone, hends⟩
          refine ⟨b :: walked, rfl, List.forall_mem_cons.mpr ⟨Or.inl hspecial, hall⟩, ?_, hends⟩
          rw [content_cons, content_special hspecial, List.nil_append]
          exact hdone
      | file hspecial hfile hresult =>
          exact hstay (hresult.symm.trans hgather) (.file hspecial hfile)
      | bad _ _ _ hresult => cases hresult.symm.trans hgather
      | null _ _ _ hresult => cases hresult.symm.trans hgather
      | extend hspecial hplain _ hprev hempty hresult =>
          exact hwalk hspecial hplain rfl (h.extend hprev hempty hfits)
            (hresult.symm.trans hgather)
      | full hprev hfull hresult =>
          exact hstay (hresult.symm.trans hgather) (.full hfull hprev)
      | push hspecial hplain _ hprev hfull hresult =>
          exact hwalk hspecial hplain rfl (h.push hprev hfull hfits)
            (hresult.symm.trans hgather)

/-!
## Sendable chains
-/

/-- A buffer of the output: it has bytes in memory, or it is special and has none. -/
def Buf.Sendable (b : Buf) : Prop :=
  b.inFile = false ∧ (b.special = true ∨ b.inMemory = true ∧ b.pos ≠ 0 ∧ b.pos < b.last)

theorem Buf.Sendable.memory {b : Buf} (h : b.Sendable) (hspecial : b.special = false) :
    b.inMemory = true ∧ b.pos ≠ 0 ∧ b.pos < b.last := by
  rcases h.right with htrue | hmemory
  · rw [hspecial] at htrue
    cases htrue
  · exact hmemory

def memoryBuf (pos len : Nat) : Buf where
  pos := pos
  last := pos + len
  inFile := false
  special := false
  inMemory := true
  pos_le_last := Nat.le_add_right pos len

theorem memoryBuf_sendable {pos len : Nat} (hpos : pos ≠ 0) (hlen : 0 < len) :
    (memoryBuf pos len).Sendable :=
  ⟨rfl, Or.inr ⟨rfl, hpos, Nat.lt_add_of_pos_right hlen⟩⟩

theorem gatherFrom_ok {nalloc limit : Nat} {vec : Iovec} {chain : List Buf}
    {seen : List Nat} (h : Describes nalloc limit seen vec)
    (hchain : forall b, b ∈ chain -> b.Sendable) :
    exists vec' rest, gatherFrom nalloc limit vec chain = .ok (vec', rest) := by
  induction chain generalizing vec seen with
  | nil => exact ⟨vec, [], rfl⟩
  | cons b chain ih =>
      rcases List.forall_mem_cons.mp hchain with ⟨hb, hrest⟩
      have hfits := clampedSize_le b h.total_le
      cases firstBuf nalloc limit vec b chain with
      | limit _ hresult => exact ⟨_, _, hresult⟩
      | special _ hresult =>
          rw [hresult]
          exact ih h hrest
      | file _ _ hresult => exact ⟨_, _, hresult⟩
      | bad hspecial _ hmemory _ =>
          have hin := (hb.memory hspecial).left
          rw [hmemory] at hin
          cases hin
      | null hspecial hprev hempty _ =>
          rw [h.prev_null hempty] at hprev
          exact absurd hprev.symm (hb.memory hspecial).right.left
      | extend _ _ _ hprev hempty hresult =>
          rw [hresult]
          exact ih (h.extend hprev hempty hfits) hrest
      | full _ _ hresult => exact ⟨_, _, hresult⟩
      | push _ _ _ hprev hfull hresult =>
          rw [hresult]
          exact ih (h.push hprev hfull hfits) hrest

theorem clampedSize_pos {limit total : Nat} {b : Buf} (hlimit : total < limit)
    (hb : b.pos < b.last) : 0 < clampedSize limit total b := by
  unfold clampedSize
  lia

theorem extendLast_pos {n : Nat} {vs : List Segment} (h : forall v, v ∈ vs -> 0 < v.len) :
    forall v, v ∈ extendLast n vs -> 0 < v.len := by
  rcases List.eq_nil_or_concat' vs with rfl | ⟨front, w, rfl⟩
  · exact h
  · intro v hv
    rw [extendLast_concat] at hv
    rcases List.mem_append.mp hv with hin | hlast
    · exact h v (List.mem_append_left _ hin)
    · have hw := h w (by simp)
      rw [List.mem_singleton.mp hlast]
      exact Nat.lt_of_lt_of_le hw (Nat.le_add_right _ _)

theorem gatherFrom_pos {nalloc limit : Nat} {vec vec' : Iovec} {chain rest : List Buf}
    (h : forall v, v ∈ vec.iovs -> 0 < v.len) (hchain : forall b, b ∈ chain -> b.Sendable)
    (hgather : gatherFrom nalloc limit vec chain = .ok (vec', rest)) :
    forall v, v ∈ vec'.iovs -> 0 < v.len := by
  induction chain generalizing vec with
  | nil =>
      cases hgather
      exact h
  | cons b chain ih =>
      rcases List.forall_mem_cons.mp hchain with ⟨hb, hrest⟩
      cases firstBuf nalloc limit vec b chain with
      | limit _ hresult =>
          cases hresult.symm.trans hgather
          exact h
      | special _ hresult => exact ih h hrest (hresult.symm.trans hgather)
      | file _ _ hresult =>
          cases hresult.symm.trans hgather
          exact h
      | bad _ _ _ hresult => cases hresult.symm.trans hgather
      | null _ _ _ hresult => cases hresult.symm.trans hgather
      | extend _ _ _ _ _ hresult =>
          exact ih (extendLast_pos h) hrest (hresult.symm.trans hgather)
      | full _ _ hresult =>
          cases hresult.symm.trans hgather
          exact h
      | push hspecial _ hlimit _ _ hresult =>
          apply ih _ hrest (hresult.symm.trans hgather)
          intro v hv
          rcases List.mem_append.mp hv with hin | hlast
          · exact h v hin
          · rw [List.mem_singleton.mp hlast]
            exact clampedSize_pos hlimit (hb.memory hspecial).right.right

/-!
## The vector of a chain
-/

theorem ngxOutputChainToIovec_spec {nalloc limit : Nat} {chain rest : List Buf} {vec : Iovec}
    (hgather : ngxOutputChainToIovec nalloc limit chain = .ok (vec, rest)) :
    exists walked, chain = walked ++ rest ∧ (forall b, b ∈ walked -> b.Plain) ∧
      addrs vec.iovs = (content walked).take limit ∧
      vec.total = (addrs vec.iovs).length ∧ vec.iovs.length ≤ nalloc ∧
      Coalesced vec.iovs ∧ Ends nalloc limit vec rest := by
  rcases gatherFrom_spec (describes_empty nalloc limit) hgather with
    ⟨walked, hsplit, hall, hdone, hends⟩
  rw [List.nil_append] at hdone
  refine ⟨walked, hsplit, hall, hdone.addrs_eq, ?_, hdone.count_le, hdone.coalesced, hends⟩
  rw [hdone.total_eq, hdone.addrs_eq]

theorem ngxOutputChainToIovec_pos {nalloc limit : Nat} {chain rest : List Buf} {vec : Iovec}
    (hchain : forall b, b ∈ chain -> b.Sendable)
    (hgather : ngxOutputChainToIovec nalloc limit chain = .ok (vec, rest)) :
    forall v, v ∈ vec.iovs -> 0 < v.len := by
  apply gatherFrom_pos _ hchain hgather
  intro v hv
  cases hv

theorem ngxOutputChainToIovec_progress {nalloc limit : Nat} {chain rest : List Buf}
    {vec : Iovec} (hnalloc : 0 < nalloc) (hlimit : 0 < limit) (hcontent : content chain ≠ [])
    (hchain : forall b, b ∈ chain -> b.Sendable)
    (hgather : ngxOutputChainToIovec nalloc limit chain = .ok (vec, rest)) :
    0 < vec.total := by
  have hpos := ngxOutputChainToIovec_pos hchain hgather
  rcases ngxOutputChainToIovec_spec hgather with
    ⟨walked, rfl, _, haddrs, htotal, _, _, hends⟩
  cases hends with
  | chain =>
      rw [List.append_nil] at hcontent
      have hlength := List.length_pos_iff.mpr hcontent
      rw [htotal, haddrs, List.length_take]
      exact Nat.lt_min.mpr ⟨hlimit, hlength⟩
  | limit htotal' =>
      rw [htotal']
      exact hlimit
  | @file b rest hspecial hfile =>
      have hmemory := (hchain b (by simp)).left
      rw [hfile] at hmemory
      cases hmemory
  | full hfull _ =>
      cases hiovs : vec.iovs with
      | nil =>
          rw [hiovs] at hfull
          exact absurd hfull.symm (Nat.pos_iff_ne_zero.mp hnalloc)
      | cons v vs =>
          have hv := hpos v (by rw [hiovs]; exact List.mem_cons_self)
          rw [htotal, hiovs, addrs_cons, List.length_append, segment_addrs_length]
          exact Nat.lt_of_lt_of_le hv (Nat.le_add_right _ _)

/--
The walk ends with a vector.  It visits the bytes of a first part of the chain, as many
as the limit allows, and what is returned is the rest; and no other vector that visits
the same bytes in the same order has fewer entries.
-/
theorem ngxOutputChainToIovec_shortest (nalloc limit : Nat) (chain : List Buf)
    (hchain : forall b, b ∈ chain -> b.Sendable) :
    exists vec rest, ngxOutputChainToIovec nalloc limit chain = .ok (vec, rest) ∧
      (exists walked, chain = walked ++ rest ∧ addrs vec.iovs = (content walked).take limit ∧
        vec.total = (addrs vec.iovs).length ∧ vec.iovs.length ≤ nalloc ∧
        Ends nalloc limit vec rest) ∧
      forall iovs, addrs iovs = addrs vec.iovs -> vec.iovs.length ≤ iovs.length := by
  rcases gatherFrom_ok (describes_empty nalloc limit) hchain with ⟨vec, rest, hgather⟩
  rcases ngxOutputChainToIovec_spec hgather with
    ⟨walked, hsplit, _, haddrs, htotal, hcount, hcoalesced, hends⟩
  refine ⟨vec, rest, hgather, ⟨walked, hsplit, haddrs, htotal, hcount, hends⟩, ?_⟩
  intro iovs hsame
  exact length_le_of_coalesced (ngxOutputChainToIovec_pos hchain hgather) hcoalesced hsame.symm

def threeBufs : List Buf := [memoryBuf 10 3, memoryBuf 13 2, memoryBuf 20 3]

theorem ngxOutputChainToIovec_shortest_three :
    exists vec rest, ngxOutputChainToIovec 64 6 threeBufs = .ok (vec, rest) ∧
      vec.iovs = [⟨10, 5⟩, ⟨20, 1⟩] ∧ Ends 64 6 vec rest ∧
      forall iovs, addrs iovs = addrs vec.iovs -> 2 ≤ iovs.length := by
  have hwalk : exists vec rest, ngxOutputChainToIovec 64 6 threeBufs = .ok (vec, rest) ∧
      vec.iovs = [⟨10, 5⟩, ⟨20, 1⟩] :=
    ⟨_, _, rfl, rfl⟩
  rcases hwalk with ⟨vec, rest, hwalk, hiovs⟩
  rcases ngxOutputChainToIovec_shortest 64 6 threeBufs (by simp [threeBufs, memoryBuf_sendable])
    with ⟨vec', rest', hgather, ⟨_, _, _, _, _, hends⟩, hshortest⟩
  cases hwalk.symm.trans hgather
  refine ⟨vec, rest, hgather, hiovs, hends, ?_⟩
  intro iovs hsame
  have hcount := hshortest iovs hsame
  rw [hiovs] at hcount
  exact hcount

end ReadvWritev
end VidsContent
