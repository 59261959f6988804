import Mathlib.Data.List.Basic
import VidsContent.Inotify.Model
import VidsContent.Lib.LittleEndian

/-!
# The walk over the buffer

What the inner loop of `main.c` does with the bytes that one `read` has put into
`buf`: records of a header with the length of the name behind it.
-/

namespace VidsContent
namespace Inotify

open LittleEndian

def inAccess : UInt32 := 0x1

def inModify : UInt32 := 0x2

def inAttrib : UInt32 := 0x4

def inCloseWrite : UInt32 := 0x8

def inCloseNowrite : UInt32 := 0x10

def inOpen : UInt32 := 0x20

def inMovedFrom : UInt32 := 0x40

def inMovedTo : UInt32 := 0x80

def inCreate : UInt32 := 0x100

def inDelete : UInt32 := 0x200

inductive Call where
  | inotifyRmWatch
  | inotifyAddWatch
deriving DecidableEq

inductive Action where
  | printf (text : List UInt8)
  | call (c : Call)
deriving DecidableEq

def ascii (text : String) : List UInt8 := text.toList.map Char.toUInt8

structure Test where
  bit : UInt32
  label : String
  calls : List Call

def Test.run (test : Test) (mask : UInt32) : List Action :=
  if mask &&& test.bit ≠ 0 then
    .printf (ascii test.label) :: test.calls.map .call
  else
    []

/-- The tests in the order of the source. -/
def tests : List Test :=
  [⟨inAccess, "File accessed", []⟩,
    ⟨inModify, "File modified", []⟩,
    ⟨inAttrib, "File attrib changed", []⟩,
    ⟨inCloseWrite, "File closed (write)", []⟩,
    ⟨inCloseNowrite, "File closed (no write)", []⟩,
    ⟨inOpen, "File opened", []⟩,
    ⟨inMovedFrom, "File moved from", []⟩,
    ⟨inMovedTo, "File moved to", []⟩,
    ⟨inCreate, "File created", []⟩,
    ⟨inDelete, "File deleted", []⟩,
    ⟨inDeleteSelf, "Watch target deleted", [.inotifyRmWatch, .inotifyAddWatch]⟩,
    ⟨inMoveSelf, "Watch target moved", []⟩]

/-- The bytes that `%s` prints from an offset, where a NUL ends them inside the block. -/
def cString (bytes : List UInt8) (offset : Nat) : Option (List UInt8) :=
  if 0 ∈ bytes.drop offset then
    some ((bytes.drop offset).takeWhile (fun b => b ≠ 0))
  else
    none

/-- `sizeof(struct inotify_event)`, its fields being `wd`, `mask`, `cookie` and `len`. -/
def sizeofEvent : Nat := 16

structure Visit where
  ptr : Nat
  reads : List Nat
  actions : List Action

/-- The bytes of `event->mask` and `event->len`. -/
def headerReads (ptr : Nat) : List Nat := List.range' (ptr + 4) 4 ++ List.range' (ptr + 12) 4

/-- The body of the loop, and `event->len`. -/
def visit (buf : List UInt8) (ptr : Nat) : Option (Visit × Nat) := do
  let mask <- load 4 buf (ptr + 4)
  let len <- load 4 buf (ptr + 12)
  let shown := tests.flatMap (fun test => test.run (UInt32.ofNat mask))
  if 0 < len then
    let name <- cString buf (ptr + sizeofEvent)
    some
      ({ ptr := ptr
         reads := headerReads ptr ++ List.range' (ptr + sizeofEvent) (name.length + 1)
         actions := shown ++ [.printf (ascii " with name " ++ name), .printf [10]] }, len)
  else
    some
      ({ ptr := ptr
         reads := headerReads ptr
         actions := shown ++ [.printf [10]] }, len)

/--
The loop from `ptr` on, for the result `ret` of `read`, with where it stops.  It
is `none` where it reads behind `buf`.
-/
def walk (buf : List UInt8) (ret : Int) (ptr : Nat) : Option (List Visit × Nat) :=
  if ptr < ret then
    match visit buf ptr with
    | none => none
    | some (v, len) =>
        match walk buf ret (ptr + (sizeofEvent + len)) with
        | none => none
        | some (visits, stop) => some (v :: visits, stop)
  else
    some ([], ptr)
termination_by (ret - ptr).toNat
decreasing_by
  unfold sizeofEvent
  lia

/-!
## What the kernel has encoded
-/

/-- An event in the form that `read` stores it in: a name is padded with at least one NUL. -/
structure RawEvent where
  wd : UInt32
  mask : UInt32
  cookie : UInt32
  name : List UInt8
  padding : Nat
  noNul : forall b, b ∈ name -> b ≠ 0
  terminated : name ≠ [] -> 0 < padding

def RawEvent.len (e : RawEvent) : Nat := e.name.length + e.padding

def RawEvent.encode (e : RawEvent) : List UInt8 :=
  LittleEndian.encode 4 e.wd.toNat ++
    (LittleEndian.encode 4 e.mask.toNat ++
      (LittleEndian.encode 4 e.cookie.toNat ++
        (LittleEndian.encode 4 e.len ++ (e.name ++ List.replicate e.padding 0))))

def labels (mask : UInt32) : List String :=
  (tests.filter (fun test => mask &&& test.bit ≠ 0)).map Test.label

def RawEvent.line (e : RawEvent) : List UInt8 :=
  (labels e.mask).flatMap ascii ++
    ((if 0 < e.len then ascii " with name " ++ e.name else []) ++ [10])

def Visit.printed (v : Visit) : List UInt8 :=
  v.actions.flatMap fun
    | .printf text => text
    | .call _ => []

def offsets : Nat -> List RawEvent -> List Nat
  | _, [] => []
  | ptr, e :: events => ptr :: offsets (ptr + (sizeofEvent + e.len)) events

theorem RawEvent.length_encode (e : RawEvent) : e.encode.length = sizeofEvent + e.len := by
  unfold RawEvent.encode RawEvent.len sizeofEvent
  simp only [List.length_append, LittleEndian.length_encode, List.length_replicate]
  lia

/-!
## One record
-/

theorem printed_run (test : Test) (mask : UInt32) :
    (test.run mask).flatMap (fun | .printf text => text | .call _ => []) =
      if mask &&& test.bit ≠ 0 then ascii test.label else [] := by
  unfold Test.run
  split
  · simp [List.flatMap_map]
  · rfl

theorem printed_tests (ts : List Test) (mask : UInt32) :
    (ts.flatMap (fun test => test.run mask)).flatMap
        (fun | .printf text => text | .call _ => []) =
      ((ts.filter (fun test => mask &&& test.bit ≠ 0)).map Test.label).flatMap ascii := by
  induction ts with
  | nil => rfl
  | cons test ts ih =>
      rw [List.flatMap_cons, List.flatMap_append, ih, printed_run, List.filter_cons]
      by_cases hset : mask &&& test.bit ≠ 0
      · rw [if_pos hset, if_pos (decide_eq_true hset)]
        rfl
      · rw [if_neg hset, if_neg (by simpa using hset)]
        rfl

theorem cString_append {bytes name : List UInt8} {offset : Nat} (pre post : List UInt8)
    (hbytes : bytes = pre ++ (name ++ 0 :: post)) (hoffset : offset = pre.length)
    (hname : forall b, b ∈ name -> b ≠ 0) : cString bytes offset = some name := by
  have htake : (name ++ 0 :: post).takeWhile (fun b => b ≠ 0) = name := by
    rw [List.takeWhile_append_of_pos (by simpa using hname)]
    simp
  unfold cString
  rw [hbytes, hoffset, List.drop_left, htake, if_pos (by simp)]

theorem mem_headerReads {ptr i : Nat} (h : i ∈ headerReads ptr) :
    i < ptr + sizeofEvent := by
  unfold headerReads at h
  unfold sizeofEvent
  rw [List.mem_append, List.mem_range', List.mem_range'] at h
  rcases h with ⟨j, hj, rfl⟩ | ⟨j, hj, rfl⟩
  · lia
  · lia

section Record

variable {buf pre post : List UInt8} {e : RawEvent}

theorem load_mask (hbuf : buf = pre ++ (e.encode ++ post)) :
    load 4 buf (pre.length + 4) = some e.mask.toNat := by
  apply load_encode (pre ++ LittleEndian.encode 4 e.wd.toNat)
  · exact e.mask.toNat_lt
  · rw [hbuf, RawEvent.encode]
    simp only [List.append_assoc]
    rfl
  · rw [List.length_append, LittleEndian.length_encode]

theorem load_len (hbuf : buf = pre ++ (e.encode ++ post)) (hlen : e.len < 256 ^ 4) :
    load 4 buf (pre.length + 12) = some e.len := by
  apply load_encode (pre ++ (LittleEndian.encode 4 e.wd.toNat ++
    (LittleEndian.encode 4 e.mask.toNat ++ LittleEndian.encode 4 e.cookie.toNat)))
  · exact hlen
  · rw [hbuf, RawEvent.encode]
    simp only [List.append_assoc]
    rfl
  · simp only [List.length_append, LittleEndian.length_encode]

theorem cString_name (hbuf : buf = pre ++ (e.encode ++ post)) (hpadding : 0 < e.padding) :
    cString buf (pre.length + sizeofEvent) = some e.name := by
  apply cString_append (pre ++ (LittleEndian.encode 4 e.wd.toNat ++
    (LittleEndian.encode 4 e.mask.toNat ++ (LittleEndian.encode 4 e.cookie.toNat ++
      LittleEndian.encode 4 e.len)))) (List.replicate (e.padding - 1) 0 ++ post)
  · have hreplicate : List.replicate e.padding (0 : UInt8) =
        0 :: List.replicate (e.padding - 1) 0 := by
      rw [← List.replicate_succ, Nat.sub_add_cancel hpadding]
    rw [hbuf, RawEvent.encode, hreplicate]
    simp only [List.append_assoc, List.cons_append]
  · simp only [List.length_append, LittleEndian.length_encode]
    rfl
  · exact e.noNul

theorem RawEvent.padding_pos (h : 0 < e.len) : 0 < e.padding := by
  apply Nat.pos_of_ne_zero
  intro hzero
  have hname : e.name ≠ [] := by
    intro hnil
    unfold RawEvent.len at h
    rw [hzero, hnil] at h
    exact Nat.lt_irrefl 0 h
  have hpadding := e.terminated hname
  lia

/-- What the body makes of a record that the kernel has stored at `ptr`. -/
structure Decodes (ptr : Nat) (e : RawEvent) (v : Visit) : Prop where
  place : v.ptr = ptr
  printed : v.printed = e.line
  reads : forall i, i ∈ v.reads -> i < ptr + (sizeofEvent + e.len)

theorem visit_encode (hbuf : buf = pre ++ (e.encode ++ post)) (hlen : e.len < 256 ^ 4) :
    exists v, visit buf pre.length = some (v, e.len) ∧ Decodes pre.length e v := by
  unfold visit
  rw [load_mask hbuf, load_len hbuf hlen]
  simp only [Option.bind_eq_bind, Option.bind_some, UInt32.ofNat_toNat]
  by_cases hnamed : 0 < e.len
  · have hpadding := e.padding_pos hnamed
    rw [if_pos hnamed, cString_name hbuf hpadding, Option.bind_some]
    refine ⟨_, rfl, rfl, ?_, ?_⟩
    · simp only [Visit.printed, List.flatMap_append, printed_tests, RawEvent.line, labels,
        if_pos hnamed]
      simp
    · intro i hi
      rw [List.mem_append] at hi
      rcases hi with hi | hi
      · have hheader := mem_headerReads hi
        lia
      · rw [List.mem_range'] at hi
        rcases hi with ⟨j, hj, rfl⟩
        unfold RawEvent.len
        lia
  · rw [if_neg hnamed]
    refine ⟨_, rfl, rfl, ?_, ?_⟩
    · simp only [Visit.printed, List.flatMap_append, printed_tests, RawEvent.line, labels,
        if_neg hnamed]
      simp
    · intro i hi
      have hheader := mem_headerReads hi
      lia

end Record

/-!
## The records of a buffer
-/

theorem walk_stop {buf : List UInt8} {ret : Int} {ptr : Nat} (h : ret ≤ ptr) :
    walk buf ret ptr = some ([], ptr) := by
  rw [walk, if_neg (by lia)]

theorem walk_step {buf : List UInt8} {ret : Int} {ptr stop len : Nat} {v : Visit}
    {visits : List Visit} (h : ptr < ret) (hvisit : visit buf ptr = some (v, len))
    (hrest : walk buf ret (ptr + (sizeofEvent + len)) = some (visits, stop)) :
    walk buf ret ptr = some (v :: visits, stop) := by
  rw [walk, if_pos h, hvisit]
  simp only
  rw [hrest]

structure Walked (ptr stop : Nat) (events : List RawEvent) (visits : List Visit) : Prop where
  places : visits.map Visit.ptr = offsets ptr events
  printed : visits.map Visit.printed = events.map RawEvent.line
  reads : forall v, v ∈ visits -> forall i, i ∈ v.reads -> i < stop

theorem Walked.cons {ptr stop : Nat} {e : RawEvent} {events : List RawEvent} {v : Visit}
    {visits : List Visit} (hv : Decodes ptr e v) (hstop : ptr + (sizeofEvent + e.len) ≤ stop)
    (h : Walked (ptr + (sizeofEvent + e.len)) stop events visits) :
    Walked ptr stop (e :: events) (v :: visits) := by
  constructor
  · rw [List.map_cons, hv.place, h.places, offsets]
  · rw [List.map_cons, List.map_cons, hv.printed, h.printed]
  · intro w hw i hi
    rcases List.mem_cons.mp hw with rfl | hrest
    · exact Nat.lt_of_lt_of_le (hv.reads i hi) hstop
    · exact h.reads w hrest i hi

/-- Behind any records already walked, and before whatever an earlier `read` has left. -/
theorem walk_records (events : List RawEvent) (pre stale : List UInt8)
    (hsize : (events.flatMap RawEvent.encode).length < 256 ^ 4) :
    exists visits,
      walk (pre ++ (events.flatMap RawEvent.encode ++ stale))
          (pre.length + (events.flatMap RawEvent.encode).length : Nat) pre.length =
        some (visits, pre.length + (events.flatMap RawEvent.encode).length) ∧
      Walked pre.length (pre.length + (events.flatMap RawEvent.encode).length) events visits := by
  induction events generalizing pre with
  | nil =>
      refine ⟨[], walk_stop (by simp), rfl, rfl, ?_⟩
      intro v hv
      cases hv
  | cons e events ih =>
      rw [List.flatMap_cons, List.length_append, e.length_encode] at hsize ⊢
      have hbuf : pre ++ (e.encode ++ events.flatMap RawEvent.encode ++ stale) =
          pre ++ (e.encode ++ (events.flatMap RawEvent.encode ++ stale)) := by
        simp only [List.append_assoc]
      have hlen : e.len < 256 ^ 4 := by
        lia
      rcases visit_encode hbuf hlen with ⟨v, hvisit, hv⟩
      rcases ih (pre ++ e.encode) (by lia) with ⟨visits, hwalk, hwalked⟩
      rw [List.length_append, e.length_encode, List.append_assoc, ← hbuf, Nat.add_assoc] at hwalk
      rw [List.length_append, e.length_encode, Nat.add_assoc] at hwalked
      refine ⟨v :: visits, walk_step ?_ hvisit hwalk, hwalked.cons hv ?_⟩
      · unfold sizeofEvent
        lia
      · lia

/--
The walk over the records that one `read` has put into the buffer visits each of
them once and in order, prints its line, reads nothing behind them and stops
where they end.
-/
theorem walk_decodes (events : List RawEvent) (stale : List UInt8) (n : Nat)
    (hn : (events.flatMap RawEvent.encode).length = n) (hle : n ≤ 4096) :
    (exists visits, walk (events.flatMap RawEvent.encode ++ stale) n 0 = some (visits, n) ∧
        visits.map Visit.ptr = offsets 0 events ∧
        visits.map Visit.printed = events.map RawEvent.line ∧
        forall v, v ∈ visits -> forall i, i ∈ v.reads -> i < n) ∧
      forall buf ret, ret = -1 ∨ ret = 0 -> walk buf ret 0 = some ([], 0) := by
  constructor
  · rcases walk_records events [] stale (by lia) with ⟨visits, hwalk, hwalked⟩
    rw [hn, List.length_nil, Nat.zero_add, List.nil_append] at hwalk
    rw [hn, List.length_nil, Nat.zero_add] at hwalked
    exact ⟨visits, hwalk, hwalked.places, hwalked.printed, hwalked.reads⟩
  · rintro buf ret (rfl | rfl)
    · exact walk_stop (by lia)
    · exact walk_stop (by lia)

def created : RawEvent where
  wd := 1
  mask := inCreate
  cookie := 0
  name := [97, 98]
  padding := 14
  noNul := by
    intro b hb
    rcases List.mem_pair.mp hb with rfl | rfl
    · exact UInt8.toNat_inj.not.mp (by lia)
    · exact UInt8.toNat_inj.not.mp (by lia)
  terminated := fun _ => Nat.succ_pos 13

def removed : RawEvent where
  wd := 1
  mask := inAttrib ||| inDeleteSelf
  cookie := 0
  name := []
  padding := 0
  noNul := fun _ hb => absurd hb List.not_mem_nil
  terminated := fun hname => absurd rfl hname

theorem walk_decodes_two :
    exists visits, walk ([created, removed].flatMap RawEvent.encode ++ []) 48 0 =
        some (visits, 48) ∧
      visits.map Visit.printed =
        [ascii "File created with name ab" ++ [10],
          ascii "File attrib changedWatch target deleted" ++ [10]] := by
  rcases (walk_decodes [created, removed] [] 48 rfl (by lia)).left with
    ⟨visits, hwalk, _, hprinted, _⟩
  exact ⟨visits, hwalk, hprinted⟩

end Inotify
end VidsContent
