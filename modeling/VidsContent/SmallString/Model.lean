import Mathlib.Logic.Function.Basic
import VidsContent.Lib.Transition

/-!
# The small-string type

`struct String` keeps up to seven characters inline, in the eight bytes that
otherwise hold the pointer to its heap block; `capacity` says which of the two
is in use.  Sizes are natural numbers, that is, `size_t` without wrap-around.

The bytes that C leaves indeterminate (a new string's union, a fresh block) are
chosen by the environment: they are arguments of the functions that meet them.
-/

namespace VidsContent
namespace SmallString

/-- `STRING_SMALL_STORAGE_SIZE`, the size of a `char *`. -/
def stringSmallStorageSize : Nat := 8

/-- A pointer, identified with the bytes that represent it in memory. -/
abbrev Addr := Vector UInt8 stringSmallStorageSize

abbrev Heap := Addr -> Option (List UInt8)

/--
`struct String`.  The anonymous union is one field of eight bytes, which
`small` reads as characters and `large` as a pointer.
-/
structure String where
  overlay : Addr
  length : Nat
  capacity : Nat
deriving DecidableEq

def String.small (s : String) : Vector UInt8 stringSmallStorageSize := s.overlay

def String.large (s : String) : Addr := s.overlay

inductive Stop where
  /-- An access at an index that the storage does not have. -/
  | outOfBounds (index size : Nat)
  /-- An access through a pointer to no live block. -/
  | notAllocated
  /-- The allocator has no block to give. -/
  | allocationFailed
deriving DecidableEq

/-!
## Memory operations
-/

/-- The allocator's answer to one request: where, and the bytes found there. -/
structure Allocation where
  addr : Addr
  fill : Nat -> UInt8

def resize (fill : Nat -> UInt8) (old : List UInt8) (n : Nat) : List UInt8 :=
  (List.range n).map fun i => old.getD i (fill i)

def malloc (a : Allocation) (h : Heap) (n : Nat) : Except Stop (Heap × Addr) :=
  if h a.addr = none then
    .ok (Function.update h a.addr (some (resize a.fill [] n)), a.addr)
  else
    .error .allocationFailed

/-- `realloc` stays in place or moves to an address that holds no block. -/
def realloc (a : Allocation) (h : Heap) (p : Addr) (n : Nat) :
    Except Stop (Heap × Addr) :=
  match h p with
  | none => .error .notAllocated
  | some old =>
      if a.addr = p ∨ h a.addr = none then
        .ok (Function.update (Function.update h p none) a.addr
          (some (resize a.fill old n)), a.addr)
      else
        .error .allocationFailed

/-- `p[i] = c` on the heap. -/
def store (h : Heap) (p : Addr) (i : Nat) (c : UInt8) : Except Stop Heap :=
  match h p with
  | none => .error .notAllocated
  | some block =>
      if i < block.length then
        .ok (Function.update h p (some (block.set i c)))
      else
        .error (.outOfBounds i block.length)

/-- The bytes a `memcpy` of size `n` reads from the block at `p`. -/
def copyOut (h : Heap) (p : Addr) (n : Nat) : Except Stop (List UInt8) :=
  match h p with
  | none => .error .notAllocated
  | some block =>
      if n ≤ block.length then
        .ok (block.take n)
      else
        .error (.outOfBounds (n - 1) block.length)

def copyIn (h : Heap) (p : Addr) (bytes : List UInt8) : Except Stop Heap :=
  match h p with
  | none => .error .notAllocated
  | some block =>
      if bytes.length ≤ block.length then
        .ok (Function.update h p (some (bytes ++ block.drop bytes.length)))
      else
        .error (.outOfBounds (bytes.length - 1) block.length)

/-- `s->small[i] = c`. -/
def storeSmall (s : String) (i : Nat) (c : UInt8) : Except Stop String :=
  if hi : i < stringSmallStorageSize then
    .ok { s with overlay := s.small.set i c hi }
  else
    .error (.outOfBounds i stringSmallStorageSize)

/-!
## The string functions
-/

/-- `string_new`; `garbage` is what the uninitialised union holds. -/
def stringNew (garbage : Addr) : String where
  overlay := garbage.set 0 0 (by decide)
  length := 0
  capacity := stringSmallStorageSize - 1

def isSmall (s : String) : Bool :=
  decide (s.capacity < stringSmallStorageSize)

def stringData (h : Heap) (s : String) : Option (List UInt8) :=
  if isSmall s then
    some s.small.toList
  else
    h s.large

def growFor (a : Allocation) (h : Heap) (s : String) (addedCapacity : Nat) :
    Except Stop (Heap × String) :=
  if isSmall s then
    if s.length + addedCapacity ≥ stringSmallStorageSize then do
      let tmp := s.small.toList
      let capacity := s.length + stringSmallStorageSize
      let (h, large) <- malloc a h capacity
      -- the pointer overwrites the inline characters
      let s := { s with overlay := large, capacity := capacity }
      let h <- copyIn h s.large tmp
      .ok (h, s)
    else
      .ok (h, s)
  else do
    let capacity := s.capacity + addedCapacity
    let (h, large) <- realloc a h s.large capacity
    .ok (h, { s with overlay := large, capacity := capacity })

def stringPushChar (a : Allocation) (h : Heap) (s : String) (c : UInt8) :
    Except Stop (Heap × String) := do
  let (h, s) <- growFor a h s 1
  if isSmall s then
    let s <- storeSmall s s.length c
    let s := { s with length := s.length + 1 }
    let s <- storeSmall s s.length 0
    .ok (h, s)
  else
    let h <- store h s.large s.length c
    let s := { s with length := s.length + 1 }
    let h <- store h s.large s.length 0
    .ok (h, s)

def stringCopy (garbage : Addr) (a : Allocation) (h : Heap) (s : String) :
    Except Stop (Heap × String) :=
  if isSmall s then
    .ok (h, s)
  else do
    let new := stringNew garbage
    let new := { new with capacity := s.capacity }
    -- the length of the copy is taken from the capacity, as in the source
    let new := { new with length := s.capacity }
    let (h, large) <- malloc a h new.capacity
    let new := { new with overlay := large }
    let bytes <- copyOut h s.large new.capacity
    let h <- copyIn h new.large bytes
    .ok (h, new)

def pushAll (h : Heap) (s : String) :
    List (UInt8 × Allocation) -> Except Stop (Heap × String)
  | [] => .ok (h, s)
  | (c, a) :: rest => do
      let (h, s) <- stringPushChar a h s c
      pushAll h s rest

/-!
## A program that works on many strings
-/

/-- The live strings of a program, its heap, and the fault that stopped it. -/
structure World where
  heap : Heap
  strings : List String
  fault : Option Stop

def World.empty : World where
  heap := fun _ => none
  strings := []
  fault := none

inductive Op where
  | new (garbage : Addr)
  | push (i : Nat) (c : UInt8) (a : Allocation)
  | copy (i : Nat) (garbage : Addr) (a : Allocation)

/-- The world after a function returned; a failed allocation is no step at all. -/
def World.settle (w : World) (place : String -> List String) :
    Except Stop (Heap × String) -> Option World
  | .ok (h, s) => some { heap := h, strings := place s, fault := none }
  | .error .allocationFailed => none
  | .error f => some { w with fault := some f }

def World.step (w : World) (op : Op) : Option World :=
  if w.fault = none then
    match op with
    | .new garbage =>
        some { w with strings := w.strings ++ [stringNew garbage] }
    | .push i c a =>
        match w.strings[i]? with
        | none => none
        | some s =>
            w.settle (fun s' => w.strings.set i s') (stringPushChar a w.heap s c)
    | .copy i garbage a =>
        match w.strings[i]? with
        | none => none
        | some s =>
            w.settle (fun x => w.strings ++ [x]) (stringCopy garbage a w.heap s)
  else
    none

end SmallString
end VidsContent
