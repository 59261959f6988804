import Mathlib.Data.List.Basic

/-!
# The inotify watcher

`main.c` watches the path `./foo`, but the kernel's watch is on the inode that
the path names when it is added.  The system is the file system, the kernel's
watches and event queue, and the program with its buffer; every operation on the
files may happen between any two steps of the program.
-/

namespace VidsContent
namespace Inotify

def inDeleteSelf : UInt32 := 0x400

def inMoveSelf : UInt32 := 0x800

def inIgnored : UInt32 := 0x8000

/-- `struct inotify_event` of a watch on a file, which has no name. -/
structure InotifyEvent where
  wd : Int
  mask : UInt32
deriving DecidableEq

structure Watch where
  wd : Int
  inode : Nat
deriving DecidableEq

/--
The program is in the walk over its buffer, or about to call `inotify_rm_watch`
or `inotify_add_watch`.
-/
inductive Pc where
  | walk
  | rmWatch
  | addWatch
deriving DecidableEq

/-- `foo` is the inode that `./foo` names and `others` are the files elsewhere. -/
structure State where
  foo : Option Nat
  others : List Nat
  nextInode : Nat
  watches : List Watch
  nextWd : Int
  queue : List InotifyEvent
  buf : List InotifyEvent
  wd : Int
  pc : Pc

def start : State where
  foo := none
  others := []
  nextInode := 0
  watches := []
  nextWd := 1
  queue := []
  buf := []
  wd := -1
  pc := .addWatch

inductive Event where
  | create
  | delete
  | renameOver (inode : Nat)
  | renameAway
  | createOther
  | deleteOther (inode : Nat)
  | touch (inode : Nat) (mask : UInt32)
  | read (count : Nat)
  | handle
  | rmWatch
  | addWatch

/-!
## The kernel
-/

def notify (inode : Nat) (mask : UInt32) (s : State) : State :=
  { s with
    queue := s.queue ++
      (s.watches.filter (fun w => w.inode = inode)).map (fun w => ⟨w.wd, mask⟩) }

/-- The inode is gone, and the watch on it with it. -/
def deleteInode (inode : Nat) (s : State) : State :=
  let s := notify inode inIgnored (notify inode inDeleteSelf s)
  { s with watches := s.watches.filter (fun w => w.inode ≠ inode) }

def inotifyRmWatch (wd : Int) (s : State) : State :=
  { s with
    watches := s.watches.filter (fun w => w.wd ≠ wd)
    queue := s.queue ++
      (s.watches.filter (fun w => w.wd = wd)).map (fun w => ⟨w.wd, inIgnored⟩) }

/-- `wd = inotify_add_watch(fd, "./foo", IN_ALL_EVENTS)`. -/
def inotifyAddWatch (s : State) : State :=
  match s.foo with
  | none => { s with wd := -1 }
  | some inode =>
      match s.watches.find? (fun w => w.inode = inode) with
      | some w => { s with wd := w.wd }
      | none =>
          { s with
            watches := s.watches ++ [⟨s.nextWd, inode⟩]
            nextWd := s.nextWd + 1
            wd := s.nextWd }

/-- The events that fit into the program's buffer. -/
def bufEvents : Nat := 4096 / 16

def step (s : State) : Event -> Option State
  | .create =>
      if s.foo = none then
        some { s with foo := some s.nextInode, nextInode := s.nextInode + 1 }
      else
        none
  | .delete =>
      match s.foo with
      | none => none
      | some inode => some { deleteInode inode s with foo := none }
  | .renameOver inode =>
      if inode ∈ s.others then
        let s := notify inode inMoveSelf s
        let s :=
          match s.foo with
          | none => s
          | some old => deleteInode old s
        some { s with foo := some inode, others := s.others.filter (fun i => i ≠ inode) }
      else
        none
  | .renameAway =>
      match s.foo with
      | none => none
      | some inode =>
          some { notify inode inMoveSelf s with foo := none, others := inode :: s.others }
  | .createOther =>
      some { s with others := s.nextInode :: s.others, nextInode := s.nextInode + 1 }
  | .deleteOther inode =>
      if inode ∈ s.others then
        some
          { deleteInode inode s with others := s.others.filter (fun i => i ≠ inode) }
      else
        none
  | .touch inode mask =>
      if mask &&& inDeleteSelf = 0 then some (notify inode mask s) else none
  | .read count =>
      if s.pc = .walk ∧ s.buf = [] ∧ 0 < count ∧ count ≤ s.queue.length ∧
          count ≤ bufEvents then
        some { s with buf := s.queue.take count, queue := s.queue.drop count }
      else
        none
  | .handle =>
      match s.pc, s.buf with
      | .walk, event :: rest =>
          some
            { s with
              buf := rest
              pc := if event.mask &&& inDeleteSelf ≠ 0 then .rmWatch else .walk }
      | _, _ => none
  | .rmWatch =>
      if s.pc = .rmWatch then
        some { inotifyRmWatch s.wd s with pc := .addWatch }
      else
        none
  | .addWatch =>
      if s.pc = .addWatch then some { inotifyAddWatch s with pc := .walk } else none

end Inotify
end VidsContent
