import VidsContent.Inotify.Watch
import VidsContent.Inotify.Walk

/-!
# The program and its buffer

The watcher with the bytes that `read` puts into its buffer, one call at a time, beside
the operations on the files.  It refines the model of its events, and prints their lines.
-/

namespace VidsContent
namespace Inotify
namespace Program

open Transition

def sizeofBuf : Nat := 4096

theorem nameless_noNul : forall b : UInt8, b ∈ [] -> b ≠ 0 :=
  fun _ hb => absurd hb List.not_mem_nil

theorem nameless_terminated : ([] : List UInt8) ≠ [] -> 0 < 0 :=
  fun hname => absurd rfl hname

/-- A watch on a file gives events without a name. -/
def raw (e : InotifyEvent) : RawEvent where
  wd := UInt32.ofInt e.wd
  mask := e.mask
  cookie := 0
  name := []
  padding := 0
  noNul := nameless_noNul
  terminated := nameless_terminated

def encodeAll (events : List InotifyEvent) : List UInt8 :=
  events.flatMap (fun e => (raw e).encode)

/--
The kernel's part is that of the model, whose `buf` and `pc` nothing here reads.  `actions`
is what is left of a pass, and `ptr` the next record's place.  `taken` is history: the
events that `read` has returned.
-/
structure State where
  kernel : Inotify.State
  buf : List UInt8
  len : Int
  ptr : Nat
  actions : List Action
  stdout : List UInt8
  taken : List InotifyEvent

inductive Event where
  | files (e : Inotify.Event)
  | read (count : Nat)
  | readFails
  | pass
  | print
  | rmWatch
  | addWatch

/-- Before the first watch; the buffer is on the stack and holds anything. -/
def start (stack : Vector UInt8 sizeofBuf) : State where
  kernel := Inotify.start
  buf := stack.toList
  len := 0
  ptr := 0
  actions := [.call .inotifyAddWatch]
  stdout := []
  taken := []

def isFiles : Inotify.Event -> Bool
  | .read _ => false
  | .handle => false
  | .rmWatch => false
  | .addWatch => false
  | _ => true

/-- The end of the inner loop. -/
def AtRead (s : State) : Prop := s.actions = [] ∧ s.len ≤ s.ptr

instance (s : State) : Decidable (AtRead s) := inferInstanceAs (Decidable (_ ∧ _))

def step (s : State) : Event -> Option State
  | .files e =>
      if isFiles e then
        (Inotify.step s.kernel e).map (fun k => { s with kernel := k })
      else
        none
  | .read count =>
      let bytes := encodeAll (s.kernel.queue.take count)
      if AtRead s ∧ 0 < count ∧ count ≤ s.kernel.queue.length ∧ bytes.length ≤ sizeofBuf then
        some
          { s with
            kernel := { s.kernel with queue := s.kernel.queue.drop count }
            buf := bytes ++ s.buf.drop bytes.length
            len := bytes.length
            ptr := 0
            taken := s.taken ++ s.kernel.queue.take count }
      else
        none
  | .readFails => if AtRead s then some { s with len := -1, ptr := 0 } else none
  | .pass =>
      if s.actions = [] ∧ s.ptr < s.len then
        match visit s.buf s.ptr with
        | none => none
        | some (v, len) =>
            some { s with actions := v.actions, ptr := s.ptr + (sizeofEvent + len) }
      else
        none
  | .print =>
      match s.actions with
      | .printf text :: rest => some { s with actions := rest, stdout := s.stdout ++ text }
      | _ => none
  | .rmWatch =>
      match s.actions with
      | .call .inotifyRmWatch :: rest =>
          some { s with kernel := inotifyRmWatch s.kernel.wd s.kernel, actions := rest }
      | _ => none
  | .addWatch =>
      match s.actions with
      | .call .inotifyAddWatch :: rest =>
          some { s with kernel := inotifyAddWatch s.kernel, actions := rest }
      | _ => none

/-!
## Calls and text of a pass
-/

def callsOf (actions : List Action) : List Call :=
  actions.flatMap fun
    | .printf _ => []
    | .call c => [c]

def printedOf (actions : List Action) : List UInt8 :=
  actions.flatMap fun
    | .printf text => text
    | .call _ => []

theorem callsOf_append (xs ys : List Action) :
    callsOf (xs ++ ys) = callsOf xs ++ callsOf ys :=
  List.flatMap_append

theorem callsOf_run (test : Test) (mask : UInt32) :
    callsOf (test.run mask) = if mask &&& test.bit ≠ 0 then test.calls else [] := by
  unfold Test.run
  split
  · have hcalls (cs : List Call) : callsOf (cs.map .call) = cs := by
      induction cs with
      | nil => rfl
      | cons c cs ih => exact congrArg (c :: ·) ih
    exact hcalls test.calls
  · rfl

theorem callsOf_tests (mask : UInt32) :
    callsOf (tests.flatMap (fun test => test.run mask)) =
      if mask &&& inDeleteSelf ≠ 0 then [.inotifyRmWatch, .inotifyAddWatch] else [] := by
  simp only [tests, List.flatMap_cons, List.flatMap_nil, callsOf_append, callsOf_run, ite_self,
    List.nil_append, List.append_nil]

theorem visit_calls {buf : List UInt8} {ptr mask len : Nat} {v : Visit}
    (hmask : LittleEndian.load 4 buf (ptr + 4) = some mask)
    (h : visit buf ptr = some (v, len)) :
    callsOf v.actions =
      if UInt32.ofNat mask &&& inDeleteSelf ≠ 0 then
        [.inotifyRmWatch, .inotifyAddWatch]
      else
        [] := by
  unfold visit at h
  rw [hmask] at h
  rcases Option.bind_eq_some_iff.mp h with ⟨_, hsame, h⟩
  cases hsame
  rcases Option.bind_eq_some_iff.mp h with ⟨l, _, h⟩
  split at h
  · rcases Option.bind_eq_some_iff.mp h with ⟨name, _, h⟩
    cases h
    rw [callsOf_append, callsOf_tests]
    exact List.append_nil _
  · cases h
    rw [callsOf_append, callsOf_tests]
    exact List.append_nil _

/-!
## The operations on the files
-/

theorem deleteInode_queue (inode : Nat) (k : Inotify.State) :
    exists new, (deleteInode inode k).queue = k.queue ++ new :=
  ⟨_, List.append_assoc _ _ _⟩

theorem step_files {k next : Inotify.State} {e : Inotify.Event} (hfiles : isFiles e = true)
    (hstep : Inotify.step k e = some next) (rest : List InotifyEvent) (pc : Pc) :
    Inotify.step { k with buf := rest, pc := pc } e =
        some { next with buf := rest, pc := pc } ∧
      exists new, next.queue = k.queue ++ new := by
  cases e with
  | create =>
      rcases Option.ite_none_right_eq_some.mp hstep with ⟨hfoo, hnext⟩
      cases hnext
      exact ⟨if_pos hfoo, [], (List.append_nil _).symm⟩
  | delete =>
      cases hfoo : k.foo with
      | none => simp [Inotify.step, hfoo] at hstep
      | some inode =>
          simp only [Inotify.step, hfoo] at hstep ⊢
          cases hstep
          exact ⟨rfl, deleteInode_queue inode k⟩
  | renameOver inode =>
      rcases Option.ite_none_right_eq_some.mp hstep with ⟨hother, hnext⟩
      rcases k with ⟨foo, others, nextInode, watches, nextWd, queue, buf, wd, pc'⟩
      cases hnext
      cases foo with
      | none => exact ⟨if_pos hother, _, rfl⟩
      | some old =>
          rcases deleteInode_queue old (notify inode inMoveSelf
            ⟨some old, others, nextInode, watches, nextWd, queue, buf, wd, pc'⟩) with ⟨new, hnew⟩
          exact ⟨if_pos hother, _ ++ new, hnew.trans (List.append_assoc _ _ _)⟩
  | renameAway =>
      cases hfoo : k.foo with
      | none => simp [Inotify.step, hfoo] at hstep
      | some inode =>
          simp only [Inotify.step, hfoo] at hstep ⊢
          cases hstep
          exact ⟨rfl, _, rfl⟩
  | createOther =>
      cases hstep
      exact ⟨rfl, [], (List.append_nil _).symm⟩
  | deleteOther inode =>
      rcases Option.ite_none_right_eq_some.mp hstep with ⟨hother, hnext⟩
      cases hnext
      exact ⟨if_pos hother, deleteInode_queue inode k⟩
  | touch inode mask =>
      rcases Option.ite_none_right_eq_some.mp hstep with ⟨hmask, hnext⟩
      cases hnext
      exact ⟨if_pos hmask, _, rfl⟩
  | _ => cases hfiles

/-!
## Events in the buffer
-/

def lines (events : List InotifyEvent) : List UInt8 :=
  events.flatMap (fun e => (raw e).line)

theorem lines_append (xs ys : List InotifyEvent) : lines (xs ++ ys) = lines xs ++ lines ys :=
  List.flatMap_append

theorem length_raw (e : InotifyEvent) : (raw e).encode.length = sizeofEvent :=
  (raw e).length_encode

theorem length_encodeAll (events : List InotifyEvent) :
    (encodeAll events).length = sizeofEvent * events.length := by
  induction events with
  | nil => rfl
  | cons e events ih =>
      rw [encodeAll, List.flatMap_cons, List.length_append, length_raw, List.length_cons,
        Nat.mul_succ, Nat.add_comm]
      exact congrArg (· + sizeofEvent) ih

/-- The events that the inner loop has not come to: the bytes between `ptr` and `len`. -/
def Unread (s : State) (rest : List InotifyEvent) : Prop :=
  (rest = [] ∧ s.len ≤ 0) ∨
    exists before stale, s.buf = before ++ (encodeAll rest ++ stale) ∧ before.length = s.ptr ∧
      s.len = (s.ptr + (encodeAll rest).length : Nat)

theorem Unread.nil_iff {s : State} {rest : List InotifyEvent} (h : Unread s rest) :
    rest = [] <-> s.len ≤ s.ptr := by
  rcases h with ⟨hnil, hend⟩ | ⟨before, stale, _, _, hlen⟩
  · exact ⟨fun _ => Int.le_trans hend (Int.natCast_nonneg s.ptr), fun _ => hnil⟩
  · rw [hlen, length_encodeAll]
    constructor
    · intro hnil
      rw [hnil]
      exact Int.le_refl _
    · intro hend
      cases rest with
      | nil => rfl
      | cons e rest =>
          rw [List.length_cons] at hend
          unfold sizeofEvent at hend
          lia

theorem Unread.cons {s : State} {e : InotifyEvent} {rest : List InotifyEvent}
    (h : Unread s (e :: rest)) :
    exists before stale, s.buf = before ++ ((raw e).encode ++ (encodeAll rest ++ stale)) ∧
      before.length = s.ptr ∧
      s.len = (s.ptr + (sizeofEvent + (encodeAll rest).length) : Nat) := by
  rcases h with ⟨hnil, _⟩ | ⟨before, stale, hbuf, hplace, hlen⟩
  · cases hnil
  · refine ⟨before, stale, ?_, hplace, ?_⟩
    · rw [hbuf, encodeAll, List.flatMap_cons, List.append_assoc]
      rfl
    · rw [hlen, encodeAll, List.flatMap_cons, List.length_append, length_raw]
      rfl

theorem visit_unread {s : State} {e : InotifyEvent} {rest : List InotifyEvent}
    (h : Unread s (e :: rest)) :
    exists v, visit s.buf s.ptr = some (v, 0) ∧ printedOf v.actions = (raw e).line ∧
      callsOf v.actions =
        (if e.mask &&& inDeleteSelf ≠ 0 then [.inotifyRmWatch, .inotifyAddWatch] else []) ∧
      forall i, i ∈ v.reads -> (i : Int) < s.len := by
  rcases h.cons with ⟨before, stale, hbuf, hplace, hlen⟩
  rcases visit_encode hbuf (e := raw e) (Nat.pos_of_neZero _) with ⟨v, hvisit, hv⟩
  have hmask := load_mask hbuf
  rw [hplace] at hvisit hmask
  refine ⟨v, hvisit, hv.printed, ?_, ?_⟩
  · rw [visit_calls hmask hvisit, UInt32.ofNat_toNat]
    rfl
  · intro i hi
    have hread := hv.reads i hi
    have hnone : (raw e).len = 0 := rfl
    rw [hplace, hnone] at hread
    rw [hlen]
    lia

/-!
## One step in both models
-/

def pcOf : List Call -> Pc
  | .inotifyRmWatch :: _ => .rmWatch
  | .inotifyAddWatch :: _ => .addWatch
  | [] => .walk

structure Matches (s : State) (t : Inotify.State) : Prop where
  same : t = { s.kernel with buf := t.buf, pc := pcOf (callsOf s.actions) }
  unread : Unread s t.buf
  calls : callsOf s.actions <:+ [.inotifyRmWatch, .inotifyAddWatch]
  printed : s.stdout ++ (printedOf s.actions ++ lines t.buf) = lines s.taken
  stored : s.buf.length = sizeofBuf

def events : Event -> List Inotify.Event
  | .files e => [e]
  | .read count => [.read count]
  | .readFails => []
  | .pass => [.handle]
  | .print => []
  | .rmWatch => [.rmWatch]
  | .addWatch => [.addWatch]

theorem matches_start (stack : Vector UInt8 sizeofBuf) : Matches (start stack) Inotify.start where
  same := rfl
  unread := .inl ⟨rfl, Int.le_refl 0⟩
  calls := List.suffix_cons _ _
  printed := rfl
  stored := stack.length_toList

theorem Matches.walk {s : State} {t : Inotify.State} (h : Matches s t) (hactions : s.actions = []) :
    t = { s.kernel with buf := t.buf, pc := .walk } := by
  have hsame := h.same
  rw [hactions] at hsame
  exact hsame

theorem matches_read {s : State} {t : Inotify.State} {count : Nat} (h : Matches s t)
    (hread : AtRead s) (hpos : 0 < count) (hle : count ≤ s.kernel.queue.length)
    (hfit : (encodeAll (s.kernel.queue.take count)).length ≤ sizeofBuf) :
    Inotify.step t (.read count) =
        some
          { t with buf := s.kernel.queue.take count, queue := s.kernel.queue.drop count } ∧
      Matches
        { s with
          kernel := { s.kernel with queue := s.kernel.queue.drop count }
          buf := encodeAll (s.kernel.queue.take count) ++
            s.buf.drop (encodeAll (s.kernel.queue.take count)).length
          len := (encodeAll (s.kernel.queue.take count)).length
          ptr := 0
          taken := s.taken ++ s.kernel.queue.take count }
        { t with buf := s.kernel.queue.take count, queue := s.kernel.queue.drop count } := by
  rcases hread with ⟨hactions, hend⟩
  have hnil := h.unread.nil_iff.mpr hend
  have hsame := h.walk hactions
  have hprinted := h.printed
  rw [hactions, hnil] at hprinted
  rw [hnil] at hsame
  constructor
  · have hroom : count ≤ bufEvents := by
      rw [length_encodeAll, List.length_take_of_le hle] at hfit
      unfold sizeofEvent sizeofBuf at hfit
      unfold bufEvents
      lia
    rw [hsame]
    exact if_pos ⟨rfl, rfl, hpos, hle, hroom⟩
  · constructor
    · rw [hsame, hactions]
      rfl
    · refine .inr ⟨[], _, rfl, rfl, ?_⟩
      rw [Nat.zero_add]
    · exact h.calls
    · have hdone : s.stdout = lines s.taken := by
        rw [← hprinted]
        exact (List.append_nil _).symm
      rw [lines_append, ← hdone, hactions]
      rfl
    · have hstored := h.stored
      rw [List.length_append, List.length_drop]
      lia

theorem matches_pass {s : State} {t : Inotify.State} (h : Matches s t) (hactions : s.actions = [])
    (hmore : s.ptr < s.len) :
    exists v next, visit s.buf s.ptr = some (v, 0) ∧
      (forall i, i ∈ v.reads -> (i : Int) < s.len) ∧
      Inotify.step t .handle = some next ∧
      Matches { s with actions := v.actions, ptr := s.ptr + sizeofEvent } next := by
  have hsame := h.walk hactions
  cases hrest : t.buf with
  | nil => exact absurd (h.unread.nil_iff.mp hrest) (Int.not_le.mpr hmore)
  | cons e rest =>
      have hunread := h.unread
      have hprinted := h.printed
      rw [hrest] at hsame hunread hprinted
      rcases visit_unread hunread with ⟨v, hvisit, hline, hcalls, hreads⟩
      rcases hunread.cons with ⟨before, stale, hbuf, hplace, hlen⟩
      refine ⟨v, { t with
        buf := rest, pc := if e.mask &&& inDeleteSelf ≠ 0 then .rmWatch else .walk },
        hvisit, hreads, ?_, ?_⟩
      · rw [hsame]
        rfl
      · constructor
        · rw [hsame, hcalls]
          split
          · rfl
          · rfl
        · refine .inr ⟨before ++ (raw e).encode, stale, ?_, ?_, ?_⟩
          · rw [hbuf, List.append_assoc]
          · rw [List.length_append, length_raw, hplace]
          · rw [hlen, Nat.add_assoc]
        · rw [hcalls]
          split
          · exact List.suffix_refl _
          · exact List.nil_suffix
        · rw [hline, ← hprinted, hactions]
          rfl
        · exact h.stored

theorem matches_print {s : State} {t : Inotify.State} {text : List UInt8} {rest : List Action}
    (h : Matches s t) (hactions : s.actions = .printf text :: rest) :
    Matches { s with actions := rest, stdout := s.stdout ++ text } t := by
  have hsame := h.same
  have hcalls := h.calls
  have hprinted := h.printed
  rw [hactions] at hsame hcalls hprinted
  constructor
  · exact hsame
  · exact h.unread
  · exact hcalls
  · rw [← hprinted]
    simp only [printedOf, List.flatMap_cons, List.append_assoc]
  · exact h.stored

theorem matches_rmWatch {s : State} {t : Inotify.State} {rest : List Action} (h : Matches s t)
    (hactions : s.actions = .call .inotifyRmWatch :: rest) :
    exists next, Inotify.step t .rmWatch = some next ∧
      Matches { s with kernel := inotifyRmWatch s.kernel.wd s.kernel, actions := rest } next := by
  have hsame := h.same
  have hcalls := h.calls
  have hprinted := h.printed
  rw [hactions] at hsame hcalls hprinted
  have hadd : callsOf rest = [.inotifyAddWatch] := by
    rcases List.suffix_cons_iff.mp hcalls with hall | hlater
    · exact (List.cons.inj hall).right
    · have hfirst := List.eq_of_mem_singleton (hlater.mem List.mem_cons_self)
      cases hfirst
  refine ⟨{ inotifyRmWatch t.wd t with pc := .addWatch }, ?_, ?_⟩
  · rw [hsame]
    rfl
  · constructor
    · rw [hsame, hadd]
      rfl
    · exact h.unread
    · rw [hadd]
      exact List.suffix_cons _ _
    · exact hprinted
    · exact h.stored

theorem inotifyAddWatch_part (k : Inotify.State) (rest : List InotifyEvent) (pc : Pc) :
    inotifyAddWatch { k with buf := rest, pc := pc } =
        { inotifyAddWatch k with buf := rest, pc := pc } ∧
      (inotifyAddWatch k).queue = k.queue := by
  unfold inotifyAddWatch
  cases k.foo with
  | none => exact ⟨rfl, rfl⟩
  | some inode =>
      simp only
      cases k.watches.find? (fun w => w.inode = inode) with
      | none => exact ⟨rfl, rfl⟩
      | some w => exact ⟨rfl, rfl⟩

theorem matches_addWatch {s : State} {t : Inotify.State} {rest : List Action} (h : Matches s t)
    (hactions : s.actions = .call .inotifyAddWatch :: rest) :
    exists next, Inotify.step t .addWatch = some next ∧
      Matches { s with kernel := inotifyAddWatch s.kernel, actions := rest } next := by
  have hsame := h.same
  have hcalls := h.calls
  have hprinted := h.printed
  rw [hactions] at hsame hcalls hprinted
  have hdone : callsOf rest = [] := by
    rcases List.suffix_cons_iff.mp hcalls with hall | hlater
    · cases hall
    · rcases List.suffix_cons_iff.mp hlater with hlast | hnone
      · exact (List.cons.inj hlast).right
      · cases List.suffix_nil.mp hnone
  refine ⟨{ inotifyAddWatch s.kernel with buf := t.buf, pc := .walk }, ?_, ?_⟩
  · have hpc : t.pc = .addWatch := by
      rw [hsame]
      rfl
    have hadd : inotifyAddWatch t = { inotifyAddWatch s.kernel with buf := t.buf, pc := t.pc } := by
      rw [hsame]
      exact (inotifyAddWatch_part s.kernel t.buf _).left
    simp only [Inotify.step, hpc, hadd, if_true]
  · constructor
    · rw [hdone]
      rfl
    · exact h.unread
    · rw [hdone]
      exact List.nil_suffix
    · exact hprinted
    · exact h.stored

/-- Each step of the program is one of the model, or none. -/
theorem matches_step {s next : State} {t : Inotify.State} {e : Event} (h : Matches s t)
    (hstep : step s e = some next) :
    exists next', exec Inotify.step t (events e) = some next' ∧ Matches next next' := by
  cases e with
  | files e =>
      rcases Option.ite_none_right_eq_some.mp hstep with ⟨hfiles, hmap⟩
      rcases Option.map_eq_some_iff.mp hmap with ⟨k, hk, hnext⟩
      cases hnext
      have hmodel := (step_files hfiles hk t.buf (pcOf (callsOf s.actions))).left
      rw [← h.same] at hmodel
      refine ⟨_, (exec_singleton t e).trans hmodel, ?_⟩
      exact ⟨rfl, h.unread, h.calls, h.printed, h.stored⟩
  | read count =>
      rcases Option.ite_none_right_eq_some.mp hstep with ⟨⟨hread, hpos, hle, hfit⟩, hnext⟩
      cases hnext
      rcases matches_read h hread hpos hle hfit with ⟨hmodel, hmatches⟩
      exact ⟨_, (exec_singleton t _).trans hmodel, hmatches⟩
  | readFails =>
      rcases Option.ite_none_right_eq_some.mp hstep with ⟨hread, hnext⟩
      cases hnext
      have hnil := h.unread.nil_iff.mpr hread.right
      refine ⟨t, rfl, h.same, .inl ⟨hnil, ?_⟩, h.calls, h.printed, h.stored⟩
      exact Int.negSucc_le_zero 0
  | pass =>
      rcases Option.ite_none_right_eq_some.mp hstep with ⟨⟨hactions, hmore⟩, hnext⟩
      rcases matches_pass h hactions hmore with ⟨v, t', hvisit, _, hmodel, hmatches⟩
      rw [hvisit] at hnext
      cases hnext
      exact ⟨t', (exec_singleton t _).trans hmodel, hmatches⟩
  | print =>
      simp only [step] at hstep
      split at hstep
      · rename_i text rest hactions
        cases hstep
        exact ⟨t, rfl, matches_print h hactions⟩
      · cases hstep
  | rmWatch =>
      simp only [step] at hstep
      split at hstep
      · rename_i rest hactions
        cases hstep
        rcases matches_rmWatch h hactions with ⟨t', hmodel, hmatches⟩
        exact ⟨t', (exec_singleton t _).trans hmodel, hmatches⟩
      · cases hstep
  | addWatch =>
      simp only [step] at hstep
      split at hstep
      · rename_i rest hactions
        cases hstep
        rcases matches_addWatch h hactions with ⟨t', hmodel, hmatches⟩
        exact ⟨t', (exec_singleton t _).trans hmodel, hmatches⟩
      · cases hstep

/-!
## Whole runs
-/

theorem log_step {s next : State} {e : Event} (hstep : step s e = some next) :
    s.taken ++ s.kernel.queue <+: next.taken ++ next.kernel.queue := by
  cases e with
  | files e =>
      rcases Option.ite_none_right_eq_some.mp hstep with ⟨hfiles, hmap⟩
      rcases Option.map_eq_some_iff.mp hmap with ⟨k, hk, hnext⟩
      cases hnext
      rcases (step_files hfiles hk [] .walk).right with ⟨new, hnew⟩
      rw [hnew, ← List.append_assoc]
      exact List.prefix_append _ new
  | read count =>
      rcases Option.ite_none_right_eq_some.mp hstep with ⟨_, hnext⟩
      cases hnext
      refine ⟨[], ?_⟩
      rw [List.append_nil, List.append_assoc, List.take_append_drop]
  | readFails =>
      rcases Option.ite_none_right_eq_some.mp hstep with ⟨_, hnext⟩
      cases hnext
      exact List.prefix_refl _
  | pass =>
      rcases Option.ite_none_right_eq_some.mp hstep with ⟨_, hnext⟩
      split at hnext
      · cases hnext
      · cases hnext
        exact List.prefix_refl _
  | print =>
      simp only [step] at hstep
      split at hstep
      · cases hstep
        exact List.prefix_refl _
      · cases hstep
  | rmWatch =>
      simp only [step] at hstep
      split at hstep
      · cases hstep
        rw [inotifyRmWatch, ← List.append_assoc]
        exact List.prefix_append _ _
      · cases hstep
  | addWatch =>
      simp only [step] at hstep
      split at hstep
      · cases hstep
        refine ⟨[], ?_⟩
        rw [List.append_nil, (inotifyAddWatch_part s.kernel [] .walk).right]
      · cases hstep

theorem log_run {s t : State} {es : List Event} (hrun : exec step s es = some t) :
    s.taken ++ s.kernel.queue <+: t.taken ++ t.kernel.queue :=
  exec_invariant (I := fun t => s.taken ++ s.kernel.queue <+: t.taken ++ t.kernel.queue)
    (fun h hstep => h.trans (log_step hstep)) (List.prefix_refl _) hrun

/-- The queue is empty, and so is the program's part of it. -/
def Finished (s : State) : Prop := s.kernel.queue = [] ∧ AtRead s

instance (s : State) : Decidable (Finished s) := inferInstanceAs (Decidable (_ ∧ _))

theorem Matches.finished_iff {s : State} {t : Inotify.State} (h : Matches s t) :
    Finished s <-> FullyProcessed t ∧ s.actions = [] := by
  have hsame := h.same
  constructor
  · rintro ⟨hqueue, hactions, hend⟩
    have hbuf := h.unread.nil_iff.mpr hend
    rw [hactions] at hsame
    refine ⟨⟨?_, hbuf, ?_⟩, hactions⟩
    · rw [hsame]
      exact hqueue
    · rw [hsame]
      rfl
  · rintro ⟨⟨hqueue, hbuf, _⟩, hactions⟩
    rw [hsame] at hqueue
    exact ⟨hqueue, hactions, h.unread.nil_iff.mp hbuf⟩

theorem Unread.len_le {s : State} {rest : List InotifyEvent} (h : Unread s rest) :
    s.len ≤ s.buf.length := by
  rcases h with ⟨_, hend⟩ | ⟨before, stale, hbuf, hplace, hlen⟩
  · exact Int.le_trans hend (Int.natCast_nonneg s.buf.length)
  · rw [hlen, hbuf, ← hplace]
    simp only [List.length_append]
    lia

theorem matches_run {stack : Vector UInt8 sizeofBuf} {s : State} {es : List Event}
    (hrun : exec step (start stack) es = some s) :
    exists t, exec Inotify.step Inotify.start (es.flatMap events) = some t ∧ Matches s t :=
  exec_simulates events matches_step (matches_start stack) hrun

/--
Every run of the program with its buffer is a run of the model of its events, with the
same files, watches and queue; so it watches `./foo` in every run that is covered there.
-/
theorem program_refines (stack : Vector UInt8 sizeofBuf) (es : List Event) (s : State)
    (hrun : exec step (start stack) es = some s) :
    exists t, exec Inotify.step Inotify.start (es.flatMap events) = some t ∧
      t = { s.kernel with buf := t.buf, pc := t.pc } ∧ Unread s t.buf ∧
      (Finished s <-> FullyProcessed t ∧ s.actions = []) ∧
      (AllSteps Inotify.step Covered Inotify.start (es.flatMap events) ->
        Finished s -> forall inode, s.kernel.foo = some inode -> Watched s.kernel inode) := by
  rcases matches_run hrun with ⟨t, hmodel, hmatches⟩
  have hsame : t = { s.kernel with buf := t.buf, pc := t.pc } := by
    rw [hmatches.same]
  refine ⟨t, hmodel, hsame, hmatches.unread, hmatches.finished_iff, ?_⟩
  intro hcovered hfinished inode hfoo
  have hinv : AllStates Inotify.step (fun t => Wf t ∧ Cover t) Inotify.start
      (es.flatMap events) := by
    refine allStates_of_allSteps ?_ ⟨wf_start, cover_start⟩ hcovered
    rintro t e next ⟨hwf, hcover⟩ hC hstep
    have hnext := wf_cover_step hwf hstep
    exact ⟨hnext.left, hnext.right hcover hC⟩
  have hkeeps := (hinv.last hmodel).right.keepsWatch
  rw [hsame] at hkeeps
  have hprocessed := (hmatches.finished_iff.mp hfinished).left
  rw [hsame] at hprocessed
  exact hkeeps hprocessed inode hfoo

def zeros : Vector UInt8 sizeofBuf := Vector.replicate sizeofBuf 0

theorem program_refines_created :
    exists s,
      exec step (start zeros)
        [.files .create, .addWatch, .files (.touch 0 inModify), .read 1, .pass, .print,
          .print] = some s ∧
        s.stdout = ascii "File modified\n" ∧ s.kernel.foo = some 0 ∧ Watched s.kernel 0 := by
  have hrun : (exec step (start zeros)
      [.files .create, .addWatch, .files (.touch 0 inModify), .read 1, .pass, .print,
        .print]).any (fun s => decide
          (s.stdout = ascii "File modified\n" ∧ s.kernel.foo = some 0 ∧ Finished s)) = true := by
    decide +kernel
  rcases (Option.any_eq_true _ _).mp hrun with ⟨s, hrun, hs⟩
  rcases of_decide_eq_true hs with ⟨hprinted, hfoo, hfinished⟩
  rcases program_refines zeros _ s hrun with ⟨_, _, _, _, _, hkeeps⟩
  exact ⟨s, hrun, hprinted, hfoo, hkeeps (by decide) hfinished 0 hfoo⟩

/--
Whatever happens to the files and however the queue is cut into reads, the output is the
lines of the queued events in their order, up to where the program is; and a pass reads
nothing but what the last `read` has stored.
-/
theorem program_prints (stack : Vector UInt8 sizeofBuf) (es : List Event) (s : State)
    (hrun : exec step (start stack) es = some s) :
    s.stdout <+: lines s.taken ∧
      (AtRead s -> s.stdout = lines s.taken) ∧
      (Finished s -> s.stdout = lines (s.taken ++ s.kernel.queue)) ∧
      (forall fs t, exec step s fs = some t ->
        s.taken ++ s.kernel.queue <+: t.taken ++ t.kernel.queue) ∧
      s.buf.length = sizeofBuf ∧ s.len ≤ sizeofBuf ∧
      (s.actions = [] -> s.ptr < s.len ->
        exists v next, visit s.buf s.ptr = some (v, 0) ∧ step s .pass = some next ∧
          forall i, i ∈ v.reads -> (i : Int) < s.len) := by
  rcases matches_run hrun with ⟨t, _, hmatches⟩
  have hwhole (hread : AtRead s) : s.stdout = lines s.taken := by
    rw [← hmatches.printed, hread.left, hmatches.unread.nil_iff.mpr hread.right]
    exact (List.append_nil _).symm
  refine ⟨?_, hwhole, ?_, fun fs t hmore => log_run hmore, hmatches.stored, ?_, ?_⟩
  · rw [← hmatches.printed]
    exact List.prefix_append _ _
  · intro hfinished
    rw [hfinished.left, List.append_nil]
    exact hwhole hfinished.right
  · rw [← hmatches.stored]
    exact hmatches.unread.len_le
  · intro hactions hmore
    rcases matches_pass hmatches hactions hmore with ⟨v, _, hvisit, hreads, _, _⟩
    have hpass : step s .pass =
        some { s with actions := v.actions, ptr := s.ptr + (sizeofEvent + 0) } := by
      simp only [step, if_pos (And.intro hactions hmore), hvisit]
    exact ⟨v, _, hvisit, hpass, hreads⟩

theorem program_prints_modified :
    exists s next,
      exec step (start zeros) [.files .create, .addWatch, .files (.touch 0 inModify), .read 1] =
          some s ∧
        s.taken = [⟨1, inModify⟩] ∧ s.stdout <+: lines s.taken ∧ step s .pass = some next := by
  have hrun : exists s,
      exec step (start zeros) [.files .create, .addWatch, .files (.touch 0 inModify), .read 1] =
          some s ∧
        s.taken = [⟨1, inModify⟩] ∧ s.actions = [] ∧ s.ptr < s.len :=
    ⟨_, rfl, rfl, rfl, by decide⟩
  rcases hrun with ⟨s, hrun, htaken, hactions, hmore⟩
  rcases program_prints zeros _ s hrun with ⟨hpart, _, _, _, _, _, hpass⟩
  rcases hpass hactions hmore with ⟨_, next, _, hnext, _⟩
  exact ⟨s, next, hrun, htaken, hpart, hnext⟩

end Program
end Inotify
end VidsContent
