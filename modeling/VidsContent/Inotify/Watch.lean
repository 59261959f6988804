import VidsContent.Lib.Transition
import VidsContent.Inotify.Kernel

/-!
# The watch on `./foo`

The watcher is to watch the file that `./foo` names, whatever happens to it.  It
does so exactly while every inode that gets the name is watched or found by a
later `inotify_add_watch`.
-/

namespace VidsContent
namespace Inotify

open Transition

/-!
## What the watcher is for
-/

def FullyProcessed (s : State) : Prop :=
  s.queue = [] ∧ s.buf = [] ∧ s.pc = .walk

/-- Once every event is processed, the inode that `./foo` names is watched. -/
def KeepsWatch (s : State) : Prop :=
  FullyProcessed s -> forall inode, s.foo = some inode -> Watched s inode

instance (s : State) : Decidable (FullyProcessed s) :=
  inferInstanceAs (Decidable (_ ∧ _))

/--
The condition on a step: when an inode gets the name `./foo`, the program is
still to add its watch, or that inode or the one it replaces is watched.
-/
def Covered (s : State) : Event -> Prop
  | .create => WillAdd s
  | .renameOver inode =>
      WillAdd s ∨ Watched s inode ∨ exists old, old ∈ s.foo ∧ Watched s old
  | _ => True

instance (s : State) : forall e, Decidable (Covered s e)
  | .create => inferInstanceAs (Decidable (WillAdd s))
  | .renameOver _ => inferInstanceAs
      (Decidable (_ ∨ _ ∨ exists old, old ∈ s.foo ∧ Watched s old))
  | .delete => isTrue trivial
  | .renameAway => isTrue trivial
  | .createOther => isTrue trivial
  | .deleteOther _ => isTrue trivial
  | .touch _ _ => isTrue trivial
  | .read _ => isTrue trivial
  | .handle => isTrue trivial
  | .rmWatch => isTrue trivial
  | .addWatch => isTrue trivial

/-!
## The watch
-/

/-- The inode that `./foo` names is watched, or the program is still to watch it. -/
def Cover (s : State) : Prop :=
  forall inode, inode ∈ s.foo -> Watched s inode ∨ WillAdd s

theorem Cover.keepsWatch {s : State} (h : Cover s) : KeepsWatch s := by
  rintro ⟨hqueue, hbuf, hpc⟩ inode hfoo
  rcases h inode hfoo with hwatched | hbusy | ⟨e, he, _⟩
  · exact hwatched
  · exact absurd hpc hbusy
  · rw [hbuf, hqueue] at he
    cases he

theorem cover_start : Cover start :=
  nofun

theorem Cover.notify {s : State} (h : Cover s) (inode : Nat) (mask : UInt32) :
    Cover (notify inode mask s) := by
  intro foo hfoo
  rcases h foo hfoo with hwatched | hadd
  · exact Or.inl hwatched
  · exact Or.inr (hadd.notify inode mask)

theorem Cover.delete_other {s : State} (h : Cover s) {inode : Nat}
    (hother : inode ∉ s.foo) : Cover (deleteInode inode s) := by
  intro foo hfoo
  rcases h foo hfoo with hwatched | hadd
  · apply Or.inl
    apply hwatched.of_delete_other
    intro heq
    rw [heq] at hfoo
    exact hother hfoo
  · exact Or.inr (hadd.deleteInode inode)

theorem cover_renameOver {s : State} {inode : Nat} (hne : inode ∉ s.foo)
    (hcovered : Covered s (.renameOver inode)) :
    Cover
      { (match s.foo with
          | none => Inotify.notify inode inMoveSelf s
          | some old => deleteInode old (Inotify.notify inode inMoveSelf s)) with
        foo := some inode
        others := s.others.filter (fun i => i ≠ inode) } := by
  intro foo hfoo
  cases hfoo
  cases hold : s.foo with
  | none =>
      simp only
      rcases hcovered with hadd | hwatched | ⟨old, hin, _⟩
      · exact Or.inr (hadd.notify inode inMoveSelf)
      · exact Or.inl hwatched
      · rw [hold] at hin
        cases hin
  | some old =>
      simp only
      rcases hcovered with hadd | hwatched | ⟨old', hin, hwatched⟩
      · exact Or.inr ((hadd.notify inode inMoveSelf).deleteInode old)
      · apply Or.inl
        have hdelete : Watched (Inotify.notify inode inMoveSelf s) inode := hwatched
        apply hdelete.of_delete_other
        intro heq
        rw [hold, heq] at hne
        exact hne rfl
      · rw [hold] at hin
        cases hin
        exact Or.inr (willAdd_of_delete_watched (s := Inotify.notify inode inMoveSelf s) hwatched)

theorem cover_read {s : State} (h : Cover s) (count : Nat) (hbuf : s.buf = []) :
    Cover { s with buf := s.queue.take count, queue := s.queue.drop count } := by
  intro foo hfoo
  rcases h foo hfoo with hwatched | hbusy | ⟨e, he, hmask⟩
  · exact Or.inl hwatched
  · exact Or.inr (Or.inl hbusy)
  · rw [hbuf, List.nil_append] at he
    refine Or.inr (Or.inr ⟨e, ?_, hmask⟩)
    rw [List.take_append_drop]
    exact he

theorem cover_handle {s : State} (h : Cover s) {event : InotifyEvent}
    {rest : List InotifyEvent} (hpc : s.pc = .walk) (hbuf : s.buf = event :: rest) :
    Cover
      { s with
        buf := rest
        pc := if event.mask &&& inDeleteSelf ≠ 0 then .rmWatch else .walk } := by
  intro foo hfoo
  rcases h foo hfoo with hwatched | hbusy | ⟨e, he, hmask⟩
  · exact Or.inl hwatched
  · exact absurd hpc hbusy
  · rw [hbuf, List.cons_append] at he
    rcases List.mem_cons.mp he with rfl | hlater
    · rw [if_pos hmask]
      exact Or.inr (Or.inl nofun)
    · exact Or.inr (Or.inr ⟨e, hlater, hmask⟩)

theorem cover_addWatch (s : State) : Cover { inotifyAddWatch s with pc := .walk } := by
  intro foo hfoo
  have hfoo' : s.foo = some foo := by simpa using hfoo
  exact Or.inl (watched_inotifyAddWatch hfoo')

theorem wf_cover_step {s next : State} {e : Event} (h : Wf s)
    (hstep : step s e = some next) :
    Wf next ∧ (Cover s -> Covered s e -> Cover next) := by
  cases e with
  | create =>
      rcases Option.ite_none_right_eq_some.mp hstep with ⟨_, hnext⟩
      cases hnext
      exact ⟨wf_create h, fun _ hadd _ _ => Or.inr hadd⟩
  | delete =>
      cases hfoo : s.foo with
      | none => simp [step, hfoo] at hstep
      | some inode =>
          simp only [step, hfoo] at hstep
          cases hstep
          exact ⟨wf_delete (h.deleteInode inode), fun _ _ => nofun⟩
  | renameOver inode =>
      rcases Option.ite_none_right_eq_some.mp hstep with ⟨hother, hnext⟩
      cases hnext
      have hne : inode ∉ s.foo := fun hfoo => h.apart inode hfoo hother
      refine ⟨?_, fun _ hcovered => cover_renameOver hne hcovered⟩
      split
      · exact wf_renameOver (h.notify inode inMoveSelf) hother
      · rename_i old _
        exact wf_renameOver ((h.notify inode inMoveSelf).deleteInode old) hother
  | renameAway =>
      cases hfoo : s.foo with
      | none => simp [step, hfoo] at hstep
      | some inode =>
          simp only [step, hfoo] at hstep
          cases hstep
          exact ⟨wf_renameAway (h.notify inode inMoveSelf) hfoo, fun _ _ => nofun⟩
  | createOther =>
      cases hstep
      exact ⟨wf_createOther h, fun hcover _ => hcover⟩
  | deleteOther inode =>
      rcases Option.ite_none_right_eq_some.mp hstep with ⟨hother, hnext⟩
      cases hnext
      have hne : inode ∉ s.foo := fun hfoo => h.apart inode hfoo hother
      exact ⟨wf_deleteOther (h.deleteInode inode) inode,
        fun hcover _ => hcover.delete_other hne⟩
  | touch inode mask =>
      rcases Option.ite_none_right_eq_some.mp hstep with ⟨_, hnext⟩
      cases hnext
      exact ⟨h.notify inode mask, fun hcover _ => hcover.notify inode mask⟩
  | read count =>
      rcases Option.ite_none_right_eq_some.mp hstep with ⟨⟨_, hbuf, _⟩, hnext⟩
      cases hnext
      exact ⟨⟨h.foo_lt, h.others_lt, h.watches_lt, h.apart⟩,
        fun hcover _ => cover_read hcover count hbuf⟩
  | handle =>
      simp only [step] at hstep
      split at hstep
      · rename_i event rest hpc hbuf
        cases hstep
        exact ⟨⟨h.foo_lt, h.others_lt, h.watches_lt, h.apart⟩,
          fun hcover _ => cover_handle hcover hpc hbuf⟩
      · cases hstep
  | rmWatch =>
      rcases Option.ite_none_right_eq_some.mp hstep with ⟨_, hnext⟩
      cases hnext
      exact ⟨wf_rmWatch h s.wd .addWatch, fun _ _ _ _ => Or.inr (Or.inl nofun)⟩
  | addWatch =>
      rcases Option.ite_none_right_eq_some.mp hstep with ⟨_, hnext⟩
      cases hnext
      exact ⟨wf_addWatch h .walk, fun _ _ => cover_addWatch s⟩

/-!
## Losing the watch
-/

theorem drain_buf {s : State} (hpc : s.pc = .walk)
    (hbuf : forall e, e ∈ s.buf -> e.mask &&& inDeleteSelf = 0) :
    exists es, exec step s es = some { s with buf := [] } := by
  cases s with
  | mk foo others nextInode watches nextWd queue buf wd pc =>
      simp only at hpc hbuf
      subst hpc
      induction buf with
      | nil => exact ⟨[], rfl⟩
      | cons e rest ih =>
          rcases ih (fun e' he' => hbuf e' (List.mem_cons_of_mem e he')) with ⟨es, hrun⟩
          refine ⟨.handle :: es, ?_⟩
          rw [← hrun]
          apply exec_cons_of_step
          simp [step, hbuf e List.mem_cons_self]

theorem drain_queue {s : State} (hpc : s.pc = .walk) (hbuf : s.buf = [])
    (hqueue : forall e, e ∈ s.queue -> e.mask &&& inDeleteSelf = 0) :
    exists es, exec step s es = some { s with queue := [] } := by
  cases s with
  | mk foo others nextInode watches nextWd queue buf wd pc =>
      simp only at hpc hbuf hqueue
      subst hpc hbuf
      induction queue with
      | nil => exact ⟨[], rfl⟩
      | cons e rest ih =>
          rcases ih (fun e' he' => hqueue e' (List.mem_cons_of_mem e he')) with ⟨es, hrun⟩
          refine ⟨.read 1 :: .handle :: es, ?_⟩
          rw [← hrun]
          have hread : step ⟨foo, others, nextInode, watches, nextWd, e :: rest, [], wd, .walk⟩
              (.read 1) =
                some ⟨foo, others, nextInode, watches, nextWd, rest, [e], wd, .walk⟩ := by
            simp [step, bufEvents]
          rw [exec_cons_of_step _ hread]
          apply exec_cons_of_step
          simp [step, hqueue e List.mem_cons_self]

theorem walk_of_not_willAdd {s : State} (h : ¬ WillAdd s) : s.pc = .walk := by
  apply Classical.byContradiction
  exact fun hbusy => h (Or.inl hbusy)

/-- Where no add is to come, the program can process every event and changes no watch. -/
theorem drain {s : State} (h : ¬ WillAdd s) :
    exists es, exec step s es = some { s with buf := [], queue := [] } := by
  have hpc : s.pc = .walk := walk_of_not_willAdd h
  have hmask : forall e, e ∈ s.buf ++ s.queue -> e.mask &&& inDeleteSelf = 0 := by
    intro e he
    apply Classical.byContradiction
    exact fun hdelete => h (Or.inr ⟨e, he, hdelete⟩)
  rcases drain_buf hpc (fun e he => hmask e (List.mem_append_left _ he)) with ⟨es, hes⟩
  have hqueue := drain_queue (s := { s with buf := [] }) hpc rfl
    (fun e he => hmask e (List.mem_append_right _ he))
  rcases hqueue with ⟨fs, hfs⟩
  exact ⟨es ++ fs, exec_append hes hfs⟩

theorem lost_of_not_willAdd {s : State} {inode : Nat} (hadd : ¬ WillAdd s)
    (hfoo : s.foo = some inode) (hwatch : ¬ Watched s inode) :
    exists es t, exec step s es = some t ∧ ¬ KeepsWatch t := by
  rcases drain hadd with ⟨es, hrun⟩
  have hpc : s.pc = .walk := walk_of_not_willAdd hadd
  refine ⟨es, _, hrun, ?_⟩
  intro hkeeps
  exact hwatch (hkeeps ⟨rfl, rfl, hpc⟩ inode hfoo)

theorem lost_of_not_covered {s next : State} {e : Event} (h : Wf s)
    (hmiss : ¬ Covered s e) (hstep : step s e = some next) :
    exists es t, exec step next es = some t ∧ ¬ KeepsWatch t := by
  cases e with
  | create =>
      rcases Option.ite_none_right_eq_some.mp hstep with ⟨_, hnext⟩
      cases hnext
      have hnew : ¬ Watched s s.nextInode := by
        rintro ⟨w, hw, hinode⟩
        exact Nat.ne_of_lt (h.watches_lt w hw) hinode
      exact lost_of_not_willAdd (s := { s with
        foo := some s.nextInode, nextInode := s.nextInode + 1 }) hmiss rfl hnew
  | renameOver inode =>
      rcases Option.ite_none_right_eq_some.mp hstep with ⟨_, hnext⟩
      have hinode : ¬ Watched s inode := fun hw => hmiss (Or.inr (Or.inl hw))
      have hsame : next = { s with
          foo := some inode, others := s.others.filter (fun i => i ≠ inode) } := by
        rw [notify_of_not_watched inMoveSelf hinode] at hnext
        cases hfoo : s.foo with
        | none =>
            simp only [hfoo] at hnext
            exact (Option.some.inj hnext).symm
        | some old =>
            have hold : ¬ Watched s old :=
              fun hw => hmiss (Or.inr (Or.inr ⟨old, hfoo, hw⟩))
            simp only [hfoo, deleteInode_of_not_watched hold] at hnext
            exact (Option.some.inj hnext).symm
      subst hsame
      exact lost_of_not_willAdd (fun hadd => hmiss (Or.inl hadd)) rfl hinode
  | _ => exact absurd trivial hmiss

/-!
## Whole runs
-/

theorem wf_run {s : State} {es : List Event} (hrun : exec step start es = some s) : Wf s :=
  exec_invariant (fun h hstep => (wf_cover_step h hstep).left) wf_start hrun

/--
In every run whose steps all meet the condition, the watcher has its watch in
every state.  After any step that misses it, the run can end without the watch.
-/
theorem keepsWatch_of_covered (es : List Event) :
    (AllSteps step Covered start es -> AllStates step KeepsWatch start es) ∧
    (forall s e next, exec step start es = some s -> ¬ Covered s e ->
      step s e = some next ->
        exists fs t, exec step next fs = some t ∧ ¬ KeepsWatch t) := by
  constructor
  · intro hcovered
    have hinv : AllStates step (fun s => Wf s ∧ Cover s) start es := by
      refine allStates_of_allSteps ?_ ⟨wf_start, cover_start⟩ hcovered
      rintro s e next ⟨hwf, hcover⟩ hC hstep
      have hnext := wf_cover_step hwf hstep
      exact ⟨hnext.left, hnext.right hcover hC⟩
    exact hinv.mono fun _ h => h.right.keepsWatch
  · intro s e next hrun hmiss hstep
    exact lost_of_not_covered (wf_run hrun) hmiss hstep

theorem keepsWatch_of_covered_replace :
    exists s, exec step start
      [.create, .addWatch, .createOther, .renameOver 1, .read 2, .handle, .rmWatch,
        .addWatch, .handle] = some s ∧ s.foo = some 1 ∧ Watched s 1 := by
  have hrun : exists s, exec step start
      [.create, .addWatch, .createOther, .renameOver 1, .read 2, .handle, .rmWatch,
        .addWatch, .handle] = some s ∧ s.foo = some 1 ∧ FullyProcessed s :=
    ⟨_, rfl, rfl, rfl, rfl, rfl⟩
  rcases hrun with ⟨s, hrun, hfoo, hprocessed⟩
  have hkeeps := ((keepsWatch_of_covered _).left (by decide)).last hrun
  exact ⟨s, hrun, hfoo, hkeeps hprocessed 1 hfoo⟩

/--
`./foo` is still missing when its deletion is handled, and then created again; or
it is renamed away and created again.
-/
theorem recreated_foo_not_watched :
    ¬ AllStates step KeepsWatch start
      [.create, .addWatch, .delete, .read 2, .handle, .rmWatch, .addWatch, .handle,
        .create] ∧
    ¬ AllStates step KeepsWatch start
      [.create, .addWatch, .renameAway, .read 1, .handle, .create] := by
  constructor
  · intro h
    have hwatched := h.last rfl ⟨rfl, rfl, rfl⟩ 1 rfl
    exact absurd hwatched (by decide)
  · intro h
    have hwatched := h.last rfl ⟨rfl, rfl, rfl⟩ 1 rfl
    exact absurd hwatched (by decide)

end Inotify
end VidsContent
