import VidsContent.Inotify.Model

/-!
# Watches, events and inodes

What the kernel's operations do to the watches and to the events that make the
program add its watch again, and the inodes of a reachable state.
-/

namespace VidsContent
namespace Inotify

def Watched (s : State) (inode : Nat) : Prop :=
  exists w, w ∈ s.watches ∧ w.inode = inode

/-- The program is still to add its watch: it is about to, or an event will make it. -/
def WillAdd (s : State) : Prop :=
  s.pc ≠ .walk ∨ exists e, e ∈ s.buf ++ s.queue ∧ e.mask &&& inDeleteSelf ≠ 0

instance (s : State) (inode : Nat) : Decidable (Watched s inode) :=
  inferInstanceAs (Decidable (exists w, w ∈ s.watches ∧ w.inode = inode))

instance (s : State) : Decidable (WillAdd s) :=
  inferInstanceAs
    (Decidable (_ ∨ exists e, e ∈ s.buf ++ s.queue ∧ e.mask &&& inDeleteSelf ≠ 0))

/-!
## The kernel's events and watches
-/

theorem mem_notify_queue {inode : Nat} {mask : UInt32} {s : State} {e : InotifyEvent} :
    e ∈ (notify inode mask s).queue <->
      e ∈ s.queue ∨ exists w, w ∈ s.watches ∧ w.inode = inode ∧ e = ⟨w.wd, mask⟩ := by
  simp only [notify, List.mem_append, List.mem_map, List.mem_filter, decide_eq_true_eq]
  constructor
  · rintro (hold | ⟨w, ⟨hw, hinode⟩, rfl⟩)
    · exact Or.inl hold
    · exact Or.inr ⟨w, hw, hinode, rfl⟩
  · rintro (hold | ⟨w, hw, hinode, rfl⟩)
    · exact Or.inl hold
    · exact Or.inr ⟨w, ⟨hw, hinode⟩, rfl⟩

theorem mem_deleteInode_watches {inode : Nat} {s : State} {w : Watch} :
    w ∈ (deleteInode inode s).watches <-> w ∈ s.watches ∧ w.inode ≠ inode := by
  simp [deleteInode, notify]

theorem notify_of_not_watched {inode : Nat} {s : State} (mask : UInt32)
    (h : ¬ Watched s inode) : notify inode mask s = s := by
  have hnone : s.watches.filter (fun w => w.inode = inode) = [] := by
    apply List.filter_eq_nil_iff.mpr
    intro w hw
    simpa using fun heq => h ⟨w, hw, heq⟩
  simp [notify, hnone]

theorem deleteInode_of_not_watched {inode : Nat} {s : State} (h : ¬ Watched s inode) :
    deleteInode inode s = s := by
  have hall : s.watches.filter (fun w => w.inode ≠ inode) = s.watches := by
    apply List.filter_eq_self.mpr
    intro w hw
    simpa using fun heq => h ⟨w, hw, heq⟩
  simp only [deleteInode, notify_of_not_watched _ h, hall]

theorem Watched.of_delete_other {inode other : Nat} {s : State}
    (h : Watched s inode) (hne : inode ≠ other) :
    Watched (deleteInode other s) inode := by
  rcases h with ⟨w, hw, hinode⟩
  exact ⟨w, mem_deleteInode_watches.mpr ⟨hw, by rwa [hinode]⟩, hinode⟩

theorem WillAdd.mono {s next : State} (h : WillAdd s) (hpc : next.pc = s.pc)
    (hbuf : next.buf = s.buf) (hqueue : forall e, e ∈ s.queue -> e ∈ next.queue) :
    WillAdd next := by
  rcases h with hbusy | ⟨e, he, hmask⟩
  · exact Or.inl (by rwa [hpc])
  · refine Or.inr ⟨e, ?_, hmask⟩
    rw [hbuf]
    rcases List.mem_append.mp he with hin | hin
    · exact List.mem_append_left _ hin
    · exact List.mem_append_right _ (hqueue e hin)

theorem WillAdd.notify {s : State} (h : WillAdd s) (inode : Nat) (mask : UInt32) :
    WillAdd (notify inode mask s) :=
  h.mono rfl rfl fun _ he => mem_notify_queue.mpr (Or.inl he)

theorem WillAdd.deleteInode {s : State} (h : WillAdd s) (inode : Nat) :
    WillAdd (deleteInode inode s) :=
  ((h.notify inode inDeleteSelf).notify inode inIgnored).mono rfl rfl fun _ he => he

theorem willAdd_of_delete_watched {s : State} {inode : Nat} (h : Watched s inode) :
    WillAdd (deleteInode inode s) := by
  rcases h with ⟨w, hw, hinode⟩
  have hqueued : (⟨w.wd, inDeleteSelf⟩ : InotifyEvent) ∈
      (notify inode inIgnored (notify inode inDeleteSelf s)).queue :=
    mem_notify_queue.mpr (Or.inl (mem_notify_queue.mpr (Or.inr ⟨w, hw, hinode, rfl⟩)))
  have hmask : inDeleteSelf &&& inDeleteSelf ≠ 0 := by decide
  exact Or.inr ⟨_, List.mem_append_right _ hqueued, hmask⟩

theorem inotifyAddWatch_files (s : State) :
    (inotifyAddWatch s).foo = s.foo ∧ (inotifyAddWatch s).others = s.others ∧
      (inotifyAddWatch s).nextInode = s.nextInode := by
  unfold inotifyAddWatch
  split
  · exact ⟨rfl, rfl, rfl⟩
  · split <;> exact ⟨rfl, rfl, rfl⟩

@[simp] theorem inotifyAddWatch_foo (s : State) : (inotifyAddWatch s).foo = s.foo :=
  (inotifyAddWatch_files s).left

@[simp] theorem inotifyAddWatch_others (s : State) :
    (inotifyAddWatch s).others = s.others :=
  (inotifyAddWatch_files s).right.left

@[simp] theorem inotifyAddWatch_nextInode (s : State) :
    (inotifyAddWatch s).nextInode = s.nextInode :=
  (inotifyAddWatch_files s).right.right

theorem mem_inotifyAddWatch_watches {s : State} {w : Watch}
    (hw : w ∈ (inotifyAddWatch s).watches) :
    w ∈ s.watches ∨ s.foo = some w.inode := by
  unfold inotifyAddWatch at hw
  split at hw
  · exact Or.inl hw
  · rename_i inode hfoo
    split at hw
    · exact Or.inl hw
    · rcases List.mem_append.mp hw with hold | hnew
      · exact Or.inl hold
      · rw [List.mem_singleton.mp hnew]
        exact Or.inr hfoo

theorem watched_inotifyAddWatch {s : State} {inode : Nat} (hfoo : s.foo = some inode) :
    Watched (inotifyAddWatch s) inode := by
  unfold inotifyAddWatch
  rw [hfoo]
  cases hfind : s.watches.find? (fun w => w.inode = inode) with
  | none =>
      simp only [hfind]
      exact ⟨⟨s.nextWd, inode⟩, List.mem_append_right _ List.mem_cons_self, rfl⟩
  | some w =>
      simp only [hfind]
      exact ⟨w, List.mem_of_find?_eq_some hfind, by simpa using List.find?_some hfind⟩

/-!
## Inodes
-/

structure Wf (s : State) : Prop where
  foo_lt : forall inode, inode ∈ s.foo -> inode < s.nextInode
  others_lt : forall inode, inode ∈ s.others -> inode < s.nextInode
  watches_lt : forall w, w ∈ s.watches -> w.inode < s.nextInode
  apart : forall inode, inode ∈ s.foo -> inode ∉ s.others

theorem wf_start : Wf start where
  foo_lt := nofun
  others_lt := nofun
  watches_lt := nofun
  apart := nofun

theorem Wf.notify {s : State} (h : Wf s) (inode : Nat) (mask : UInt32) :
    Wf (notify inode mask s) :=
  ⟨h.foo_lt, h.others_lt, h.watches_lt, h.apart⟩

theorem Wf.deleteInode {s : State} (h : Wf s) (inode : Nat) :
    Wf (deleteInode inode s) where
  foo_lt := h.foo_lt
  others_lt := h.others_lt
  watches_lt := fun w hw => h.watches_lt w (mem_deleteInode_watches.mp hw).left
  apart := h.apart

theorem wf_addWatch {s : State} (h : Wf s) (pc : Pc) :
    Wf { inotifyAddWatch s with pc := pc } where
  foo_lt := by simpa using h.foo_lt
  others_lt := by simpa using h.others_lt
  watches_lt := by
    intro w hw
    rw [inotifyAddWatch_nextInode]
    rcases mem_inotifyAddWatch_watches hw with hold | hfoo
    · exact h.watches_lt w hold
    · exact h.foo_lt w.inode hfoo
  apart := by simpa using h.apart

theorem wf_rmWatch {s : State} (h : Wf s) (wd : Int) (pc : Pc) :
    Wf { inotifyRmWatch wd s with pc := pc } where
  foo_lt := h.foo_lt
  others_lt := h.others_lt
  watches_lt := fun w hw => h.watches_lt w (List.mem_filter.mp hw).left
  apart := h.apart

theorem wf_create {s : State} (h : Wf s) :
    Wf { s with foo := some s.nextInode, nextInode := s.nextInode + 1 } where
  foo_lt := by
    intro inode hfoo
    cases hfoo
    exact Nat.lt_succ_self s.nextInode
  others_lt := fun inode hother => Nat.lt_succ_of_lt (h.others_lt inode hother)
  watches_lt := fun w hw => Nat.lt_succ_of_lt (h.watches_lt w hw)
  apart := by
    intro inode hfoo hother
    cases hfoo
    exact Nat.lt_irrefl _ (h.others_lt _ hother)

theorem wf_createOther {s : State} (h : Wf s) :
    Wf { s with others := s.nextInode :: s.others, nextInode := s.nextInode + 1 } where
  foo_lt := fun inode hfoo => Nat.lt_succ_of_lt (h.foo_lt inode hfoo)
  others_lt := by
    intro inode hother
    rcases List.mem_cons.mp hother with rfl | hold
    · exact Nat.lt_succ_self s.nextInode
    · exact Nat.lt_succ_of_lt (h.others_lt inode hold)
  watches_lt := fun w hw => Nat.lt_succ_of_lt (h.watches_lt w hw)
  apart := by
    intro inode hfoo hother
    rcases List.mem_cons.mp hother with rfl | hold
    · exact Nat.lt_irrefl _ (h.foo_lt _ hfoo)
    · exact h.apart inode hfoo hold

theorem wf_renameAway {s : State} {inode : Nat} (h : Wf s) (hfoo : s.foo = some inode) :
    Wf { s with foo := none, others := inode :: s.others } where
  foo_lt := nofun
  others_lt := by
    intro other hother
    rcases List.mem_cons.mp hother with rfl | hold
    · exact h.foo_lt other hfoo
    · exact h.others_lt other hold
  watches_lt := h.watches_lt
  apart := nofun

theorem wf_renameOver {s : State} {inode : Nat} (h : Wf s) (hother : inode ∈ s.others) :
    Wf { s with foo := some inode, others := s.others.filter (fun i => i ≠ inode) } where
  foo_lt := by
    intro foo hfoo
    cases hfoo
    exact h.others_lt inode hother
  others_lt := fun i hi => h.others_lt i (List.mem_filter.mp hi).left
  watches_lt := h.watches_lt
  apart := by
    intro foo hfoo hin
    cases hfoo
    simpa using (List.mem_filter.mp hin).right

theorem wf_deleteOther {s : State} (h : Wf s) (inode : Nat) :
    Wf { s with others := s.others.filter (fun i => i ≠ inode) } where
  foo_lt := h.foo_lt
  others_lt := fun i hi => h.others_lt i (List.mem_filter.mp hi).left
  watches_lt := h.watches_lt
  apart := fun foo hfoo hin => h.apart foo hfoo (List.mem_filter.mp hin).left

theorem wf_delete {s : State} (h : Wf s) : Wf { s with foo := none } where
  foo_lt := nofun
  others_lt := h.others_lt
  watches_lt := h.watches_lt
  apart := nofun

end Inotify
end VidsContent
