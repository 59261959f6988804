import Mathlib.Data.List.Basic

/-!
# Runs of a labelled step function

A system is a step function from a state and an event to the next state, where
`none` says that the event cannot happen there.  A run is a list of events
executed one after the other.  This module develops runs for an arbitrary step
function: composition, predicates on every state and on every step of a run,
the invariant rule in its plain and guarded forms, and the measure rule that
bounds the length of a run.
-/

namespace Transition

universe u v

variable {state : Type u} {event : Type v}

def exec (step : state -> event -> Option state) :
    state -> List event -> Option state
  | s, [] => some s
  | s, e :: es =>
      match step s e with
      | none => none
      | some next => exec step next es

/-- Every state of a run, the first and the last included, satisfies a predicate. -/
def AllStates (step : state -> event -> Option state) (P : state -> Prop) :
    state -> List event -> Prop
  | s, [] => P s
  | s, e :: es =>
      P s ∧ forall next, step s e = some next -> AllStates step P next es

/-- Every step of a run satisfies a condition on the state before it and its event. -/
def AllSteps (step : state -> event -> Option state)
    (C : state -> event -> Prop) : state -> List event -> Prop
  | _, [] => True
  | s, e :: es =>
      C s e ∧ forall next, step s e = some next -> AllSteps step C next es

variable {step : state -> event -> Option state}

/-!
## Composition
-/

theorem exec_cons_of_step {s next : state} {e : event} (es : List event)
    (h : step s e = some next) :
    exec step s (e :: es) = exec step next es := by
  simp only [exec, h]

theorem exec_cons {s t : state} {e : event} {es : List event}
    (h : exec step s (e :: es) = some t) :
    exists next, step s e = some next ∧ exec step next es = some t := by
  cases hstep : step s e with
  | none =>
      simp [exec, hstep] at h
  | some next =>
      exact ⟨next, rfl, by rwa [exec_cons_of_step es hstep] at h⟩

theorem exec_singleton (s : state) (e : event) : exec step s [e] = step s e := by
  cases hstep : step s e with
  | none => simp [exec, hstep]
  | some next => simp [exec, hstep]

theorem exec_append {s mid t : state} {es fs : List event}
    (hes : exec step s es = some mid) (hfs : exec step mid fs = some t) :
    exec step s (es ++ fs) = some t := by
  induction es generalizing s with
  | nil =>
      cases hes
      exact hfs
  | cons e es ih =>
      rcases exec_cons hes with ⟨next, hstep, hrest⟩
      rw [List.cons_append, exec_cons_of_step (es ++ fs) hstep]
      exact ih hrest

/-!
## Predicates on every state and on every step
-/

theorem AllStates.head {P : state -> Prop} {s : state} {es : List event}
    (h : AllStates step P s es) : P s := by
  cases es with
  | nil => exact h
  | cons e es => exact h.left

theorem AllStates.last {P : state -> Prop} {s t : state} {es : List event}
    (h : AllStates step P s es) (hrun : exec step s es = some t) : P t := by
  induction es generalizing s with
  | nil =>
      cases hrun
      exact h
  | cons e es ih =>
      rcases exec_cons hrun with ⟨next, hstep, hrest⟩
      exact ih (h.right next hstep) hrest

theorem allSteps_of_forall {P : event -> Prop} {s : state} {es : List event}
    (h : forall e, e ∈ es -> P e) : AllSteps step (fun _ e => P e) s es := by
  induction es generalizing s with
  | nil => trivial
  | cons e es ih =>
      constructor
      · exact h e List.mem_cons_self
      · intro next _
        exact ih fun e' he' => h e' (List.mem_cons_of_mem e he')

theorem allSteps_cons_of_step {C : state -> event -> Prop} {s next : state}
    {e : event} {es : List event} (hstep : step s e = some next) :
    AllSteps step C s (e :: es) <-> C s e ∧ AllSteps step C next es := by
  constructor
  · rintro ⟨hC, hrest⟩
    exact ⟨hC, hrest next hstep⟩
  · rintro ⟨hC, hrest⟩
    constructor
    · exact hC
    · intro other hother
      rw [hstep] at hother
      cases hother
      exact hrest

theorem allSteps_cons_of_stuck {C : state -> event -> Prop} {s : state}
    {e : event} {es : List event} (hstep : step s e = none) :
    AllSteps step C s (e :: es) <-> C s e := by
  constructor
  · exact And.left
  · intro hC
    constructor
    · exact hC
    · intro next hnext
      rw [hstep] at hnext
      cases hnext

instance decidableAllSteps {C : state -> event -> Prop}
    [forall s e, Decidable (C s e)] :
    forall (s : state) (es : List event), Decidable (AllSteps step C s es)
  | _, [] => isTrue trivial
  | s, e :: es =>
      match hstep : step s e with
      | none => decidable_of_iff' _ (allSteps_cons_of_stuck hstep)
      | some next =>
          have : Decidable (AllSteps step C next es) := decidableAllSteps next es
          decidable_of_iff' _ (allSteps_cons_of_step hstep)

/-!
## Invariants
-/

/--
The guarded invariant rule: what every step that meets the condition preserves
holds in every state of a run whose steps all meet it.
-/
theorem allStates_of_allSteps {I : state -> Prop}
    {C : state -> event -> Prop}
    (hkeep : forall {s e next},
      I s -> C s e -> step s e = some next -> I next)
    {s : state} {es : List event}
    (hinit : I s) (hsteps : AllSteps step C s es) :
    AllStates step I s es := by
  induction es generalizing s with
  | nil => exact hinit
  | cons e es ih =>
      constructor
      · exact hinit
      · intro next hstep
        exact ih (hkeep hinit hsteps.left hstep) (hsteps.right next hstep)

theorem allStates_of_invariant {I : state -> Prop}
    (hkeep : forall {s e next}, I s -> step s e = some next -> I next)
    {s : state} {es : List event} (hinit : I s) : AllStates step I s es := by
  apply allStates_of_allSteps (C := fun _ _ => True)
  · intro s e next hs _ hstep
    exact hkeep hs hstep
  · exact hinit
  · exact allSteps_of_forall fun _ _ => trivial

theorem allSteps_of_invariant {I : state -> Prop} {C : state -> event -> Prop}
    {D : event -> Prop}
    (hkeep : forall {s e next}, I s -> step s e = some next -> I next)
    (hcond : forall {s e}, I s -> D e -> C s e)
    {s : state} {es : List event} (hinit : I s) (hevents : forall e, e ∈ es -> D e) :
    AllSteps step C s es := by
  induction es generalizing s with
  | nil => trivial
  | cons e es ih =>
      constructor
      · exact hcond hinit (hevents e List.mem_cons_self)
      · intro next hstep
        exact ih (hkeep hinit hstep) fun e' he' => hevents e' (List.mem_cons_of_mem e he')

theorem AllStates.mono {P Q : state -> Prop}
    (himp : forall s, P s -> Q s) {s : state} {es : List event}
    (h : AllStates step P s es) : AllStates step Q s es := by
  induction es generalizing s with
  | nil => exact himp s h
  | cons e es ih =>
      exact ⟨himp s h.left, fun next hstep => ih (h.right next hstep)⟩

theorem exec_guarded_invariant {I : state -> Prop}
    {C : state -> event -> Prop}
    (hkeep : forall {s e next},
      I s -> C s e -> step s e = some next -> I next)
    {s t : state} {es : List event}
    (hinit : I s) (hsteps : AllSteps step C s es)
    (hrun : exec step s es = some t) : I t :=
  (allStates_of_allSteps hkeep hinit hsteps).last hrun

theorem exec_invariant {I : state -> Prop}
    (hkeep : forall {s e next}, I s -> step s e = some next -> I next)
    {s t : state} {es : List event}
    (hinit : I s) (hrun : exec step s es = some t) : I t := by
  induction es generalizing s with
  | nil =>
      cases hrun
      exact hinit
  | cons e es ih =>
      rcases exec_cons hrun with ⟨next, hstep, hrest⟩
      exact ih (hkeep hinit hstep) hrest

/--
When a step that misses the condition always leads out of the invariant's
consequence `P`, the condition is also necessary: a run has `P` in
all its states exactly when all its steps meet the condition.
-/
theorem allStates_iff_allSteps {I P : state -> Prop}
    {C : state -> event -> Prop}
    (himp : forall s, I s -> P s)
    (hkeep : forall {s e next},
      I s -> C s e -> step s e = some next -> I next)
    (hbreak : forall {s e next},
      I s -> ¬ C s e -> step s e = some next -> ¬ P next)
    {s t : state} {es : List event}
    (hinit : I s) (hrun : exec step s es = some t) :
    AllStates step P s es <-> AllSteps step C s es := by
  constructor
  · intro h
    induction es generalizing s with
    | nil => trivial
    | cons e es ih =>
        rcases exec_cons hrun with ⟨next, hstep, hrest⟩
        have hnext : AllStates step P next es := h.right next hstep
        have hC : C s e := by
          apply Classical.byContradiction
          intro hmiss
          exact hbreak hinit hmiss hstep hnext.head
        constructor
        · exact hC
        · intro other hother
          rw [hstep] at hother
          cases hother
          exact ih (hkeep hinit hC hstep) hrest hnext
  · intro h
    exact (allStates_of_allSteps hkeep hinit h).mono himp

/--
When a step that misses the condition breaks the invariant for good, a run
either meets the condition throughout or ends broken.
-/
theorem allSteps_or_broken {I J : state -> Prop} {C : state -> event -> Prop}
    (hkeep : forall {s e next},
      I s -> C s e -> step s e = some next -> I next)
    (hbreak : forall {s e next},
      I s -> ¬ C s e -> step s e = some next -> J next)
    (hstay : forall {s e next}, J s -> step s e = some next -> J next)
    {s t : state} {es : List event}
    (hinit : I s) (hrun : exec step s es = some t) :
    AllSteps step C s es ∨ J t := by
  induction es generalizing s with
  | nil => exact Or.inl trivial
  | cons e es ih =>
      rcases exec_cons hrun with ⟨next, hstep, hrest⟩
      by_cases hC : C s e
      · rcases ih (hkeep hinit hC hstep) hrest with hsteps | hbroken
        · exact Or.inl ((allSteps_cons_of_step hstep).mpr ⟨hC, hsteps⟩)
        · exact Or.inr hbroken
      · exact Or.inr (exec_invariant hstay (hbreak hinit hC hstep) hrest)

/--
The stop rule: where a bad event leads to a final state, every run in which one
happens ends in a final state.
-/
theorem exec_stops {I F : state -> Prop} {C bad : event -> Prop}
    (hkeep : forall {s e next},
      I s -> C e -> ¬ bad e -> step s e = some next -> I next)
    (hstop : forall {s e next},
      I s -> C e -> bad e -> step s e = some next -> F next)
    (hfinal : forall {s e}, F s -> step s e = none)
    {s t : state} {es : List event}
    (hinit : I s) (hevents : forall e, e ∈ es -> C e)
    (hrun : exec step s es = some t)
    (hbad : exists e, e ∈ es ∧ bad e) : F t := by
  induction es generalizing s with
  | nil =>
      rcases hbad with ⟨e, hmem, _⟩
      cases hmem
  | cons e es ih =>
      rcases exec_cons hrun with ⟨next, hstep, hrest⟩
      have hC : C e := hevents e List.mem_cons_self
      by_cases he : bad e
      · have hnext : F next := hstop hinit hC he hstep
        cases es with
        | nil =>
            cases hrest
            exact hnext
        | cons e' es =>
            simp [exec, hfinal hnext] at hrest
      · rcases hbad with ⟨b, hmem, hb⟩
        have hb' : b ∈ es := by
          rcases List.mem_cons.mp hmem with rfl | hin
          · exact absurd hb he
          · exact hin
        exact ih (hkeep hinit hC he hstep)
          (fun e' he' => hevents e' (List.mem_cons_of_mem e he')) hrest ⟨b, hb', hb⟩

theorem exec_establishes {P : state -> Prop} {cause : event}
    (hcause : forall {s next}, step s cause = some next -> P next)
    (hkeep : forall {s e next}, P s -> step s e = some next -> P next)
    {s t : state} {es : List event} (hmem : cause ∈ es) (hrun : exec step s es = some t) :
    P t := by
  induction es generalizing s with
  | nil => cases hmem
  | cons e es ih =>
      rcases exec_cons hrun with ⟨next, hstep, hrest⟩
      rcases List.mem_cons.mp hmem with rfl | hin
      · exact exec_invariant hkeep (hcause hstep) hrest
      · exact ih hin hrest

/-!
## Termination
-/

theorem exec_length_le {I : state -> Prop} (measure : state -> Nat)
    (hkeep : forall {s e next}, I s -> step s e = some next -> I next)
    (hless : forall {s e next},
      I s -> step s e = some next -> measure next < measure s)
    {s t : state} {es : List event}
    (hinit : I s) (hrun : exec step s es = some t) :
    es.length + measure t ≤ measure s := by
  induction es generalizing s with
  | nil =>
      cases hrun
      simp
  | cons e es ih =>
      rcases exec_cons hrun with ⟨next, hstep, hrest⟩
      have hrestLen := ih (hkeep hinit hstep) hrest
      have hdec := hless hinit hstep
      rw [List.length_cons]
      lia

/--
A measure that the counted steps decrease and the others do not increase bounds
how many counted steps a run has, however many of the others there are.
-/
theorem exec_countP_le {I : state -> Prop} {C : event -> Prop} (counted : event -> Bool)
    (measure : state -> Nat)
    (hkeep : forall {s e next}, I s -> C e -> step s e = some next -> I next)
    (hless : forall {s e next}, I s -> C e -> counted e = true -> step s e = some next ->
      measure next < measure s)
    (hle : forall {s e next}, I s -> C e -> counted e = false -> step s e = some next ->
      measure next ≤ measure s)
    {s t : state} {es : List event}
    (hinit : I s) (hevents : forall e, e ∈ es -> C e) (hrun : exec step s es = some t) :
    es.countP counted + measure t ≤ measure s := by
  induction es generalizing s with
  | nil =>
      cases hrun
      simp
  | cons e es ih =>
      rcases exec_cons hrun with ⟨next, hstep, hrest⟩
      rcases List.forall_mem_cons.mp hevents with ⟨hC, hothers⟩
      have hrestCount := ih (hkeep hinit hC hstep) hothers hrest
      cases he : counted e with
      | true =>
          have hdec := hless hinit hC he hstep
          rw [List.countP_cons_of_pos he]
          lia
      | false =>
          have hkept := hle hinit hC he hstep
          rw [List.countP_cons_of_neg (by simp [he])]
          lia

theorem exec_countP_add_le {I : state -> Prop} (counted : event -> Bool)
    (potential : state -> Nat)
    (hkeep : forall {s e next}, I s -> step s e = some next -> I next)
    (hmore : forall {s e next}, I s -> counted e = true -> step s e = some next ->
      potential s < potential next)
    (hle : forall {s e next}, I s -> counted e = false -> step s e = some next ->
      potential s ≤ potential next)
    {s t : state} {es : List event}
    (hinit : I s) (hrun : exec step s es = some t) :
    es.countP counted + potential s ≤ potential t := by
  induction es generalizing s with
  | nil =>
      cases hrun
      simp
  | cons e es ih =>
      rcases exec_cons hrun with ⟨next, hstep, hrest⟩
      have hrestCount := ih (hkeep hinit hstep) hrest
      cases he : counted e with
      | true =>
          have hgain := hmore hinit he hstep
          rw [List.countP_cons_of_pos he]
          lia
      | false =>
          have hkept := hle hinit he hstep
          rw [List.countP_cons_of_neg (by simp [he])]
          lia

theorem exec_le_add_countP (counted : event -> Bool) (potential : state -> Nat)
    (hgain : forall {s e next}, step s e = some next ->
      potential next ≤ potential s + if counted e then 1 else 0)
    {s t : state} {es : List event} (hrun : exec step s es = some t) :
    potential t ≤ potential s + es.countP counted := by
  induction es generalizing s with
  | nil =>
      cases hrun
      exact Nat.le_add_right _ _
  | cons e es ih =>
      rcases exec_cons hrun with ⟨next, hstep, hrest⟩
      have hnext := hgain hstep
      have hlast := ih hrest
      rw [List.countP_cons]
      lia

/--
Where each step is matched by a run of another system, runs are, and related states
stay related.
-/
theorem exec_simulates {state' event' : Type} {step' : state' -> event' -> Option state'}
    {R : state -> state' -> Prop} (events : event -> List event')
    (hsim : forall {s next s' e}, R s s' -> step s e = some next ->
      exists next', exec step' s' (events e) = some next' ∧ R next next')
    {s t : state} {s' : state'} {es : List event} (hinit : R s s')
    (hrun : exec step s es = some t) :
    exists t', exec step' s' (es.flatMap events) = some t' ∧ R t t' := by
  induction es generalizing s s' with
  | nil =>
      cases hrun
      exact ⟨s', rfl, hinit⟩
  | cons e es ih =>
      rcases exec_cons hrun with ⟨next, hstep, hrest⟩
      rcases hsim hinit hstep with ⟨next', hnext', hR⟩
      rcases ih hR hrest with ⟨t', ht', hlast⟩
      rw [List.flatMap_cons]
      exact ⟨t', exec_append hnext' ht', hlast⟩

/--
Where every state short of the goal has a step of some kind that decreases a measure,
such steps lead to the goal.
-/
theorem exists_exec_of_progress {I G : state -> Prop} {C : event -> Prop}
    (measure : state -> Nat)
    (hprogress : forall {s}, I s -> G s ∨
      exists e next, C e ∧ step s e = some next ∧ I next ∧ measure next < measure s)
    {s : state} (hinit : I s) :
    exists es t, (forall e, e ∈ es -> C e) ∧ exec step s es = some t ∧ I t ∧ G t := by
  rcases hprogress hinit with hgoal | ⟨e, next, hC, hstep, hnext, hless⟩
  · exact ⟨[], s, fun _ hmem => absurd hmem List.not_mem_nil, rfl, hinit, hgoal⟩
  · rcases exists_exec_of_progress measure hprogress hnext with ⟨es, t, hes, hrun, ht, hgoal⟩
    refine ⟨e :: es, t, ?_, ?_, ht, hgoal⟩
    · exact List.forall_mem_cons.mpr ⟨hC, hes⟩
    · rw [exec_cons_of_step es hstep]
      exact hrun
termination_by measure s

end Transition
