import Mathlib.Data.BitVec

/-!
# Machines and guarded runs

A `Machine` is an event-driven state machine: `step s e` is the state after the
event `e`, or `none` when `e` cannot happen in `s`.  Nondeterminism of the
environment is part of the event, so a machine is executable, and a concrete
run is checked by evaluation (`run`, `Meets`, `Reach.of_run`).

`Reach ok` collects the states of the runs *all of whose steps meet `ok`*, a
condition on the state before the step and on the event.  With `ok` trivially
true this is plain reachability.  The induction is packaged once, as
`Reach.invariant`: a property that holds initially and survives every step
meeting `ok` holds in every state of every such run.
-/

universe u v

namespace QemuAndroid.Lib

/-- An event-driven state machine. -/
structure Machine (S : Type u) (E : Type v) where
  /-- The states a run may start from. -/
  init : S → Prop
  /-- The state after an event, `none` when the event cannot happen. -/
  step : S → E → Option S

namespace Machine

variable {S : Type u} {E : Type v} (M : Machine S E)

/-- The states reached by runs all of whose steps meet `ok`. -/
inductive Reach (ok : S → E → Prop) : S → Prop
  | init {s : S} : M.init s → Reach ok s
  | step {s s' : S} {e : E} : Reach ok s → ok s e → M.step s e = some s' → Reach ok s'

/-- The states reached by any run. -/
abbrev Reachable : S → Prop := M.Reach fun _ _ => True

/-- The state after a list of events. -/
def run : S → List E → Option S
  | s, [] => some s
  | s, e :: es => (M.step s e).bind fun s' => run s' es

/-- All steps of the run on a list of events meet `ok`. -/
def Meets (ok : S → E → Prop) : S → List E → Prop
  | _, [] => True
  | s, e :: es => ok s e ∧ ∀ s' ∈ M.step s e, Meets ok s' es

instance decidableMeets {ok : S → E → Prop} [∀ s e, Decidable (ok s e)] :
    (s : S) → (es : List E) → Decidable (M.Meets ok s es)
  | _, [] => instDecidableTrue
  | s, e :: es =>
    have : ∀ s', Decidable (M.Meets ok s' es) := fun s' => decidableMeets s' es
    inferInstanceAs (Decidable (ok s e ∧ ∀ s' ∈ M.step s e, M.Meets ok s' es))

variable {M}

variable {ok : S → E → Prop}

/-- The invariant rule: what holds initially and survives every step that meets
`ok` holds in every state of every run whose steps meet `ok`.  The step may use
that its source state is itself reached by such a run. -/
@[elab_as_elim]
theorem Reach.invariant {I : S → Prop} {s : S} (h : M.Reach ok s)
    (hinit : ∀ s, M.init s → I s)
    (hstep : ∀ s e s', M.Reach ok s → I s → ok s e → M.step s e = some s' → I s') : I s := by
  induction h with
  | init hs => exact hinit _ hs
  | step hr hok hs ih => exact hstep _ _ _ hr ih hok hs

/-- A run that meets a stronger condition meets a weaker one. -/
theorem Reach.mono {ok' : S → E → Prop} (hle : ∀ s e, ok s e → ok' s e) {s : S}
    (h : M.Reach ok s) : M.Reach ok' s := by
  induction h with
  | init hs => exact .init hs
  | step _ hok hs ih => exact .step ih (hle _ _ hok) hs

variable {es : List E}

/-- Evaluating a list of events whose steps meet `ok`. -/
theorem Reach.of_run {s s' : S} (h : M.Reach ok s)
    (hok : M.Meets ok s es) (hrun : M.run s es = some s') : M.Reach ok s' := by
  induction es generalizing s with
  | nil =>
    cases hrun
    exact h
  | cons e es ih =>
    obtain ⟨t, ht, hrest⟩ := Option.bind_eq_some_iff.mp hrun
    exact ih (.step h hok.1 ht) (hok.2 t ht) hrest

theorem meets_of_forall (s : S) (h : ∀ s, ∀ e ∈ es, ok s e) : M.Meets ok s es := by
  induction es generalizing s with
  | nil => trivial
  | cons e es ih =>
    obtain ⟨hs, hrest⟩ := forall_and.1 fun s => List.forall_mem_cons.1 (h s)
    exact ⟨hs s, fun s' _ => ih s' hrest⟩

/-- Evaluating a list of events. -/
theorem Reachable.of_run {s s' : S} (h : M.Reachable s) (hrun : M.run s es = some s') :
    M.Reachable s' :=
  Reach.of_run h (meets_of_forall s fun _ _ _ => trivial) hrun

section Evaluate

variable {ok : S → E → Prop} {P : S → Prop} [DecidablePred P] {s : S}

/-- A run that is evaluated to a state with a property. -/
theorem Reach.exists_of_run (h : M.Reach ok s) (hok : M.Meets ok s es)
    (hrun : (M.run s es).any fun s' => P s') : ∃ s', M.run s es = some s' ∧ M.Reach ok s' ∧
    P s' := by
  obtain ⟨s', hs', hP⟩ := (Option.any_eq_true ..).1 hrun
  exact ⟨s', hs', h.of_run hok hs', of_decide_eq_true hP⟩

theorem Reachable.exists_of_run (h : M.Reachable s) (es : List E)
    (hrun : (M.run s es).any fun s' => P s') : ∃ s', M.run s es = some s' ∧ M.Reachable s' ∧ P s' :=
  Reach.exists_of_run h (meets_of_forall s fun _ _ _ => trivial) hrun

theorem Reachable.exists_of_eval (h : M.Reachable s) (es : List E)
    (hrun : (M.run s es).any fun s' => P s') : ∃ s', M.Reachable s' ∧ P s' :=
  (h.exists_of_run es hrun).imp fun _ h => h.2

end Evaluate

end Machine

end QemuAndroid.Lib
