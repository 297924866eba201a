import Mathlib.Data.Nat.Notation
import Mathlib.Tactic.ByContra
import Mathlib.Tactic.TypeStar

/-!
# Runs of partial step functions

A system is a partial step function `step : State → Action → Option State`: it returns `none` on an
action that the state does not enable. `run` executes a list of actions, oldest first. `Guarded`
says that every action of a run is taken from a state that satisfies a guard, `Occurs` that some
action is, and `Throughout` that every state of a run satisfies a property. `trace` collects what
the actions of a run put out.

The rules are the induction over a run, stated once. `run_invariant` carries an invariant along the
runs whose steps satisfy a guard. `throughout_iff_guarded` is the exact form: when one step keeps a
property precisely if its guard holds, the property holds throughout a run precisely if every step
of the run is guarded.
-/

set_option autoImplicit false
set_option relaxedAutoImplicit false

namespace PartialRun

variable {State Action : Type*}

/-- Executes the actions, oldest first. -/
def run (step : State → Action → Option State) : State → List Action → Option State
  | state, [] => some state
  | state, action :: rest => (step state action).bind fun next ↦ run step next rest

/-- Every action of the run is taken from a state that satisfies `guard`. -/
def Guarded (step : State → Action → Option State) (guard : State → Action → Prop) :
    State → List Action → Prop
  | _, [] => True
  | state, action :: rest =>
    guard state action ∧ (step state action).elim True fun next ↦ Guarded step guard next rest

/-- Some action of the run satisfies `event` in the state from which it is taken. -/
def Occurs (step : State → Action → Option State) (event : State → Action → Prop) :
    State → List Action → Prop
  | _, [] => False
  | state, action :: rest =>
    event state action ∨ (step state action).elim False fun next ↦ Occurs step event next rest

/-- Every state of the run, the first and the last included, satisfies `property`. -/
def Throughout (step : State → Action → Option State) (property : State → Prop) :
    State → List Action → Prop
  | state, [] => property state
  | state, action :: rest =>
    property state ∧ (step state action).elim True fun next ↦ Throughout step property next rest

/-- What the actions of the run put out, oldest first. -/
def trace {Output : Type*} (step : State → Action → Option State)
    (emit : State → Action → List Output) : State → List Action → List Output
  | _, [] => []
  | state, action :: rest =>
    emit state action ++ (step state action).elim [] fun next ↦ trace step emit next rest

variable {step : State → Action → Option State} {guard : State → Action → Prop}
variable {property invariant : State → Prop}

@[simp] theorem run_nil (state : State) : run step state [] = some state := rfl

theorem run_cons_eq_some {state final : State} {action : Action} {rest : List Action} :
    run step state (action :: rest) = some final ↔
      ∃ next, step state action = some next ∧ run step next rest = some final :=
  Option.bind_eq_some_iff

theorem guarded_cons_of_step {state next : State} {action : Action} {rest : List Action}
    (hstep : step state action = some next) :
    Guarded step guard state (action :: rest) ↔
      guard state action ∧ Guarded step guard next rest := by
  simp only [Guarded, hstep, Option.elim_some]

instance decidableGuarded [∀ state action, Decidable (guard state action)] :
    (state : State) → (actions : List Action) → Decidable (Guarded step guard state actions)
  | _, [] => .isTrue trivial
  | state, action :: rest =>
    have : Decidable ((step state action).elim True fun next ↦ Guarded step guard next rest) :=
      match step state action with
      | none => .isTrue trivial
      | some next => decidableGuarded next rest
    inferInstanceAs (Decidable (_ ∧ _))

/-- Actions that every state may take. -/
theorem guarded_of_forall_mem {actions : List Action}
    (hguard : ∀ action ∈ actions, ∀ state, guard state action) (state : State) :
    Guarded step guard state actions := by
  induction actions generalizing state with
  | nil => trivial
  | cons action rest ih =>
    refine ⟨hguard action List.mem_cons_self state, ?_⟩
    cases step state action with
    | none => trivial
    | some next => exact ih (fun other hother ↦ hguard other (List.mem_cons_of_mem _ hother)) next

/-- Assumes: a run guarded in two ways. -/
theorem guarded_and {other : State → Action → Prop} {state : State} {actions : List Action}
    (hfirst : Guarded step guard state actions) (hsecond : Guarded step other state actions) :
    Guarded step (fun state action ↦ guard state action ∧ other state action) state actions := by
  induction actions generalizing state with
  | nil => trivial
  | cons action rest ih =>
    refine ⟨⟨hfirst.1, hsecond.1⟩, ?_⟩
    have hfirstRest := hfirst.2
    have hsecondRest := hsecond.2
    cases hstep : step state action with
    | none => trivial
    | some next =>
      rw [hstep] at hfirstRest hsecondRest
      exact ih hfirstRest hsecondRest

/-- An action that may be taken, and then actions that every state may take. -/
theorem guarded_cons_of_forall_mem {state : State} {action : Action} {actions : List Action}
    (hfirst : guard state action) (hguard : ∀ action ∈ actions, ∀ state, guard state action) :
    Guarded step guard state (action :: actions) := by
  refine ⟨hfirst, ?_⟩
  cases step state action with
  | none => trivial
  | some next => exact guarded_of_forall_mem hguard next

theorem occurs_cons_of_step {event : State → Action → Prop} {state next : State} {action : Action}
    {rest : List Action} (hstep : step state action = some next) :
    Occurs step event state (action :: rest) ↔
      event state action ∨ Occurs step event next rest := by
  simp only [Occurs, hstep, Option.elim_some]

theorem throughout_cons_of_step {state next : State} {action : Action} {rest : List Action}
    (hstep : step state action = some next) :
    Throughout step property state (action :: rest) ↔
      property state ∧ Throughout step property next rest := by
  simp only [Throughout, hstep, Option.elim_some]

theorem start_of_throughout {state : State} {actions : List Action}
    (hthroughout : Throughout step property state actions) : property state := by
  cases actions with
  | nil => exact hthroughout
  | cons _ _ => exact hthroughout.1

theorem final_of_throughout {state final : State} {actions : List Action}
    (hthroughout : Throughout step property state actions)
    (hrun : run step state actions = some final) : property final := by
  induction actions generalizing state with
  | nil =>
    rw [run_nil, Option.some.injEq] at hrun
    exact hrun ▸ hthroughout
  | cons action rest ih =>
    obtain ⟨next, hstep, hrest⟩ := run_cons_eq_some.mp hrun
    exact ih ((throughout_cons_of_step hstep).mp hthroughout).2 hrest

/-- Runs of a system that refuses the actions against a guard. Assumes: the steps of the system are
those of another one that are taken from a state that satisfies the guard. -/
theorem run_eq_some_iff_guarded {restricted : State → Action → Option State}
    (hrestricted : ∀ state action next, restricted state action = some next ↔
      guard state action ∧ step state action = some next)
    {state final : State} {actions : List Action} :
    run restricted state actions = some final ↔
      Guarded step guard state actions ∧ run step state actions = some final := by
  induction actions generalizing state with
  | nil => exact (and_iff_right trivial).symm
  | cons action rest ih =>
    simp only [run_cons_eq_some, hrestricted, ih]
    constructor
    · rintro ⟨next, ⟨hguard, hstep⟩, hguarded, hrest⟩
      exact ⟨(guarded_cons_of_step hstep).mpr ⟨hguard, hguarded⟩, next, hstep, hrest⟩
    · rintro ⟨hguarded, next, hstep, hrest⟩
      obtain ⟨hguard, hguardedRest⟩ := (guarded_cons_of_step hstep).mp hguarded
      exact ⟨next, ⟨hguard, hstep⟩, hguardedRest, hrest⟩

/-- The invariant rule. Assumes: a step from a state of the invariant that satisfies the guard ends
in a state of the invariant. -/
theorem run_invariant
    (hkeep : ∀ state action next, invariant state → guard state action →
      step state action = some next → invariant next)
    {state final : State} {actions : List Action} (hstate : invariant state)
    (hguarded : Guarded step guard state actions) (hrun : run step state actions = some final) :
    invariant final := by
  induction actions generalizing state with
  | nil =>
    rw [run_nil, Option.some.injEq] at hrun
    exact hrun ▸ hstate
  | cons action rest ih =>
    obtain ⟨next, hstep, hrest⟩ := run_cons_eq_some.mp hrun
    obtain ⟨hguard, hguarded⟩ := (guarded_cons_of_step hstep).mp hguarded
    exact ih (hkeep state action next hstate hguard hstep) hguarded hrest

/-- Some action of the run has put out what the run has. -/
theorem exists_of_mem_trace {Output : Type*} {emit : State → Action → List Output} {output : Output}
    {state : State} {actions : List Action} (h : output ∈ trace step emit state actions) :
    ∃ action ∈ actions, ∃ taken, output ∈ emit taken action := by
  induction actions generalizing state with
  | nil => exact (List.not_mem_nil h).elim
  | cons action rest ih =>
    rcases List.mem_append.mp h with hfirst | hrest
    · exact ⟨action, List.mem_cons_self, state, hfirst⟩
    · cases hstep : step state action with
      | none =>
        rw [hstep] at hrest
        exact (List.not_mem_nil hrest).elim
      | some next =>
        rw [hstep] at hrest
        obtain ⟨other, hother, houtput⟩ := ih hrest
        exact ⟨other, List.mem_cons_of_mem _ hother, houtput⟩

/-- The invariant rule for states and what has been put out. Assumes: a step from a state of the
invariant that satisfies the guard ends in a state of the invariant for the longer output. -/
theorem run_invariant_trace {Output : Type*} {emit : State → Action → List Output}
    {related : List Output → State → Prop}
    (hkeep : ∀ outputs state action next, related outputs state → guard state action →
      step state action = some next → related (outputs ++ emit state action) next)
    {state final : State} {actions : List Action} {outputs : List Output}
    (hstate : related outputs state) (hguarded : Guarded step guard state actions)
    (hrun : run step state actions = some final) :
    related (outputs ++ trace step emit state actions) final := by
  induction actions generalizing state outputs with
  | nil =>
    rw [run_nil, Option.some.injEq] at hrun
    rw [trace, List.append_nil]
    exact hrun ▸ hstate
  | cons action rest ih =>
    obtain ⟨next, hstep, hrest⟩ := run_cons_eq_some.mp hrun
    obtain ⟨hguard, hguarded⟩ := (guarded_cons_of_step hstep).mp hguarded
    have hfinal := ih (hkeep outputs state action next hstate hguard hstep) hguarded hrest
    rw [trace, hstep, Option.elim_some, ← List.append_assoc]
    exact hfinal

/-- The invariant rule for states and the actions that led to them. Assumes: a step from a state
that is related to the actions so far ends in a state that is related to them and its own. -/
theorem run_invariant_history {related : List Action → State → Prop}
    (hkeep : ∀ past state action next, related past state → step state action = some next →
      related (past ++ [action]) next)
    {state final : State} {past actions : List Action} (hstate : related past state)
    (hrun : run step state actions = some final) : related (past ++ actions) final := by
  induction actions generalizing state past with
  | nil =>
    rw [run_nil, Option.some.injEq] at hrun
    rw [List.append_nil]
    exact hrun ▸ hstate
  | cons action rest ih =>
    obtain ⟨next, hstep, hrest⟩ := run_cons_eq_some.mp hrun
    rw [List.append_cons]
    exact ih (hkeep past state action next hstate hstep) hrest

/-- The invariant rule for the actions of one run. -/
theorem run_invariant_on {state final : State} {actions : List Action}
    (hkeep : ∀ action ∈ actions, ∀ state next, invariant state → step state action = some next →
      invariant next)
    (hstate : invariant state) (hrun : run step state actions = some final) : invariant final := by
  induction actions generalizing state with
  | nil =>
    rw [run_nil, Option.some.injEq] at hrun
    exact hrun ▸ hstate
  | cons action rest ih =>
    obtain ⟨next, hstep, hrest⟩ := run_cons_eq_some.mp hrun
    exact ih (fun action haction ↦ hkeep action (List.mem_cons_of_mem _ haction))
      (hkeep action List.mem_cons_self state next hstate hstep) hrest

/-- A run is as long as a measure allows. Assumes: a measure that every action of the run
decreases. -/
theorem length_le_of_decreasing {measure : State → ℕ} {state final : State} {actions : List Action}
    (hdecreases : ∀ action ∈ actions, ∀ state next, step state action = some next →
      measure next < measure state)
    (hrun : run step state actions = some final) : actions.length ≤ measure state := by
  induction actions generalizing state with
  | nil => exact Nat.zero_le _
  | cons action rest ih =>
    obtain ⟨next, hstep, hrest⟩ := run_cons_eq_some.mp hrun
    have hfirst := hdecreases action List.mem_cons_self state next hstep
    have hlength := ih (fun other hother ↦ hdecreases other (List.mem_cons_of_mem _ hother)) hrest
    rw [List.length_cons]
    omega

/-- The invariant rule for every state of a run. -/
theorem throughout_of_guarded
    (hkeep : ∀ state action next, invariant state → guard state action →
      step state action = some next → invariant next)
    (hproperty : ∀ state, invariant state → property state)
    {state : State} {actions : List Action} (hstate : invariant state)
    (hguarded : Guarded step guard state actions) : Throughout step property state actions := by
  induction actions generalizing state with
  | nil => exact hproperty state hstate
  | cons action rest ih =>
    refine ⟨hproperty state hstate, ?_⟩
    cases hstep : step state action with
    | none => trivial
    | some next =>
      obtain ⟨hguard, hrest⟩ := (guarded_cons_of_step hstep).mp hguarded
      exact ih (hkeep state action next hstate hguard hstep) hrest

/-- The converse for a lasting trace. Assumes: a step that is not guarded leaves a trace, and every
step of the run keeps the trace. A run that ends without the trace is guarded. -/
theorem guarded_of_final {trace : State → Prop} {state final : State} {actions : List Action}
    (hleave : ∀ state action next, ¬ guard state action → step state action = some next →
      trace next)
    (hkeep : ∀ action ∈ actions, ∀ state next, trace state → step state action = some next →
      trace next)
    (hrun : run step state actions = some final) (hfinal : ¬ trace final) :
    Guarded step guard state actions := by
  induction actions generalizing state with
  | nil => trivial
  | cons action rest ih =>
    obtain ⟨next, hstep, hrest⟩ := run_cons_eq_some.mp hrun
    have hkeepRest : ∀ action ∈ rest, ∀ state next, trace state → step state action = some next →
        trace next := fun action haction ↦ hkeep action (List.mem_cons_of_mem _ haction)
    refine (guarded_cons_of_step hstep).mpr ⟨?_, ih hkeepRest hrest⟩
    by_contra hguard
    exact hfinal (run_invariant_on hkeepRest (hleave state action next hguard hstep) hrest)

/-- The exact rule. Assumes: from a state of the invariant that has the property, every step keeps
the invariant, and its result has the property precisely when the guard holds. A run from such a
state has the property throughout precisely when every step of it is guarded. -/
theorem throughout_iff_guarded
    (hkeep : ∀ state action next, invariant state → property state →
      step state action = some next → invariant next)
    (hexact : ∀ state action next, invariant state → property state →
      step state action = some next → (property next ↔ guard state action))
    {state final : State} {actions : List Action} (hstate : invariant state)
    (hproperty : property state) (hrun : run step state actions = some final) :
    Throughout step property state actions ↔ Guarded step guard state actions := by
  induction actions generalizing state with
  | nil => exact ⟨fun _ ↦ trivial, fun _ ↦ hproperty⟩
  | cons action rest ih =>
    obtain ⟨next, hstep, hrest⟩ := run_cons_eq_some.mp hrun
    rw [throughout_cons_of_step hstep, guarded_cons_of_step hstep]
    have hnext := hkeep state action next hstate hproperty hstep
    have hiff := hexact state action next hstate hproperty hstep
    by_cases hguard : guard state action
    · have hrestIff := ih hnext (hiff.mpr hguard) hrest
      exact ⟨fun h ↦ ⟨hguard, hrestIff.mp h.2⟩, fun h ↦ ⟨hproperty, hrestIff.mpr h.2⟩⟩
    · exact ⟨fun h ↦ absurd (hiff.mp (start_of_throughout h.2)) hguard,
        fun h ↦ absurd h.1 hguard⟩

/-- The rule for a property of histories. Assumes: an invariant, and a property that no step can
bring about. It holds throughout a run exactly if it holds at the end. -/
theorem throughout_iff_final
    (hkeep : ∀ state action next, invariant state → step state action = some next →
      invariant next)
    (hback : ∀ state action next, invariant state → step state action = some next →
      property next → property state)
    {state final : State} {actions : List Action} (hstate : invariant state)
    (hrun : run step state actions = some final) :
    Throughout step property state actions ↔ property final := by
  refine ⟨fun h ↦ final_of_throughout h hrun, fun hfinal ↦ ?_⟩
  induction actions generalizing state with
  | nil =>
    rw [run_nil, Option.some.injEq] at hrun
    exact hrun ▸ hfinal
  | cons action rest ih =>
    obtain ⟨next, hstep, hrest⟩ := run_cons_eq_some.mp hrun
    have hnext := ih (hkeep state action next hstate hstep) hrest
    exact (throughout_cons_of_step hstep).mpr
      ⟨hback state action next hstate hstep (start_of_throughout hnext), hnext⟩

end PartialRun
