import Mathlib.Tactic.TypeStar

/-!
# Computations that make checks on their way

A computation may fail, and on its way it makes checks of the states that it goes through; it fails
where one of them does. `Traced` is such a computation with the states that it has checked, and it
carries the proof that it returns only if they have all passed, so that no computation can be
written that ignores a check. `evaluated` and `result` of a sequence are those of its parts
(`evaluated_bind`, `result_bind`).

`Satisfies.bind` is the rule for what holds of all states that a computation checks: it holds of
those of a sequence if it holds of those of the first part, and of those of the second part for
every value that the first may return.
-/

set_option autoImplicit false
set_option relaxedAutoImplicit false

universe u v

/-- A computation that returns `result`, or fails with `none`, and the states that it has checked,
oldest first. -/
structure Traced {State : Type v} (Passes : State → Prop) (Result : Type u) where
  evaluated : List State
  result : Option Result
  passes : result.isSome → ∀ state ∈ evaluated, Passes state

namespace Traced

variable {State : Type v} {Passes : State → Prop} {Result Image : Type u}

/-- Checks a state: the result, if there is one, shows that the state passes. -/
def evaluate (state : State) (result : Option Result) (hpasses : result.isSome → Passes state) :
    Traced Passes Result where
  evaluated := [state]
  result := result
  passes hsome other hother := by
    rw [List.mem_singleton.mp hother]
    exact hpasses hsome

/-- Fails if there is no value. -/
def force (value : Option Result) : Traced Passes Result where
  evaluated := []
  result := value
  passes _ _ hstate := (List.not_mem_nil hstate).elim

/-- Two computations in sequence. -/
def sequence (first : Traced Passes Result) (second : Result → Traced Passes Image) :
    Traced Passes Image where
  evaluated := first.evaluated ++ first.result.elim [] fun value ↦ (second value).evaluated
  result := first.result.bind fun value ↦ (second value).result
  passes hsome state hstate := by
    obtain ⟨image, himage⟩ := Option.isSome_iff_exists.mp hsome
    obtain ⟨value, hvalue, hsecond⟩ := Option.bind_eq_some_iff.mp himage
    rcases List.mem_append.mp hstate with hearly | hlate
    · exact first.passes (Option.isSome_of_eq_some hvalue) state hearly
    · rw [hvalue] at hlate
      exact (second value).passes (Option.isSome_of_eq_some hsecond) state hlate

/-- One of two computations. The parts are chosen each for itself, so that the result is a choice
between the results by definition. -/
def choose (condition : Bool) (first second : Traced Passes Result) : Traced Passes Result where
  evaluated := if condition then first.evaluated else second.evaluated
  result := if condition then first.result else second.result
  passes hsome state hstate := by
    cases condition with
    | false => exact second.passes hsome state hstate
    | true => exact first.passes hsome state hstate

instance : Monad (Traced Passes) where
  pure value := force (some value)
  bind := sequence

@[simp] theorem result_evaluate {state : State} {result : Option Result}
    {hpasses : result.isSome → Passes state} :
    (evaluate state result hpasses).result = result := rfl

@[simp] theorem result_force (value : Option Result) :
    (force value : Traced Passes Result).result = value := rfl

@[simp] theorem result_pure (value : Result) :
    (pure value : Traced Passes Result).result = some value := rfl

@[simp] theorem result_bind (first : Traced Passes Result)
    (second : Result → Traced Passes Image) :
    (first >>= second).result = first.result.bind fun value ↦ (second value).result := rfl

/-- What is computed from the result alone does not fail. -/
theorem isSome_result_bind_pure (first : Traced Passes Result) (image : Result → Image) :
    (first >>= fun value ↦ (pure (image value) : Traced Passes Image)).result.isSome =
      first.result.isSome := by
  rw [result_bind]
  cases first.result <;> rfl

theorem evaluated_bind (first : Traced Passes Result) (second : Result → Traced Passes Image) :
    (first >>= second).evaluated =
      first.evaluated ++ first.result.elim [] fun value ↦ (second value).evaluated := rfl

/-- Every state that the computation checks has a property, and what it returns has another. -/
structure Satisfies (computation : Traced Passes Result) (property : State → Prop)
    (returned : Result → Prop) : Prop where
  evaluated : ∀ state ∈ computation.evaluated, property state
  result : ∀ value, computation.result = some value → returned value

section Rules

variable {property : State → Prop} {returned : Result → Prop} {final : Image → Prop}

theorem satisfies_pure {value : Result} (h : returned value) :
    (pure value : Traced Passes Result).Satisfies property returned where
  evaluated _ hstate := (List.not_mem_nil hstate).elim
  result _ hvalue := Option.some.inj hvalue ▸ h

theorem satisfies_evaluate {state : State} {result : Option Result}
    {hpasses : result.isSome → Passes state} (hstate : property state)
    (h : ∀ value, result = some value → returned value) :
    (evaluate state result hpasses).Satisfies property returned where
  evaluated _ hother := List.mem_singleton.mp hother ▸ hstate
  result := h

theorem satisfies_force {value : Option Result}
    (h : ∀ forced, value = some forced → returned forced) :
    (force value : Traced Passes Result).Satisfies property returned where
  evaluated _ hstate := (List.not_mem_nil hstate).elim
  result := h

theorem Satisfies.choose {first second : Traced Passes Result}
    (hfirst : first.Satisfies property returned) (hsecond : second.Satisfies property returned)
    (condition : Bool) : (Traced.choose condition first second).Satisfies property returned := by
  cases condition with
  | false => exact ⟨hsecond.evaluated, hsecond.result⟩
  | true => exact ⟨hfirst.evaluated, hfirst.result⟩

/-- The rule for a sequence. -/
theorem Satisfies.bind {first : Traced Passes Result} {second : Result → Traced Passes Image}
    (h : first.Satisfies property returned)
    (hsecond : ∀ value, first.result = some value → returned value →
      (second value).Satisfies property final) :
    (first >>= second).Satisfies property final where
  evaluated state hstate := by
    rcases List.mem_append.mp hstate with hearly | hlate
    · exact h.evaluated state hearly
    · cases hvalue : first.result with
      | none =>
        rw [hvalue] at hlate
        exact (List.not_mem_nil hlate).elim
      | some value =>
        rw [hvalue] at hlate
        exact (hsecond value hvalue (h.result value hvalue)).evaluated state hlate
  result image himage := by
    obtain ⟨value, hvalue, hfinal⟩ := Option.bind_eq_some_iff.mp himage
    exact (hsecond value hvalue (h.result value hvalue)).result image hfinal

end Rules

end Traced
