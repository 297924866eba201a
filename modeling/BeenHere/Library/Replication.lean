import Mathlib.Data.Nat.Notation
import Mathlib.Logic.Function.Basic
import Mathlib.Logic.Relation

/-!
# Replicas of a register

A server holds a register, and any number of replicas hold optimistic copies of it. A replica edits
its copy at once and leaves a write to the server. When the server applies a write, it sets the
register and sends a signal to every replica; a replica receives its signals in the order in which
they were sent, and the server may send it the current value again at any time. A signal `added`
creates the copy of a replica that has none, and leaves any other as it is; a signal `changed`
replaces a copy, and creates none.

What a copy will be when every signal sent has arrived is its `forecast`. In a converging system the
forecast of a replica without pending writes is the register, whatever it has edited before
(`Converging.step`, `Converging.reachable`), so that replicas with nothing under way agree
(`Converging.copy_eq_copy`).
-/

set_option autoImplicit false
set_option relaxedAutoImplicit false

namespace Replication

variable {Value ι : Type*}

/-- What the server sends to a replica. -/
inductive Signal (Value : Type*)
  | added (value : Value)
  | changed (value : Value)

namespace Signal

def value : Signal Value → Value
  | .added value | .changed value => value

/-- The copy after a signal. -/
def receive : Signal Value → Option Value → Option Value
  | .added value, copy => some (copy.getD value)
  | .changed value, copy => copy.map fun _ ↦ value

/-- Whether a signal leaves a copy depends only on whether there was one. -/
theorem isSome_receive_congr (signal : Signal Value) {first second : Option Value}
    (h : first.isSome = second.isSome) :
    (signal.receive first).isSome = (signal.receive second).isSome := by
  cases signal with
  | added value => rfl
  | changed value => simpa only [receive, Option.isSome_map] using h

theorem isSome_foldl_receive_congr (signals : List (Signal Value)) {first second : Option Value}
    (h : first.isSome = second.isSome) :
    (signals.foldl (fun copy signal ↦ signal.receive copy) first).isSome =
      (signals.foldl (fun copy signal ↦ signal.receive copy) second).isSome := by
  induction signals generalizing first second with
  | nil => exact h
  | cons signal rest ih => exact ih (signal.isSome_receive_congr h)

/-- A copy of the value that is sent stays what it is. -/
theorem receive_some_value (signal : Signal Value) :
    signal.receive (some signal.value) = some signal.value := by
  cases signal <;> rfl

end Signal

/-- A replica: its copy, the number of its writes that the server has not applied, and the signals
that it has not received, oldest first. -/
structure Replica (Value : Type*) where
  copy : Option Value
  pending : ℕ
  queue : List (Signal Value)

namespace Replica

/-- The copy when every signal sent has arrived. -/
def forecast (replica : Replica Value) : Option Value :=
  replica.queue.foldl (fun copy signal ↦ signal.receive copy) replica.copy

theorem forecast_of_queue_nil {replica : Replica Value} (h : replica.queue = []) :
    replica.forecast = replica.copy := by
  rw [forecast, h, List.foldl_nil]

/-- A replica edits its copy, if it has one. -/
inductive Edit (replica : Replica Value) : Replica Value → Prop
  | edit (copy : Option Value) (hcopy : copy.isSome = replica.copy.isSome) :
      Edit replica { replica with copy, pending := replica.pending + 1 }

/-- One more signal is sent. -/
def send (signal : Signal Value) (replica : Replica Value) : Replica Value :=
  { replica with queue := replica.queue ++ [signal] }

theorem forecast_send (signal : Signal Value) (replica : Replica Value) :
    (replica.send signal).forecast = signal.receive replica.forecast := by
  rw [forecast, send, List.foldl_append]
  rfl

end Replica

/-- The register and its replicas. -/
structure System (ι Value : Type*) where
  register : Option Value
  replica : ι → Replica Value

namespace System

/-- The signal that the server sends when it sets the register. -/
def signal (system : System ι Value) (value : Value) : Signal Value :=
  if system.register.isSome then .changed value else .added value

/-- The server sets the register. -/
def commit (system : System ι Value) (value : Value) : System ι Value where
  register := some value
  replica := fun i ↦ (system.replica i).send (system.signal value)

variable [DecidableEq ι]

def setReplica (system : System ι Value) (i : ι) (replica : Replica Value) : System ι Value :=
  { system with replica := Function.update system.replica i replica }

/-- A replica edits its copy; the server applies a write of a replica; a replica
receives its oldest signal; the server sends a replica the current value once more. -/
inductive Step (system : System ι Value) : System ι Value → Prop
  | edit (i : ι) (edited : Replica Value) (hedit : (system.replica i).Edit edited) :
      Step system (system.setReplica i edited)
  | apply (i : ι) (value : Value) (pending : ℕ)
      (hpending : (system.replica i).pending = pending + 1) :
      Step system ((system.setReplica i { system.replica i with pending }).commit value)
  | receive (i : ι) (signal : Signal Value) (rest : List (Signal Value))
      (hqueue : (system.replica i).queue = signal :: rest) :
      Step system (system.setReplica i
        { system.replica i with copy := signal.receive (system.replica i).copy, queue := rest })
  | replay (i : ι) (signal : Signal Value) (hcurrent : system.register = some signal.value) :
      Step system (system.setReplica i ((system.replica i).send signal))

/-! ### The invariant -/

/-- Every replica will have a copy exactly if there is a value, and a replica without pending writes
will have the value. -/
structure Converging (system : System ι Value) : Prop where
  created : ∀ i, (system.replica i).forecast.isSome = system.register.isSome
  settled : ∀ i, (system.replica i).pending = 0 → (system.replica i).forecast = system.register

variable {system next : System ι Value} {i : ι} {replica : Replica Value}

@[simp] theorem register_setReplica : (system.setReplica i replica).register = system.register :=
  rfl

@[simp] theorem replica_setReplica_self : (system.setReplica i replica).replica i = replica :=
  Function.update_self ..

@[simp] theorem setReplica_self : system.setReplica i (system.replica i) = system :=
  congrArg (System.mk _) (Function.update_eq_self ..)

theorem setReplica_setReplica (first second : Replica Value) :
    (system.setReplica i first).setReplica i second = system.setReplica i second :=
  congrArg (System.mk _) (Function.update_idem ..)

theorem replica_setReplica_of_ne {j : ι} (hne : j ≠ i) :
    (system.setReplica i replica).replica j = system.replica j :=
  Function.update_of_ne hne ..

/-- Assumes: a replica that will have a copy exactly if there is a value, and the value if it has no
pending writes. -/
theorem Converging.setReplica (h : system.Converging)
    (hcreated : replica.forecast.isSome = system.register.isSome)
    (hsettled : replica.pending = 0 → replica.forecast = system.register) :
    (system.setReplica i replica).Converging := by
  constructor
  · intro j
    by_cases hj : j = i
    · rw [hj, replica_setReplica_self, register_setReplica, hcreated]
    · rw [replica_setReplica_of_ne hj, register_setReplica, h.created]
  · intro j
    by_cases hj : j = i
    · rw [hj, replica_setReplica_self]
      exact hsettled
    · rw [replica_setReplica_of_ne hj]
      exact h.settled j

omit [DecidableEq ι] in
/-- The signal of a commit brings every replica to the new value. Assumes: every replica will have a
copy exactly if there is a value. -/
theorem receive_signal (value : Value) {copy : Option Value}
    (hcopy : copy.isSome = system.register.isSome) :
    (system.signal value).receive copy = some value := by
  by_cases hregister : system.register.isSome
  · rw [signal, if_pos hregister]
    rw [hregister] at hcopy
    obtain ⟨old, rfl⟩ := Option.isSome_iff_exists.mp hcopy
    rfl
  · rw [signal, if_neg hregister]
    rw [Bool.not_eq_true] at hregister
    rw [hregister, Option.isSome_eq_false_iff, Option.isNone_iff_eq_none] at hcopy
    rw [hcopy]
    rfl

omit [DecidableEq ι] in
theorem Converging.commit (h : ∀ i, (system.replica i).forecast.isSome = system.register.isSome)
    (value : Value) : (system.commit value).Converging := by
  have hforecast (i : ι) : ((system.commit value).replica i).forecast = some value := by
    rw [System.commit, Replica.forecast_send, receive_signal value (h i)]
  exact ⟨fun i ↦ by rw [hforecast]; rfl, fun i _ ↦ hforecast i⟩

/-- Every step keeps the invariant. -/
theorem Converging.step (h : system.Converging) (hstep : system.Step next) : next.Converging := by
  cases hstep with
  | edit i edited hedit =>
    obtain ⟨copy, hcopy⟩ := hedit
    refine h.setReplica ?_ fun hpending ↦ absurd hpending (Nat.succ_ne_zero _)
    exact (Signal.isSome_foldl_receive_congr _ hcopy).trans (h.created i)
  | apply i value pending hpending =>
    refine Converging.commit (fun j ↦ ?_) value
    by_cases hj : j = i
    · rw [hj, replica_setReplica_self]
      exact h.created i
    · rw [replica_setReplica_of_ne hj]
      exact h.created j
  | receive i signal rest hqueue =>
    have hforecast : Replica.forecast
        { system.replica i with copy := signal.receive (system.replica i).copy, queue := rest } =
          (system.replica i).forecast := by
      rw [Replica.forecast, Replica.forecast, hqueue]
      rfl
    refine h.setReplica ?_ fun hpending ↦ ?_
    · rw [hforecast]
      exact h.created i
    · rw [hforecast]
      exact h.settled i hpending
  | replay i signal hcurrent =>
    have hsome : ((system.replica i).send signal).forecast.isSome = system.register.isSome := by
      rw [Replica.forecast_send, hcurrent]
      have hcreated := h.created i
      rw [hcurrent] at hcreated
      exact (signal.isSome_receive_congr hcreated).trans
        (congrArg Option.isSome signal.receive_some_value)
    refine h.setReplica hsome fun hpending ↦ ?_
    have hsettled := h.settled i hpending
    rw [Replica.forecast_send, hsettled, hcurrent, signal.receive_some_value]

theorem Converging.reachable (h : system.Converging)
    (hreach : Relation.ReflTransGen Step system next) : next.Converging := by
  induction hreach with
  | refl => exact h
  | tail _ hstep ih => exact ih.step hstep

/-- The edits of one replica are steps of the system. -/
theorem reaches_of_edits {edited : Replica Value}
    (h : Relation.ReflTransGen Replica.Edit (system.replica i) edited) :
    Relation.ReflTransGen Step system (system.setReplica i edited) := by
  induction h with
  | refl => rw [setReplica_self]
  | @tail middle edited _ hedit ih =>
    have hstep : (system.setReplica i middle).Step
        ((system.setReplica i middle).setReplica i edited) :=
      Step.edit i edited (by rw [replica_setReplica_self]; exact hedit)
    rw [setReplica_setReplica] at hstep
    exact ih.tail hstep

/-! ### Nothing under way -/

/-- The replica has no pending writes, and every signal sent to it has arrived. -/
def Idle (system : System ι Value) (i : ι) : Prop :=
  (system.replica i).pending = 0 ∧ (system.replica i).queue = []

omit [DecidableEq ι] in
theorem Converging.copy_eq (h : system.Converging) (hidle : system.Idle i) :
    (system.replica i).copy = system.register := by
  rw [← Replica.forecast_of_queue_nil hidle.2, h.settled i hidle.1]

omit [DecidableEq ι] in
theorem Converging.copy_eq_copy (h : system.Converging) {j : ι} (hi : system.Idle i)
    (hj : system.Idle j) : (system.replica i).copy = (system.replica j).copy := by
  rw [h.copy_eq hi, h.copy_eq hj]

end System

end Replication
