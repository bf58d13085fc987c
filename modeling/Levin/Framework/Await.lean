import Mathlib.Tactic.TypeStar

/-!
# A task that awaits another

`Await ρ` is the state between two `asyncio` tasks, one of which awaits the other:
whether the awaited task is done, with a result in `ρ`, and what has become of
calls of `cancel()`. While the awaited task runs, the one that waits passes its
own cancellation on to it; from then on until it wakes up it keeps it for itself.
-/

namespace Levin.Framework

variable {ρ : Type*}

structure Await (ρ : Type*) where
  /-- The result of the awaited task, once it is done. -/
  result : Option ρ := none
  /-- `cancel()` has been called on the awaited task while it ran. -/
  cancelling : Bool := false
  /-- `_must_cancel` of the task that waits. -/
  mustCancel : Bool := false
  deriving DecidableEq, Repr

namespace Await

/-- The awaited task ends. -/
def finish (r : ρ) (a : Await ρ) : Await ρ := { a with result := some r }

/-- `cancel()` on the awaited task. -/
def cancelAwaited (a : Await ρ) : Await ρ :=
  match a.result with
  | none => { a with cancelling := true }
  | some _ => a

/-- `cancel()` on the task that waits. -/
def cancel (a : Await ρ) : Await ρ :=
  match a.result with
  | none => a.cancelAwaited
  | some _ => { a with mustCancel := true }

/-- What `await` comes to, once the awaited task is done: its result, or `CancelledError`. -/
def wake (a : Await ρ) : Option (Option ρ) := a.result.map fun r => if a.mustCancel then none else some r

@[simp] theorem cancelAwaited_result (a : Await ρ) : a.cancelAwaited.result = a.result := by
  unfold cancelAwaited
  split <;> rfl

@[simp] theorem cancelAwaited_mustCancel (a : Await ρ) : a.cancelAwaited.mustCancel = a.mustCancel := by
  unfold cancelAwaited
  split <;> rfl

@[simp] theorem cancel_result (a : Await ρ) : a.cancel.result = a.result := by
  unfold cancel
  split
  · exact a.cancelAwaited_result
  · rfl

end Await

end Levin.Framework
