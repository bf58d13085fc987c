import Mathlib.Tactic.TypeStar

/-!
# Locks of cooperative tasks

`Lock ι` is `asyncio.Lock`, taken by tasks with names in `ι`. A task that asks
for a lock nobody holds or waits for gets it at once, and is not suspended; any
other waits, and gets the lock in its turn.
-/

namespace Levin.Framework

variable {ι : Type*}

/-- A lock: whether it is held, and the tasks that wait for it, in order. -/
structure Lock (ι : Type*) where
  locked : Bool := false
  waiters : List ι := []

namespace Lock

/-- `acquire()`: whether the task `i` has the lock, or else waits for it. -/
def acquire (i : ι) (l : Lock ι) : Bool × Lock ι :=
  if l.locked = false ∧ l.waiters.isEmpty then (true, { l with locked := true })
  else (false, { l with waiters := l.waiters ++ [i] })

/-- `release()` -/
def release (l : Lock ι) : Lock ι := { l with locked := false }

/-- `acquire()` of a task that waits, in its turn. -/
def wake [DecidableEq ι] (i : ι) (l : Lock ι) : Option (Lock ι) :=
  if l.locked = false ∧ l.waiters.head? = some i then some { locked := true, waiters := l.waiters.tail } else none

variable {l : Lock ι} {i : ι}

/-- A free lock is taken without waiting. -/
theorem acquire_of_free (hl : l.locked = false) (hw : l.waiters = []) : l.acquire i = (true, { locked := true }) := by
  rw [acquire, if_pos ⟨hl, by rw [hw]; rfl⟩, hw]

end Lock

end Levin.Framework
