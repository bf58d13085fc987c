import Levin.Core.Common
import Levin.Framework.Run

/-!
# Shutdown (`_manage` of `levin/core/server.py`)

`run` creates a task for each server that binds its socket (`get_task`), and
hands them to `_manage`, which waits for the stop event. From there on `_manage`
is suspended where it awaits something: an application that stops, or a server
that closes. A listening task may end only then.
-/

namespace Levin

open Framework

namespace Manage

/-- The task of `get_task`: it ends with a server, or with `None` where binding has failed. -/
inductive Listening
  | pending
  | listening
  | failed
  deriving DecidableEq, Repr

/-- `result()`: whether it is an `AbstractServer`. -/
def Listening.result : Listening → Except Exc Bool
  | .pending => .error .InvalidStateError
  | .listening => .ok true
  | .failed => .ok false

/-- `done()` -/
def Listening.done : Listening → Bool
  | .pending => false
  | .listening | .failed => true

/-- Where `_manage` is: what it awaits, or how it has ended. -/
inductive Phase
  /-- `await server.stop()` for server `k` -/
  | stopping (k : Nat)
  /-- `await server_result.wait_closed()` for the server of task `k` -/
  | closing (k : Nat)
  | ended (exc : Option Exc)
  deriving DecidableEq, Repr

end Manage

/-- The state of `_manage`: the listening tasks, one for each server, and what it has done to them. -/
structure Manage where
  tasks : List Manage.Listening
  phase : Manage.Phase
  stopped : List Nat := []
  closed : List Nat := []
  cancelled : List Nat := []
  deriving DecidableEq, Repr

namespace Manage

/-- `if not server.done(): server.cancel()` -/
def cancelPending (k : Nat) (task : Listening) (m : Manage) : Manage :=
  if task.done then m else { m with cancelled := m.cancelled ++ [k] }

/-- The second loop over the tasks from the `k`-th on, up to the next `await` or the end. -/
def closeFrom : List Listening → Nat → Manage → Manage
  | [], _, m => { m with phase := .ended none }
  | task :: tasks, k, m =>
    match task.result with
    | .error e => { m with phase := .ended (some e) }
    | .ok true => { m with closed := m.closed ++ [k], phase := .closing k }
    | .ok false => closeFrom tasks (k + 1) (cancelPending k task m)

/-- The first loop over the servers from the `k`-th on, up to the next `await`. -/
def stopFrom (k : Nat) (m : Manage) : Manage :=
  if k < m.tasks.length then { m with phase := .stopping k } else closeFrom m.tasks 0 m

/-- `_manage` once the stop event is set. -/
def start (tasks : List Listening) : Manage := stopFrom 0 { tasks, phase := .stopping 0 }

inductive Event
  /-- What `_manage` awaits is there. -/
  | resumed
  /-- Task `k` ends, with a server or with `None`. -/
  | taskDone (k : Nat) (bound : Bool)
  deriving DecidableEq, Repr

/-- `_manage`, from one `await` to the next. -/
def resume (m : Manage) : Option Manage :=
  match m.phase with
  | .stopping k => some (stopFrom (k + 1) { m with stopped := m.stopped ++ [k] })
  | .closing k =>
    let task := (m.tasks[k]?).getD .failed
    some (closeFrom (m.tasks.drop (k + 1)) (k + 1) (cancelPending k task m))
  | .ended _ => none

/-- The next state, if the event can happen. -/
def step (m : Manage) : Event → Option Manage
  | .resumed => resume m
  | .taskDone k bound =>
    match m.phase, m.tasks[k]? with
    | .ended _, _ => none
    | _, some .pending => some { m with tasks := m.tasks.set k (if bound then .listening else .failed) }
    | _, _ => none

/-- The step relation. -/
def Step (m : Manage) (e : Event) (m' : Manage) : Prop := step m e = some m'

end Manage

end Levin
