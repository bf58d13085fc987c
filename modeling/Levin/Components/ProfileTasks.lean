import Levin.Components.Wrappers
import Levin.Framework.Lock
import Levin.Framework.Run
import Mathlib.Logic.Function.Basic

/-!
# Concurrent requests in `ProfileHandler` (`levin/components/profiling.py`)

Requests share `_targets` and `_lock`. Each runs on its own from one `await` to
the next: to the handler it calls (`enter`), from there to the end (`release`,
`finish`), or on with the lock it has waited for (`wake`). What happens to a
request is in the log.
-/

namespace Levin

open Framework

namespace ProfileTasks

/-- What a request in the middleware awaits. -/
inductive Stage
  /-- `call_next` -/
  | plain
  /-- `self._lock` -/
  | waiting
  /-- `call_next`, with the profile of the handler -/
  | profiled
  deriving DecidableEq, Repr

inductive Entry
  /-- A request is suspended for the lock. -/
  | waits
  /-- `_targets.remove` raises. -/
  | valueError (hash : Bytes)
  /-- The handler of a request is called with a profile. -/
  | started (hash : Bytes)
  /-- A request meets the profile condition. -/
  | met (hash : Bytes)
  deriving DecidableEq, Repr

/-- What becomes of the profile condition; a request without a logger raises before it is added. -/
inductive Condition
  | unmet
  | raises
  | met (logs : Bool)
  deriving DecidableEq, Repr

end ProfileTasks

/-- A `ProfileHandler` and the requests in its middleware. -/
structure ProfileTasks where
  targets : List Bytes := []
  lock : Lock Nat := {}
  stage : Nat → Option ProfileTasks.Stage := fun _ => none
  log : List ProfileTasks.Entry := []

namespace ProfileTasks

def setStage (i : Nat) (stage : Option Stage) (s : ProfileTasks) : ProfileTasks :=
  { s with stage := Function.update s.stage i stage }

def add (entry : Entry) (s : ProfileTasks) : ProfileTasks := { s with log := s.log ++ [entry] }

/-- `_run_with_profile`, from the lock to the handler. -/
def runWithProfile (i : Nat) (hash : Bytes) (s : ProfileTasks) : ProfileTasks :=
  if s.targets.contains hash then
    ({ s with targets := s.targets.erase hash }.setStage i (some .profiled)).add (.started hash)
  else ({ s with lock := s.lock.release }.setStage i none).add (.valueError hash)

/-- `middleware`, to the first `await`. -/
def enter (i : Nat) (hash : Bytes) (s : ProfileTasks) : ProfileTasks :=
  if s.targets.contains hash ∧ s.lock.locked = false then
    match s.lock.acquire i with
    | (true, lock) => { s with lock }.runWithProfile i hash
    | (false, lock) => ({ s with lock }.setStage i (some .waiting)).add .waits
  else s.setStage i (some .plain)

/-- The end of `_run_with_profile`, however the handler has ended. -/
def release (i : Nat) (s : ProfileTasks) : ProfileTasks := { s with lock := s.lock.release }.setStage i none

/-- The end of `middleware` for a request that is not profiled, however the handler has ended. -/
def finish (i : Nat) (hash : Bytes) (condition : Condition) (s : ProfileTasks) : ProfileTasks :=
  match condition with
  | .unmet | .raises => s.setStage i none
  | .met logs =>
    ({ s with targets := if logs then s.targets ++ [hash] else s.targets }.setStage i none).add (.met hash)

/-- `hash` is `_request_hash(request)` at that time. -/
inductive Event
  | enter (i : Nat) (hash : Bytes)
  | wake (i : Nat) (hash : Bytes)
  | release (i : Nat)
  | finish (i : Nat) (hash : Bytes) (condition : Condition)
  deriving DecidableEq, Repr

/-- The next state, if the event can happen. -/
def step (s : ProfileTasks) : Event → Option ProfileTasks
  | .enter i hash => if s.stage i = none then some (s.enter i hash) else none
  | .wake i hash =>
    if s.stage i = some .waiting then (s.lock.wake i).map fun lock => { s with lock }.runWithProfile i hash else none
  | .release i => if s.stage i = some .profiled then some (s.release i) else none
  | .finish i hash condition => if s.stage i = some .plain then some (s.finish i hash condition) else none

/-- The step relation. -/
def Step (s : ProfileTasks) (e : Event) (s' : ProfileTasks) : Prop := s.step e = some s'

end ProfileTasks

end Levin
