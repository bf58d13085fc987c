import Levin.Core.Connection
import Levin.Framework.Await
import Levin.Framework.Run

/-!
# The time limit (`levin/components/limit.py`)

`TimeLimit.middleware` runs the rest of the chain in a task of its own, starts a
timer that cancels it, and awaits it. The request's task waits in the middleware
meanwhile, where `connection_lost` may cancel it.
-/

namespace Levin

open Framework

namespace TimeLimit

/-- The task of `_timeout_manager`. -/
inductive Timer
  | sleeping
  | expired
  | cancelled
  deriving DecidableEq, Repr

/-- How `middleware` ends: with its own response, or as the task it awaits. -/
inductive Ending
  | timeout
  | result (r : HandlerResult)
  deriving DecidableEq, Repr

end TimeLimit

/-- A call of `middleware` at its `await`, or at its end. -/
structure TimeLimit where
  task : Await HandlerResult := {}
  timer : TimeLimit.Timer := .sleeping
  ended : Option TimeLimit.Ending := none
  deriving DecidableEq, Repr

namespace TimeLimit

/-- `_timeout_manager`, from `asyncio.sleep` on. -/
def timeoutManager (m : TimeLimit) : TimeLimit := { m with timer := .expired, task := m.task.cancelAwaited }

/-- `timeout_task.cancel()`: a task that is done stays so. -/
def cancelTimer (m : TimeLimit) : TimeLimit :=
  match m.timer with
  | .sleeping => { m with timer := .cancelled }
  | .expired | .cancelled => m

/-- `middleware` from its `await` on: `CancelledError` of the task, or of its own, is caught. -/
def resume (m : TimeLimit) : Option TimeLimit :=
  m.task.wake.map fun woken =>
    let ending : Ending := match woken with
      | none | some .cancelled => .timeout
      | some r => .result r
    { m with ended := some ending }.cancelTimer

/-- `Response(status=500, body=b"Timeout")` -/
def timeoutResponse : Response where
  status := 500
  body := Bytes.ascii "Timeout"

/-- What comes of the handler, for the one who called the middleware. -/
def Ending.toResult : Ending → HandlerResult
  | .timeout => .returned timeoutResponse
  | .result r => r

inductive Event
  /-- The rest of the chain ends: it returns, raises, or is cancelled. -/
  | handlerDone (r : HandlerResult)
  | timerExpires
  /-- The task of the request is cancelled. -/
  | cancelRequest
  /-- The task of the request goes on. -/
  | resume
  deriving DecidableEq, Repr

/-- The next state, if the event can happen. -/
def step (m : TimeLimit) (e : Event) : Option TimeLimit :=
  if m.ended.isSome then none
  else
    match e with
    | .handlerDone r => if m.task.result = none then some { m with task := m.task.finish r } else none
    | .timerExpires => if m.timer = .sleeping then some m.timeoutManager else none
    | .cancelRequest => some { m with task := m.task.cancel }
    | .resume => m.resume

/-- The step relation. -/
def Step (m : TimeLimit) (e : Event) (m' : TimeLimit) : Prop := m.step e = some m'

end TimeLimit

end Levin
