import Levin.Core.Typing
import Levin.Framework.Loop

/-!
# Connections (`levin/core/connection.py`)

A connection's own attributes, and what the event loop keeps for it: the futures
`run_coroutine_threadsafe` has returned (numbered in order), the tasks behind
them, and a log of what the connection does to its transport. A future runs its
callbacks in order when it is completed; what a callback raises is logged by
`concurrent.futures` and lost.
-/

namespace Levin

open Framework

/-- The two callbacks a connection adds to a future. -/
inductive Callback
  /-- `partial(self._done_callback, request=request)` -/
  | done
  /-- `self._close_callback` -/
  | close
  deriving DecidableEq, Repr

/-- A `concurrent.futures.Future`: not yet completed, cancelled, or finished, with the
exception if there is one. -/
inductive FutureState
  | pending
  | cancelled
  | finished (exc : Option Exc)
  deriving DecidableEq, Repr

structure Future where
  request : Request
  state : FutureState := .pending
  callbacks : List Callback := []

/-- How a task ends: its coroutine returns, raises or is cancelled. -/
inductive Outcome
  | returned
  | raised (e : Exc)
  | cancelled
  deriving DecidableEq, Repr

/-- What a task that has ended makes of its future. -/
def Outcome.toFuture : Outcome → FutureState
  | .returned => .finished none
  | .raised e => .finished (some e)
  | .cancelled => .cancelled

/-- What `await self._handler(request)` comes back with. -/
inductive HandlerResult
  | returned (response : Response)
  | raised (e : Exc)
  | cancelled
  deriving DecidableEq, Repr

/-- Where the coroutine `handle_request` is. -/
inductive TaskState
  /-- There is no coroutine, or none any more. -/
  | gone
  /-- At `await self._handler(request)`. -/
  | handling
  /-- At `await asyncio.gather(...)`. -/
  | pushing
  /-- Ended, with an outcome that the future does not have yet. -/
  | ended (outcome : Outcome)
  deriving DecidableEq, Repr

/-- The task of a request: its pushes, and those of them whose `handle_push` is at
`await self._handler(_request)`. -/
structure Task where
  state : TaskState := .gone
  pushes : List Push := []
  running : List Nat := []
  deriving DecidableEq, Repr

/-- The task once cancelled, if it has not ended before. -/
def Task.stop (t : Task) : Task :=
  match t.state with
  | .handling | .pushing => { t with state := .ended .cancelled, running := [] }
  | _ => t

/-- Whose response `write_response` writes: that of a request, or of one of its pushes. -/
inductive Owner
  | request (f : Nat)
  | push (f k : Nat)
  deriving DecidableEq, Repr

/-- What a connection does: it calls `write_response` for a request object, or calls
`transport.write` or `transport.close`; or `connection_lost` is called. -/
inductive Action (ω : Type)
  | respond (owner : Owner)
  | write (data : List ω)
  | close
  | lost
  deriving DecidableEq, Repr

/-- The transport: whether it is closing, and what `get_extra_info` returns. -/
structure Transport where
  closing : Bool := false
  info : TransportInfo
  sslcontext : Bool := false
  deriving DecidableEq, Repr

/-- The state of a connection. A parser that accepts a chunk moves from `parsers` to `parser`:
`_parsers` is not read again from then on. -/
structure Connection (π ω : Type) where
  parsers : List π
  parser : Option π := none
  futures : List Nat := []
  transport : Transport
  /-- The module's `response_500`. -/
  response500 : Response := { status := 500, body := Bytes.ascii "Sorry" }
  /-- The number of futures so far; the next one gets this number. -/
  next : Nat := 0
  future : Nat → Future := fun _ => { request := .create [] [] none [] [] }
  task : Nat → Task := fun _ => {}
  log : List (Action ω) := []
  /-- The exceptions that came out of `data_received`. -/
  escaped : List Exc := []

namespace Connection

variable {π ω : Type} [ParserProtocol π ω]

/-- `scheme` -/
def scheme (c : Connection π ω) : Bytes :=
  if c.transport.sslcontext then Bytes.ascii "https" else Bytes.ascii "http"

/-- `write` -/
def write (data : List ω) (c : Connection π ω) : Connection π ω :=
  { c with log := c.log ++ [.write data] }

def setClosing (c : Connection π ω) : Connection π ω :=
  { c with transport := { c.transport with closing := true } }

/-- `self._transport.close()` -/
def closeTransport (c : Connection π ω) : Connection π ω :=
  { c.setClosing with log := c.log ++ [.close] }

def setFuture (f : Nat) (state : FutureState) (c : Connection π ω) : Connection π ω :=
  { c with future := Function.update c.future f { c.future f with state } }

def setTask (f : Nat) (task : Task) (c : Connection π ω) : Connection π ω :=
  { c with task := Function.update c.task f task }

/-- `write_response`. The response comes back with the headers the parser has set. -/
def writeResponse (owner : Owner) (response : Response) (request : Request) (c : Connection π ω) :
    Connection π ω × Response × Option Exc :=
  match c.parser with
  | none => ({ c with log := c.log ++ [.respond owner] }, response, some .AttributeError)
  | some p =>
    let (out, response, p) := ParserProtocol.handleResponse p response request
    ({ c with parser := some p, log := c.log ++ .respond owner :: out.chunks.map .write }, response, out.exc)

/-- `_write_500` -/
def write500 (f : Nat) (c : Connection π ω) : Connection π ω × Option Exc :=
  if c.transport.closing then (c, none)
  else
    let (c', response, exc) := c.writeResponse (.request f) c.response500 (c.future f).request
    ({ c' with response500 := response }, exc)

/-- `_get_future_exception` -/
def getFutureException : FutureState → Option Exc
  | .pending => some .InvalidStateError
  | .cancelled => none
  | .finished exc => exc

/-- `_done_callback`: a future that is not in the list makes `remove` raise. -/
def doneCallback (f : Nat) (c : Connection π ω) : Connection π ω × Option Exc :=
  let (c', exc) : Connection π ω × Option Exc :=
    if (c.future f).state = .cancelled then c.write500 f
    else
      match getFutureException (c.future f).state with
      | some _ => c.write500 f
      | none => (c, none)
  if f ∈ c'.futures then ({ c' with futures := c'.futures.erase f }, exc) else (c', some .ValueError)

/-- The callbacks of a completed future, in order, where `close` is `self.close`. -/
def invokeCallbacks (close : Connection π ω → Connection π ω × Option Exc) (f : Nat) (c : Connection π ω) :
    Connection π ω :=
  (c.future f).callbacks.foldl (fun c callback =>
    match callback with
    | .done => (c.doneCallback f).1
    | .close => (close c).1) c

/-- `future.set_exception(CloseException())` -/
def setException (close : Connection π ω → Connection π ω × Option Exc) (f : Nat) (c : Connection π ω) :
    Connection π ω × Option Exc :=
  match (c.future f).state with
  | .pending => ((c.setFuture f (.finished (some .CloseException))).invokeCallbacks close f, none)
  | _ => (c, some .InvalidStateError)

/-- `close`, where at most `depth` calls of it from its own callbacks are nested: each needs
one more future to complete. -/
def closeNested : Nat → Connection π ω → Connection π ω × Option Exc
  | 0, c => (c.closeTransport, none)
  | depth + 1, c =>
    let c := c.closeTransport
    forEach (·.futures) (setException (closeNested depth)) c.futures.length 0 c

/-- `close` -/
def close (c : Connection π ω) : Connection π ω × Option Exc := closeNested c.futures.length c

/-- The task behind a future is cancelled: it stops, and so do the pushes it waits for. -/
def stopTask (f : Nat) (c : Connection π ω) : Connection π ω := c.setTask f (c.task f).stop

/-- `future.cancel()` -/
def cancel (f : Nat) (c : Connection π ω) : Connection π ω :=
  match (c.future f).state with
  | .pending => ((c.setFuture f .cancelled).invokeCallbacks close f).stopTask f
  | _ => c

def logLost (c : Connection π ω) : Connection π ω := { c with log := c.log ++ [.lost] }

/-- `connection_lost` -/
def connectionLost (c : Connection π ω) : Connection π ω :=
  (forEach (·.futures) (fun f c => (c.cancel f, (none : Option Exc))) c.futures.length 0 c.logLost).1

/-- `connection_made` -/
def connectionMade (c : Connection π ω) : Connection π ω :=
  { c with parsers := c.parsers.map ParserProtocol.connect }

/-- The loop of `_parse`: the parsers as it leaves them, and the one that accepts the chunk
with what it returns. -/
def selectParser (data : Bytes) : List π → List π × Except Exc (Option (π × Parsed ω))
  | [] => ([], .ok none)
  | p :: ps =>
    match ParserProtocol.handleRequest p data with
    | (.ok parsed, p) => (p :: ps, .ok (some (p, parsed)))
    | (.error .ParseError, p) =>
      let (ps, result) := selectParser data ps
      (p :: ps, result)
    | (.error e, p) => (p :: ps, .error e)

/-- `_parse`: `none` where no parser accepts the chunk. -/
def parse (data : Bytes) (c : Connection π ω) : Connection π ω × Except Exc (Option (Parsed ω)) :=
  match c.parser with
  | some p =>
    let (result, p) := ParserProtocol.handleRequest p data
    ({ c with parser := some p }, result.map some)
  | none =>
    let (parsers, result) := selectParser data c.parsers
    match result with
    | .error e => ({ c with parsers }, .error e)
    | .ok none => ({ c with parsers }, .ok none)
    | .ok (some (p, parsed)) => ({ c with parsers, parser := some p }, .ok (some parsed))

def addDoneCallback (f : Nat) (callback : Callback) (c : Connection π ω) : Connection π ω :=
  let future := { c.future f with callbacks := (c.future f).callbacks ++ [callback] }
  { c with future := Function.update c.future f future }

/-- `run_coroutine_threadsafe(self.handle_request(request))`, its future appended and given
its done callback. -/
def dispatch (c : Connection π ω) (request : Request) : Connection π ω :=
  let f := c.next
  addDoneCallback f .done
    { c with
      next := f + 1,
      future := Function.update c.future f { request := request },
      task := Function.update c.task f { state := .handling },
      futures := c.futures ++ [f] }

/-- `data_received` from the triple on that the parser returns. -/
def accept (parsed : Parsed ω) (c : Connection π ω) : Connection π ω × Option Exc :=
  let c := if parsed.data = [] then c else c.write parsed.data
  let c := parsed.requests.foldl dispatch c
  if parsed.close then
    -- `future` is the last one dispatched, or `None`.
    if parsed.requests = [] then c.close else (c.addDoneCallback (c.next - 1) .close, none)
  else (c, none)

/-- `data_received`. Where no parser accepts the chunk, `_parse` returns `None`, which does not
unpack into `_data, requests, close`. -/
def dataReceived (data : Bytes) (c : Connection π ω) : Connection π ω × Option Exc :=
  match c.parse data with
  | (c, .error e) => (c, some e)
  | (c, .ok none) => (c, some .TypeError)
  | (c, .ok (some parsed)) => c.accept parsed

/-! ## The coroutines, from one `await` to the next -/

def endTask (f : Nat) (outcome : Outcome) (c : Connection π ω) : Connection π ω :=
  c.setTask f { c.task f with state := .ended outcome }

/-- `handle_request` from its handler's result on. -/
def handleRequest (f : Nat) (result : HandlerResult) (c : Connection π ω) : Connection π ω :=
  match result with
  | .raised e => c.endTask f (.raised e)
  | .cancelled => c.endTask f .cancelled
  | .returned response =>
    let request := (c.future f).request.setTransportInfo c.transport.info
    match c.writeResponse (.request f) response request with
    | (c, _, some e) => c.endTask f (.raised e)
    | (c, response, none) =>
      if response.pushes ≠ [] ∧ c.parser.any ParserProtocol.pushSupport then
        c.setTask f { state := .pushing, pushes := response.pushes, running := List.range response.pushes.length }
      else c.endTask f .returned

/-- The request made for a push. -/
def pushRequest (push : Push) (request : Request) (c : Connection π ω) : Request :=
  (Request.create push.path push.method (some []) request.headers request.protocol request.stream
    c.scheme).setTransportInfo c.transport.info

/-- `handle_push` of the `k`-th push from its handler's result on, with its outcome. -/
def handlePush (f k : Nat) (result : HandlerResult) (c : Connection π ω) : Connection π ω × Outcome :=
  match result with
  | .raised e => (c, .raised e)
  | .cancelled => (c, .cancelled)
  | .returned response =>
    match (c.task f).pushes[k]? with
    | none => (c, .returned)
    | some push =>
      let request := c.pushRequest push (c.future f).request
      match c.writeResponse (.push f k) { response with push := true } request with
      | (c, _, some e) => (c, .raised e)
      | (c, _, none) => (c, .returned)

/-- `asyncio.gather`, told how the `k`-th push ended: the first that fails ends the task,
the others run on; the last ends it if none has failed. -/
def gather (f k : Nat) (outcome : Outcome) (c : Connection π ω) : Connection π ω :=
  let task := { c.task f with running := (c.task f).running.erase k }
  if task.state = .pushing then
    if outcome ≠ .returned then c.setTask f { task with state := .ended outcome }
    else if task.running = [] then c.setTask f { task with state := .ended .returned }
    else c.setTask f task
  else c.setTask f task

/-- The end of `handle_push` reaches the task that waits for it. -/
def pushDone (f k : Nat) (result : HandlerResult) (c : Connection π ω) : Connection π ω :=
  let (c, outcome) := c.handlePush f k result
  c.gather f k outcome

/-- A task that has ended completes its future, unless something else has. -/
def settle (f : Nat) (outcome : Outcome) (c : Connection π ω) : Connection π ω :=
  let c := c.setTask f { c.task f with state := .gone }
  match (c.future f).state with
  | .pending => (c.setFuture f outcome.toFuture).invokeCallbacks close f
  | _ => c

end Connection

end Levin
