import Levin.Core.App
import Levin.Utils.Profile

/-!
# Components that wrap handlers (`levin/components/`)

`SyncToAsync` of `concurrent.py`, `InjectFromScope` and `AddRequest` of `inject.py`,
`ProfileHandler` of `profiling.py` with `SimpleProfile.trace` of `utils/profile.py`.
Parameters say what the profile function is called with while a handler runs, how the
handler ends if it raises, and how the callback of the profile ends.
-/

namespace Levin

open Framework

/-- A request on its way through the components, with the attributes of `ProfileHandler`. -/
structure World (V : Type) where
  request : Request
  /-- The request, as a value. -/
  object : V
  scope : Scope V
  /-- `ProfileHandler._targets` -/
  targets : List Bytes := []
  /-- `ProfileHandler._lock.locked()` -/
  locked : Bool := false

variable {V : Type} [PyValue V]

/-- `request.get(item)` -/
def World.get? (item : String) (w : World V) : Option V × World V :=
  ((w.scope.get? item).1, { w with scope := (w.scope.get? item).2 })

/-- A middleware of a component, on handlers. -/
abbrev HandlerMiddleware (V : Type) := Middleware (World V) (Callable V) (Called V × World V)

namespace Components

/-! ## `concurrent.py` -/

/-- `_Executor._call`: the coroutine function `_handler(request)`, which calls `handler` in the executor. -/
def executorCall (handler : Callable V) : Callable V where
  signature := .ok [{ name := "request" }]
  isCoroutineFunction := true
  call args kwargs :=
    match Signature.bind [({ name := "request" } : Param V String)] args kwargs with
    | some [request] => handler.call [request] []
    | _ => .raise .TypeError

/-- `_Executor.middleware` -/
def executor (condition : World V → Callable V → Bool × World V) : HandlerMiddleware V :=
  fun w handler callNext =>
    let (applies, w) := condition w handler
    callNext w (if applies then executorCall handler else handler)

/-- `SyncToAsync.condition` -/
def syncToAsyncCondition (w : World V) (handler : Callable V) : Bool × World V :=
  if handler.isCoroutineFunction then (false, w)
  else
    let (process, w) := w.get? "process"
    (!process.any PyValue.truthy, w)

def syncToAsync : HandlerMiddleware V := executor syncToAsyncCondition

/-! ## `inject.py` -/

/-- The loop of `InjectFromScope.middleware`: the keyword arguments. -/
def injections : Signature V String → Dict String V → World V → Dict String V × World V
  | [], kwargs, w => (kwargs, w)
  | param :: params, kwargs, w =>
    match param.annotation with
    | none => injections params kwargs w
    | some name =>
      let (value, w) := w.get? name
      injections params (kwargs.set param.name (value.getD PyValue.none)) w

/-- `InjectFromScope.middleware` -/
def injectFromScope : HandlerMiddleware V := fun w handler callNext =>
  match handler.signature with
  | .error e => (.raise e, w)
  | .ok params =>
    let (kwargs, w) := injections params [] w
    callNext w (if kwargs.isEmpty then handler else functoolsPartial handler [] kwargs)

/-- `AddRequest.middleware` -/
def addRequest : HandlerMiddleware V := fun w handler callNext =>
  match handler.signature with
  | .error e => (.raise e, w)
  | .ok params =>
    callNext w (if "request" ∈ params.map Param.name then functoolsPartial handler [w.object] [] else handler)

/-! ## `profiling.py` -/

/-- What the profile of a handler meets with. -/
structure Tracing (V : Type) where
  /-- `ProfileHandler.with_memory` -/
  withMemory : Bool := false
  /-- `request.get("depth", self.depth)`, of the request's own depth. -/
  depth : Option V → Nat := fun _ => 1
  getsource : GetSource
  /-- `handler.__code__` -/
  code : Option CodeAlias
  /-- `sys.getprofile()` -/
  profile : Option ProfileFunction := none
  /-- What the profile function is called with while the handler runs. -/
  events : List TraceEvent := []
  /-- How the handler ends if the profile function raises. -/
  interrupted : Exc → Except Exc V := .error
  /-- The profile function when the handler ends. -/
  leaves : Option ProfileFunction := some .trace
  /-- `tracemalloc.take_snapshot()` -/
  snapshot : Except Exc Snapshot := .error (.other "RuntimeError")
  /-- How `callback(profile)` ends. -/
  callback : Except Exc Unit := .ok ()

/-- How `_run` ends, or `_run_async`, of a function that ends with `result` by itself. -/
def Tracing.run (t : Tracing V) (s : SimpleProfile.Interpreter) (result : Except Exc V) : Except Exc V :=
  let result :=
    match (SimpleProfile.traceAll t.getsource t.events s.profiler).1 with
    | .error e => t.interrupted e
    | .ok () => result
  let run : SimpleProfile.ProfiledRun :=
    { func := t.code, events := t.events, leaves := t.leaves, result := result.map fun _ => (), snapshot := t.snapshot }
  match (SimpleProfile._run t.getsource run s).1 with
  | .error e => .error e
  | .ok () => result

/-- `SimpleProfile.trace`: the function `_wrap(*args, **kwargs)`. -/
def trace (t : Tracing V) (s : SimpleProfile.Interpreter) (func : Callable V) : Callable V where
  signature := .ok [{ name := "args", kind := .varPositional }, { name := "kwargs", kind := .varKeyword }]
  isCoroutineFunction := func.isCoroutineFunction
  call args kwargs :=
    let out := func.call args kwargs
    { out with result := t.run s out.result }

/-- `_request_hash` -/
def requestHash (request : Request) : Bytes := request.rawPath ++ request.method

/-- The request is to be profiled, and no other is. -/
def Profiled (w : World V) : Prop := requestHash w.request ∈ w.targets ∧ w.locked = false

instance (w : World V) : Decidable (Profiled w) := inferInstanceAs (Decidable (_ ∧ _))

/-- What a `finally` clause leaves of a call, if it ends so. -/
def finished (ends : Except Exc Unit) (out : Called V) : Called V :=
  match ends with
  | .error e => { out with result := .error e }
  | .ok () => out

/-- `SimpleProfile(depth=request.get("depth", self.depth), memory=self.with_memory)` -/
def Tracing.simpleProfile (t : Tracing V) (depth : Option V) : SimpleProfile :=
  { depth := t.depth depth, traceMem := t.withMemory }

/-- `_run_with_profile` -/
def runWithProfile (t : Tracing V) : HandlerMiddleware V := fun w handler callNext =>
  let w := { w with locked := true, targets := w.targets.erase (requestHash w.request) }
  let (depth, w) := w.get? "depth"
  match SimpleProfile.addTarget t.getsource t.code (t.simpleProfile depth) with
  | (.error e, _) => (.raise e, { w with locked := false })
  | (.ok (), profiler) =>
    let (out, w) := callNext w (trace t (SimpleProfile.trace { profiler, profile := t.profile }) handler)
    (finished t.callback out, { w with locked := false })

/-- `ProfileHandler.middleware`. `meets` is what the profile condition says, the request's own if it has
one, of a run that took `time`; it may raise. -/
def profileHandler (t : Tracing V) (meets : Option V → Nat → Except Exc Bool) (time : Nat) : HandlerMiddleware V :=
  fun w handler callNext =>
    if Profiled w then runWithProfile t w handler callNext
    else
      let (out, w) := callNext w handler
      let (condition, w) := w.get? "profile_condition"
      match meets condition time with
      | .error e => (finished (.error e) out, w)
      | .ok false => (out, w)
      | .ok true =>
        let (logger, w) := w.get? "logger"
        match logger with
        | none => (finished (.error .AttributeError) out, w)
        | some _ => (out, { w with targets := w.targets ++ [requestHash w.request] })

/-! ## The default order -/

/-- A request that is not profiled, from `SyncToAsync` on. -/
def deliver (w : World V) (handler : Callable V) : Called V × World V :=
  createHandler callNext [some syncToAsync, some injectFromScope, some addRequest] w handler

/-- From `ProfileHandler` on. -/
def handle (t : Tracing V) (meets : Option V → Nat → Except Exc Bool) (time : Nat) (w : World V) (handler : Callable V) :
    Called V × World V :=
  createHandler callNext [some (profileHandler t meets time), some syncToAsync, some injectFromScope, some addRequest]
    w handler

end Components

end Levin
