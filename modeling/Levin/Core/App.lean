import Levin.Core.Common
import Levin.Framework.Call

/-!
# Applications (`levin/core/app.py`)

An application passes a request and a handler through the middlewares of its
components; the innermost `_call_next` calls the handler. A handler is a function,
or what components have made of one: an object with a signature, that can be
called, and that is a coroutine function or not. Values of Python are in `V`.
-/

namespace Levin

open Framework

/-- What is asked of a value. -/
class PyValue (V : Type) where
  none : V
  /-- `bool(v)` -/
  truthy : V → Bool

variable {V : Type}

/-! ## The scope of a request (`levin/core/common.py`) -/

/-- An entry of a scope: a value, or a function that gives it when it is first asked for. Those that
the components set read the request and change nothing of it. -/
inductive Attr (V : Type)
  | value (v : V)
  | lazy (f : Unit → V)

abbrev Scope (V : Type) := Dict String (Attr V)

/-- `request.get(item)`: the value, if there is one, and the scope once it has been computed. -/
def Scope.get? (item : String) (s : Scope V) : Option V × Scope V :=
  match Dict.get? s item with
  | none => (none, s)
  | some (.value v) => (some v, s)
  | some (.lazy f) => (some (f ()), Dict.set item (.value (f ())) s)

/-! ## Handlers -/

/-- What comes of a call: the arguments of each call of the function underneath, in the order of its
parameters, and the result. -/
structure Called (V : Type) where
  calls : List (List V)
  result : Except Exc V

def Called.raise (e : Exc) : Called V := { calls := [], result := .error e }

/-- `await` of what a call returns: what a plain function returns is no awaitable. -/
def Called.await (isCoroutine : Bool) (out : Called V) : Called V :=
  if isCoroutine then out
  else
    match out.result with
    | .ok _ => { out with result := .error .TypeError }
    | .error _ => out

/-- A callable object. The annotation of a parameter is the `_value_name` of its `Inject`. Calling a
coroutine function stands for calling it and awaiting what it returns. -/
structure Callable (V : Type) where
  /-- `inspect.signature(handler).parameters` -/
  signature : Except Exc (Signature V String)
  /-- `asyncio.iscoroutinefunction(handler)` -/
  isCoroutineFunction : Bool
  call : List V → Dict String V → Called V

/-- A function, or a coroutine function. Each of its parameters takes one argument. -/
structure HandlerFunction (V : Type) where
  params : Signature V String
  names_nodup : (params.map Param.name).Nodup
  single : ∀ p ∈ params, p.Single
  isAsync : Bool
  body : List V → Except Exc V

def HandlerFunction.callable (f : HandlerFunction V) : Callable V where
  signature := .ok f.params
  isCoroutineFunction := f.isAsync
  call args kwargs :=
    match f.params.bind args kwargs with
    | none => .raise .TypeError
    | some values => { calls := [values], result := f.body values }

/-- `functools.partial(handler, *args, **kwargs)` -/
def functoolsPartial (handler : Callable V) (args : List V) (kwargs : Dict String V) : Callable V where
  signature :=
    match handler.signature with
    | .error e => .error e
    | .ok params =>
      match params.ofPartial args kwargs with
      | none => .error .ValueError
      | some params => .ok params
  isCoroutineFunction := handler.isCoroutineFunction
  call args' kwargs' := handler.call (args ++ args') (kwargs'.foldl (fun d kv => d.set kv.1 kv.2) kwargs)

/-! ## The chain of middlewares -/

/-- A middleware: what it makes of a request and a handler, given the `call_next` of its place. -/
abbrev Middleware (ρ η α : Type) := ρ → η → (ρ → η → α) → α

/-- `_create_handler`: the components' middlewares, each called by the one before it. -/
def createHandler {ρ η α : Type} (callNext : ρ → η → α) (components : List (Option (Middleware ρ η α))) :
    ρ → η → α :=
  components.foldr (fun middleware next =>
    match middleware with
    | none => next
    | some middleware => fun request handler => middleware request handler next) callNext

/-- `_call_next` -/
def callNext {ρ : Type} (request : ρ) (handler : Callable V) : Called V × ρ :=
  ((handler.call [] []).await handler.isCoroutineFunction, request)

end Levin
