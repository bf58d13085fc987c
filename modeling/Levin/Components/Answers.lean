import Levin.Components.Default
import Levin.Components.H2
import Levin.Components.TimeLimit

/-!
# What becomes of an answer (`levin/app.py`)

What the components in front of the router do with what comes back to them:
`TimeLimit`, `ErrorHandle`, `LoggerComponent` and `Push`, in this order. `on_error` is a
parameter, and so is whether the timer ends first.
-/

namespace Levin

open Framework Bytes

variable {V H : Type} [H2.PushValue V]

/-- What comes back from a call that has not raised. A value of another type than `Response` has no attribute of one. -/
inductive Came (V : Type)
  | value (v : V)
  | response (response : H2.Response V Response)
  | cancelled

/-- `Response(status=500, body=b"Timeout")` -/
def TimeLimit.timeoutPage : H2.Response V Response where
  rest := timeoutResponse
  pushes := H2.PushValue.pushes []

/-- What `TimeLimit.middleware` returns, if the timer ends first, with the request as it is then, or not. -/
def TimeLimit.finish (expired : Option (ScopedRequest V)) (answer : Answer V (Came V)) : Answer V (Came V) :=
  match expired with
  | some r => (.ok (.response timeoutPage), r)
  | none =>
    match answer with
    | (.ok .cancelled, r) => (.ok (.response timeoutPage), r)
    | answer => answer

/-- `ErrorHandle.middleware`: a `CancelledError` is no `Exception`. -/
def ErrorHandle.finish (onError : Exc → ScopedRequest V → Answer V (Came V)) : Answer V (Came V) → Answer V (Came V)
  | (.error e, r) => onError e r
  | answer => answer

/-- What `LoggerComponent` logs of a request can be decoded. -/
def Request.Decodes (request : Request) : Prop :=
  ∀ b ∈ [request.method, request.rawPath, request.protocol], (Text.decodeUtf8 b).isSome

instance (request : Request) : Decidable request.Decodes := inferInstanceAs (Decidable (∀ b ∈ _, _))

/-- `LoggerComponent.middleware`, once there is a response; `call` calls a value. -/
def LoggerComponent.log (call : V → Except Exc Unit) (depth : Nat) (response : H2.Response V Response)
    (r : ScopedRequest V) : Answer V (Came V) :=
  if r.request.Decodes then
    match r.get depth (ascii "get_transport_info") with
    | (.error e, r) => (.error e, r)
    | (.ok none, r) => (.error .AttributeError, r)
    | (.ok (some info), r) => ((call info).map fun () => .response response, r)
  else (.error (.other "UnicodeDecodeError"), r)

def LoggerComponent.finish (call : V → Except Exc Unit) (depth : Nat) : Answer V (Came V) → Answer V (Came V)
  | (.ok (.response response), r) => log call depth response r
  | (.ok (.value _), r) => (.error .AttributeError, r)
  | answer => answer

namespace H2

/-- What `Push.middleware` does with a value, which has no `pushes`. -/
def finishValue (depth : Nat) (v : V) (r : ScopedRequest V) : Answer V (Came V) :=
  match r.get depth scopeValue with
  | (.error e, r) => (.error e, r)
  | (.ok pushes, r) =>
    if pushes.any PyValue.truthy then (.error .AttributeError, r)
    else
      match r.get depth (ascii "push") with
      | (.error e, r) => (.error e, r)
      | (.ok push, r) => if push.any PyValue.truthy then (.error .AttributeError, r) else (.ok (.value v), r)

/-- `Push.middleware` -/
def finishCame (formatter : Formatter V) (depth : Nat) : Answer V (Came V) → Answer V (Came V)
  | (.ok (.response response), r) =>
    let answer := finish formatter depth (.ok response, r)
    (answer.1.map .response, answer.2)
  | (.ok (.value v), r) => finishValue depth v r
  | answer => answer

end H2

/-- What the components in front of the router are made of. -/
structure Front (V : Type) [H2.PushValue V] where
  formatter : H2.Formatter V
  call : V → Except Exc Unit
  /-- `on_error(request, exc)` -/
  onError : Exc → ScopedRequest V → Answer V (Came V)
  depth : Nat

/-- The application with these components. -/
def DefaultApp.withFront (app : DefaultApp V H (Came V)) (front : Front V) (expired : Option (ScopedRequest V)) :
    DefaultApp V H (Came V) :=
  { app with
    finishPush := H2.finishCame front.formatter front.depth
    finishLogger := LoggerComponent.finish front.call front.depth
    finishErrorHandle := ErrorHandle.finish front.onError
    finishTimeLimit := TimeLimit.finish expired }

end Levin
