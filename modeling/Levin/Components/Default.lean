import Levin.Components.Common
import Levin.Components.Router

/-!
# The default application up to its router (`levin/app.py`)

The components in front of the router: what they set on a request, and how they hand
it on. What they do with a response, or an exception, once they have it, is a function
of its own for each: `Push.middleware` and `LoggerComponent.middleware` set an
attribute first, `ErrorHandle.middleware` and `TimeLimit.middleware` only pass on.
-/

namespace Levin

open Framework Bytes

variable {V H R : Type} [RequestValue V]

/-- What comes back from a middleware: a response or an exception, and the request as it is then. -/
abbrev Answer (V R : Type) : Type := Except Exc R × ScopedRequest V

structure DefaultApp (V H R : Type) [RequestValue V] where
  patchRequest : PatchRequest V
  /-- `_create_add_push` -/
  createAddPush : Request → Other V
  logger : Other V
  router : HttpRouter V H
  /-- The router's methods `url` and `_resolve`. -/
  getUrl : Other V
  getRoute : Other V
  finishPush : Answer V R → Answer V R
  finishLogger : Answer V R → Answer V R
  finishErrorHandle : Answer V R → Answer V R
  finishTimeLimit : Answer V R → Answer V R

namespace DefaultApp

variable (app : DefaultApp V H R)

def pushMiddleware : Middleware (ScopedRequest V) H (Answer V R) := fun r handler callNext =>
  app.finishPush (callNext (r.set (ascii "add_push") (.lazy fun request => .ret (app.createAddPush request).1)) handler)

def loggerMiddleware : Middleware (ScopedRequest V) H (Answer V R) := fun r handler callNext =>
  app.finishLogger (callNext (r.set (ascii "logger") (.value app.logger.1)) handler)

def errorHandleMiddleware : Middleware (ScopedRequest V) H (Answer V R) := fun r handler callNext =>
  app.finishErrorHandle (callNext r handler)

def timeLimitMiddleware : Middleware (ScopedRequest V) H (Answer V R) := fun r handler callNext =>
  app.finishTimeLimit (callNext r handler)

/-- The handler of the application up to its router; `callNext` is what comes after that. -/
def handler (depth : Nat) (callNext : ScopedRequest V → H → Answer V R) : ScopedRequest V → H → Answer V R :=
  createHandler callNext
    [some app.patchRequest.middleware, some app.pushMiddleware, some app.loggerMiddleware, some app.errorHandleMiddleware,
      some app.timeLimitMiddleware, some (app.router.middleware depth app.getUrl app.getRoute)]

end DefaultApp

/-- A request as the connection gives it to the application, with `get_transport_info`. -/
def Request.connected (request : Request) (transportInfo : Other V) : ScopedRequest V :=
  ScopedRequest.set (ascii "get_transport_info") (.lazy fun _ => .ret transportInfo.1) { request, scope := [] }

end Levin
