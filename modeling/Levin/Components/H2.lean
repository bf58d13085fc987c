import Levin.Components.Router

/-!
# Pushes (`levin/components/h2.py`)

A push holds what it was given: its path is encoded, its method may be a `str`. The
list of a request's pushes is a value of its scope, under `_pushes`.
-/

namespace Levin.H2

open Framework Bytes

/-- `_Push(path, method)` -/
structure Push where
  path : Bytes
  method : StrOrBytes := .bytes (ascii "GET")
  deriving DecidableEq, Repr

/-- What is asked of the values of attributes: lists of pushes can be told from other values. -/
class PushValue (V : Type) extends RequestValue V where
  pushes : List Push → V
  asPushes : V → Option (List Push)
  asPushes_pushes (ps : List Push) : asPushes (pushes ps) = some ps
  truthy_pushes (ps : List Push) : truthy (pushes ps) = !ps.isEmpty
  truthy_str (s : Bytes) : truthy (str s) = !s.isEmpty

/-- A hexadecimal digit. -/
def hexDigit (n : Nat) : UInt8 := UInt8.ofNat (if n < 10 then 48 + n else 87 + n)

/-- A byte in the `repr` of `bytes` with this quote. -/
def reprByte (quote b : UInt8) : Bytes :=
  if b = quote ∨ b = 92 then [92, b]
  else if b = 9 then ascii "\\t"
  else if b = LF then ascii "\\n"
  else if b = CR then ascii "\\r"
  else if b < 32 ∨ 127 ≤ b then ascii "\\x" ++ [hexDigit (b.toNat / 16), hexDigit (b.toNat % 16)]
  else [b]

/-- `repr(value)`, of `bytes`. -/
def bytesRepr (value : Bytes) : Bytes :=
  let quote : UInt8 := if 39 ∈ value ∧ 34 ∉ value then 34 else 39
  [98, quote] ++ value.flatMap (reprByte quote) ++ [quote]

variable {V H R : Type} [PushValue V]

/-- What `str.format` makes of attributes. -/
structure Formatter (V : Type) [PushValue V] where
  /-- `format(value)` -/
  value : V → Bytes
  /-- `format` of a lazy attribute. -/
  lazy : (Request → LazyFunc V) → Bytes
  /-- `text.format(**scope)`, of a text whose fields are not all names. -/
  other : Bytes → Dict Bytes (Slot V) → Except Exc Bytes
  value_str (s : Bytes) : value (RouteValue.str s) = s
  value_bytes (b : Bytes) : value (RouteValue.bytes b) = bytesRepr b

namespace Formatter

def slot (formatter : Formatter V) : Slot V → Bytes
  | .value v => formatter.value v
  | .lazy func => formatter.lazy func

/-- `v.format(**request._scope).encode()`: nothing but a `str` has a `format`. -/
def format (formatter : Formatter V) (v : V) (r : ScopedRequest V) : Except Exc Bytes :=
  match RequestValue.asStr v with
  | none => .error .AttributeError
  | some text =>
    strFormat (fun text _ => formatter.other text r.scope) text (r.scope.map fun kv => (kv.1, formatter.slot kv.2))

end Formatter

/-- A response: its pushes, and the rest of it. -/
structure Response (V R : Type) where
  rest : R
  pushes : V

/-- `_scope_value` -/
def scopeValue : Bytes := ascii "_pushes"

/-- `add(path, method)`, the function that `_create_add_push` makes for a request. -/
def add (depth : Nat) (path method : StrOrBytes) (r : ScopedRequest V) : Except Exc Unit × ScopedRequest V :=
  match r.get depth scopeValue with
  | (.error e, r) => (.error e, r)
  | (.ok pushes, r) =>
    match PushValue.asPushes (pushes.getD (PushValue.pushes [])) with
    | none => (.error .AttributeError, r)
    | some pushes =>
      (.ok (), r.set scopeValue (.value (PushValue.pushes (pushes ++ [{ path := path.encoded, method }]))) true)

/-- `response.pushes.append(_Push(path=...))`, if there is a `push` in the scope. -/
def appendRoute (formatter : Formatter V) (depth : Nat) (response : Response V R) (r : ScopedRequest V) :
    Except Exc (Response V R) × ScopedRequest V :=
  match r.get depth (ascii "push") with
  | (.error e, r) => (.error e, r)
  | (.ok none, r) => (.ok response, r)
  | (.ok (some push), r) =>
    if PyValue.truthy push then
      match PushValue.asPushes response.pushes with
      | none => (.error .AttributeError, r)
      | some pushes =>
        match formatter.format push r with
        | .error e => (.error e, r)
        | .ok path => (.ok { response with pushes := PushValue.pushes (pushes ++ [{ path }]) }, r)
    else (.ok response, r)

/-- What `Push.middleware` does with what comes back. A second `get` of an attribute gives what the first did. -/
def finish (formatter : Formatter V) (depth : Nat) :
    Except Exc (Response V R) × ScopedRequest V → Except Exc (Response V R) × ScopedRequest V
  | (.error e, r) => (.error e, r)
  | (.ok response, r) =>
    match r.get depth scopeValue with
    | (.error e, r) => (.error e, r)
    | (.ok none, r) => appendRoute formatter depth response r
    | (.ok (some pushes), r) =>
      appendRoute formatter depth (if PyValue.truthy pushes then { response with pushes } else response) r

/-- `Push.middleware`; `addPush` is the function `add` as a value. -/
def middleware (formatter : Formatter V) (depth : Nat) (addPush : Request → V) :
    Middleware (ScopedRequest V) H (Except Exc (Response V R) × ScopedRequest V) := fun r handler callNext =>
  finish formatter depth (callNext (r.set (ascii "add_push") (.lazy fun request => .ret (addPush request))) handler)

end Levin.H2
