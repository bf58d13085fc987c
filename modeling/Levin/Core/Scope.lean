import Levin.Core.App

/-!
# The scope of a request (`levin/core/common.py`)

`request.set` and `request.get`, with attributes that are computed when they are first
asked for. The function of such an attribute may itself get and set attributes; how
many of them may be computed inside one another is the depth. A text among the keys and
the values is the bytes of its UTF-8.
-/

namespace Levin

open Framework Bytes

/-- What is asked of the values of metadata and of results. -/
class RouteValue (V : Type) extends PyValue V where
  str : Bytes → V
  bytes : Bytes → V
  bytes_inj {a b : Bytes} : bytes a = bytes b → a = b

/-- What is asked of the values of attributes: `bytes` and `str` can be told from other types. -/
class RequestValue (V : Type) extends RouteValue V where
  asBytes : V → Option Bytes
  asStr : V → Option Bytes
  asBytes_bytes (b : Bytes) : asBytes (bytes b) = some b
  asBytes_str (s : Bytes) : asBytes (str s) = Option.none
  asBytes_none : asBytes none = Option.none
  asStr_str (s : Bytes) : asStr (str s) = some s

/-- A value of another type than `bytes`. -/
abbrev Other (V : Type) [RequestValue V] : Type := { v : V // RequestValue.asBytes v = none }

variable {V : Type}

/-- What the function of a lazy attribute does: it gets and sets attributes, and returns or raises. -/
inductive LazyFunc (V : Type)
  | ret (v : V)
  | raise (e : Exc)
  /-- `request.get(item)`; `none` stands for the default. What it raises is raised. -/
  | get (item : Bytes) (next : Option V → LazyFunc V)
  | set (key : Bytes) (value : V) (next : LazyFunc V)
  | setLazy (key : Bytes) (func : Request → LazyFunc V) (next : LazyFunc V)

/-- What is under a key of the scope. -/
inductive Slot (V : Type)
  | value (v : V)
  /-- `_LazyAttr(func)` -/
  | lazy (func : Request → LazyFunc V)

structure ScopedRequest (V : Type) where
  request : Request
  scope : Dict Bytes (Slot V)

/-- `RecursionError` -/
def recursionError : Exc := .other "RecursionError"

namespace ScopedRequest

/-- `request.set(key, value, lazy, rewrite)` -/
def set (key : Bytes) (slot : Slot V) (r : ScopedRequest V) (rewrite : Bool := false) : ScopedRequest V :=
  if r.scope.get? key = none ∨ rewrite then { r with scope := r.scope.set key slot } else r

/-- Calling the function of a lazy attribute, with what `request.get` does. -/
def run (get : Bytes → ScopedRequest V → Except Exc (Option V) × ScopedRequest V) :
    LazyFunc V → ScopedRequest V → Except Exc V × ScopedRequest V
  | .ret v, r => (.ok v, r)
  | .raise e, r => (.error e, r)
  | .get item next, r =>
    match get item r with
    | (.ok v, r) => run get (next v) r
    | (.error e, r) => (.error e, r)
  | .set key value next, r => run get next (r.set key (.value value))
  | .setLazy key func next, r => run get next (r.set key (.lazy func))

/-- What the function of an attribute returned is the value from now on. -/
def store (item : Bytes) : Except Exc V × ScopedRequest V → Except Exc (Option V) × ScopedRequest V
  | (.ok v, r) => (.ok (some v), { r with scope := r.scope.set item (.value v) })
  | (.error e, r) => (.error e, r)

/-- `request.get(item)` -/
def get : Nat → Bytes → ScopedRequest V → Except Exc (Option V) × ScopedRequest V
  | depth, item, r =>
    match r.scope.get? item with
    | none => (.ok none, r)
    | some (.value v) => (.ok (some v), r)
    | some (.lazy func) =>
      match depth with
      | 0 => (.error recursionError, r)
      | depth + 1 => store item (run (get depth) (func r.request) r)

/-- `request.path` -/
def path [RouteValue V] (depth : Nat) (r : ScopedRequest V) : Except Exc V × ScopedRequest V :=
  match r.get depth (ascii "path") with
  | (.ok (some v), r) => (.ok v, r)
  | (.ok none, r) => (.ok (RouteValue.bytes r.request.rawPath), r)
  | (.error e, r) => (.error e, r)

end ScopedRequest

/-- `request.item`, of an attribute that is only in the scope. -/
def LazyFunc.attr (item : Bytes) (next : V → LazyFunc V) : LazyFunc V :=
  .get item fun v =>
    match v with
    | none => .raise .AttributeError
    | some v => next v

end Levin
