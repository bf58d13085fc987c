import Levin.Core.Scope
import Levin.Framework.Regex
import Levin.Framework.Text

/-!
# Routes (`levin/components/router.py`)

A text, such as the name of a placeholder, of a group or of route metadata, is the
bytes of its UTF-8. `re.compile` is modelled for the expressions the router writes for
its patterns, and `str.format` for fields that are the names of keyword arguments;
what they make of any other text is a parameter, `re` and `format`.
-/

namespace Levin

open Framework Bytes Regex

/-! ## Python's `re`, as far as the router needs it -/

/-- The class `[-_a-zA-Z0-9]`. -/
def isWord (b : UInt8) : Bool :=
  b == 45 || b == 95 || (97 ≤ b && b ≤ 122) || (65 ≤ b && b ≤ 90) || (48 ≤ b && b ≤ 57)

def isDigit (b : UInt8) : Bool := 48 ≤ b && b ≤ 57

/-- `name.isidentifier()`, of a text over the class. -/
def isIdentifier : Bytes → Bool
  | [] => false
  | b :: bs => isWord b && b != 45 && !isDigit b && bs.all fun c => isWord c && c != 45

/-- A byte with a meaning of its own, wherever it stands. -/
def isSpecial (b : UInt8) : Bool := decide (b ∈ ascii ".^$*+?[\\|()")

/-- What follows a brace makes it a repetition: `{m}`, `{m,}`, `{,n}` or `{m,n}`. -/
def isRepetition (s : Bytes) : Bool :=
  let t := s.dropWhile isDigit
  if t.head? = some 44 then (t.tail.dropWhile isDigit).head? = some 125
  else t.head? = some 125 && s.head? != some 125

/-- A group `(?P<name>[-_a-zA-Z0-9]+)` at the beginning of a text: its name. -/
def groupAt (s : Bytes) : Option Bytes :=
  let name := (s.drop 4).takeWhile isWord
  if (ascii "(?P<").isPrefixOf s ∧ (ascii ">[-_a-zA-Z0-9]+)").isPrefixOf ((s.drop 4).dropWhile isWord) ∧ name ≠ [] then
    some name
  else none

/-- The expression of a text, from behind the next `skip` bytes: bytes that stand for themselves, `.`, groups as above,
and an optional byte at the end. `none` if there is anything else. -/
def parseFrom : Nat → Bytes → Option (List RegexItem)
  | _, [] => some []
  | skip + 1, _ :: s => parseFrom skip s
  | 0, b :: s =>
    match groupAt (b :: s) with
    | some name => (parseFrom (name.length + 19) s).map fun is => .plus (some name) isWord :: is
    | none =>
      if b = 46 then (parseFrom 0 s).map fun is => .one (· != LF) :: is
      else if isSpecial b || (b = 123 && isRepetition s) then none
      else if s = [63] then some [.optional (· == b)]
      else (parseFrom 0 s).map fun is => .one (· == b) :: is

/-- The names of the groups of an expression, in order. -/
def groupNames (is : List RegexItem) : List Bytes :=
  is.filterMap fun i =>
    match i with
    | .plus name _ => name
    | _ => none

/-- A compiled expression. -/
structure CompiledRe where
  pattern : Bytes
  /-- `fullmatch(s).groupdict()`; `None` is the value of a group that takes no part. -/
  fullmatch : Bytes → Option (Dict Bytes (Option Bytes))

/-- `re.error` -/
def reError : Exc := .other "re.error"

/-- `re.compile(text)` -/
def compile (re : Bytes → Except Exc CompiledRe) (text : Bytes) : Except Exc CompiledRe :=
  match parseFrom 0 text with
  | none => re text
  | some is =>
    if (groupNames is).Nodup ∧ (groupNames is).all isIdentifier then
      .ok { pattern := text
            fullmatch := fun s => (Regex.fullmatch is s).map fun caps => caps.map fun c => (c.1, some c.2) }
    else .error reError

/-! ## `str.format` -/

inductive FormatPiece
  | literal (b : UInt8)
  | field (name : Bytes)

/-- The pieces of a format from behind the next `skip` bytes, if all its fields are names. -/
def formatPieces : Nat → Bytes → Option (List FormatPiece)
  | _, [] => some []
  | skip + 1, _ :: s => formatPieces skip s
  | 0, b :: s =>
    if b = 123 then
      let name := s.takeWhile isWord
      if s.head? = some 123 then (formatPieces 1 s).map fun pieces => .literal 123 :: pieces
      else if isIdentifier name ∧ (s.dropWhile isWord).head? = some 125 then
        (formatPieces (name.length + 1) s).map fun pieces => .field name :: pieces
      else none
    else if b = 125 then
      if s.head? = some 125 then (formatPieces 1 s).map fun pieces => .literal 125 :: pieces else none
    else (formatPieces 0 s).map fun pieces => .literal b :: pieces

def formatWith (kwargs : Dict Bytes Bytes) : List FormatPiece → Except Exc Bytes
  | [] => .ok []
  | .literal b :: pieces => (formatWith kwargs pieces).map fun text => b :: text
  | .field name :: pieces =>
    match kwargs.get? name with
    | none => .error .KeyError
    | some value => (formatWith kwargs pieces).map fun text => value ++ text

/-- `text.format(**kwargs)` -/
def strFormat (format : Bytes → Dict Bytes Bytes → Except Exc Bytes) (text : Bytes) (kwargs : Dict Bytes Bytes) :
    Except Exc Bytes :=
  match formatPieces 0 text with
  | none => format text kwargs
  | some pieces => formatWith kwargs pieces

/-! ## Conditions -/

/-- A byte that stands for itself. -/
def literalItems (s : Bytes) : List RegexItem := s.map fun b => .one (· == b)

def PATH_ARG : List RegexItem := literalItems [123] ++ .plus (some (ascii "name")) isWord :: literalItems [125]

/-- `\g<name>` -/
def nameGroup (caps : Captures) : Bytes := (Dict.get? caps (ascii "name")).getD []

def PATH_REPL (caps : Captures) : Bytes := ascii "(?P<" ++ nameGroup caps ++ ascii ">[-_a-zA-Z0-9]+)"

def BACK_PATH_ARG : List RegexItem :=
  literalItems (ascii "(?P<") ++ .plus (some (ascii "name")) isWord :: .plus none (· != 47) :: literalItems (ascii ")")

def BACK_PATH_REPL (caps : Captures) : Bytes := [123] ++ nameGroup caps ++ [125]

/-- `_slash_append` -/
def slashAppend (value : Bytes) : Bytes :=
  (if value.getLast? = some 47 then value else value ++ [47]) ++ [63]

variable {V H : Type} [RouteValue V]

/-- A pattern of a route; a `str` is encoded. -/
inductive Pattern
  | bytes (pattern : Bytes)
  | compiled (pattern : CompiledRe)

/-- A `RegexpCondition` or an `EqualsCondition`. -/
inductive Condition (V : Type)
  | regexp (method pattern : Bytes) (compiled : CompiledRe) (metadata : Dict Bytes V)
  | equals (method pattern : Bytes) (metadata : Dict Bytes V)

/-- `RegexpCondition.pattern_to_regexp` -/
def patternToRegexp (re : Bytes → Except Exc CompiledRe) (pattern : Bytes) : Except Exc CompiledRe :=
  compile re (Regex.sub PATH_ARG PATH_REPL pattern)

namespace Condition

def method : Condition V → Bytes
  | .regexp method _ _ _ => method
  | .equals method _ _ => method

def pattern : Condition V → Bytes
  | .regexp _ pattern _ _ => pattern
  | .equals _ pattern _ => pattern

def metadata : Condition V → Dict Bytes V
  | .regexp _ _ _ metadata => metadata
  | .equals _ _ metadata => metadata

/-- `RegexpCondition(method, pattern, meta)` -/
def ofPattern (re : Bytes → Except Exc CompiledRe) (method : Bytes) (metadata : Dict Bytes V) :
    Pattern → Except Exc (Condition V)
  | .bytes pattern =>
    match patternToRegexp re (slashAppend pattern) with
    | .ok compiled => .ok (.regexp method pattern compiled metadata)
    | .error e => .error e
  | .compiled compiled =>
    .ok (.regexp method (Regex.sub BACK_PATH_ARG BACK_PATH_REPL compiled.pattern) compiled metadata)

/-- `{**captured, "pattern": pattern, **metadata}` -/
def result (captured : Dict Bytes (Option Bytes)) (pattern : Bytes) (metadata : Dict Bytes V) : Dict Bytes V :=
  let captured := captured.map fun kv => (kv.1, (kv.2.map RouteValue.bytes).getD PyValue.none)
  metadata.foldl (fun d kv => d.set kv.1 kv.2) (Dict.set (ascii "pattern") (RouteValue.bytes pattern) captured)

/-- Calling a condition with a request: `none` is `False`. The path is asked for if the method is the request's. -/
def call (condition : Condition V) (method : Bytes) (path : Except Exc Bytes) : Except Exc (Option (Dict Bytes V)) :=
  if condition.method ≠ method then .ok none
  else
    match path with
    | .error e => .error e
    | .ok path =>
      match condition with
      | .regexp _ pattern compiled metadata =>
        .ok ((compiled.fullmatch path).map fun captured => result captured pattern metadata)
      | .equals _ pattern metadata =>
        .ok (if slashAppend pattern = slashAppend path then some (result [] pattern metadata) else none)

end Condition

/-! ## The router -/

/-- What there is to know of handlers: `__name__`, `inspect.getsourcefile` as `str` shows it, `__code__.co_firstlineno`
and `inspect.getsource`. -/
structure Inspect (H : Type) where
  name : H → Except Exc Bytes
  sourceFile : H → Except Exc Bytes
  firstLine : H → Except Exc Nat
  source : H → Except Exc Bytes

structure HttpRouter (V H : Type) where
  notFoundHandler : H
  routes : List (Condition V × H) := []

namespace HttpRouter

/-- `add(method, pattern, handler, **meta)` -/
def add (re : Bytes → Except Exc CompiledRe) (method : Bytes) (pattern : Pattern) (handler : H) (metadata : Dict Bytes V)
    (router : HttpRouter V H) : Except Exc (HttpRouter V H) :=
  let appended (condition : Condition V) : HttpRouter V H :=
    { router with routes := router.routes ++ [(condition, handler)] }
  match pattern with
  | .bytes pattern =>
    if 123 ∈ pattern then (Condition.ofPattern re method metadata (.bytes pattern)).map appended
    else .ok (appended (.equals method pattern metadata))
  | .compiled compiled => (Condition.ofPattern re method metadata (.compiled compiled)).map appended

/-- `clean()` -/
def clean (router : HttpRouter V H) : HttpRouter V H := { router with routes := [] }

/-- The loop of `_resolve`. -/
def resolveFrom (notFoundHandler : H) (method : Bytes) (path : Except Exc Bytes) :
    List (Condition V × H) → Except Exc (H × Dict Bytes V)
  | [] => .ok (notFoundHandler, [])
  | (condition, handler) :: routes =>
    match condition.call method path with
    | .error e => .error e
    | .ok (some found) => .ok (handler, found)
    | .ok none => resolveFrom notFoundHandler method path routes

/-- `_resolve`. What a condition returns is true, if it is a dictionary: there is a `pattern` in it. -/
def resolve (router : HttpRouter V H) (method : Bytes) (path : Except Exc Bytes) : Except Exc (H × Dict Bytes V) :=
  resolveFrom router.notFoundHandler method path router.routes

/-- `value.decode()` -/
def decode (value : Bytes) : Except Exc Bytes :=
  if (Text.decodeUtf8 value).isSome then .ok value else .error (.other "UnicodeDecodeError")

/-- The line of a route. -/
def line (inspect : Inspect H) (route : Condition V × H) : Except Exc Bytes :=
  (decode route.1.method).bind fun method =>
  (decode route.1.pattern).bind fun pattern =>
  (inspect.name route.2).bind fun name =>
  (inspect.sourceFile route.2).bind fun sourceFile =>
  (inspect.firstLine route.2).map fun firstLine =>
    method ++ ascii " " ++ pattern ++ ascii " -> " ++ name ++ ascii " in " ++ sourceFile ++ ascii ":" ++ decimal firstLine

/-- What `list` appends for a route. -/
def linesOf (inspect : Inspect H) (code : Bool) (route : Condition V × H) : Except Exc (List Bytes) :=
  (line inspect route).bind fun line =>
    if code then (inspect.source route.2).map fun source => [line, source] else .ok [line]

/-- The loop of `list`. A method of a route is `bytes`. -/
def listFrom (inspect : Inspect H) (method : Option StrOrBytes) (code : Bool) :
    List (Condition V × H) → Except Exc (List Bytes)
  | [] => .ok []
  | route :: routes =>
    -- `if method and condition.method != method`
    if method.any (fun m => m.encoded ≠ [] ∧ StrOrBytes.bytes route.1.method ≠ m) then listFrom inspect method code routes
    else
      (linesOf inspect code route).bind fun lines => (listFrom inspect method code routes).map fun rest => lines ++ rest

/-- `list(method, code)` -/
def list (inspect : Inspect H) (method : Option StrOrBytes) (code : Bool) (router : HttpRouter V H) : Except Exc Bytes :=
  (listFrom inspect method code router.routes).map (join [LF])

/-- `condition.meta.get("name", "")` -/
def nameOf (condition : Condition V) : V := (condition.metadata.get? (ascii "name")).getD (RouteValue.str [])

/-- `url(name, **kwargs)`: `self` and `name` are parameters of its own. -/
def url [DecidableEq V] (format : Bytes → Dict Bytes Bytes → Except Exc Bytes) (router : HttpRouter V H) (name : V)
    (kwargs : Dict Bytes Bytes) : Except Exc Bytes :=
  if kwargs.get? (ascii "self") ≠ none ∨ kwargs.get? (ascii "name") ≠ none then .error .TypeError
  else
    match router.routes.find? fun route => nameOf route.1 = name with
    | none => .error .ValueError
    | some (condition, _) =>
      if (Text.decodeUtf8 condition.pattern).isSome then
        strFormat format (condition.pattern.filter (· != 92)) kwargs
      else .error (.other "UnicodeDecodeError")

end HttpRouter

/-! ## Requests on their way through the router -/

section Requests

variable {V : Type} [RequestValue V]

/-- `condition(request)` -/
def Condition.callRequest (depth : Nat) (condition : Condition V) (r : ScopedRequest V) :
    Except Exc (Option (Dict Bytes V)) × ScopedRequest V :=
  if condition.method ≠ r.request.method then (.ok none, r)
  else
    match r.path depth with
    | (.error e, r) => (.error e, r)
    | (.ok v, r) =>
      match RequestValue.asBytes v with
      | none => (.error .TypeError, r)
      | some path => (condition.call r.request.method (.ok path), r)

namespace HttpRouter

/-- `_resolve(request)`, with what it computes of the request. -/
def resolveRequestFrom (depth : Nat) (notFoundHandler : H) :
    List (Condition V × H) → ScopedRequest V → Except Exc (H × Dict Bytes V) × ScopedRequest V
  | [], r => (.ok (notFoundHandler, []), r)
  | (condition, handler) :: routes, r =>
    match condition.callRequest depth r with
    | (.error e, r) => (.error e, r)
    | (.ok (some found), r) => (.ok (handler, found), r)
    | (.ok none, r) => resolveRequestFrom depth notFoundHandler routes r

/-- The loop of `middleware`. -/
def setFound (found : Dict Bytes V) (r : ScopedRequest V) : ScopedRequest V :=
  found.foldl (fun r kv => r.set kv.1 (.value kv.2)) r

/-- What `middleware` does with what has been resolved. -/
def passOn {R : Type} (callNext : ScopedRequest V → H → Except Exc R × ScopedRequest V) :
    Except Exc (H × Dict Bytes V) × ScopedRequest V → Except Exc R × ScopedRequest V
  | (.error e, r) => (.error e, r)
  | (.ok (handler, found), r) => callNext (setFound found r) handler

/-- `middleware`, of a router whose methods are these values. -/
def middleware {R : Type} (depth : Nat) (router : HttpRouter V H) (getUrl getRoute : Other V) :
    Middleware (ScopedRequest V) H (Except Exc R × ScopedRequest V) := fun r _ callNext =>
  let r := (r.set (ascii "get_url") (.value getUrl.1)).set (ascii "get_route") (.value getRoute.1)
  passOn callNext (resolveRequestFrom depth router.notFoundHandler router.routes r)

end HttpRouter

end Requests

end Levin
