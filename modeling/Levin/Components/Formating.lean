import Levin.Core.Scope
import Levin.Framework.Text

/-!
# Formatting (`levin/components/formating.py`)

`JsonFormat` makes a response of a value that a handler has returned, and
`TemplateFormat.render` fills a template in with a context, which it updates with the
scope of the request. `json_dumps` and `str` are parameters.
-/

namespace Levin

open Framework Bytes

variable {V : Type}

/-- What comes back from a handler: a response, or a value of another type. -/
inductive Result (V : Type)
  | value (v : V)
  | response (response : Response)

def unicodeEncodeError : Exc := .other "UnicodeEncodeError"

/-! ## JSON -/

structure JsonFormat (V : Type) where
  /-- `json_dumps(v)`, or `json_dumps(v, default=default)`. -/
  jsonDumps : V → Option (V → Except Exc V) → Except Exc Text
  default : Option (V → Except Exc V)
  contentType : Bytes := ascii "application/json"
  typesToFormat : V → Bool
  /-- A status as the number it is. -/
  status : V → Nat

namespace JsonFormat

/-- The text of a value. -/
def dumps (format : JsonFormat V) (v : V) : Except Exc Text := format.jsonDumps v format.default

/-- The response for a value. -/
def respond (format : JsonFormat V) (depth : Nat) (v : V) (r : ScopedRequest V) : Except Exc (Result V) × ScopedRequest V :=
  match format.dumps v with
  | .error e => (.error e, r)
  | .ok data =>
    match r.get depth (ascii "status") with
    | (.error e, r) => (.error e, r)
    | (.ok status, r) =>
      match Text.encodeUtf8 data with
      | none => (.error unicodeEncodeError, r)
      | some body =>
        (.ok (.response
          { status := (status.map format.status).getD 200, body, headers := [(ascii "content-type", format.contentType)] }), r)

/-- `middleware` -/
def middleware {η : Type} (format : JsonFormat V) (depth : Nat) :
    Middleware (ScopedRequest V) η (Except Exc (Result V) × ScopedRequest V) := fun r handler callNext =>
  match callNext r handler with
  | (.ok (.value v), r) => if format.typesToFormat v then format.respond depth v r else (.ok (.value v), r)
  | answer => answer

end JsonFormat

/-! ## Text -/

/-- What is asked of the values that a text is made of: a `str` with a surrogate, which has no UTF-8, can be told from
others. -/
class TextValue (V : Type) extends RequestValue V where
  hasSurrogate : V → Bool
  asStr_of_hasSurrogate {v : V} : hasSurrogate v = true → asStr v = Option.none
  asBytes_of_hasSurrogate {v : V} : hasSurrogate v = true → asBytes v = Option.none

structure TextFormat (V : Type) where
  contentType : Bytes := ascii "text/html"
  /-- A status as the number it is. -/
  status : V → Nat

namespace TextFormat

variable [TextValue V]

/-- A value of type `str` or `bytes`, encoded. -/
def encoded (v : V) : Option (Except Exc Bytes) :=
  if TextValue.hasSurrogate v then some (.error unicodeEncodeError)
  else ((RequestValue.asStr v).or (RequestValue.asBytes v)).map .ok

/-- The response for a text, if it could be encoded. -/
def respond (format : TextFormat V) (depth : Nat) (encoded : Except Exc Bytes) (r : ScopedRequest V) :
    Except Exc (Result V) × ScopedRequest V :=
  match encoded with
  | .error e => (.error e, r)
  | .ok body =>
    match r.get depth (ascii "status") with
    | (.error e, r) => (.error e, r)
    | (.ok status, r) =>
      (.ok (.response
        { status := (status.map format.status).getD 200, body, headers := [(ascii "content-type", format.contentType)] }), r)

/-- `middleware` -/
def middleware {η : Type} (format : TextFormat V) (depth : Nat) :
    Middleware (ScopedRequest V) η (Except Exc (Result V) × ScopedRequest V) := fun r handler callNext =>
  match callNext r handler with
  | (.ok (.value v), r) => (encoded v).elim (.ok (.value v), r) fun body => format.respond depth body r
  | answer => answer

end TextFormat

/-! ## Templates -/

/-- A piece of a `string.Template`: a character, or a placeholder and how it is written. -/
inductive TemplatePiece
  | char (c : Nat)
  | named (name : Bytes) (source : Text)

/-- A character an identifier begins with. -/
def isIdentifierStart (c : Nat) : Bool := c == 95 || (97 ≤ c && c ≤ 122) || (65 ≤ c && c ≤ 90)

/-- The identifier at the beginning of a text. -/
def identifierAt (s : Text) : Text :=
  if s.head?.any isIdentifierStart then s.takeWhile fun c => isIdentifierStart c || (48 ≤ c && c ≤ 57) else []

/-- The pieces of a template from behind the next `skip` characters. A `$` is escaped by another one, and stands for
itself where nothing fits. -/
def templatePieces : Nat → Text → List TemplatePiece
  | _, [] => []
  | skip + 1, _ :: s => templatePieces skip s
  | 0, c :: s =>
    if c = 36 then
      let named := identifierAt s
      let braced := identifierAt s.tail
      if s.head? = some 36 then .char 36 :: templatePieces 1 s
      else if named ≠ [] then .named (named.map UInt8.ofNat) (36 :: named) :: templatePieces named.length s
      else if s.head? = some 123 ∧ braced ≠ [] ∧ (s.tail.drop braced.length).head? = some 125 then
        .named (braced.map UInt8.ofNat) (36 :: 123 :: (braced ++ [125])) :: templatePieces (braced.length + 2) s
      else .char 36 :: templatePieces 0 s
    else .char c :: templatePieces 0 s

/-- A value of the mapping of a template: text, or something that `str` makes text of. -/
abbrev Mapping (V : Type) := Dict Bytes (Text ⊕ Slot V)

/-- `safe_substitute(**mapping)` -/
def safeSubstitute (str : Slot V → Except Exc Text) (mapping : Mapping V) : List TemplatePiece → Except Exc Text
  | [] => .ok []
  | .char c :: pieces => (safeSubstitute str mapping pieces).map fun text => c :: text
  | .named name source :: pieces =>
    match mapping.get? name with
    | none => (safeSubstitute str mapping pieces).map fun text => source ++ text
    | some (.inl value) => (safeSubstitute str mapping pieces).map fun text => value ++ text
    | some (.inr value) =>
      match str value with
      | .error e => .error e
      | .ok value => (safeSubstitute str mapping pieces).map fun text => value ++ text

structure TemplateFormat (V : Type) where
  /-- The content of each template, by its directory and its name. -/
  templates : Dict (Bytes × Bytes) Text
  /-- `str(value)` -/
  str : Slot V → Except Exc Text

/-- A context, which the scope of a request may have become a part of. -/
abbrev Context (V : Type) := Dict Bytes (Slot V)

namespace TemplateFormat

/-- `_check_and_save(files, root)`. What `open_file.read()` returns of a file in `root` is given. -/
def checkAndSave (formats : List Bytes) (read : Bytes → Bytes → Except Exc Text) (root : Bytes) :
    List Bytes → Dict (Bytes × Bytes) Text → Dict (Bytes × Bytes) Text × Except Exc Unit
  | [], templates => (templates, .ok ())
  | file :: files, templates =>
    if formats.any (·.isSuffixOf file) then
      match read root file with
      | .error e => (templates, .error e)
      | .ok text => checkAndSave formats read root files (templates.set (root, file) text)
    else checkAndSave formats read root files templates

/-- The loops of `init`, over what `os.walk` yields for each of `templates_dirs`: a directory and its files. -/
def init (formats : List Bytes) (read : Bytes → Bytes → Except Exc Text) :
    List (Bytes × List Bytes) → Dict (Bytes × Bytes) Text → Dict (Bytes × Bytes) Text × Except Exc Unit
  | [], templates => (templates, .ok ())
  | (root, files) :: walked, templates =>
    match checkAndSave formats read root files templates with
    | (templates, .error e) => (templates, .error e)
    | (templates, .ok ()) => init formats read walked templates

/-- `_get_template(name)` -/
def getTemplate (format : TemplateFormat V) (name : Bytes) : Option Text :=
  (format.templates.find? fun kv => kv.1.2 = name).map Prod.snd

/-- `{k: v.decode() if isinstance(v, bytes) else v for k, v in context.items()}` -/
def decoded [RequestValue V] : Context V → Except Exc (Mapping V)
  | [] => .ok []
  | (k, slot) :: context =>
    let value : Except Exc (Text ⊕ Slot V) :=
      match slot with
      | .lazy _ => .ok (.inr slot)
      | .value v =>
        match RequestValue.asBytes v with
        | none => .ok (.inr slot)
        | some data =>
          match Text.decodeUtf8 data with
          | none => .error (.other "UnicodeDecodeError")
          | some text => .ok (.inl text)
    match value with
    | .error e => .error e
    | .ok value => (decoded context).map fun mapping => (k, value) :: mapping

/-- `context.update(scope)` -/
def update (context scope : Context V) : Context V := scope.foldl (fun d kv => d.set kv.1 kv.2) context

/-- The context when `render` begins to fill a template in. -/
def contextWith (context : Context V) : Option (ScopedRequest V) → Context V
  | none => context
  | some r => update context r.scope

/-- A template filled in with a context, and encoded. -/
def fill [RequestValue V] (format : TemplateFormat V) (template : Text) (context : Context V) : Except Exc Bytes :=
  match decoded context with
  | .error e => .error e
  | .ok mapping =>
    match safeSubstitute format.str mapping (templatePieces 0 template) with
    | .error e => .error e
    | .ok text =>
      match Text.encodeUtf8 text with
      | none => .error unicodeEncodeError
      | some data => .ok data

/-- `render(path, context, request)`, and the context as it is then. -/
def render [RequestValue V] (format : TemplateFormat V) (path : Bytes) (context : Context V)
    (request : Option (ScopedRequest V)) : Except Exc Bytes × Context V :=
  match format.getTemplate path with
  | none | some [] => (.error (.other "Exception"), context)
  | some template => (format.fill template (contextWith context request), contextWith context request)

end TemplateFormat

/-- What is asked of the values that a handler returns: a `Template` and a `dict`, whose keys are `str`, can be told from
other values. -/
class TemplateValue (V : Type) extends TextValue V where
  /-- The `path` and the `context` of a `Template`. -/
  asTemplate : V → Option (Bytes × Context V)
  asDict : V → Option (Context V)

namespace TemplateFormat

variable [TemplateValue V]

/-- The response for a context. No template has a name that is no `str`. -/
def respond (format : TemplateFormat V) (contentType : Bytes) (status : V → Nat) (depth : Nat) (path : Option Bytes)
    (context : Context V) (r : ScopedRequest V) : Except Exc (Result V) × ScopedRequest V :=
  match r.get depth (ascii "status") with
  | (.error e, r) => (.error e, r)
  | (.ok statusValue, r) =>
    match path.elim (.error (.other "Exception")) fun path => (format.render path context (some r)).1 with
    | .error e => (.error e, r)
    | .ok body =>
      (.ok (.response
        { status := (statusValue.map status).getD 200, body, headers := [(ascii "content-type", contentType)] }), r)

/-- What `middleware` does with a value, where `template` is what the scope has under this name. -/
def finishValue (format : TemplateFormat V) (contentType : Bytes) (status : V → Nat) (depth : Nat) (template : Option V)
    (v : V) (r : ScopedRequest V) : Except Exc (Result V) × ScopedRequest V :=
  match TemplateValue.asTemplate v with
  | some (path, context) => format.respond contentType status depth (some path) context r
  | none =>
    match template.filter PyValue.truthy, TemplateValue.asDict v with
    | some template, some context => format.respond contentType status depth (RequestValue.asStr template) context r
    | _, _ => (.ok (.value v), r)

/-- `middleware` -/
def middleware {η : Type} (format : TemplateFormat V) (contentType : Bytes) (status : V → Nat) (depth : Nat) :
    Middleware (ScopedRequest V) η (Except Exc (Result V) × ScopedRequest V) := fun r handler callNext =>
  match r.get depth (ascii "template") with
  | (.error e, r) => (.error e, r)
  | (.ok template, r) =>
    match callNext r handler with
    | (.ok (.value v), r) => format.finishValue contentType status depth template v r
    | answer => answer

end TemplateFormat

end Levin
