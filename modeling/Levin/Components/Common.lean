import Levin.Core.Scope
import Levin.Framework.Text
import Levin.Framework.Url

/-!
# The attributes of a request (`levin/components/common.py`)

`PatchRequest` gives a request its attributes, which are computed when they are asked
for. `parse_url`, `parse_query_params`, `json_loads` and the encodings other than the
default one are parameters.
-/

namespace Levin

open Framework Bytes

variable {V : Type} [RequestValue V]

def DEFAULT_ENCODING : Bytes := ascii "iso-8859-1"

def CONTENT_TYPE_HEADER : Bytes := ascii "content-type"

/-- `s.split(sep, 1)[0]` -/
def firstPart (sep : UInt8) (s : Bytes) : Bytes :=
  match split1 sep s with
  | some (first, _) => first
  | none => s

/-- What is read of the result of `parse_url`. -/
structure ParsedUrl where
  path : Bytes
  query : Bytes
  deriving DecidableEq, Repr

/-- `urlparse` -/
def urlparse (v : Url.Version) (url : Bytes) : Except Exc ParsedUrl :=
  match Url.urlparse v url with
  | none => .error .ValueError
  | some parsed => .ok { path := parsed.path, query := parsed.query }

structure PatchRequest (V : Type) [RequestValue V] where
  jsonLoads : Text → Except Exc V
  jsonContentType : Bytes := ascii "application/json"
  parseUrl : Bytes → Except Exc ParsedUrl
  /-- `parse_query_params`, and `{}`: dictionaries. -/
  parseQueryParams : Bytes → Except Exc (Other V)
  noParams : Other V
  /-- `data.decode(encoding)`, for the other encodings. -/
  codec : Bytes → Bytes → Except Exc Text

namespace PatchRequest

/-- The loop of `_encoding`. What is returned is the name of the parameter; `decode` makes text of it. -/
def encodingFrom : List Bytes → Bytes
  | [] => DEFAULT_ENCODING
  | param :: params =>
    if 61 ∉ param ∨ strip (firstPart 61 (strip param)) ≠ ascii "charset" then encodingFrom params
    else lower (strip (firstPart 61 (strip param)))

/-- `_encoding` -/
def encoding (request : Request) : Bytes :=
  match request.headers.get? CONTENT_TYPE_HEADER with
  | none => DEFAULT_ENCODING
  | some contentType =>
    if contentType = [] ∨ 59 ∉ contentType then DEFAULT_ENCODING else encodingFrom (Bytes.split 59 contentType).tail

/-- `_content_type` -/
def contentType (request : Request) : Option Bytes :=
  match request.headers.get? CONTENT_TYPE_HEADER with
  | none => none
  | some contentType => if contentType = [] then none else some (firstPart 59 contentType)

/-- `data.decode(encoding)` -/
def decode (patch : PatchRequest V) (encoding data : Bytes) : Except Exc Text :=
  if encoding = DEFAULT_ENCODING then .ok (Text.decodeLatin1 data) else patch.codec encoding data

/-- `_json` -/
def json (patch : PatchRequest V) (request : Request) : LazyFunc V :=
  .attr (ascii "content_type") fun contentType =>
    if RequestValue.asBytes contentType = some patch.jsonContentType then
      match request.body with
      | none => .raise .AttributeError
      | some body =>
        .attr (ascii "encoding") fun encoding =>
          match RequestValue.asStr encoding with
          | none => .raise .TypeError
          | some encoding =>
            match patch.decode encoding body with
            | .error e => .raise e
            | .ok text =>
              match patch.jsonLoads text with
              | .error e => .raise e
              | .ok v => .ret v
    else .ret PyValue.none

/-- `_parse_url`, and which of its results is taken. -/
def parseRawPath (patch : PatchRequest V) (request : Request) (taken : V → V → V) : LazyFunc V :=
  match patch.parseUrl request.rawPath with
  | .error e => .raise e
  | .ok parsed =>
    .set (ascii "path") (RouteValue.bytes parsed.path)
      (match patch.parseQueryParams parsed.query with
      | .error e => .raise e
      | .ok params => .set (ascii "query_params") params.1 (.ret (taken (RouteValue.bytes parsed.path) params.1)))

/-- `_path` -/
def path (patch : PatchRequest V) (request : Request) : LazyFunc V :=
  if 63 ∉ request.rawPath then .ret (RouteValue.bytes request.rawPath)
  else patch.parseRawPath request fun path _ => path

/-- `_query_params` -/
def queryParams (patch : PatchRequest V) (request : Request) : LazyFunc V :=
  if 63 ∉ request.rawPath then .ret patch.noParams.1
  else patch.parseRawPath request fun _ params => params

/-- The request with the attributes. -/
def patched (patch : PatchRequest V) (r : ScopedRequest V) : ScopedRequest V :=
  let r := r.set (ascii "data") (.lazy fun _ => .ret PyValue.none)
  let r := r.set (ascii "path") (.lazy patch.path)
  let r := r.set (ascii "query_params") (.lazy patch.queryParams)
  let r := r.set (ascii "json") (.lazy patch.json)
  let r := r.set (ascii "content_type") (.lazy fun request =>
    .ret (((contentType request).map RouteValue.bytes).getD PyValue.none))
  r.set (ascii "encoding") (.lazy fun request => .ret (RouteValue.str (encoding request)))

/-- `middleware` -/
def middleware {η α : Type} (patch : PatchRequest V) : Middleware (ScopedRequest V) η α :=
  fun r handler callNext => callNext (patch.patched r) handler

end PatchRequest

end Levin
