import Levin.Core.Typing

/-!
# The HTTP/1 parser (`levin/core/parsers/http_simple.py`)

`handle_request` parses each chunk on its own: the parser object has no state.
-/

namespace Levin.HttpSimple

open Framework Bytes

/-- `HTTP_STATUSES`: the phrases of `http.HTTPStatus`. -/
def HTTP_STATUSES : List (Nat × String) :=
  [(100, "Continue"), (101, "Switching Protocols"), (102, "Processing"),
   (200, "OK"), (201, "Created"), (202, "Accepted"), (203, "Non-Authoritative Information"),
   (204, "No Content"), (205, "Reset Content"), (206, "Partial Content"), (207, "Multi-Status"),
   (208, "Already Reported"), (226, "IM Used"),
   (300, "Multiple Choices"), (301, "Moved Permanently"), (302, "Found"), (303, "See Other"),
   (304, "Not Modified"), (305, "Use Proxy"), (307, "Temporary Redirect"),
   (308, "Permanent Redirect"),
   (400, "Bad Request"), (401, "Unauthorized"), (402, "Payment Required"), (403, "Forbidden"),
   (404, "Not Found"), (405, "Method Not Allowed"), (406, "Not Acceptable"),
   (407, "Proxy Authentication Required"), (408, "Request Timeout"), (409, "Conflict"),
   (410, "Gone"), (411, "Length Required"), (412, "Precondition Failed"),
   (413, "Request Entity Too Large"), (414, "Request-URI Too Long"),
   (415, "Unsupported Media Type"), (416, "Requested Range Not Satisfiable"),
   (417, "Expectation Failed"), (421, "Misdirected Request"), (422, "Unprocessable Entity"),
   (423, "Locked"), (424, "Failed Dependency"), (426, "Upgrade Required"),
   (428, "Precondition Required"), (429, "Too Many Requests"),
   (431, "Request Header Fields Too Large"), (451, "Unavailable For Legal Reasons"),
   (500, "Internal Server Error"), (501, "Not Implemented"), (502, "Bad Gateway"),
   (503, "Service Unavailable"), (504, "Gateway Timeout"), (505, "HTTP Version Not Supported"),
   (506, "Variant Also Negotiates"), (507, "Insufficient Storage"), (508, "Loop Detected"),
   (510, "Not Extended"), (511, "Network Authentication Required")]

/-- `HTTP_STATUSES.get(status)` -/
def statusPhrase (status : Nat) : Option Bytes :=
  (HTTP_STATUSES.find? fun s => s.1 = status).map fun s => ascii s.2

/-- `HTTP_HEADERS.get(k, k.capitalize())` -/
def headerName (k : Bytes) : Bytes :=
  if k = ascii "content-type" then ascii "Content-Type" else capitalize k

def CRLF : Bytes := [CR, LF]

/-- `_parse_first_line`: method, path and protocol. -/
def parseFirstLine (line : Bytes) : Except Exc (Bytes × Bytes × Bytes) :=
  match split 32 line with
  | [method, path, version] =>
    if contains (ascii "HTTP") version then .ok (strip method, strip path, strip version)
    else .error .ParseError
  | _ => .error .ParseError

/-- The local variables of `handle_request`. -/
structure Locals where
  method : Bytes := []
  path : Bytes := []
  protocol : Bytes := []
  body : Option Bytes := none
  headers : List (Bytes × Bytes) := []

/-- One turn of the loop of `handle_request`. -/
def parseLine (v : Locals) (line : Bytes) : Except Exc Locals :=
  if v.path = [] then
    match parseFirstLine line with
    | .error e => .error e
    | .ok (method, path, protocol) => .ok { v with method, path, protocol }
  else if line = [] then .ok { v with body := some [] }
  else
    match v.body with
    | some body => .ok { v with body := some (body ++ line) }
    | none =>
      -- `name, value = line.split(b":", 1)` fails to unpack a line without a colon.
      match split1 58 line with
      | none => .error .ValueError
      | some (name, value) => .ok { v with headers := v.headers ++ [(lower (strip name), strip value)] }

/-- The loop of `handle_request`. -/
def parseLines : Locals → List Bytes → Except Exc Locals
  | v, [] => .ok v
  | v, line :: lines =>
    match parseLine v line with
    | .error e => .error e
    | .ok v => parseLines v lines

/-- `Parser.handle_request`: the one request that it returns. -/
def parseRequest (data : Bytes) : Except Exc Request :=
  match parseLines {} (splitlines data) with
  | .error e => .error e
  | .ok v =>
    if v.path ≠ [] ∧ v.method ≠ [] ∧ v.protocol ≠ [] then
      .ok (.create v.path v.method v.body v.headers v.protocol)
    else .error .ParseError

/-- `Parser.handle_request` -/
def handleRequest (data : Bytes) : Except Exc (Parsed UInt8) :=
  match parseRequest data with
  | .error e => .error e
  | .ok request => .ok { data := [], requests := [request], close := false }

/-- `headers[b"Content-Length"] = ...`, for a response with a body. -/
def setContentLength (response : Response) : Response :=
  if response.body = [] then response
  else { response with headers := response.headers.set (ascii "Content-Length") (decimal response.body.length) }

/-- The header lines, each but the last ended by CRLF. -/
def headerLines (headers : Dict Bytes Bytes) : Bytes :=
  join CRLF (headers.map fun (k, v) => join (ascii ": ") [headerName k, v])

/-- `Parser.handle_response`. A status without a phrase ends it with a `TypeError`, as
`bytes + None` does, before the first `yield`. -/
def handleResponse (response : Response) : Yielded UInt8 × Response :=
  let response := setContentLength response
  match statusPhrase response.status with
  | none => ({ chunks := [], exc := some .TypeError }, response)
  | some phrase =>
    let statusLine := ascii "HTTP/1.1 " ++ decimal response.status ++ ascii " " ++ phrase ++ CRLF
    let body := if response.body = [] then [] else [CRLF ++ CRLF ++ response.body]
    ({ chunks := [statusLine, headerLines response.headers] ++ body ++ [CRLF], exc := none }, response)

/-- A parser object: it has no attributes. -/
structure Parser where
  deriving DecidableEq, Repr

instance : ParserProtocol Parser UInt8 where
  connect p := p
  handleRequest p data := (handleRequest data, p)
  handleResponse p response _ := ((handleResponse response).1, (handleResponse response).2, p)
  pushSupport _ := false

end Levin.HttpSimple
