import Levin.Framework.Bytes
import Levin.Framework.Dict

/-!
# Requests, responses and pushes (`levin/core/common.py`)

A request's scope holds values of any type under any key; the core of the server
reads and writes one of its entries, `get_transport_info`, which is the field
`transportInfo` here.
-/

namespace Levin

open Framework Bytes

/-- The exceptions the core raises, catches or lets through. -/
inductive Exc
  | ParseError
  | CloseException
  | ValueError
  | TypeError
  | KeyError
  | AttributeError
  | InvalidStateError
  /-- `h2.exceptions.ProtocolError`, of which every other exception of h2 is a subclass. -/
  | ProtocolError
  | StreamClosedError
  /-- Any other exception, of a handler or of a library. -/
  | other (name : String)
  deriving DecidableEq, Repr

/-- `except (StreamClosedError, ProtocolError)`, and `except ProtocolError`: the first is a
subclass of the second. -/
def Exc.isProtocolError : Exc → Bool
  | ProtocolError | StreamClosedError => true
  | _ => false

/-- `_create_headers_map` -/
def createHeadersMap (headers : List (Bytes × Bytes)) : Dict Bytes Bytes :=
  let collected := headers.foldl (fun d (name, value) => Dict.appendAt (lower name) value d) []
  Dict.ofItems (collected.map fun (name, value) => (lower name, join (ascii "; ") value))

/-- A value of type `str` or `bytes`; a `str` is the bytes of its UTF-8. -/
inductive StrOrBytes
  | str (text : Bytes)
  | bytes (value : Bytes)
  deriving DecidableEq, Repr

/-- The value, encoded if it is a `str`. -/
def StrOrBytes.encoded : StrOrBytes → Bytes
  | str text => text
  | bytes value => value

/-- An address as the transport gives it: `(host, port)`. -/
abbrev Address := Bytes × Nat

/-- What `request.get_transport_info()` returns: `peername` and `sockname`. -/
structure TransportInfo where
  peername : Address
  sockname : Address
  deriving DecidableEq, Repr

structure Request where
  rawPath : Bytes
  method : Bytes
  body : Option Bytes
  headers : Dict Bytes Bytes
  stream : Nat
  protocol : Bytes
  scheme : Bytes
  transportInfo : Option TransportInfo
  deriving DecidableEq, Repr

/-- `Request(path, method, body, headers, protocol, stream, scheme)`, with the default
`stream=0` and `scheme=b"http"`. -/
def Request.create (path method : Bytes) (body : Option Bytes) (headers : List (Bytes × Bytes))
    (protocol : Bytes) (stream : Nat := 0) (scheme : Bytes := ascii "http") : Request where
  rawPath := path
  method := method
  body := body
  headers := createHeadersMap headers
  stream := stream
  protocol := protocol
  scheme := scheme
  transportInfo := none

/-- `request.set("get_transport_info", ..., lazy=True)`: the first `set` of a key wins. -/
def Request.setTransportInfo (r : Request) (info : TransportInfo) : Request :=
  { r with transportInfo := r.transportInfo.or (some info) }

structure Push where
  path : Bytes
  method : Bytes := ascii "GET"
  deriving DecidableEq, Repr

structure Response where
  status : Nat
  body : Bytes
  headers : Dict Bytes Bytes := []
  pushes : List Push := []
  push : Bool := false
  deriving DecidableEq, Repr

end Levin
