import Levin.Core.Parsers.HttpSimple

/-!
# The HTTP/1 parser on httptools (`levin/core/parsers/http_tools.py`)

The library `httptools` is not part of the repository. A parser object has it as a
function: `feedData data` is what `HttpRequestParser(request).feed_data(data)` does.
-/

namespace Levin.HttpTools

open Framework Bytes

/-- The methods of `_PRequest`, as `httptools` calls them. -/
inductive Callback
  | onUrl (url : Bytes)
  | onHeader (name value : Bytes)
  | onBody (body : Bytes)
  | onMessageComplete
  deriving DecidableEq, Repr

/-- What `feed_data` raises. -/
inductive FeedError
  | HttpParserInvalidMethodError
  | other (e : Exc)
  deriving DecidableEq, Repr

/-- What `feed_data` does: the callbacks it makes, the exception that ends it, if one does, and what
`get_method` and `get_http_version` return from then on. -/
structure Fed where
  callbacks : List Callback
  exc : Option FeedError
  method : Bytes
  version : Bytes

/-- `_PRequest` -/
structure PRequest where
  headers : List (Bytes × Bytes) := []
  path : Option Bytes := none
  body : Bytes := []
  ready : Bool := false

def PRequest.call (r : PRequest) : Callback → PRequest
  | .onUrl url => { r with path := some url }
  | .onHeader name value => { r with headers := r.headers ++ [(lower name, value)] }
  | .onBody body => { r with body }
  | .onMessageComplete => { r with ready := true }

structure Parser where
  feedData : Bytes → Fed

/-- `Parser.handle_request` -/
def handleRequest (data : Bytes) (p : Parser) : Except Exc (Parsed UInt8) :=
  let fed := p.feedData data
  let request := fed.callbacks.foldl PRequest.call {}
  match fed.exc with
  | some .HttpParserInvalidMethodError => .error .ParseError
  | some (.other e) => .error e
  | none =>
    if request.ready then
      -- `on_url` comes before `on_message_complete`, so that there is a path.
      .ok {
        data := [],
        requests := [.create (request.path.getD []) fed.method (some request.body) request.headers
          (ascii "HTTP/" ++ fed.version)],
        close := false }
    else .error .ParseError

instance : ParserProtocol Parser UInt8 where
  connect p := p
  handleRequest p data := (handleRequest data p, p)
  handleResponse p response _ := ((HttpSimple.handleResponse response).1, (HttpSimple.handleResponse response).2, p)
  pushSupport _ := false

end Levin.HttpTools
