import Levin.Core.Parsers.H2
import Levin.Core.Parsers.HttpSimple

/-!
# The HTTP/2 parser (`levin/core/parsers/hyper.py`)

`handle_request` feeds a chunk to h2 and turns the events into requests, or
upgrades an HTTP/1 request that asks for it. `handle_response` sends a response,
or promises and sends a pushed one, as far as the flow-control window allows. It
is a generator: `resume` is one call of `next`, between two of which anything may
happen to the connection.
-/

namespace Levin.Hyper

open Framework Bytes

/-- A parser object: its h2 connection and the requests that have not ended yet. -/
structure Parser (σ : Type) where
  conn : σ
  streams : Dict Nat Request := []

/-- `_get_request_from_event` -/
def requestFromEvent (streamId : Nat) (headers : Fields) : Request :=
  let init : Bytes × Bytes × Fields := (ascii "GET", ascii "/", [])
  let (method, path, headers) := headers.foldl (fun (method, path, hs) (name, value) =>
    if (ascii ":").isPrefixOf name then
      if name = ascii ":method" then (value, path, hs)
      else if name = ascii ":path" then (method, value, hs)
      else (method, path, hs)
    else (method, path, hs ++ [(name, value)])) init
  .create path method (some []) headers (ascii "HTTP/2") streamId

variable {σ : Type} [H2Connection σ]

/-- What one event adds to the result of `handle_request`. -/
inductive EventResult
  | request (r : Request)
  | close
  | nothing

/-- `_parse_event`: an ended stream that was never opened is a `KeyError`. -/
def parseEvent (p : Parser σ) : H2Event → Except Exc EventResult × Parser σ
  | .RequestReceived streamId headers =>
    (.ok .nothing, { p with streams := p.streams.set streamId (requestFromEvent streamId headers) })
  | .DataReceived streamId data =>
    match p.streams.get? streamId with
    | none => (.ok .nothing, p)
    | some r =>
      (.ok .nothing, { p with streams := p.streams.set streamId { r with body := r.body.map (· ++ data) } })
  | .StreamEnded streamId =>
    match p.streams.pop? streamId with
    | none => (.error .KeyError, p)
    | some (r, streams) => (.ok (.request r), { p with streams })
  | .ConnectionTerminated => (.ok .close, p)
  | .StreamReset _ | .other => (.ok .nothing, p)

/-- The loop of `handle_request` over the events. -/
def parseEvents : List H2Event → Parsed Wire → Parser σ → Except Exc (Parsed Wire) × Parser σ
  | [], parsed, p => (.ok parsed, p)
  | event :: events, parsed, p =>
    match parseEvent p event with
    | (.error e, p) => (.error e, p)
    | (.ok .nothing, p) => parseEvents events parsed p
    | (.ok .close, p) => parseEvents events { parsed with close := true } p
    | (.ok (.request r), p) => parseEvents events { parsed with requests := parsed.requests ++ [r] } p

/-- The response that switches to HTTP/2. -/
def upgradeResponse : Response where
  status := 101
  body := []
  headers := [(ascii "Connection", ascii "Upgrade"), (ascii "Upgrade", ascii "h2c")]

/-- `handle_http1_to_http2`: the request, if there is one, and the bytes to send, if it asks
for an upgrade. -/
def handleHttp1ToHttp2 (data : Bytes) : Except Exc (Option Request × Bytes) :=
  if contains (ascii "HTTP") data then
    match HttpSimple.handleRequest data with
    | .error e => .error e
    | .ok parsed =>
      match parsed.requests with
      | [request] =>
        let settings := (Dict.get? request.headers (ascii "http2-settings")).getD []
        if Dict.get? request.headers (ascii "upgrade") ≠ some (ascii "h2c") ∨ settings = [] then
          .ok (some request, [])
        else
          .ok (some { request with stream := 1 }, (HttpSimple.handleResponse upgradeResponse).1.chunks.flatten)
      | _ => .ok (none, [])
  else .ok (none, [])

/-- `_handle_http1` -/
def handleHttp1 (data : Bytes) (p : Parser σ) : Except Exc (List Wire × List Request) × Parser σ :=
  match handleHttp1ToHttp2 data with
  | .error e => (.error e, p)
  | .ok (_, []) => (.error .ParseError, p)
  | .ok (none, _) => (.error .AttributeError, p)
  | .ok (some request, toSend) =>
    let conn := H2Connection.clearOutboundDataBuffer p.conn
    match Dict.get? request.headers (ascii "http2-settings") with
    | none => (.error .KeyError, { p with conn })
    | some settings =>
      match H2Connection.initiateUpgradeConnection settings conn with
      | (.error e, conn) => (.error e, { p with conn })
      | (.ok (), conn) =>
        let (frames, conn) := H2Connection.dataToSend conn
        (.ok ((toSend ++ HttpSimple.CRLF).map .byte ++ frames.map .frame, [request]), { p with conn })

/-- `Parser.handle_request` -/
def handleRequest (data : Bytes) (p : Parser σ) : Except Exc (Parsed Wire) × Parser σ :=
  match H2Connection.receiveData data p.conn with
  | (.ok events, conn) =>
    let (frames, conn) := H2Connection.dataToSend conn
    parseEvents events { data := frames.map .frame, requests := [], close := false } { p with conn }
  | (.error e, conn) =>
    if e.isProtocolError then
      match handleHttp1 data { p with conn } with
      | (.error e, p) => (.error e, p)
      | (.ok (toSend, requests), p) => (.ok { data := toSend, requests, close := false }, p)
    else (.error e, { p with conn })

/-- `request_headers` of a push. -/
def pushHeaders (request : Request) (sockname : Address) : Fields :=
  [(ascii ":method", request.method), (ascii ":path", request.rawPath), (ascii ":scheme", request.scheme),
   (ascii ":authority", sockname.1 ++ ascii ":" ++ decimal sockname.2)] ++ request.headers

/-- The branch of `handle_response` for a pushed response: the stream promised for it, or
`none` where h2 refuses the promise and the generator returns. -/
def promise (request : Request) (conn : σ) : Except Exc (Option Nat) × σ :=
  match request.transportInfo with
  | none => (.error .AttributeError, conn)
  | some info =>
    match H2Connection.getNextAvailableStreamId conn with
    | .error e => (.error e, conn)
    | .ok streamId =>
      match H2Connection.pushStream request.stream streamId (pushHeaders request info.sockname) conn with
      | (.error e, conn) => (if e.isProtocolError then .ok none else .error e, conn)
      | (.ok (), conn) =>
        match H2Connection.endStream request.stream conn with
        | (.error e, conn) => (.error e, conn)
        | (.ok (), conn) => (.ok (some streamId), conn)

/-- The loop of `handle_response`: `stream` is the request's stream, whose window it asks
for, and `streamId` the one it sends on. Each turn but the last sends at least one byte
unless the frame size is 0, so that `n` turns are enough for a body shorter than `n`. -/
def sendLoop (stream streamId : Nat) (pushes : List Push) : Nat → Bytes → σ → List (List Frame) × Option Exc × σ
  | 0, _, conn => ([], none, conn)
  | n + 1, data, conn =>
    match H2Connection.localFlowControlWindow stream conn with
    | .error e => ([], some e, conn)
    | .ok window =>
      if window < 1 then ([], none, conn)
      else
        let chunkSize := min (min window.toNat data.length) (H2Connection.maxOutboundFrameSize conn)
        let endStream := pushes.isEmpty && decide (chunkSize ≥ data.length)
        match H2Connection.sendData streamId (data.take chunkSize) endStream conn with
        | (.error e, conn) => ([], if e.isProtocolError then none else some e, conn)
        | (.ok (), conn) =>
          let (frames, conn) := H2Connection.dataToSend conn
          let data := data.drop chunkSize
          if data = [] then ([frames], none, conn)
          else
            let (chunks, exc, conn) := sendLoop stream streamId pushes n data conn
            (frames :: chunks, exc, conn)

/-- `response_headers` -/
def responseHeaders (response : Response) : Fields :=
  (ascii ":status", decimal response.status) :: response.headers

/-- `handle_response` from `send_headers` on, on the stream `streamId`. -/
def sendResponse (response : Response) (stream streamId : Nat) (conn : σ) : List (List Frame) × Option Exc × σ :=
  match H2Connection.sendHeaders streamId (responseHeaders response) conn with
  | (.error e, conn) => ([], some e, conn)
  | (.ok (), conn) =>
    sendLoop stream streamId response.pushes (response.body.length + 1) response.body conn

/-- What `handle_response` sends of `response`, once its headers are complete. -/
def send (response : Response) (request : Request) (conn : σ) : List (List Frame) × Option Exc × σ :=
  if response.push then
    match promise request conn with
    | (.error e, conn) => ([], some e, conn)
    | (.ok none, conn) => ([], none, conn)
    | (.ok (some streamId), conn) => sendResponse response request.stream streamId conn
  else sendResponse response request.stream request.stream conn

/-- `response.headers[b"content-length"] = ...` -/
def setContentLength (response : Response) : Response :=
  { response with headers := response.headers.set (ascii "content-length") (decimal response.body.length) }

/-- `Parser.handle_response` -/
def handleResponse (response : Response) (request : Request) (p : Parser σ) :
    Yielded Wire × Response × Parser σ :=
  let response := setContentLength response
  let (chunks, exc, conn) := send response request p.conn
  ({ chunks := chunks.map (·.map .frame), exc }, response, { p with conn })

instance : ParserProtocol (Parser σ) Wire where
  connect p := { p with conn := H2Connection.initiateConnection p.conn }
  handleRequest p data := handleRequest data p
  handleResponse p response request := handleResponse response request p
  pushSupport p := H2Connection.enablePush p.conn

/-! ## One call of `next` -/

/-- The generator of `handle_response` between two calls of `next`. -/
inductive Generator
  | created
  /-- At `yield`: it sends on `streamId`, and `data` is left of the body. -/
  | suspended (streamId : Nat) (data : Bytes)
  | ended (exc : Option Exc)
  deriving DecidableEq, Repr

/-- A chunk of a body: what `send_data` has been called with, on the connection `conn`, and
what is yielded with it. -/
structure Chunk (σ : Type) where
  conn : σ
  streamId : Nat
  payload : Bytes
  endStream : Bool
  frames : List Frame

/-- What a call of `next` comes to: the chunk it sends, if any, the generator and the connection. -/
structure Turn (σ : Type) where
  chunk : Option (Chunk σ) := none
  generator : Generator
  conn : σ

/-- `chunk_size` -/
def chunkSize (window : Int) (data : Bytes) (conn : σ) : Nat :=
  min (min window.toNat data.length) (H2Connection.maxOutboundFrameSize conn)

/-- A turn of the loop, up to its `yield` or the end. -/
def sendTurn (stream streamId : Nat) (pushes : List Push) (data : Bytes) (conn : σ) : Turn σ :=
  match H2Connection.localFlowControlWindow stream conn with
  | .error e => { generator := .ended (some e), conn }
  | .ok window =>
    if window < 1 then { generator := .ended none, conn }
    else
      let size := chunkSize window data conn
      let endStream := pushes.isEmpty && decide (size ≥ data.length)
      match H2Connection.sendData streamId (data.take size) endStream conn with
      | (.error e, conn) => { generator := .ended (if e.isProtocolError then none else some e), conn }
      | (.ok (), sent) =>
        let (frames, next) := H2Connection.dataToSend sent
        { chunk := some { conn, streamId, payload := data.take size, endStream, frames }
          generator := .suspended streamId (data.drop size)
          conn := next }

/-- From `send_headers` to the first `yield`, on the stream `streamId`. -/
def startResponse (response : Response) (stream streamId : Nat) (conn : σ) : Turn σ :=
  match H2Connection.sendHeaders streamId (responseHeaders response) conn with
  | (.error e, conn) => { generator := .ended (some e), conn }
  | (.ok (), conn) => sendTurn stream streamId response.pushes response.body conn

/-- From the beginning to the first `yield`. -/
def start (response : Response) (request : Request) (conn : σ) : Turn σ :=
  if response.push then
    match promise request conn with
    | (.error e, conn) => { generator := .ended (some e), conn }
    | (.ok none, conn) => { generator := .ended none, conn }
    | (.ok (some streamId), conn) => startResponse response request.stream streamId conn
  else startResponse response request.stream request.stream conn

/-- `next(generator)`; one that has ended stays as it is. -/
def resume (response : Response) (request : Request) (generator : Generator) (conn : σ) : Turn σ :=
  match generator with
  | .created => start (setContentLength response) request conn
  | .suspended streamId data =>
    if data = [] then { generator := .ended none, conn }
    else sendTurn request.stream streamId response.pushes data conn
  | .ended exc => { generator := .ended exc, conn }

end Levin.Hyper
