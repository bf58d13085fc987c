import Levin.Core.App
import Levin.Core.Connection
import Levin.Core.Parsers.HttpTools
import Levin.Core.Parsers.Hyper

/-!
# The server's parsers, and what it runs (`levin/core/server.py`)

A connection of the server has one parser of each class of `parsers_class`, in the
order HTTP/2, the simple HTTP/1 parser, the one on httptools. `run` is modelled up to
where `_manage` waits for the stop event.
-/

namespace Levin

/-- `Server(app, host, port)` -/
structure Server (V : Type) where
  app : V
  host : Framework.Bytes
  port : V

namespace Server

open Framework

/-- A parser of one of the default classes. -/
inductive Parser (σ : Type)
  | http2 (p : Hyper.Parser σ)
  | http1 (p : HttpSimple.Parser)
  | httpTools (p : HttpTools.Parser)

/-- Bytes in the place of a wire's. -/
def toWire (parsed : Parsed UInt8) : Parsed Wire :=
  { data := parsed.data.map .byte, requests := parsed.requests, close := parsed.close }

def yieldedToWire (out : Yielded UInt8) : Yielded Wire :=
  { chunks := out.chunks.map (·.map .byte), exc := out.exc }

variable {σ : Type} [H2Connection σ]

instance : ParserProtocol (Parser σ) Wire where
  connect
    | .http2 p => .http2 (ParserProtocol.connect p)
    | .http1 p => .http1 (ParserProtocol.connect p)
    | .httpTools p => .httpTools (ParserProtocol.connect p)
  handleRequest p data :=
    match p with
    | .http2 p =>
      let (result, p) := ParserProtocol.handleRequest p data
      (result, .http2 p)
    | .http1 p =>
      let (result, p) := ParserProtocol.handleRequest p data
      (result.map toWire, .http1 p)
    | .httpTools p =>
      let (result, p) := ParserProtocol.handleRequest p data
      (result.map toWire, .httpTools p)
  handleResponse p response request :=
    match p with
    | .http2 p =>
      let (out, response, p) := ParserProtocol.handleResponse p response request
      (out, response, .http2 p)
    | .http1 p =>
      let (out, response, p) := ParserProtocol.handleResponse p response request
      (yieldedToWire out, response, .http1 p)
    | .httpTools p =>
      let (out, response, p) := ParserProtocol.handleResponse p response request
      (yieldedToWire out, response, .httpTools p)
  pushSupport
    | .http2 p => ParserProtocol.pushSupport p
    | .http1 p => ParserProtocol.pushSupport p
    | .httpTools p => ParserProtocol.pushSupport p

/-- `[parser() for parser in self._parsers_class]`: `conn` is a new h2 connection, and `feedData` what
httptools does. -/
def parsers (conn : σ) (feedData : Bytes → HttpTools.Fed) : List (Parser σ) :=
  [.http2 { conn }, .http1 {}, .httpTools { feedData }]

/-- `handle_connection`: the connection for a new transport, once it has been made. -/
def handleConnection (conn : σ) (feedData : Bytes → HttpTools.Fed) (transport : Transport) :
    Connection (Parser σ) Wire :=
  Connection.connectionMade { parsers := parsers conn feedData, transport }

end Server

open Framework Bytes

variable {V : Type}

/-- What `run` does with its servers. -/
inductive RunEvent (V : Type)
  /-- `server.start()`, of the application of a server -/
  | start (app : V)
  /-- `loop.create_server`, in the task of a server -/
  | listen (server : Server V)

/-- The loop of `run` over the servers to start; what an application's `start` does is given. -/
def startServers (start : V → Except Exc Unit) : List (Server V) → List (RunEvent V) × Except Exc Unit
  | [] => ([], .ok ())
  | server :: servers =>
    match start server.app with
    | .ok () =>
      let rest := startServers start servers
      (.start server.app :: rest.1, rest.2)
    | .error e => ([.start server.app], .error e)

/-- `run(*servers)`: what raises in `start` is raised before any server listens. -/
def run (start : V → Except Exc Unit) (servers : List (Server V)) : List (RunEvent V) × Except Exc Unit :=
  match startServers start servers with
  | (log, .ok ()) => (log ++ servers.map .listen, .ok ())
  | (log, .error e) => (log, .error e)

/-- An argument of `run_apps`. -/
inductive AppArg (V : Type)
  /-- A list or a tuple. -/
  | sequence (items : List V)
  | single (v : V)

/-- The loop of `run_apps`, from the `index`-th argument on: the servers it makes. The port is another one for each
argument; the application may be that of the argument before. -/
def appServers [PyValue V] (index : Nat) (app : V) : List (AppArg V) → Except Exc (List (Server V))
  | [] => .ok []
  | arg :: args =>
    let append (app port : V) : Except Exc (List (Server V)) :=
      (appServers (index + 1) app args).map fun servers => { app, host := ascii "0.0.0.0", port } :: servers
    match arg with
    | .sequence [app, port] => append app port
    | .sequence _ => .error .ValueError
    | .single v => if index % 2 = 0 then append v PyValue.none else append app v

/-- `run_apps(*args)` -/
def runApps [PyValue V] (start : V → Except Exc Unit) (args : List (AppArg V)) : List (RunEvent V) × Except Exc Unit :=
  match appServers 0 PyValue.none args with
  | .ok servers => run start servers
  | .error e => ([], .error e)

end Levin
