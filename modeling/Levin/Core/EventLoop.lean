import Levin.Core.Connection
import Levin.Core.Parsers.HttpSimple
import Levin.Framework.Run

/-!
# The event loop

The events of a connection's life, each a step of the event loop that nothing
interrupts, and the states they lead to. An event that cannot happen in a state
has no next state. asyncio delivers no data on a closing transport, closes the
transport of a protocol whose `data_received` raises, and closes it before it
calls `connection_lost`.
-/

namespace Levin

open Framework

inductive Event
  | dataReceived (data : Bytes)
  /-- The handler of request `f` is done. -/
  | handlerDone (f : Nat) (result : HandlerResult)
  /-- The handler of the `k`-th push of request `f` is done. -/
  | pushDone (f k : Nat) (result : HandlerResult)
  /-- The future of request `f` learns how its task ended. -/
  | settle (f : Nat)
  /-- The task of request `f` is cancelled from outside. -/
  | cancelTask (f : Nat)
  /-- The transport starts to close on its own: end of file, or a failed write. -/
  | transportClosing
  | connectionLost
  | close
  deriving DecidableEq, Repr

namespace Connection

variable {π ω : Type} [ParserProtocol π ω]

/-- `data_received` as asyncio calls it. -/
def receive (data : Bytes) (c : Connection π ω) : Connection π ω :=
  match c.dataReceived data with
  | (c, none) => c
  | (c, some e) => { c.setClosing with escaped := c.escaped ++ [e] }

/-- The next state, if the event can happen. -/
def step (c : Connection π ω) : Event → Option (Connection π ω)
  | .dataReceived data => if c.transport.closing then none else some (c.receive data)
  | .handlerDone f result =>
    if (c.task f).state = .handling then some (c.handleRequest f result) else none
  | .pushDone f k result => if k ∈ (c.task f).running then some (c.pushDone f k result) else none
  | .settle f =>
    match (c.task f).state with
    | .ended outcome => some (c.settle f outcome)
    | _ => none
  | .cancelTask f =>
    if (c.task f).state = .handling ∨ (c.task f).state = .pushing then some (c.stopTask f) else none
  | .transportClosing => some c.setClosing
  | .connectionLost => some c.setClosing.connectionLost
  | .close => some c.close.1

/-- The step relation. -/
def Step (c : Connection π ω) (e : Event) (c' : Connection π ω) : Prop := c.step e = some c'

theorem Step.det ⦃c : Connection π ω⦄ ⦃e : Event⦄ ⦃c₁ c₂ : Connection π ω⦄ (h₁ : Step c e c₁)
    (h₂ : Step c e c₂) : c₁ = c₂ :=
  Option.some.inj (h₁.symm.trans h₂)

/-- `Connection(parsers, handler)` once `connection_made(transport)` has been called. -/
def fresh (parsers : List π) (info : TransportInfo) (sslcontext : Bool) : Connection π ω :=
  connectionMade { parsers, transport := { info, sslcontext } }

/-- The states a connection can be in between two steps of the event loop. -/
def Reachable (c : Connection π ω) : Prop :=
  ∃ (parsers : List π) (info : TransportInfo) (sslcontext : Bool) (es : List Event),
    Run Step (fresh parsers info sslcontext) es c

/-- The state after a list of events, if each can happen. -/
def run (c : Connection π ω) : List Event → Option (Connection π ω)
  | [] => some c
  | e :: es => (c.step e).bind (·.run es)

theorem run_sound {c c' : Connection π ω} {es : List Event} (h : c.run es = some c') :
    Run Step c es c' := by
  induction es generalizing c with
  | nil =>
    obtain rfl := Option.some.inj h
    exact .nil
  | cons e es ih =>
    obtain ⟨c₁, h₁, h₂⟩ := Option.bind_eq_some_iff.mp h
    exact .cons h₁ (ih h₂)

/-- `create_connection` of the tests: a connection with the simple HTTP/1 parser alone. -/
def createConnection : Connection HttpSimple.Parser UInt8 :=
  fresh [{}] { peername := (Bytes.ascii "10.0.0.1", 50000), sockname := (Bytes.ascii "10.0.0.2", 8000) } false

/-- The chunk of a request without headers. -/
def chunk (path : String) : Bytes := Bytes.ascii ("GET " ++ path ++ " HTTP/1.1\r\n\r\n")

/-- One request received, its handler not done. -/
def onePending : Connection HttpSimple.Parser UInt8 := createConnection.receive (chunk "/")

/-- Two requests received, neither handler done. -/
def twoPending : Connection HttpSimple.Parser UInt8 := onePending.receive (chunk "/q/")

/-- A handler that returns `Response(status=200, body=b"ok")`. -/
def returnsOk : HandlerResult := .returned { status := 200, body := Bytes.ascii "ok" }

end Connection

end Levin
