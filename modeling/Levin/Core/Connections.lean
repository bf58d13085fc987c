import Levin.Core.EventLoop

/-!
# The connections of a server (`levin/core/server.py`, `levin/core/connection.py`)

`handle_connection` gives each new transport a connection of its own, with parsers of
its own. What the connections share is the module `levin.core.connection`, and in it
`response_500`: every one of them writes the same object.
-/

namespace Levin

inductive ServerEvent
  /-- `handle_connection`, and `connection_made` of the connection it returns. -/
  | made (k : Nat) (info : TransportInfo) (sslcontext : Bool)
  /-- An event of connection `k`. -/
  | of (k : Nat) (e : Event)
  deriving DecidableEq, Repr

/-- The connection that an event is about. -/
def ServerEvent.connection : ServerEvent → Option Nat
  | .made k _ _ | .of k _ => some k

/-- The connections that have been made, and the module's `response_500`. -/
structure Connections (π ω : Type) where
  connection : Nat → Option (Connection π ω) := fun _ => none
  response500 : Response := { status := 500, body := Framework.Bytes.ascii "Sorry" }

namespace Connections

variable {π ω : Type} [ParserProtocol π ω]

/-- The next state, if the event can happen: `parsers` are `[parser() for parser in self._parsers_class]`. -/
def step (parsers : List π) (s : Connections π ω) : ServerEvent → Option (Connections π ω)
  | .made k info sslcontext =>
    match s.connection k with
    | some _ => none
    | none => some { s with connection := Function.update s.connection k (some (.fresh parsers info sslcontext)) }
  | .of k e =>
    match s.connection k with
    | none => none
    | some c =>
      ({ c with response500 := s.response500 } : Connection π ω).step e |>.map fun c =>
        { connection := Function.update s.connection k (some c), response500 := c.response500 }

def Step (parsers : List π) (s : Connections π ω) (e : ServerEvent) (s' : Connections π ω) : Prop :=
  s.step parsers e = some s'

/-- One connection with the module to itself: made once, then its events. -/
def alone (parsers : List π) : Option (Connection π ω) → ServerEvent → Option (Option (Connection π ω))
  | none, .made _ info sslcontext => some (some (.fresh parsers info sslcontext))
  | some c, .of _ e => (c.step e).map some
  | _, _ => none

def Alone (parsers : List π) (s : Option (Connection π ω)) (e : ServerEvent) (s' : Option (Connection π ω)) : Prop :=
  alone parsers s e = some s'

end Connections

end Levin
