import Levin.Core.Common

/-!
# What a connection needs of a parser (`levin/core/typing.py`)

`π` is the type of a parser object's state and `ω` the type of what goes over
the wire: bytes or, where HTTP/2 frames take the place of their bytes, those.
-/

namespace Levin

open Framework

/-- What `handle_request` returns: bytes to send, the requests and whether to close. -/
structure Parsed (ω : Type) where
  data : List ω
  requests : List Request
  close : Bool
  deriving DecidableEq, Repr

/-- What the generator `handle_response` yields, and the exception that ends it, if one does. -/
structure Yielded (ω : Type) where
  chunks : List (List ω)
  exc : Option Exc
  deriving DecidableEq, Repr

/-- `ParserProtocol`. `handle_response` writes into the response's headers, so it also
returns the response it leaves. -/
class ParserProtocol (π : Type) (ω : outParam Type) where
  connect : π → π
  handleRequest : π → Bytes → Except Exc (Parsed ω) × π
  handleResponse : π → Response → Request → Yielded ω × Response × π
  /-- `getattr(parser, "push_support", False)` -/
  pushSupport : π → Bool

end Levin
