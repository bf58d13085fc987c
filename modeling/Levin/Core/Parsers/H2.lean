import Levin.Core.Common

/-!
# The interface of h2

`H2Connection σ` is what the HTTP/2 parser calls of `h2.connection.H2Connection`,
on connection objects with states in `σ`. The library is not part of the
repository: it is a parameter, and what it is documented to do is stated where it
is relied on. What goes over the wire is a list of HTTP/2 frames in the place of
their bytes, next to the bytes of HTTP/1 messages.
-/

namespace Levin

open Framework

/-- A header block: `(name, value)` pairs. -/
abbrev Fields := List (Bytes × Bytes)

/-- The frames an endpoint sends; `control` is any other than the first three. -/
inductive Frame
  | headers (stream : Nat) (fields : Fields) (endStream : Bool)
  | data (stream : Nat) (payload : Bytes) (endStream : Bool)
  | pushPromise (stream promised : Nat) (fields : Fields)
  | control (payload : Bytes)
  deriving DecidableEq, Repr

/-- What is written to the transport of an HTTP/2 connection. -/
inductive Wire
  | byte (b : UInt8)
  | frame (f : Frame)
  deriving DecidableEq, Repr

/-- `h2.events`: those the parser tells apart, and `other`. -/
inductive H2Event
  | RequestReceived (stream : Nat) (headers : Fields)
  | DataReceived (stream : Nat) (data : Bytes)
  | StreamEnded (stream : Nat)
  | StreamReset (stream : Nat)
  | ConnectionTerminated
  | other
  deriving DecidableEq, Repr

/-- The methods and attributes of `H2Connection` that the parser uses. -/
class H2Connection (σ : Type) where
  initiateConnection : σ → σ
  initiateUpgradeConnection : Bytes → σ → Except Exc Unit × σ
  clearOutboundDataBuffer : σ → σ
  dataToSend : σ → List Frame × σ
  receiveData : Bytes → σ → Except Exc (List H2Event) × σ
  /-- `remote_settings.enable_push` -/
  enablePush : σ → Bool
  getNextAvailableStreamId : σ → Except Exc Nat
  pushStream (streamId promisedStreamId : Nat) (requestHeaders : Fields) : σ → Except Exc Unit × σ
  endStream (streamId : Nat) : σ → Except Exc Unit × σ
  sendHeaders (streamId : Nat) (headers : Fields) : σ → Except Exc Unit × σ
  localFlowControlWindow (streamId : Nat) : σ → Except Exc Int
  maxOutboundFrameSize : σ → Nat
  sendData (streamId : Nat) (data : Bytes) (endStream : Bool) : σ → Except Exc Unit × σ

end Levin
