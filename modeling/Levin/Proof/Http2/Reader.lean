import Levin.Proof.Http2.Reference
import Mathlib.Algebra.GroupWithZero.Nat

/-!
# A small h2 that reads

`Reader` is an h2 connection as far as requests need one, and so that runs on it
can be computed. It reads HTTP/2 frames from their bytes: HEADERS whose fields are
entries of HPACK's static table, DATA without padding, RST_STREAM, and of the
others only that they have come. What it sends, it sends as `Reference` does.
-/

namespace Levin

open Framework Bytes

/-- An h2 connection: what has come and is not read yet, and the window DATA may fill. -/
structure Reader where
  sender : Reference := {}
  buffer : Bytes := []
  /-- The client's preface is still to come. -/
  preface : Bool := true
  window : Int := 65535

namespace Reader

/-- The first bytes a client sends. -/
def clientPreface : Bytes := ascii "PRI * HTTP/2.0\r\n\r\nSM\r\n\r\n"

/-- A frame as it is read. -/
structure RawFrame where
  kind : UInt8
  flags : UInt8
  stream : Nat
  payload : Bytes

/-- The first frame and what follows it; `none` while it is not complete. -/
def rawFrame? : Bytes → Option (RawFrame × Bytes)
  | l₁ :: l₂ :: l₃ :: kind :: flags :: a :: b :: c :: d :: bs =>
    let n := Reference.word 0 l₁ l₂ l₃
    if n ≤ bs.length then
      some ({ kind, flags, stream := Reference.word a b c d, payload := bs.take n }, bs.drop n)
    else none
  | _ => none

/-- The entries 2 to 7 of the static table. -/
def staticField? : UInt8 → Option (Bytes × Bytes)
  | 0x82 => some (ascii ":method", ascii "GET")
  | 0x83 => some (ascii ":method", ascii "POST")
  | 0x84 => some (ascii ":path", ascii "/")
  | 0x85 => some (ascii ":path", ascii "/index.html")
  | 0x86 => some (ascii ":scheme", ascii "http")
  | 0x87 => some (ascii ":scheme", ascii "https")
  | _ => none

/-- The events of a frame, each with its flow-controlled length; `none` for a frame that is refused. -/
def events? (f : RawFrame) : Option (List (H2Event × Nat)) :=
  let ended := if f.flags &&& 1 = 1 then [(.StreamEnded f.stream, 0)] else []
  match f.kind with
  | 0 => some ((.DataReceived f.stream f.payload, f.payload.length) :: ended)
  | 1 => (f.payload.mapM staticField?).map fun fields => (.RequestReceived f.stream fields, 0) :: ended
  | 3 => some [(.StreamReset f.stream, 0)]
  | 4 | 6 | 8 => some [(.other, 0)]
  | _ => none

def total (events : List (H2Event × Nat)) : Nat := (events.map Prod.snd).sum

/-- Reads at most `n` frames: the events, and whether a frame was refused. -/
def read : Nat → Reader → List (H2Event × Nat) × Bool × Reader
  | 0, r => ([], false, r)
  | n + 1, r =>
    match rawFrame? r.buffer with
    | none => ([], false, r)
    | some (f, rest) =>
      match events? f with
      | none => ([], true, { r with buffer := rest })
      | some events =>
        if r.window < total events then ([], true, { r with buffer := rest })
        else
          let (more, refused, r) := read n { r with buffer := rest, window := r.window - total events }
          (events ++ more, refused, r)

/-- A chunk is read as far as it is complete: each frame takes nine bytes at least. -/
def readChunk (data : Bytes) (r : Reader) : List (H2Event × Nat) × Bool × Reader :=
  let r := { r with buffer := r.buffer ++ data }
  if r.preface then
    if clientPreface.isPrefixOf r.buffer then
      read r.buffer.length { r with buffer := r.buffer.drop clientPreface.length, preface := false }
    else ([], !r.buffer.isPrefixOf clientPreface, r)
  else read r.buffer.length r

def receiveData (data : Bytes) (r : Reader) : Except Exc (List H2Event) × Reader :=
  match r.readChunk data with
  | (_, true, r) => (.error .ProtocolError, r)
  | (events, false, r) => (.ok (events.map Prod.fst), r)

/-- An operation that only sends. -/
def sending {α : Type} (f : Reference → α × Reference) (r : Reader) : α × Reader :=
  ((f r.sender).1, { r with sender := (f r.sender).2 })

instance : H2Connection Reader where
  initiateConnection r := { r with sender := H2Connection.initiateConnection r.sender }
  initiateUpgradeConnection settings r :=
    r.sending fun s => H2Connection.initiateUpgradeConnection settings (H2Connection.initiateConnection s)
  clearOutboundDataBuffer r := { r with sender := H2Connection.clearOutboundDataBuffer r.sender }
  dataToSend r := r.sending H2Connection.dataToSend
  receiveData data r := r.receiveData data
  enablePush r := H2Connection.enablePush r.sender
  getNextAvailableStreamId r := H2Connection.getNextAvailableStreamId r.sender
  pushStream s t fields r := r.sending (H2Connection.pushStream s t fields)
  endStream s r := r.sending (H2Connection.endStream s)
  sendHeaders t fields r := r.sending (H2Connection.sendHeaders t fields)
  localFlowControlWindow t r := H2Connection.localFlowControlWindow t r.sender
  maxOutboundFrameSize r := H2Connection.maxOutboundFrameSize r.sender
  sendData t data endStream r := r.sending (H2Connection.sendData t data endStream)

/-! ## Frames as a client writes them -/

/-- The bytes of a frame with a payload of less than 256 bytes on a stream below 256. -/
def frame (kind flags stream : UInt8) (payload : Bytes) : Bytes :=
  [0, 0, UInt8.ofNat payload.length, kind, flags, 0, 0, 0, stream] ++ payload

/-- A request for `/`, without the end of the stream. -/
def headersFrame (method stream : UInt8) : Bytes := frame 1 4 stream [method, 0x84, 0x86]

def dataFrame (stream : UInt8) (payload : Bytes) (endStream : Bool) : Bytes :=
  frame 0 (if endStream then 1 else 0) stream payload

def resetFrame (stream : UInt8) : Bytes := frame 3 0 stream [0, 0, 0, 8]

/-- The windows that reading leaves: lower by the flow-controlled lengths of what it reads. -/
theorem read_window (n : Nat) (r : Reader) : (read n r).2.2.window = r.window - total (read n r).1 := by
  induction n generalizing r with
  | zero => simp [read, total]
  | succ n ih =>
    simp only [read]
    split
    · simp [total]
    · split
      · simp [total]
      · split
        · simp [total]
        · simp only [ih, total, List.map_append, List.sum_append]
          omega

theorem readChunk_window (data : Bytes) (r : Reader) :
    (r.readChunk data).2.2.window = r.window - total (r.readChunk data).1 := by
  simp only [readChunk]
  split
  · split
    · exact read_window _ _
    · exact (Int.sub_zero _).symm
  · exact read_window _ _

end Reader

end Levin
