import Levin.Core.Parsers.H2
import Mathlib.Logic.Function.Basic

/-!
# What h2 is documented to do

`H2State` is what a connection of h2 stands for: the frames it has queued, the
flow-control windows and how far it has sent on each stream. `Documented view`
says that the operations of an `H2Connection` do to the state `view` gives what
HTTP/2 and the documentation of h2 say: `send_data` consumes window and is
refused without, frames leave only through `data_to_send`, a stream that has
ended takes no push.
-/

namespace Levin

open Framework

/-- How far an endpoint has sent on a stream. -/
inductive StreamState
  | idle
  /-- A response may be started: its request has been received, or the stream has been promised. -/
  | ready
  /-- The headers have been sent. -/
  | body
  /-- END_STREAM has been sent. -/
  | ended
  deriving DecidableEq, Repr

structure H2State where
  /-- The frames queued for `data_to_send`. -/
  outbound : List Frame
  /-- The connection's send window. -/
  window : Int
  streamWindow : Nat → Int
  stream : Nat → StreamState
  /-- The peer's `SETTINGS_INITIAL_WINDOW_SIZE`, the send window of a new stream. -/
  initialWindow : Int
  maxFrameSize : Nat
  maxFrameSize_pos : 0 < maxFrameSize
  enablePush : Bool

namespace H2State

/-- What may be sent on a stream: its own window and the connection's both limit it. -/
def windowOf (v : H2State) (t : Nat) : Int := min v.window (v.streamWindow t)

def queue (frame : Frame) (v : H2State) : H2State := { v with outbound := v.outbound ++ [frame] }

def flush (v : H2State) : H2State := { v with outbound := [] }

def setStream (t : Nat) (state : StreamState) (v : H2State) : H2State :=
  { v with stream := Function.update v.stream t state }

def spend (t n : Nat) (v : H2State) : H2State :=
  { v with window := v.window - n, streamWindow := Function.update v.streamWindow t (v.streamWindow t - n) }

/-- The state of a stream once `sendData` has been called on it. -/
def afterData (endStream : Bool) : StreamState := if endStream then .ended else .body

def sendHeaders (t : Nat) (fields : Fields) (v : H2State) : H2State :=
  (v.queue (.headers t fields false)).setStream t .body

def sendData (t : Nat) (data : Bytes) (endStream : Bool) (v : H2State) : H2State :=
  ((v.queue (.data t data endStream)).spend t data.length).setStream t (afterData endStream)

def pushStream (s t : Nat) (fields : Fields) (v : H2State) : H2State :=
  { (v.queue (.pushPromise s t fields)).setStream t .ready with
    streamWindow := Function.update v.streamWindow t v.initialWindow }

/-- The stream `t` is promised for a push on `s`, and `s` ended. -/
def promised (s t : Nat) (fields : Fields) (v : H2State) : H2State := (v.pushStream s t fields).sendData s [] true

variable (v : H2State) {s t : Nat} (data : Bytes) (endStream : Bool) (fields : Fields)

@[simp] theorem flush_outbound : v.flush.outbound = [] := rfl

@[simp] theorem flush_windowOf : v.flush.windowOf s = v.windowOf s := rfl

@[simp] theorem flush_stream : v.flush.stream = v.stream := rfl

@[simp] theorem sendHeaders_outbound :
    (v.sendHeaders t fields).outbound = v.outbound ++ [.headers t fields false] := rfl

@[simp] theorem sendHeaders_windowOf : (v.sendHeaders t fields).windowOf s = v.windowOf s := rfl

@[simp] theorem sendHeaders_stream_self : (v.sendHeaders t fields).stream t = .body := by
  simp [sendHeaders, setStream]

theorem sendHeaders_stream_of_ne (h : s ≠ t) : (v.sendHeaders t fields).stream s = v.stream s := by
  simp [sendHeaders, setStream, queue, h]

@[simp] theorem sendData_outbound :
    (v.sendData t data endStream).outbound = v.outbound ++ [.data t data endStream] := rfl

@[simp] theorem sendData_windowOf_self : (v.sendData t data endStream).windowOf t = v.windowOf t - data.length := by
  simp only [windowOf, sendData, setStream, spend, queue, Function.update_self]
  omega

theorem sendData_windowOf_of_ne (h : s ≠ t) :
    (v.sendData t data endStream).windowOf s = min (v.window - data.length) (v.streamWindow s) := by
  simp [windowOf, sendData, setStream, spend, queue, h]

@[simp] theorem sendData_stream_self : (v.sendData t data endStream).stream t = afterData endStream := by
  simp [sendData, setStream]

theorem sendData_stream_of_ne (h : s ≠ t) : (v.sendData t data endStream).stream s = v.stream s := by
  simp [sendData, setStream, spend, queue, h]

@[simp] theorem pushStream_outbound :
    (v.pushStream s t fields).outbound = v.outbound ++ [.pushPromise s t fields] := rfl

@[simp] theorem pushStream_stream_self : (v.pushStream s t fields).stream t = .ready := by
  simp [pushStream, setStream]

theorem pushStream_stream_of_ne (h : s ≠ t) : (v.pushStream s t fields).stream s = v.stream s := by
  simp [pushStream, setStream, queue, h]

@[simp] theorem promised_outbound :
    (v.promised s t fields).outbound = v.outbound ++ [.pushPromise s t fields, .data s [] true] := by
  simp [promised]

@[simp] theorem promised_stream_self : (v.promised s t fields).stream s = .ended := by
  simp [promised, afterData]

theorem promised_stream_of_ne (h : s ≠ t) : (v.promised s t fields).stream t = .ready := by
  rw [promised, sendData_stream_of_ne _ _ _ (Ne.symm h), pushStream_stream_self]

/-- The end of a stream takes nothing from its window. -/
theorem promised_windowOf_self (h : s ≠ t) : (v.promised s t fields).windowOf s = v.windowOf s := by
  rw [promised, sendData_windowOf_self]
  simp [windowOf, pushStream, setStream, queue, h]

/-- A new stream starts with the initial window. -/
theorem promised_windowOf_of_ne (h : s ≠ t) :
    (v.promised s t fields).windowOf t = min v.window v.initialWindow := by
  rw [promised, sendData_windowOf_of_ne _ _ _ (Ne.symm h)]
  simp [pushStream, setStream, queue]

end H2State

section Calls

variable {σ : Type} (view : σ → H2State) (call : σ → Except Exc Unit × σ) (conn : σ)

/-- The call returns, and changes the state as `f` does. -/
def Accepts (f : H2State → H2State) : Prop := ∃ conn', call conn = (.ok (), conn') ∧ view conn' = f (view conn)

/-- The call raises `ProtocolError`, or a subclass of it, and leaves the state as it is. -/
def Refuses : Prop :=
  ∃ e conn', call conn = (.error e, conn') ∧ e.isProtocolError = true ∧ view conn' = view conn

end Calls

/-- The documented behaviour of the operations a response needs, as long as identifiers for
promised streams are left. Streams that clients open have odd identifiers. -/
structure Documented {σ : Type} [H2Connection σ] (view : σ → H2State) : Prop where
  enablePush (conn : σ) : H2Connection.enablePush conn = (view conn).enablePush
  maxOutboundFrameSize (conn : σ) : H2Connection.maxOutboundFrameSize conn = (view conn).maxFrameSize
  dataToSend (conn : σ) :
    ∃ conn', H2Connection.dataToSend conn = ((view conn).outbound, conn') ∧ view conn' = (view conn).flush
  localFlowControlWindow {conn : σ} {t : Nat} (h : (view conn).stream t ≠ .idle) :
    H2Connection.localFlowControlWindow t conn = .ok ((view conn).windowOf t)
  sendHeaders {conn : σ} {t : Nat} (fields : Fields) (h : (view conn).stream t = .ready) :
    Accepts view (H2Connection.sendHeaders t fields) conn (·.sendHeaders t fields)
  /-- A second header block would have to end the stream. -/
  sendHeaders_refused {conn : σ} {t : Nat} (fields : Fields)
    (h : (view conn).stream t = .body ∨ (view conn).stream t = .ended) :
    Refuses view (H2Connection.sendHeaders t fields) conn
  sendData {conn : σ} {t : Nat} {data : Bytes} (endStream : Bool) (h : (view conn).stream t = .body)
    (hw : (data.length : Int) ≤ (view conn).windowOf t) (hm : data.length ≤ (view conn).maxFrameSize) :
    Accepts view (H2Connection.sendData t data endStream) conn (·.sendData t data endStream)
  sendData_refused {conn : σ} {t : Nat} {data : Bytes} (endStream : Bool) (h : (view conn).stream t = .body)
    (hw : (view conn).windowOf t < data.length) :
    Refuses view (H2Connection.sendData t data endStream) conn
  getNextAvailableStreamId (conn : σ) :
    ∃ t, H2Connection.getNextAvailableStreamId conn = .ok t ∧ (view conn).stream t = .idle
  pushStream {conn : σ} {s t : Nat} (fields : Fields) (he : (view conn).enablePush = true) (hs : s % 2 = 1)
    (h : (view conn).stream s = .body) (ht : H2Connection.getNextAvailableStreamId conn = .ok t) :
    Accepts view (H2Connection.pushStream s t fields) conn (·.pushStream s t fields)
  pushStream_refused {conn : σ} {s t : Nat} (fields : Fields) (h : (view conn).stream s = .ended) :
    Refuses view (H2Connection.pushStream s t fields) conn
  endStream {conn : σ} {s : Nat} (h : (view conn).stream s = .body) :
    Accepts view (H2Connection.endStream s) conn (·.sendData s [] true)

end Levin
