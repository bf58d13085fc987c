import Levin.Framework.Dict
import Levin.Proof.Http2.Writing

/-!
# A small h2

`Reference` is an h2 connection as far as responses need one, and so that runs on
it can be computed: it sends frames, counts windows, and understands one
WINDOW_UPDATE frame a chunk. It does what h2 is documented to do
(`documented`).
-/

namespace Levin

open Framework

theorem maxFrameSize_default : 0 < 16384 := by decide

/-- An h2 connection: the state and the send window of each stream. -/
structure Reference where
  outbound : List Frame := []
  window : Int := 65535
  streams : Dict Nat (StreamState × Int) := []
  initialWindow : Int := 65535
  maxFrameSize : Nat := 16384
  maxFrameSize_pos : 0 < maxFrameSize := by exact maxFrameSize_default
  enablePush : Bool := true

namespace Reference

variable (r : Reference)

def stream (t : Nat) : StreamState := (r.streams.get? t).elim .idle Prod.fst

def streamWindow (t : Nat) : Int := (r.streams.get? t).elim 0 Prod.snd

def state : H2State where
  outbound := r.outbound
  window := r.window
  streamWindow := r.streamWindow
  stream := r.stream
  initialWindow := r.initialWindow
  maxFrameSize := r.maxFrameSize
  maxFrameSize_pos := r.maxFrameSize_pos
  enablePush := r.enablePush

def setStream (t : Nat) (state : StreamState) (window : Int) : Reference :=
  { r with streams := r.streams.set t (state, window) }

/-- Servers promise streams with even identifiers. -/
def nextStream : Nat :=
  2 * (((r.streams.map Prod.fst).filter (· % 2 = 0)).map (· / 2)).foldr max 0 + 2

def sendHeaders (t : Nat) (fields : Fields) : Except Exc Unit × Reference :=
  if r.stream t = .ready then
    (.ok (), { r.setStream t .body (r.streamWindow t) with outbound := r.outbound ++ [.headers t fields false] })
  else (.error .ProtocolError, r)

def sendData (t : Nat) (data : Bytes) (endStream : Bool) : Except Exc Unit × Reference :=
  if r.stream t = .body ∧ (data.length : Int) ≤ r.state.windowOf t ∧ data.length ≤ r.maxFrameSize then
    (.ok (), { r.setStream t (H2State.afterData endStream) (r.streamWindow t - data.length) with
      outbound := r.outbound ++ [.data t data endStream], window := r.window - data.length })
  else (.error .ProtocolError, r)

def endStream (s : Nat) : Except Exc Unit × Reference :=
  if r.stream s = .body then
    (.ok (), { r.setStream s .ended (r.streamWindow s) with outbound := r.outbound ++ [.data s [] true] })
  else (.error .ProtocolError, r)

def pushStream (s t : Nat) (fields : Fields) : Except Exc Unit × Reference :=
  if r.enablePush ∧ s % 2 = 1 ∧ r.stream s = .body ∧ t = r.nextStream then
    (.ok (), { r.setStream t .ready r.initialWindow with outbound := r.outbound ++ [.pushPromise s t fields] })
  else (.error .ProtocolError, r)

/-- Four bytes, the most significant first. -/
def word (a b c d : UInt8) : Nat := ((a.toNat * 256 + b.toNat) * 256 + c.toNat) * 256 + d.toNat

/-- The stream and the increment of a WINDOW_UPDATE frame. -/
def windowUpdate? : Bytes → Option (Nat × Nat)
  | [0, 0, 4, 8, 0, a, b, c, d, i, j, k, l] => some (word a b c d, word i j k l)
  | _ => none

def receiveData (data : Bytes) : Except Exc (List H2Event) × Reference :=
  match windowUpdate? data with
  | none => (.error .ProtocolError, r)
  | some (0, n) => (.ok [.other], { r with window := r.window + n })
  | some (t, n) =>
    if r.stream t = .idle then (.error .ProtocolError, r)
    else (.ok [.other], r.setStream t (r.stream t) (r.streamWindow t + n))

instance : H2Connection Reference where
  initiateConnection r := { r with outbound := r.outbound ++ [.control []] }
  initiateUpgradeConnection _ r := (.ok (), r.setStream 1 .ready r.initialWindow)
  clearOutboundDataBuffer r := { r with outbound := [] }
  dataToSend r := (r.outbound, { r with outbound := [] })
  receiveData data r := r.receiveData data
  enablePush r := r.enablePush
  getNextAvailableStreamId r := .ok r.nextStream
  pushStream s t fields r := r.pushStream s t fields
  endStream s r := r.endStream s
  sendHeaders t fields r := r.sendHeaders t fields
  localFlowControlWindow t r := if r.stream t = .idle then .error .ProtocolError else .ok (r.state.windowOf t)
  maxOutboundFrameSize r := r.maxFrameSize
  sendData t data endStream r := r.sendData t data endStream

/-! ## It does what is documented -/

theorem setStream_stream (t : Nat) (state : StreamState) (window : Int) :
    (r.setStream t state window).stream = Function.update r.stream t state := by
  funext s
  by_cases hs : s = t
  · subst hs
    simp [stream, setStream]
  · simp [stream, setStream, Dict.get?_set_of_ne _ _ hs, hs]

theorem setStream_streamWindow (t : Nat) (state : StreamState) (window : Int) :
    (r.setStream t state window).streamWindow = Function.update r.streamWindow t window := by
  funext s
  by_cases hs : s = t
  · subst hs
    simp [streamWindow, setStream]
  · simp [streamWindow, setStream, Dict.get?_set_of_ne _ _ hs, hs]

theorem state_setStream (t : Nat) (state : StreamState) (window w : Int) (frames : List Frame) :
    Reference.state { r.setStream t state window with outbound := frames, window := w } =
      { r.state with
        outbound := frames, window := w,
        streamWindow := Function.update r.streamWindow t window, stream := Function.update r.stream t state } := by
  rw [← setStream_stream, ← setStream_streamWindow]
  rfl

theorem le_foldr_max {n : Nat} {ns : List Nat} (h : n ∈ ns) : n ≤ ns.foldr max 0 := by
  induction ns with
  | nil => cases h
  | cons m ns ih =>
    rw [List.foldr_cons]
    rcases List.mem_cons.mp h with rfl | h
    · omega
    · have := ih h
      omega

theorem nextStream_idle : r.stream r.nextStream = .idle := by
  cases h : r.streams.get? r.nextStream with
  | none => simp [stream, h]
  | some v =>
    -- It would be one of the even identifiers in use, but it is larger than each of them.
    exfalso
    have hmem : r.nextStream ∈ r.streams.map Prod.fst := by
      simp only [Dict.get?, Option.map_eq_some_iff] at h
      obtain ⟨kv, hkv, -⟩ := h
      exact List.mem_map.mpr ⟨kv, List.mem_of_find?_eq_some hkv, by simpa using List.find?_some hkv⟩
    have heven : r.nextStream % 2 = 0 := by
      simp only [nextStream]
      omega
    have hhalf : r.nextStream / 2 ∈ ((r.streams.map Prod.fst).filter (· % 2 = 0)).map (· / 2) :=
      List.mem_map.mpr ⟨_, List.mem_filter.mpr ⟨hmem, by simpa using heven⟩, rfl⟩
    have hle := le_foldr_max hhalf
    have hdef : r.nextStream / 2 = (((r.streams.map Prod.fst).filter (· % 2 = 0)).map (· / 2)).foldr max 0 + 1 := by
      simp only [nextStream]
      omega
    omega

theorem documented : Documented Reference.state where
  enablePush _ := rfl
  maxOutboundFrameSize _ := rfl
  dataToSend r := ⟨{ r with outbound := [] }, rfl, rfl⟩
  localFlowControlWindow {r t} h := if_neg h
  sendHeaders {r t} fields h := by
    refine ⟨_, if_pos h, (state_setStream r t _ _ r.window _).trans ?_⟩
    rw [Function.update_eq_self]
    rfl
  sendHeaders_refused {r t} fields h := by
    refine ⟨.ProtocolError, r, if_neg fun hready => ?_, rfl, rfl⟩
    have h : r.stream t = .body ∨ r.stream t = .ended := h
    simp [hready] at h
  sendData {r t data} endStream h hw hm := by
    exact ⟨_, if_pos ⟨h, hw, hm⟩, state_setStream r t _ _ _ _⟩
  sendData_refused {r t data} endStream h hw :=
    ⟨.ProtocolError, r, if_neg fun hok => absurd hok.2.1 (Int.not_le.mpr hw), rfl, rfl⟩
  getNextAvailableStreamId r := ⟨r.nextStream, rfl, r.nextStream_idle⟩
  pushStream {r s t} fields he hs h ht := by
    exact ⟨_, if_pos ⟨he, hs, h, (Except.ok.inj ht).symm⟩, state_setStream r t _ _ r.window _⟩
  pushStream_refused {r s t} fields h := by
    refine ⟨.ProtocolError, r, if_neg fun hok => ?_, rfl, rfl⟩
    have h : r.stream s = .ended := h
    simp [h] at hok
  endStream {r s} h := by
    refine ⟨_, if_pos h, (state_setStream r s _ _ r.window _).trans ?_⟩
    rw [Function.update_eq_self]
    simp [H2State.sendData, H2State.queue, H2State.spend, H2State.setStream, H2State.afterData, state]

end Reference

namespace Connection

/-- The h2 connection of a peer that takes pushes or not, where a request has come on stream 1. -/
def requested (window : Int) (enablePush : Bool) : Reference :=
  { streams := [(1, (.ready, window))], enablePush }

/-- A connection that handles the request `GET /`. -/
def handling (window : Int) (enablePush : Bool) : Connection (Hyper.Parser Reference) Wire :=
  let c : Connection (Hyper.Parser Reference) Wire := fresh [] createConnection.transport.info false
  dispatch { c with parser := some { conn := requested window enablePush } }
    (.create (Bytes.ascii "/") (Bytes.ascii "GET") (some []) [] (Bytes.ascii "HTTP/2") 1)

theorem awaiting_handling (window : Int) (enablePush : Bool) :
    Awaiting Reference.state (handling window enablePush) { conn := requested window enablePush } 0 1 where
  toWf := by
    have hw : Wf (fresh [] createConnection.transport.info false : Connection (Hyper.Parser Reference) Wire) :=
      wf_fresh _ _ _
    show Wf (List.foldl dispatch _ [_])
    rw [foldl_dispatch]
    refine Wf.dispatched ?_ ?_ _ _
    · exact hw.congr rfl rfl rfl rfl fun _ => by simp
    · simp
  task := rfl
  selected := rfl
  request := rfl
  odd := rfl
  ready := rfl
  queued _ h := nomatch h
  unopened _ _ _ h := nomatch h
  response500 := rfl

end Connection

end Levin
