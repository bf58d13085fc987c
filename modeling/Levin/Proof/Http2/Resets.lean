import Levin.Proof.Http2.Suspension

/-!
# A stream that the peer resets

h2 refuses calls on a closed stream (`ClosedStreams`). `handle_response` guards
some of its calls against that: a push that can no longer be promised ends it
quietly, and so does a body of which nothing is left. Before any other response,
and between two chunks of its body, the exception leaves the generator
(`reset_iff`).
-/

namespace Levin.Hyper

open Framework

variable {σ : Type} [H2Connection σ]

/-- A response can be started on stream `t`. -/
def CanAnswer (t : Nat) (conn : σ) : Prop :=
  ∀ fields, ∃ conn', H2Connection.sendHeaders t fields conn = (.ok (), conn')

/-- Nothing has been queued, and every stream but `s` can be answered as before. -/
structure Unharmed (s : Nat) (conn conn' : σ) : Prop where
  queue : (H2Connection.dataToSend conn').1 = (H2Connection.dataToSend conn).1
  others : ∀ t ≠ s, CanAnswer t conn → CanAnswer t conn'

theorem Unharmed.refl (s : Nat) (conn : σ) : Unharmed s conn conn := ⟨rfl, fun _ _ h => h⟩

/-- What h2 is documented to do with a stream that is `closed`. -/
structure ClosedStreams (closed : Nat → σ → Prop) : Prop where
  sendHeaders {conn : σ} {s : Nat} (fields : Fields) (h : closed s conn) :
    (H2Connection.sendHeaders s fields conn).1 = .error .StreamClosedError
  localFlowControlWindow {conn : σ} {s : Nat} (h : closed s conn) :
    H2Connection.localFlowControlWindow s conn = .error .StreamClosedError
  pushStream {conn : σ} {s : Nat} (t : Nat) (fields : Fields) (h : closed s conn) :
    ∃ e conn', H2Connection.pushStream s t fields conn = (.error e, conn') ∧ e.isProtocolError = true ∧
      Unharmed s conn conn'

/-- A push can be put into words: its request knows its address, and there is an identifier left for its stream. -/
def CanPush (request : Request) (conn : σ) : Prop :=
  request.transportInfo ≠ none ∧ ∃ t, H2Connection.getNextAvailableStreamId conn = .ok t

/-- `next` ends the generator without raising, and nothing is sent or queued. -/
structure EndsQuietly (response : Response) (request : Request) (g : Generator) (conn : σ) : Prop where
  generator : (resume response request g conn).generator = .ended none
  chunk : (resume response request g conn).chunk = none
  conn : Unharmed request.stream conn (resume response request g conn).conn

variable {closed : Nat → σ → Prop} {response : Response} {request : Request} {conn : σ}

theorem EndsQuietly.of_eq {g : Generator} {conn' : σ}
    (h : resume response request g conn = { generator := .ended none, conn := conn' })
    (hconn : Unharmed request.stream conn conn') : EndsQuietly response request g conn :=
  ⟨by rw [h], by rw [h], by rwa [h]⟩

/-- A generator that raises does not end quietly. -/
theorem not_endsQuietly {g : Generator} {e : Exc} {conn' : σ}
    (h : resume response request g conn = { generator := .ended (some e), conn := conn' }) :
    ¬ EndsQuietly response request g conn := by
  intro hq
  have hg := hq.generator
  rw [h] at hg
  cases hg

namespace ClosedStreams

variable (hc : ClosedStreams closed) (hs : closed request.stream conn)

include hc hs

/-- `send_headers` is not guarded. -/
theorem resume_created (hpush : response.push = false) :
    ∃ conn', resume response request .created conn =
      { generator := .ended (some .StreamClosedError), conn := conn' } := by
  have hraise := hc.sendHeaders (responseHeaders (setContentLength response)) hs
  rcases hcall : H2Connection.sendHeaders request.stream (responseHeaders (setContentLength response)) conn
    with ⟨r, conn'⟩
  rw [hcall] at hraise
  obtain rfl : r = .error .StreamClosedError := hraise
  refine ⟨conn', ?_⟩
  rw [resume, start, if_neg (by simp [setContentLength, hpush]), startResponse, hcall]

/-- A push is not promised on a closed stream. -/
theorem resume_pushed (hpush : response.push = true) (hcan : CanPush request conn) :
    EndsQuietly response request .created conn := by
  obtain ⟨hinfo, t, ht⟩ := hcan
  obtain ⟨info, hinfo⟩ := Option.ne_none_iff_exists'.mp hinfo
  obtain ⟨e, conn', hcall, he, hconn⟩ := hc.pushStream t (pushHeaders request info.sockname) hs
  refine EndsQuietly.of_eq ?_ hconn
  rw [resume, start, if_pos (by simp [setContentLength, hpush])]
  simp only [promise, hinfo, ht, hcall, he, if_true]

omit hc hs in
/-- Neither the address nor the identifier is guarded. -/
theorem resume_unpushable (hpush : response.push = true) (hcan : ¬ CanPush request conn) :
    ∃ e, resume response request .created conn = { generator := .ended (some e), conn } := by
  rw [resume, start, if_pos (by simp [setContentLength, hpush]), promise]
  cases hinfo : request.transportInfo with
  | none => exact ⟨.AttributeError, rfl⟩
  | some info =>
    cases ht : H2Connection.getNextAvailableStreamId conn with
    | error e => exact ⟨e, rfl⟩
    | ok t => exact absurd ⟨by simp [hinfo], t, ht⟩ hcan

/-- `local_flow_control_window` is not guarded. -/
theorem resume_suspended {t : Nat} {data : Bytes} (hdata : data ≠ []) :
    resume response request (.suspended t data) conn =
      { generator := .ended (some .StreamClosedError), conn } := by
  rw [resume, if_neg hdata, sendTurn, hc.localFlowControlWindow hs]

end ClosedStreams

/-- The points at which a reset of the request's stream ends `handle_response` quietly: before a
response is pushed that can be, and when nothing of the body is left. -/
theorem reset_iff (hc : ClosedStreams closed) {es : List (SendEvent σ)} {g : Generator} {conn₀ : σ}
    (h : Run (Next response request) (.created, conn₀) es (g, conn)) (hs : closed request.stream conn)
    (hg : ∀ exc, g ≠ .ended exc) :
    EndsQuietly response request g conn ↔
      if chunks es = [] then response.push = true ∧ CanPush request conn
      else payloads (chunks es) = response.body := by
  have hprogress := run_progress h
  cases g with
  | created =>
    rw [if_pos (show chunks es = [] from hprogress)]
    by_cases hpush : response.push = true
    · by_cases hcan : CanPush request conn
      · exact iff_of_true (hc.resume_pushed hs hpush hcan) ⟨hpush, hcan⟩
      · obtain ⟨e, hresume⟩ := ClosedStreams.resume_unpushable hpush hcan
        exact iff_of_false (not_endsQuietly hresume) fun h => hcan h.2
    · obtain ⟨conn', hresume⟩ := hc.resume_created hs (Bool.eq_false_iff.mpr hpush)
      exact iff_of_false (not_endsQuietly hresume) fun h => hpush h.1
  | suspended t data =>
    obtain ⟨hne, hbody, -⟩ := hprogress
    rw [if_neg hne, ← hbody, List.self_eq_append_right]
    by_cases hdata : data = []
    · subst hdata
      exact iff_of_true (.of_eq (resume_nil response request t conn) (.refl _ _)) rfl
    · exact iff_of_false (not_endsQuietly (hc.resume_suspended hs hdata)) hdata
  | ended exc => exact absurd rfl (hg exc)

end Levin.Hyper

namespace Levin

open Framework

/-! ## A small h2 whose peer resets streams -/

structure Resettable where
  inner : Reference
  resets : List Nat := []

namespace Resettable

/-- A call on `inner`. -/
def lift (call : Reference → Except Exc Unit × Reference) (r : Resettable) : Except Exc Unit × Resettable :=
  ((call r.inner).1, { r with inner := (call r.inner).2 })

/-- A call on the stream `s`. -/
def guarded (s : Nat) (call : Reference → Except Exc Unit × Reference) (r : Resettable) :
    Except Exc Unit × Resettable :=
  if s ∈ r.resets then (.error .StreamClosedError, r) else r.lift call

instance : H2Connection Resettable where
  initiateConnection r := { r with inner := H2Connection.initiateConnection r.inner }
  initiateUpgradeConnection settings r := r.lift (H2Connection.initiateUpgradeConnection settings)
  clearOutboundDataBuffer r := { r with inner := H2Connection.clearOutboundDataBuffer r.inner }
  dataToSend r := (r.inner.outbound, { r with inner := { r.inner with outbound := [] } })
  receiveData data r := ((r.inner.receiveData data).1, { r with inner := (r.inner.receiveData data).2 })
  enablePush r := r.inner.enablePush
  getNextAvailableStreamId r := .ok r.inner.nextStream
  pushStream s t fields := guarded s (H2Connection.pushStream s t fields)
  endStream s := guarded s (H2Connection.endStream s)
  sendHeaders t fields := guarded t (H2Connection.sendHeaders t fields)
  localFlowControlWindow t r :=
    if t ∈ r.resets then .error .StreamClosedError else H2Connection.localFlowControlWindow t r.inner
  maxOutboundFrameSize r := r.inner.maxFrameSize
  sendData t data endStream := guarded t (H2Connection.sendData t data endStream)

theorem guarded_of_reset {s : Nat} {call : Reference → Except Exc Unit × Reference} {r : Resettable}
    (h : s ∈ r.resets) : r.guarded s call = (.error .StreamClosedError, r) := if_pos h

theorem closedStreams : Hyper.ClosedStreams fun s (r : Resettable) => s ∈ r.resets where
  sendHeaders _ h := congrArg Prod.fst (guarded_of_reset h)
  localFlowControlWindow h := if_pos h
  pushStream _ _ h := ⟨_, _, guarded_of_reset h, rfl, .refl _ _⟩

/-- The connection of a request on stream 1, which has been reset. -/
def reset : Resettable := { inner := Connection.requested 10 true, resets := [1] }

end Resettable

namespace Hyper

/-- A push to be promised on the stream that has been reset. -/
theorem push_endsQuietly :
    EndsQuietly { hello with push := true } (getRoot.setTransportInfo Connection.createConnection.transport.info)
      .created Resettable.reset :=
  (reset_iff Resettable.closedStreams (.single (.changed .created Resettable.reset _)) (.head _) (by simp)).mpr
    ⟨rfl, nofun, _, rfl⟩

/-- A response to the request on the stream that has been reset raises `StreamClosedError`. -/
theorem reset_raises : ¬ ∀ (es : List (SendEvent Resettable)) (g : Generator) (conn₀ conn : Resettable),
    Run (Next hello getRoot) (.created, conn₀) es (g, conn) → 1 ∈ conn.resets → (∀ exc, g ≠ .ended exc) →
      EndsQuietly hello getRoot g conn := by
  intro h
  have hrun : Run (Next hello getRoot) (.created, Resettable.reset) [.changed] (.created, Resettable.reset) :=
    .single (.changed .created _ _)
  have hgen := (h _ _ _ _ hrun (.head _) (by simp)).generator
  revert hgen
  decide

end Hyper

end Levin
