import Levin.Proof.Connection.Silence
import Levin.Proof.Http2.SendLoop

/-!
# Responses on an HTTP/2 connection

What `write_response` does to the state of h2 and to the frames that have been
written, for the response to a request (`writeResponse_sends`), for that to a
push (`writeResponse_promises`, `writeResponse_refused`) and for a second
response to a request (`writeResponse_again`), and from there what the handlers
do (`handleRequest_sends`, `pushDone_writes`, `settle_again`).
-/

namespace Levin

open Framework

/-- The frame, where it is one. -/
def Wire.frame? : Wire → Option Frame
  | .byte _ => none
  | .frame f => some f

/-- The streams a frame is about. -/
def Frame.streams : Frame → List Nat
  | .headers t _ _ | .data t _ _ => [t]
  | .pushPromise s t _ => [s, t]
  | .control _ => []

/-- The frames of the response on the stream `t`. -/
def onStream (t : Nat) (frames : List Frame) : List Frame :=
  frames.filter fun
    | .headers s _ _ | .data s _ _ => s = t
    | _ => false

@[simp] theorem onStream_append (t : Nat) (fs gs : List Frame) : onStream t (fs ++ gs) = onStream t fs ++ onStream t gs :=
  List.filter_append ..

theorem onStream_of_not_mem {t : Nat} {frames : List Frame} (h : ∀ frame ∈ frames, t ∉ frame.streams) :
    onStream t frames = [] := by
  refine List.filter_eq_nil_iff.mpr fun frame hf => ?_
  have := h frame hf
  cases frame <;> simp_all [Frame.streams, eq_comm]

theorem onStream_dataFrames (t : Nat) (last : Bool) (ds : List Bytes) :
    onStream t (dataFrames t last ds) = dataFrames t last ds := by
  induction ds with
  | nil => rfl
  | cons d ds ih =>
    rw [dataFrames, ← List.singleton_append, onStream_append, ih]
    simp [onStream]

theorem onStream_responseFrames (response : Response) (t : Nat) (ds : List Bytes) :
    onStream t (Hyper.responseFrames response t ds) = Hyper.responseFrames response t ds := by
  rw [Hyper.responseFrames, ← List.singleton_append, onStream_append, onStream_dataFrames]
  simp [onStream]

/-- A response is sent on one stream. -/
theorem streams_of_mem_responseFrames {response : Response} {t : Nat} {ds : List Bytes} {frame : Frame}
    (h : frame ∈ Hyper.responseFrames response t ds) : frame.streams = [t] := by
  have hdata : ∀ (last : Bool) (ds : List Bytes), frame ∈ dataFrames t last ds → frame.streams = [t] := by
    intro last ds hmem
    induction ds with
    | nil => cases hmem
    | cons d ds ih =>
      rcases List.mem_cons.mp hmem with rfl | hmem
      · rfl
      · exact ih hmem
  rcases List.mem_cons.mp h with rfl | h
  · rfl
  · exact hdata _ _ h

/-- Only the last frame ends the stream. -/
theorem mem_dataFrames {s t : Nat} {last : Bool} {d : Bytes} {ds : List Bytes} (h : .data s d true ∈ dataFrames t last ds) :
    last = true := by
  induction ds with
  | nil => cases h
  | cons d' ds ih =>
    rcases List.mem_cons.mp h with h | h
    · simp only [Frame.data.injEq, Bool.true_eq, Bool.and_eq_true] at h
      exact h.2.2.1
    · exact ih h

theorem exists_mem_dataFrames (t : Nat) {ds : List Bytes} (h : ds ≠ []) : ∃ d, .data t d true ∈ dataFrames t true ds := by
  induction ds with
  | nil => exact absurd rfl h
  | cons d ds ih =>
    by_cases hds : ds = []
    · subst hds
      exact ⟨d, by simp [dataFrames]⟩
    · obtain ⟨d', hd⟩ := ih hds
      exact ⟨d', List.mem_cons_of_mem _ hd⟩

namespace Connection

open Hyper (Parser Sends responseFrames responded setContentLength)

/-- The frames written to the transport. -/
def written (log : List (Action Wire)) : List Frame := (writes log).flatten.filterMap Wire.frame?

@[simp] theorem written_append (l l' : List (Action Wire)) : written (l ++ l') = written l ++ written l' := by
  simp [written]

@[simp] theorem written_close (k : Nat) : written (List.replicate k .close) = [] := by
  simp [written]

@[simp] theorem written_frames (owner : Owner) (chunks : List (List Frame)) :
    written (.respond owner :: (chunks.map (·.map Wire.frame)).map .write) = chunks.flatten := by
  have hw : writes (.respond owner :: (chunks.map (·.map Wire.frame)).map .write) = chunks.map (·.map Wire.frame) := by
    simp [writes]
  rw [written, hw, ← List.map_flatten, List.filterMap_map]
  exact List.filterMap_some

variable {σ : Type} [H2Connection σ] {view : σ → H2State} {c c' : Connection (Parser σ) Wire} {p : Parser σ}
  {f k : Nat}

/-- `write_response` has brought the parser to `p'`, and written the frames `fs`. -/
def Wrote (c c' : Connection (Parser σ) Wire) (p' : Parser σ) (fs : List Frame) : Prop :=
  ∃ l, c' = { c with parser := some p', log := c.log ++ l } ∧ written l = fs

theorem writeResponse_wrote (hp : c.parser = some p) (owner : Owner) {response : Response} {request : Request}
    {chunks : List (List Frame)} {exc : Option Exc} {conn' : σ}
    (h : Hyper.send (setContentLength response) request p.conn = (chunks, exc, conn')) :
    Wrote c (c.writeResponse owner response request).1 { p with conn := conn' } chunks.flatten ∧
      (c.writeResponse owner response request).2 = (setContentLength response, exc) := by
  have hr : ParserProtocol.handleResponse p response request =
      ({ chunks := chunks.map (·.map Wire.frame), exc }, setContentLength response, { p with conn := conn' }) := by
    show Hyper.handleResponse response request p = _
    simp only [Hyper.handleResponse, h]
  simp only [writeResponse, hp, hr]
  exact ⟨⟨_, rfl, written_frames owner chunks⟩, trivial⟩

/-- What a response has not written is queued. -/
theorem written_responded {l : List (Action Wire)} {response : Response} {t : Nat} {ds : List Bytes} {v : H2State}
    (h : written l = if ds = [] then [] else v.outbound ++ responseFrames response t ds) :
    written l ++ (responded response t ds v).outbound = v.outbound ++ responseFrames response t ds := by
  rw [h, Hyper.responded_outbound]
  split <;> simp

/-- The response to a request is sent on the request's stream. -/
theorem writeResponse_sends (D : Documented view) (hp : c.parser = some p) (owner : Owner) {response : Response}
    {request : Request} (hpush : response.push = false) (hs : (view p.conn).stream request.stream = .ready) :
    ∃ (p' : Parser σ) (ds : List Bytes),
      Sends (view p.conn) request.stream request.stream response.body ds ∧
        view p'.conn = responded (setContentLength response) request.stream ds (view p.conn) ∧
        Wrote c (c.writeResponse owner response request).1 p'
          (if ds = [] then [] else
            (view p.conn).outbound ++ responseFrames (setContentLength response) request.stream ds) ∧
        (c.writeResponse owner response request).2 = (setContentLength response, none) := by
  obtain ⟨chunks, ds, conn', hsend, hsends, hv, hchunks⟩ :=
    Hyper.sendResponse_spec (s := request.stream) D (setContentLength response) hs (by simp [hs])
  have h : Hyper.send (setContentLength response) request p.conn = (chunks, none, conn') := by
    rw [Hyper.send, if_neg (by simp [setContentLength, hpush]), hsend]
  obtain ⟨hw, hr⟩ := writeResponse_wrote hp owner h
  exact ⟨_, ds, hsends, hv, hchunks ▸ hw, hr⟩

/-- A second response to a request is refused. -/
theorem writeResponse_again (D : Documented view) (hp : c.parser = some p) (owner : Owner) {response : Response}
    {request : Request} (hpush : response.push = false)
    (hs : (view p.conn).stream request.stream = .body ∨ (view p.conn).stream request.stream = .ended) :
    ∃ p' : Parser σ, view p'.conn = view p.conn ∧ Wrote c (c.writeResponse owner response request).1 p' [] ∧
      (c.writeResponse owner response request).2.1 = setContentLength response := by
  obtain ⟨e, conn', hsend, -, hv⟩ := D.sendHeaders_refused (Hyper.responseHeaders (setContentLength response)) hs
  have h : Hyper.send (setContentLength response) request p.conn = ([], some e, conn') := by
    rw [Hyper.send, if_neg (by simp [setContentLength, hpush]), Hyper.sendResponse, hsend]
  obtain ⟨hw, hr⟩ := writeResponse_wrote hp owner h
  exact ⟨_, hv, hw, congrArg Prod.fst hr⟩

/-- The response to a push is promised, and sent on the stream promised for it, as far as the window
of the request's stream allows. -/
theorem writeResponse_promises (D : Documented view) (hp : c.parser = some p) (owner : Owner) {response : Response}
    {request : Request} {info : TransportInfo} (hpush : response.push = true)
    (hinfo : request.transportInfo = some info) (he : (view p.conn).enablePush = true) (hodd : request.stream % 2 = 1)
    (hs : (view p.conn).stream request.stream = .body) :
    ∃ (p' : Parser σ) (t : Nat) (ds : List Bytes), (view p.conn).stream t = .idle ∧
      let v := (view p.conn).promised request.stream t (Hyper.pushHeaders request info.sockname)
      Sends v request.stream t response.body ds ∧ view p'.conn = responded (setContentLength response) t ds v ∧
        Wrote c (c.writeResponse owner response request).1 p'
          (if ds = [] then [] else v.outbound ++ responseFrames (setContentLength response) t ds) := by
  obtain ⟨t, conn₁, hpromise, hidle, hv₁⟩ := Hyper.promise_spec D hinfo he hodd hs
  have hne : request.stream ≠ t := by
    rintro rfl
    rw [hs] at hidle
    cases hidle
  have ht : (view conn₁).stream t = .ready := by
    rw [hv₁, H2State.promised_stream_of_ne _ _ hne]
  have hs₁ : (view conn₁).stream request.stream ≠ .idle := by
    simp [hv₁]
  obtain ⟨chunks, ds, conn', hsend, hsends, hv, hchunks⟩ :=
    Hyper.sendResponse_spec D (setContentLength response) ht hs₁
  have h : Hyper.send (setContentLength response) request p.conn = (chunks, none, conn') := by
    rw [Hyper.send, if_pos (by simp [setContentLength, hpush]), hpromise]
    exact hsend
  obtain ⟨hw, -⟩ := writeResponse_wrote hp owner h
  rw [hv₁] at hsends hv hchunks
  exact ⟨_, t, ds, hidle, hsends, hv, hchunks ▸ hw⟩

/-- Once the request's stream has ended, nothing is sent of the response to a push. -/
theorem writeResponse_refused (D : Documented view) (hp : c.parser = some p) (owner : Owner) {response : Response}
    {request : Request} {info : TransportInfo} (hpush : response.push = true)
    (hinfo : request.transportInfo = some info) (hs : (view p.conn).stream request.stream = .ended) :
    ∃ p' : Parser σ, view p'.conn = view p.conn ∧ Wrote c (c.writeResponse owner response request).1 p' [] := by
  obtain ⟨conn', hpromise, hv⟩ := Hyper.promise_refused D hinfo hs
  have h : Hyper.send (setContentLength response) request p.conn = ([], none, conn') := by
    rw [Hyper.send, if_pos (by simp [setContentLength, hpush]), hpromise]
  exact ⟨_, hv, (writeResponse_wrote hp owner h).1⟩

/-! ## Handlers -/

/-- The handler of a request returns: its response is sent, and its pushes are handled if the peer
takes any. -/
theorem handleRequest_sends (D : Documented view) (hp : c.parser = some p) {response : Response}
    (hpush : response.push = false) (hs : (view p.conn).stream (c.future f).request.stream = .ready) :
    let s := (c.future f).request.stream
    let task : Task :=
      if response.pushes ≠ [] ∧ (view p.conn).enablePush = true then
        { state := .pushing, pushes := response.pushes, running := List.range response.pushes.length }
      else { c.task f with state := .ended .returned }
    ∃ (p' : Parser σ) (ds : List Bytes), Sends (view p.conn) s s response.body ds ∧
      view p'.conn = responded (setContentLength response) s ds (view p.conn) ∧
      Wrote (c.setTask f task) (c.handleRequest f (.returned response)) p'
        (if ds = [] then [] else (view p.conn).outbound ++ responseFrames (setContentLength response) s ds) := by
  intro s task
  have hs' : (view p.conn).stream ((c.future f).request.setTransportInfo c.transport.info).stream = .ready := hs
  obtain ⟨p', ds, hsends, hv, ⟨l, hw, hl⟩, hr⟩ := writeResponse_sends D hp (.request f) hpush hs'
  refine ⟨p', ds, hsends, hv, l, ?_, hl⟩
  have he : (view p'.conn).enablePush = (view p.conn).enablePush := by
    rw [hv, responded, H2State.sentBody_enablePush]
    rfl
  rcases hwr : c.writeResponse (.request f) response ((c.future f).request.setTransportInfo c.transport.info) with
    ⟨c₁, r, exc⟩
  rw [hwr] at hw hr
  obtain rfl : c₁ = _ := hw
  obtain ⟨rfl, rfl⟩ := Prod.mk.inj hr
  simp only [handleRequest, hwr]
  have hsupport : Option.any ParserProtocol.pushSupport (some p') = (view p.conn).enablePush := by
    rw [← he, ← D.enablePush]
    rfl
  simp only [hsupport, setContentLength, task]
  split <;> rfl

/-- What the end of a push handler sends is what `handle_push` sends. -/
theorem pushDone_wrote {result : HandlerResult} {p' : Parser σ} {fs : List Frame}
    (h : Wrote c (c.handlePush f k result).1 p' fs) :
    ∃ t : Task, Wrote (c.setTask f t) (c.pushDone f k result) p' fs ∧ t.pushes = (c.task f).pushes ∧
      t.running = (c.task f).running.erase k := by
  obtain ⟨l, hw, hl⟩ := h
  obtain ⟨t, hg, ht⟩ := gather_eq f k (c.handlePush f k result).2 (c.handlePush f k result).1
  rw [← pushDone_gather, hw] at hg
  rw [hw] at ht
  exact ⟨t, ⟨l, hg, hl⟩, ht.1, ht.2.1⟩

/-- A push handler that returns no response sends nothing. -/
theorem handlePush_failed (hp : c.parser = some p) {result : HandlerResult} (h : ∀ r, result ≠ .returned r) :
    Wrote c (c.handlePush f k result).1 p [] := by
  cases result with
  | returned response => exact absurd rfl (h response)
  | raised e => exact ⟨[], by simp [handlePush, ← hp], rfl⟩
  | cancelled => exact ⟨[], by simp [handlePush, ← hp], rfl⟩

/-! ## A second response -/

/-- A 500 response to a request that has been answered is refused. -/
theorem write500_again (D : Documented view) (hp : c.parser = some p) (h500 : c.response500.push = false)
    (hs : (view p.conn).stream (c.future f).request.stream = .body ∨
      (view p.conn).stream (c.future f).request.stream = .ended) :
    ∃ (p' : Parser σ) (r : Response) (l : List (Action Wire)),
      (c.write500 f).1 = { c with parser := some p', response500 := r, log := c.log ++ l } ∧
        view p'.conn = view p.conn ∧ r.push = false ∧ written l = [] := by
  cases hc : c.transport.closing with
  | true => exact ⟨p, c.response500, [], by simp [write500_of_closing hc, ← hp], rfl, h500, rfl⟩
  | false =>
    obtain ⟨p', hv, ⟨l, hw, hl⟩, hr⟩ := writeResponse_again D hp (.request f) h500 hs
    refine ⟨p', setContentLength c.response500, l, ?_, hv, h500, hl⟩
    simp only [write500, hc, Bool.false_eq_true, ite_false, hw, hr]

/-- The end of a task whose request has been answered sends nothing. -/
theorem settle_again (D : Documented view) (hw : Wf c) (hp : c.parser = some p) (h500 : c.response500.push = false)
    (hs : (view p.conn).stream (c.future f).request.stream = .body ∨
      (view p.conn).stream (c.future f).request.stream = .ended) {o : Outcome} (ho : (c.task f).state = .ended o) :
    ∃ p' : Parser σ, (c.settle f o).parser = some p' ∧ view p'.conn = view p.conn ∧
      (c.settle f o).response500.push = false ∧ written (c.settle f o).log = written c.log := by
  by_cases hpend : (c.future f).state = .pending
  · have hmem := hw.listed f (hw.lt_of_task (.inl (by simp [ho]))) hpend
    have hp₁ : Pending (c.setTask f { c.task f with state := .gone }) := ⟨hw.nodup, hw.pending, hw.callbacks⟩
    have hpend₁ : ((c.setTask f { c.task f with state := .gone }).future f).state = .pending := hpend
    simp only [settle, hpend₁]
    generalize hc₁ : c.setTask f { c.task f with state := .gone } = c₁ at hp₁
    have hmem₁ : f ∈ c₁.futures := by rwa [← hc₁]
    -- The done callback may try to answer with a 500, which is refused.
    obtain ⟨p', r, l, hdone, hv, hr, hl⟩ : ∃ (p' : Parser σ) (r : Response) (l : List (Action Wire)),
        ((c₁.setFuture f o.toFuture).doneCallback f).1 =
          { c₁.drop f o.toFuture with parser := some p', response500 := r, log := c.log ++ l } ∧
        view p'.conn = view p.conn ∧ r.push = false ∧ written l = [] := by
      rw [doneCallback_eq (show f ∈ (c₁.setFuture f o.toFuture).futures from hmem₁)]
      split
      · have hs₁ : ((c₁.setFuture f o.toFuture).future f).request = (c.future f).request := by
          rw [setFuture_future_self, ← hc₁]
          rfl
        obtain ⟨p', r, l, h500, h⟩ := write500_again (c := c₁.setFuture f o.toFuture) (f := f) D
          (by rw [← hp, ← hc₁]; rfl) (by rw [← h500, ← hc₁]; rfl) (by rwa [hs₁])
        exact ⟨p', r, l, by simp only [h500]; rw [← hc₁]; rfl, h⟩
      · refine ⟨p, c.response500, [], ?_, rfl, h500, rfl⟩
        rw [← hc₁]
        simp [drop, setFuture, setTask, hp]
    have hp₂ := (drains_complete hp₁ hmem₁ (Outcome.toFuture_ne_pending o)).pending hp₁
    rw [invokeCallbacks_eq (by rw [setFuture_future_self]; exact hp₁.callbacks f hmem₁)]
    split
    · obtain ⟨k, hlog⟩ := (close_closes hp₂).1.log_closeTransport
      have hc := (close_closes hp₂).1
      refine ⟨p', ?_, hv, ?_, ?_⟩
      · rw [hc.parser, hdone]
        rfl
      · rw [hc.response500, hdone]
        exact hr
      · rw [hlog, hdone]
        simp [hl]
    · rw [hdone]
      exact ⟨p', rfl, hv, hr, by simp [hl]⟩
  · rw [settle_of_ne_pending hpend]
    exact ⟨p, hp, rfl, h500, rfl⟩

/-- The handler of the request `f`, on the stream `s` that a client has opened, has not returned yet:
nothing has been sent on the stream, or is queued for it or for a stream that is not open yet.
`response_500` is not the response to a push. -/
structure Awaiting (view : σ → H2State) (c : Connection (Parser σ) Wire) (p : Parser σ) (f s : Nat) : Prop
    extends Wf c where
  task : c.task f = { state := .handling }
  selected : c.parser = some p
  request : (c.future f).request.stream = s
  odd : s % 2 = 1
  ready : (view p.conn).stream s = .ready
  queued : ∀ frame ∈ (view p.conn).outbound, s ∉ frame.streams
  unopened : ∀ t, (view p.conn).stream t = .idle → ∀ frame ∈ (view p.conn).outbound, t ∉ frame.streams
  response500 : c.response500.push = false

end Connection

end Levin
