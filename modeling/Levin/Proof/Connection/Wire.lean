import Levin.Proof.Connection.Silence

/-!
# What a step receives and writes

Steps.lean says which kind of entries a step adds to the log. This is what is in
them: the requests that a step dispatches (`step_requests`), and the data that it
writes to the transport (`step_writes`), which is what the parser makes of the
response that the step is about.
-/

namespace Levin.Connection

open Framework

variable {π ω : Type} {c c' : Connection π ω} {f k : Nat} {e : Event}

/-- The requests that have been dispatched, in order. -/
def requests (c : Connection π ω) : List Request := (List.range c.next).map fun f => (c.future f).request

@[simp] theorem writes_respond (owner : Owner) (chunks : List (List ω)) :
    writes (.respond owner :: chunks.map .write) = chunks := by
  simp [writes]

theorem writes_sent (d : List ω) : writes (sent d) = if d = [] then [] else [d] := by
  unfold sent
  split <;> rfl

/-- Futures that keep their requests. -/
theorem requests_congr (hn : c'.next = c.next) (h : ∀ f, (c'.future f).request = (c.future f).request) :
    c'.requests = c.requests := by
  rw [requests, hn]
  exact List.map_congr_left fun f _ => h f

theorem Drains.request (h : Drains c c') (f : Nat) : (c'.future f).request = (c.future f).request := by
  rcases h.future f with e | ⟨-, -, state, -, e⟩ <;> rw [e]

theorem getElem?_requests (hf : f < c.next) : c.requests[f]? = some (c.future f).request := by
  simp [Connection.requests, hf]

theorem Drains.requests (h : Drains c c') : c'.requests = c.requests := requests_congr h.next h.request

/-- The requests of a chunk come after those of before. -/
theorem requests_dispatched (rs : List Request) (close : Bool) (c : Connection π ω) :
    (dispatched rs close c).requests = c.requests ++ rs := by
  have hnext : (dispatched rs close c).next = c.next + rs.length := rfl
  rw [requests, hnext, List.range_add, List.map_append, List.map_map]
  congr 1
  · exact List.map_congr_left fun f hf => by rw [(dispatched_old (.inl (List.mem_range.mp hf))).1]
  · refine List.ext_getElem (by simp) fun i hi hi' => ?_
    obtain ⟨request, -, hr, hfuture, -⟩ := @dispatched_new _ _ c (c.next + i) rs close
      (Nat.le_add_right _ _) (Nat.add_lt_add_left hi' _)
    have hrs : rs[i]? = some request := by simpa [newRequest] using hr
    rw [List.getElem?_eq_getElem hi'] at hrs
    simp [hfuture, Option.some.inj hrs]

variable [ParserProtocol π ω]

/-! ## Requests -/

/-- The requests that an event dispatches. -/
def newRequests (c : Connection π ω) : Event → List Request
  | .dataReceived data =>
    match (c.parse data).2 with
    | .ok (some parsed) => parsed.requests
    | _ => []
  | _ => []

theorem step_requests (hw : Wf c) (h : Step c e c') : c'.requests = c.requests ++ newRequests c e := by
  cases e with
  | dataReceived data =>
    obtain ⟨-, ps, p, ⟨e, hr, rfl⟩ | ⟨parsed, hpar, hcl, hc⟩ | ⟨parsed, hpar, -, rfl⟩⟩ := step_dataReceived_cases hw h
    · have hnone : newRequests c (.dataReceived data) = [] := by
        rcases hr with hr | ⟨hr, -⟩ <;> simp [newRequests, hr]
      rw [hnone, List.append_nil]
      rfl
    · have hnone : newRequests c (.dataReceived data) = [] := by simp [newRequests, hpar, hcl.2]
      rw [hnone, List.append_nil, hc.drains.requests]
      rfl
    · have hnew : newRequests c (.dataReceived data) = parsed.requests := by simp [newRequests, hpar]
      rw [hnew]
      exact requests_dispatched _ _ _
  | handlerDone f result =>
    obtain ⟨-, rfl⟩ := step_handlerDone.mp h
    obtain ⟨p, t, l, -, e, -⟩ := handleRequest_eq f result c
    rw [e]
    exact (List.append_nil _).symm
  | pushDone f k result =>
    obtain ⟨-, rfl⟩ := step_pushDone.mp h
    obtain ⟨p, t, l, -, e, -⟩ := pushDone_eq f k result c
    rw [e]
    exact (List.append_nil _).symm
  | settle f =>
    obtain ⟨o, ho, rfl⟩ := step_settle.mp h
    rw [(drains_settle hw ho).requests]
    exact (List.append_nil _).symm
  | cancelTask f =>
    obtain ⟨-, rfl⟩ := step_cancelTask.mp h
    exact (List.append_nil _).symm
  | transportClosing =>
    obtain rfl := step_transportClosing.mp h
    exact (List.append_nil _).symm
  | connectionLost =>
    obtain rfl := step_connectionLost.mp h
    rw [(connectionLost_drains (pending_setClosing hw.toPending)).requests]
    exact (List.append_nil _).symm
  | close =>
    obtain rfl := step_close.mp h
    rw [(closes_close hw.toPending).drains.requests]
    exact (List.append_nil _).symm

/-- A request stays what it is. -/
theorem step_request (hw : Wf c) (h : Step c e c') (hf : f < c.next) : (c'.future f).request = (c.future f).request := by
  have hold := getElem?_requests hf
  have hnew := getElem?_requests (Nat.lt_of_lt_of_le hf (step_next_le hw h))
  have hlt : f < c.requests.length := by simpa [Connection.requests] using hf
  rw [step_requests hw h, List.getElem?_append_left hlt, hold] at hnew
  exact (Option.some.inj hnew).symm

/-! ## Responses -/

/-- What `write_response` writes of a response. -/
def chunksOf (response : Response) (request : Request) (c : Connection π ω) : List (List ω) :=
  match c.parser with
  | none => []
  | some p => (ParserProtocol.handleResponse p response request).1.chunks

/-- The response that an event writes, and the request it is written for. -/
def newResponse (c : Connection π ω) : Event → Option (Response × Request)
  | .handlerDone f (.returned response) => some (response, (c.future f).request.setTransportInfo c.transport.info)
  | .pushDone f k (.returned response) =>
    (c.task f).pushes[k]?.map fun push => ({ response with push := true }, c.pushRequest push (c.future f).request)
  | .settle f => if Fails500 c f then some (c.response500, (c.future f).request) else none
  | _ => none

/-- What an event writes to the transport. -/
def newWrites (c : Connection π ω) : Event → List (List ω)
  | .dataReceived data =>
    match (c.parse data).2 with
    | .ok (some parsed) => if parsed.data = [] then [] else [parsed.data]
    | _ => []
  | e => (newResponse c e).elim [] fun r => c.chunksOf r.1 r.2

/-- The parser once it has written a response. -/
def parserAfter (response : Response) (request : Request) (c : Connection π ω) : Option π :=
  c.parser.map fun p => (ParserProtocol.handleResponse p response request).2.2

theorem writeResponse_parserAfter (owner : Owner) (response : Response) (request : Request) (c : Connection π ω) :
    (c.writeResponse owner response request).1.parser = c.parserAfter response request := by
  unfold writeResponse parserAfter
  cases c.parser with
  | none => rfl
  | some p => rfl

theorem writeResponse_log (owner : Owner) (response : Response) (request : Request) (c : Connection π ω) :
    (c.writeResponse owner response request).1.log =
      c.log ++ .respond owner :: (c.chunksOf response request).map .write := by
  unfold writeResponse chunksOf
  cases c.parser with
  | none => rfl
  | some p => rfl

/-- The response as `write_response` leaves it. -/
def responseAfter (response : Response) (request : Request) (c : Connection π ω) : Response :=
  c.parser.elim response fun p => (ParserProtocol.handleResponse p response request).2.1

theorem writeResponse_responseAfter (owner : Owner) (response : Response) (request : Request) (c : Connection π ω) :
    (c.writeResponse owner response request).2.1 = c.responseAfter response request := by
  unfold writeResponse responseAfter
  cases c.parser with
  | none => rfl
  | some p => rfl

/-- What writing `response_500` for `f` would make of a connection. -/
structure Wrote500 (f : Nat) (c c' : Connection π ω) : Prop where
  parser : c'.parser = c.parserAfter c.response500 (c.future f).request
  response500 : c'.response500 = c.responseAfter c.response500 (c.future f).request
  writes : writes c'.log = writes c.log ++ c.chunksOf c.response500 (c.future f).request

/-- Nothing is written. -/
structure WroteNothing (c c' : Connection π ω) : Prop where
  parser : c'.parser = c.parser
  response500 : c'.response500 = c.response500
  writes : Connection.writes c'.log = Connection.writes c.log

theorem write500_wrote (f : Nat) (c : Connection π ω) :
    (c.transport.closing = false → Wrote500 f c (c.write500 f).1) ∧
      (c.transport.closing = true → WroteNothing c (c.write500 f).1) := by
  constructor
  · intro ho
    have hwrite : (c.write500 f).1 =
        { (c.writeResponse (.request f) c.response500 (c.future f).request).1 with
          response500 := (c.writeResponse (.request f) c.response500 (c.future f).request).2.1 } := by
      simp [write500, ho]
    rw [hwrite]
    refine ⟨writeResponse_parserAfter _ _ _ _, writeResponse_responseAfter _ _ _ _, ?_⟩
    simp only [writeResponse_log, writes_append, writes_respond]
  · intro hc
    rw [write500_of_closing hc]
    exact ⟨rfl, rfl, rfl⟩

/-- A pending future is completed: what is written is a 500 response, if it has failed. -/
theorem complete_wrote (hp : Pending c) (hf : f ∈ c.futures) {state : FutureState} (hs : state ≠ .pending) :
    let c' := (c.setFuture f state).invokeCallbacks close f
    (failed state = true ∧ c.transport.closing = false → Wrote500 f c c') ∧
      (¬ (failed state = true ∧ c.transport.closing = false) → WroteNothing c c') := by
  generalize hd : c.setFuture f state = d
  have hfuture : d.future f = { c.future f with state } := by rw [← hd, setFuture_future_self]
  have hclosing : d.transport.closing = c.transport.closing := by rw [← hd]; rfl
  -- The done callback writes it, if anything does.
  have hdone : (failed state = true ∧ c.transport.closing = false → Wrote500 f c (d.doneCallback f).1) ∧
      (¬ (failed state = true ∧ c.transport.closing = false) → WroteNothing c (d.doneCallback f).1) := by
    rw [doneCallback_eq (hd ▸ hf), hfuture]
    cases hfail : failed state with
    | false =>
      refine ⟨fun h => absurd h.1 (by simp), fun _ => ?_⟩
      rw [← hd]
      exact ⟨rfl, rfl, rfl⟩
    | true =>
      obtain ⟨hopen, hclosed⟩ := write500_wrote f d
      rw [hclosing] at hopen hclosed
      refine ⟨fun h => ?_, fun h => ?_⟩
      · obtain ⟨hparser, h500, hwrites⟩ := hopen h.2
        rw [hfuture] at hparser h500 hwrites
        subst hd
        exact ⟨hparser, h500, hwrites⟩
      · obtain ⟨hparser, h500, hwrites⟩ := hclosed (by simpa using h)
        subst hd
        exact ⟨hparser, h500, hwrites⟩
  have hpending : Pending (d.doneCallback f).1 := by
    rw [← hd]
    exact (drains_complete hp hf hs).pending hp
  simp only
  rw [invokeCallbacks_eq (by rw [hfuture]; exact hp.callbacks f hf)]
  split
  · have hcloses := (close_closes hpending).1
    obtain ⟨k, hk⟩ := hcloses.log_closeTransport
    have hwrites : writes (d.doneCallback f).1.close.1.log = writes (d.doneCallback f).1.log := by
      rw [hk, writes_append, writes_close, List.append_nil]
    refine ⟨fun h => ?_, fun h => ?_⟩
    · have hd := hdone.1 h
      exact ⟨hcloses.parser.trans hd.parser, hcloses.response500.trans hd.response500, hwrites.trans hd.writes⟩
    · have hd := hdone.2 h
      exact ⟨hcloses.parser.trans hd.parser, hcloses.response500.trans hd.response500, hwrites.trans hd.writes⟩
  · exact hdone

/-- `connection_lost` on a closing transport writes nothing. -/
theorem connectionLost_wrote (hp : Pending c) (hc : c.transport.closing = true) : WroteNothing c c.connectionLost := by
  have hbody : ∀ f (d : Connection π ω), f ∈ d.futures → Drains c.logLost d ∧ WroteNothing c d →
      Drains c.logLost (d.cancel f, (none : Option Exc)).1 ∧ WroteNothing c (d.cancel f, (none : Option Exc)).1 := by
    rintro f d hf ⟨hd, hnone⟩
    have hpd := hd.pending (pending_logLost hp)
    refine ⟨hd.trans (drains_cancel hpd hf), ?_⟩
    have hwrote := (complete_wrote hpd hf (show FutureState.cancelled ≠ .pending by simp)).2
      fun h => by rw [hd.closing hc] at h; cases h.2
    rw [cancel_eq hpd hf]
    exact ⟨hwrote.parser.trans hnone.parser, hwrote.response500.trans hnone.response500, hwrote.writes.trans hnone.writes⟩
  have hlost : WroteNothing c c.logLost := ⟨rfl, rfl, by simp [logLost, writes]⟩
  exact (forEach_invariant (I := fun d => Drains c.logLost d ∧ WroteNothing c d) hbody c.futures.length 0 c.logLost
    ⟨.refl _, hlost⟩).2

/-- The end of a task: what is written is a 500 response, if it has failed and its future is pending. -/
theorem settle_wrote (hw : Wf c) {o : Outcome} (ho : (c.task f).state = .ended o) :
    (Fails500 c f → Wrote500 f c (c.settle f o)) ∧ (¬ Fails500 c f → WroteNothing c (c.settle f o)) := by
  by_cases hs : (c.future f).state = .pending
  · have hmem := hw.listed f (hw.lt_of_task (.inl (by simp [ho]))) hs
    have hfails : Fails500 c f ↔ failed o.toFuture = true ∧ c.transport.closing = false := by
      rw [failed_toFuture]
      simp [Fails500, hs, ho, and_comm]
    generalize hd : c.setTask f { c.task f with state := .gone } = d
    have hpd : Pending d := hd ▸ ⟨hw.nodup, hw.pending, hw.callbacks⟩
    have hmem' : f ∈ d.futures := by rwa [← hd]
    have hwrote := complete_wrote hpd hmem' (Outcome.toFuture_ne_pending o)
    have hsettle : c.settle f o = (d.setFuture f o.toFuture).invokeCallbacks close f := by
      have hpending : (d.future f).state = .pending := hd ▸ hs
      simp only [settle, hd, hpending]
    rw [← hsettle] at hwrote
    subst hd
    refine ⟨fun h5 => ?_, fun h5 => ?_⟩
    · obtain ⟨hparser, h500, hwrites⟩ := hwrote.1 (hfails.mp h5)
      exact ⟨hparser, h500, hwrites⟩
    · obtain ⟨hparser, h500, hwrites⟩ := hwrote.2 fun hcond => h5 (hfails.mpr hcond)
      exact ⟨hparser, h500, hwrites⟩
  · rw [settle_of_ne_pending hs]
    exact ⟨fun h5 => absurd h5.1 hs, fun _ => ⟨rfl, rfl, rfl⟩⟩

/-- What a step but a chunk does to the parser and the wire: it writes a response, or nothing. -/
def Yields (c : Connection π ω) (response : Option (Response × Request)) (c' : Connection π ω) : Prop :=
  c'.parser = (response.elim c.parser fun r => c.parserAfter r.1 r.2) ∧
    writes c'.log = writes c.log ++ response.elim [] fun r => c.chunksOf r.1 r.2

theorem yields_none (hp : c'.parser = c.parser) (hl : writes c'.log = writes c.log) : Yields c none c' :=
  ⟨hp, hl.trans (List.append_nil _).symm⟩

theorem yields_writeResponse {owner : Owner} {response : Response} {request : Request}
    (hp : c'.parser = (c.writeResponse owner response request).1.parser)
    (hl : c'.log = (c.writeResponse owner response request).1.log) : Yields c (some (response, request)) c' := by
  refine ⟨hp.trans (writeResponse_parserAfter _ _ _ _), ?_⟩
  rw [hl, writeResponse_log, writes_append, writes_respond]
  rfl

theorem handleRequest_yields (f : Nat) (result : HandlerResult) (c : Connection π ω) :
    Yields c (newResponse c (.handlerDone f result)) (c.handleRequest f result) := by
  cases result with
  | returned response =>
    have hsame : ∀ request, (c.future f).request.setTransportInfo c.transport.info = request →
        (c.handleRequest f (.returned response)).parser = (c.writeResponse (.request f) response request).1.parser ∧
          (c.handleRequest f (.returned response)).log = (c.writeResponse (.request f) response request).1.log := by
      rintro request rfl
      simp only [handleRequest]
      generalize c.writeResponse (.request f) response ((c.future f).request.setTransportInfo c.transport.info) = x
      rcases x with ⟨c', r, _ | e⟩
      · simp only
        split <;> exact ⟨rfl, rfl⟩
      · exact ⟨rfl, rfl⟩
    exact yields_writeResponse (hsame _ rfl).1 (hsame _ rfl).2
  | raised e => exact yields_none rfl rfl
  | cancelled => exact yields_none rfl rfl

theorem pushDone_yields (f k : Nat) (result : HandlerResult) (c : Connection π ω) :
    Yields c (newResponse c (.pushDone f k result)) (c.pushDone f k result) := by
  obtain ⟨t, hg, -⟩ := gather_eq f k (c.handlePush f k result).2 (c.handlePush f k result).1
  rw [pushDone_gather, hg]
  cases result with
  | returned response =>
    cases hk : (c.task f).pushes[k]? with
    | none =>
      simp only [newResponse, hk, handlePush]
      exact yields_none rfl rfl
    | some push =>
      simp only [newResponse, hk, handlePush_returned hk]
      exact yields_writeResponse rfl rfl
  | raised e => exact yields_none rfl rfl
  | cancelled => exact yields_none rfl rfl

theorem step_yields (hw : Wf c) (h : Step c e c') (hne : ∀ data, e ≠ .dataReceived data) :
    Yields c (newResponse c e) c' := by
  cases e with
  | dataReceived data => exact absurd rfl (hne data)
  | handlerDone f result =>
    obtain ⟨-, rfl⟩ := step_handlerDone.mp h
    exact handleRequest_yields f result c
  | pushDone f k result =>
    obtain ⟨-, rfl⟩ := step_pushDone.mp h
    exact pushDone_yields f k result c
  | settle f =>
    obtain ⟨o, ho, rfl⟩ := step_settle.mp h
    by_cases h5 : Fails500 c f
    · have h := (settle_wrote hw ho).1 h5
      rw [newResponse, if_pos h5]
      exact ⟨h.parser, h.writes⟩
    · have h := (settle_wrote hw ho).2 h5
      rw [newResponse, if_neg h5]
      exact yields_none h.parser h.writes
  | cancelTask f =>
    obtain ⟨-, rfl⟩ := step_cancelTask.mp h
    exact yields_none rfl rfl
  | transportClosing =>
    obtain rfl := step_transportClosing.mp h
    exact yields_none rfl rfl
  | connectionLost =>
    obtain rfl := step_connectionLost.mp h
    have h := connectionLost_wrote (pending_setClosing hw.toPending) rfl
    exact yields_none h.parser h.writes
  | close =>
    obtain rfl := step_close.mp h
    have hcloses := (close_closes hw.toPending).1
    obtain ⟨k, hk⟩ := hcloses.log_closeTransport
    refine yields_none hcloses.parser ?_
    rw [hk, writes_append, writes_close, List.append_nil]

theorem step_writes (hw : Wf c) (h : Step c e c') : writes c'.log = writes c.log ++ newWrites c e := by
  cases e with
  | dataReceived data =>
    obtain ⟨-, ps, p, ⟨e, hr, rfl⟩ | ⟨parsed, hpar, -, hc⟩ | ⟨parsed, hpar, -, rfl⟩⟩ := step_dataReceived_cases hw h
    · have hnone : newWrites c (.dataReceived data) = [] := by
        rcases hr with hr | ⟨hr, -⟩ <;> simp [newWrites, hr]
      rw [hnone, List.append_nil]
      rfl
    · obtain ⟨k, hk⟩ := hc.log_closeTransport
      rw [hk]
      simp [newWrites, hpar, writes_sent]
    · show writes (c.log ++ sent parsed.data) = _
      simp [newWrites, hpar, writes_sent]
  | _ => exact (step_yields hw h nofun).2

/-- What `handle_response` keeps of a response, every step keeps of `response_500`. -/
theorem step_response500 {Q : Response → Prop}
    (hQ : ∀ (p : π) (response : Response) (request : Request), Q response →
      Q (ParserProtocol.handleResponse p response request).2.1)
    (hw : Wf c) (h : Step c e c') (hc : Q c.response500) : Q c'.response500 := by
  cases e with
  | dataReceived data =>
    obtain ⟨-, ps, p, ⟨e, -, rfl⟩ | ⟨parsed, -, -, hcloses⟩ | ⟨parsed, -, -, rfl⟩⟩ := step_dataReceived_cases hw h
    · exact hc
    · rw [hcloses.response500]
      exact hc
    · exact hc
  | handlerDone f result =>
    obtain ⟨-, rfl⟩ := step_handlerDone.mp h
    obtain ⟨p, t, l, -, he, -⟩ := handleRequest_eq f result c
    rwa [he]
  | pushDone f k result =>
    obtain ⟨-, rfl⟩ := step_pushDone.mp h
    obtain ⟨p, t, l, -, he, -⟩ := pushDone_eq f k result c
    rwa [he]
  | settle f =>
    obtain ⟨o, ho, rfl⟩ := step_settle.mp h
    by_cases h5 : Fails500 c f
    · rw [((settle_wrote hw ho).1 h5).response500, responseAfter]
      cases c.parser with
      | none => exact hc
      | some p => exact hQ p _ _ hc
    · rwa [((settle_wrote hw ho).2 h5).response500]
  | cancelTask f =>
    obtain ⟨-, rfl⟩ := step_cancelTask.mp h
    exact hc
  | transportClosing =>
    obtain rfl := step_transportClosing.mp h
    exact hc
  | connectionLost =>
    obtain rfl := step_connectionLost.mp h
    rwa [(connectionLost_wrote (pending_setClosing hw.toPending) rfl).response500]
  | close =>
    obtain rfl := step_close.mp h
    rwa [(closes_close hw.toPending).response500]

/-! ## Parsers -/

/-- What is done with the triple that the parser returns changes no parser. -/
theorem receive_parsers (hp : Pending c) {data : Bytes} {parsed : Parsed ω} (h : (c.parse data).2 = .ok (some parsed)) :
    (c.receive data).parser = (c.parse data).1.parser := by
  obtain ⟨ps, p, -, -, hc⟩ := parse_eq data c
  have hp₀ : Pending { (c.parse data).1 with log := (c.parse data).1.log ++ sent parsed.data } := by
    rw [hc]
    exact ⟨hp.nodup, hp.pending, hp.callbacks⟩
  obtain ⟨hcloses, hexc⟩ := close_closes hp₀
  simp only [receive, dataReceived]
  generalize c.parse data = x at h hcloses hexc
  obtain ⟨c₀, result⟩ := x
  obtain rfl : result = .ok (some parsed) := h
  by_cases hcl : parsed.close = true ∧ parsed.requests = []
  · simp only [accept_eq, if_pos hcl]
    generalize hs : Connection.close { c₀ with log := c₀.log ++ sent parsed.data } = s at hcloses hexc
    obtain ⟨c', e⟩ := s
    obtain rfl : e = none := hexc
    exact hcloses.parser
  · simp only [accept_eq, if_neg hcl]
    rfl

/-- Nor does what is done where it returns none. -/
theorem receive_parsers_of_rejects {data : Bytes} (h : ∀ parsed, (c.parse data).2 ≠ .ok (some parsed)) :
    (c.receive data).parser = (c.parse data).1.parser ∧ (c.receive data).parsers = (c.parse data).1.parsers := by
  simp only [receive, dataReceived]
  generalize c.parse data = x at h
  rcases x with ⟨c₀, e | _ | parsed⟩
  · exact ⟨rfl, rfl⟩
  · exact ⟨rfl, rfl⟩
  · exact absurd rfl (h parsed)

/-- Only a chunk selects a parser. -/
theorem step_parser_isSome (hw : Wf c) (h : Step c e c') (hne : ∀ data, e ≠ .dataReceived data) :
    c'.parser.isSome = c.parser.isSome := by
  rw [(step_yields hw h hne).1]
  cases newResponse c e with
  | none => rfl
  | some r => simp [parserAfter]

/-- A connection without a parser has no request: all it can do but receive a chunk is close. -/
theorem step_unused (hw : Wf c) (hp : c.parser = none) (h : Step c e c') (hne : ∀ data, e ≠ .dataReceived data) :
    c'.parsers = c.parsers ∧ newResponse c e = none := by
  have hnext := hw.parser hp
  have htask : ∀ f, c.task f = {} := fun f => hw.idle f (by omega)
  have hfutures : c.futures = [] := List.eq_nil_iff_forall_not_mem.mpr fun f hf => by
    have := hw.lt f hf
    omega
  cases e with
  | dataReceived data => exact absurd rfl (hne data)
  | handlerDone f result => simp [step_handlerDone, htask] at h
  | pushDone f k result => simp [step_pushDone, htask] at h
  | settle f => simp [step_settle, htask] at h
  | cancelTask f => simp [step_cancelTask, htask] at h
  | transportClosing =>
    obtain rfl := step_transportClosing.mp h
    exact ⟨rfl, rfl⟩
  | connectionLost =>
    obtain rfl := step_connectionLost.mp h
    have hnone : c.setClosing.futures = [] := hfutures
    refine ⟨?_, rfl⟩
    simp only [connectionLost, hnone, List.length_nil, forEach]
    rfl
  | close =>
    obtain rfl := step_close.mp h
    simp [close, hfutures, closeNested, closeTransport, setClosing, newResponse]

end Levin.Connection
