import Levin.Framework.Exchange
import Levin.Proof.Connection.Isolation
import Levin.Proof.Connection.Failures

/-!
# HTTP/1 connections as exchanges

Whatever happens to it and to the others, a connection of a server with the simple
parser is an exchange of requests and answers (`http1_exchange`): its requests are
those that its chunks parse to, and what it has written is the answers' messages,
each whole and none twice, in the order in which the handlers are done. While the
transport is open a request has its answer or is waiting for it; so once none waits,
each has one.
-/

namespace Levin.Connection

open Framework

variable {c c' : Connection HttpSimple.Parser UInt8} {f : Nat} {e : Event} {es : List Event}

/-- What is written of a response. -/
def message (response : Response) : Bytes := (HttpSimple.handleResponse response).1.chunks.flatten

/-- `response_500` as the module defines it. -/
def sorry500 : Response := { status := 500, body := Bytes.ascii "Sorry" }

/-- The requests that the chunks of a run parse to. -/
def parsedRequests (es : List Event) : List Request :=
  es.filterMap fun
    | .dataReceived data => (HttpSimple.parseRequest data).toOption
    | _ => none

/-- The answer that an event sends: the handler's response, if its status is one of HTTP, or a 500. -/
def newAnswer (c : Connection HttpSimple.Parser UInt8) : Event → Option (Nat × Response)
  | .handlerDone f (.returned response) =>
    if (HttpSimple.statusPhrase response.status).isSome then some (f, response) else none
  | .settle f => if Fails500 c f then some (f, sorry500) else none
  | _ => none

/-- The exchange that a run with the events `es` to `c` is. -/
structure Exchanged (es : List Event) (c : Connection HttpSimple.Parser UInt8) (x : Exchange Request Response) :
    Prop where
  reachable : x.Reachable
  received : x.received = parsedRequests es
  sent : (writes c.log).flatten = x.sent message
  /-- An answer is the response of the request's own handler, or the 500 of its task, which has failed and is over. -/
  genuine : ∀ f response, (f, response) ∈ x.answers →
    .handlerDone f (.returned response) ∈ es ∧ (HttpSimple.statusPhrase response.status).isSome ∨
      (.settle f ∈ es ∧ ∃ e ∈ es, FailsBy f e) ∧ response = sorry500
  waiting : c.transport.closing = false → ∀ f < x.received.length, f ∈ x.answered ∨ Waiting c f

/-! ## What a step adds to the exchange -/

/-- What the simple parser makes of a chunk. -/
theorem http1_parsed (h1 : Http1 c) (data : Bytes) (parsed : Parsed UInt8) :
    (c.parse data).2 = .ok (some parsed) ↔
      ∃ request, HttpSimple.parseRequest data = .ok request ∧ parsed = { data := [], requests := [request], close := false } := by
  have hhandle : HttpSimple.handleRequest data = .ok parsed ↔
      ∃ request, HttpSimple.parseRequest data = .ok request ∧ parsed = { data := [], requests := [request], close := false } := by
    unfold HttpSimple.handleRequest
    cases HttpSimple.parseRequest data with
    | error e => simp
    | ok request => simp [eq_comm]
  rw [← hhandle]
  rcases h1 with hp | ⟨hp, hps⟩
  · simp only [parse, hp, ParserProtocol.handleRequest]
    cases HttpSimple.handleRequest data <;> simp [Except.map]
  · simp only [parse, hp, hps, selectParser, ParserProtocol.handleRequest]
    cases hr : HttpSimple.handleRequest data with
    | ok parsed => simp
    | error e => cases e <;> simp

theorem http1_newRequests (h1 : Http1 c) (e : Event) : newRequests c e = parsedRequests [e] := by
  cases e with
  | dataReceived data =>
    have hnew : parsedRequests [.dataReceived data] = (HttpSimple.parseRequest data).toOption.toList := by
      simp only [parsedRequests, List.filterMap_cons, List.filterMap_nil]
      cases (HttpSimple.parseRequest data).toOption <;> rfl
    rw [hnew]
    cases hr : HttpSimple.parseRequest data with
    | ok request =>
      have hparsed := (http1_parsed h1 data _).mpr ⟨request, hr, rfl⟩
      simp [newRequests, hparsed, Except.toOption]
    | error e =>
      have hnone : ∀ parsed, (c.parse data).2 ≠ .ok (some parsed) := by
        intro parsed hparsed
        obtain ⟨request, hok, -⟩ := (http1_parsed h1 data parsed).mp hparsed
        rw [hr] at hok
        cases hok
      simp only [newRequests]
      rfl
  | _ => rfl

theorem message_sorry500 {r : Response} (h : HttpSimple.setContentLength r = HttpSimple.setContentLength sorry500) :
    message r = message sorry500 := by
  simp only [message, HttpSimple.handleResponse, h]

theorem message_of_unknown {r : Response} (h : (HttpSimple.statusPhrase r.status).isSome = false) : message r = [] := by
  have hc := (handleResponse_chunks r).2
  rw [if_neg (by simp [h])] at hc
  rw [message, hc.2]
  rfl

theorem http1_chunksOf (hp : c.parser = some {}) (response : Response) (request : Request) :
    (c.chunksOf response request).flatten = message response := by
  simp [chunksOf, hp, ParserProtocol.handleResponse, message]

/-- What a step writes is its answer. -/
theorem http1_newWrites (hw : Wf c) (h1 : Http1 c) (hfree : ∀ f, PushFree (c.task f))
    (h500 : HttpSimple.setContentLength c.response500 = HttpSimple.setContentLength sorry500) (h : Step c e c') :
    (newWrites c e).flatten = (newAnswer c e).toList.flatMap fun a => message a.2 := by
  cases e with
  | dataReceived data =>
    simp only [newWrites, newAnswer]
    split
    · rename_i parsed hparsed
      obtain ⟨request, -, rfl⟩ := (http1_parsed h1 data parsed).mp hparsed
      rfl
    · rfl
  | handlerDone g result =>
    obtain ⟨hs, -⟩ := step_handlerDone.mp h
    have hp := parser_of_task hw h1 (hw.lt_of_task (f := g) (.inl (by simp [hs])))
    cases result with
    | returned response =>
      simp only [newWrites, newResponse, Option.elim, newAnswer, http1_chunksOf hp]
      cases hk : (HttpSimple.statusPhrase response.status).isSome with
      | true => simp
      | false => simp [message_of_unknown hk]
    | raised e => rfl
    | cancelled => rfl
  | pushDone g k result =>
    obtain ⟨hk, -⟩ := step_pushDone.mp h
    rw [(hfree g).2] at hk
    cases hk
  | settle g =>
    obtain ⟨o, ho, -⟩ := step_settle.mp h
    have hp := parser_of_task hw h1 (hw.lt_of_task (f := g) (.inl (by simp [ho])))
    simp only [newWrites, newResponse, newAnswer]
    split
    · simp only [Option.elim, http1_chunksOf hp, message_sorry500 h500]
      simp
    · rfl
  | _ => rfl

/-! ## Runs -/

/-- What holds of a run with the events `es` to `c`, besides its being an exchange. -/
structure Exchanging (es : List Event) (c : Connection HttpSimple.Parser UInt8) (x : Exchange Request Response) :
    Prop extends Wf c, Exchanged es c x where
  http1 : Http1 c
  live : Live c
  pushFree : ∀ f, PushFree (c.task f)
  response500 : HttpSimple.setContentLength c.response500 = HttpSimple.setContentLength sorry500
  requests : x.received = c.requests
  settled : ∀ f ∈ x.answered, (c.task f).state = .gone ∨ (c.task f).state = .ended .returned
  failed : c.transport.closing = false → ∀ f o, (c.task f).state = .ended o → o ≠ .returned → ∃ e ∈ es, FailsBy f e

/-- The exchange, one event further. -/
def extend (x : Exchange Request Response) (c : Connection HttpSimple.Parser UInt8) (e : Event) :
    Exchange Request Response :=
  { received := x.received ++ newRequests c e, answers := x.answers ++ (newAnswer c e).toList }

/-- An event that sends an answer is about a request that has none. -/
theorem newAnswer_eq_some {response : Response} (h : Step c e c') (ha : newAnswer c e = some (f, response)) :
    ((c.task f).state ≠ .gone ∧ (c.task f).state ≠ .ended .returned) ∧
      (e = .handlerDone f (.returned response) ∧ (HttpSimple.statusPhrase response.status).isSome ∨
        (e = .settle f ∧ Fails500 c f) ∧ response = sorry500) := by
  cases e with
  | handlerDone g result =>
    obtain ⟨hs, -⟩ := step_handlerDone.mp h
    cases result with
    | returned r =>
      simp only [newAnswer] at ha
      split at ha
      · rename_i hk
        cases ha
        exact ⟨by simp [hs], .inl ⟨rfl, hk⟩⟩
      · cases ha
    | raised e => cases ha
    | cancelled => cases ha
  | settle g =>
    obtain ⟨o, ho, -⟩ := step_settle.mp h
    simp only [newAnswer] at ha
    split at ha
    · rename_i hfails
      cases ha
      exact ⟨⟨by simp [ho], hfails.2.2⟩, .inr ⟨⟨rfl, hfails⟩, rfl⟩⟩
    · cases ha
  | _ => cases ha

/-- A handler that is done has sent the answer, or the request waits for its 500. -/
theorem handlerDone_answers {result : HandlerResult} (hw : Wf c) (h1 : Http1 c) (h : Step c (.handlerDone f result) c') :
    (∃ response, newAnswer c (.handlerDone f result) = some (f, response)) ∨ Waiting c' f := by
  obtain ⟨hs, rfl⟩ := step_handlerDone.mp h
  have hp := parser_of_task hw h1 (hw.lt_of_task (f := f) (.inl (by simp [hs])))
  cases result with
  | returned response =>
    by_cases hk : (HttpSimple.statusPhrase response.status).isSome
    · exact .inl ⟨response, if_pos hk⟩
    · refine .inr (.inr ⟨.raised .TypeError, by simp, ?_⟩)
      rw [http1_handleRequest hp, if_neg hk]
      simp
  | raised e => exact .inr (.inr ⟨.raised e, by simp, by simp [handleRequest, endTask, setTask]⟩)
  | cancelled => exact .inr (.inr ⟨.cancelled, by simp, by simp [handleRequest, endTask, setTask]⟩)

/-- The handlers of new requests run. -/
theorem newRequests_handling (h1 : Http1 c) (h : Step c e c') (hle : c.next ≤ f)
    (hlt : f < c.next + (newRequests c e).length) : (c'.task f).state = .handling := by
  rw [http1_newRequests h1] at hlt
  cases e with
  | dataReceived data =>
    obtain ⟨-, rfl⟩ := step_dataReceived.mp h
    cases hr : HttpSimple.parseRequest data with
    | ok request =>
      have hlen : f < c.next + [request].length := by simpa [parsedRequests, hr, Except.toOption] using hlt
      rw [http1_receive h1 hr]
      obtain ⟨-, -, -, -, ht⟩ := @dispatched_new _ _ { c with parser := some {} } f [request] false hle hlen
      rw [ht]
    | error e =>
      simp [parsedRequests, hr, Except.toOption] at hlt
      omega
  | _ =>
    simp [parsedRequests] at hlt
    omega

namespace Exchanging

variable {x : Exchange Request Response}

theorem length_received (hx : Exchanging es c x) : x.received.length = c.next := by
  rw [hx.requests, Connection.requests, List.length_map, List.length_range]

theorem answered_extend (x : Exchange Request Response) (c : Connection HttpSimple.Parser UInt8) (e : Event) :
    (extend x c e).answered = x.answered ++ (newAnswer c e).toList.map Prod.fst := by
  simp [extend, Exchange.answered]

theorem reachable_extend (hx : Exchanging es c x) (h : Step c e c') : (extend x c e).Reachable := by
  have hreceive := hx.reachable.receive (newRequests c e)
  cases ha : newAnswer c e with
  | none => simpa [extend, ha] using hreceive
  | some a =>
    obtain ⟨f, response⟩ := a
    obtain ⟨⟨hgone, hreturned⟩, -⟩ := newAnswer_eq_some h ha
    have hlt : f < x.received.length := hx.length_received ▸ hx.lt_of_task (.inl hgone)
    have hnew : f ∉ x.answered := fun hf => (hx.settled f hf).elim hgone hreturned
    have hstep := hreceive.step (.answer _ f response (by simp; omega) hnew)
    simpa [extend, ha] using hstep

theorem sent_extend (hx : Exchanging es c x) (h : Step c e c') : (writes c'.log).flatten = (extend x c e).sent message := by
  rw [step_writes hx.toWf h, List.flatten_append, hx.sent, http1_newWrites hx.toWf hx.http1 hx.pushFree hx.response500 h]
  simp [extend, Exchange.sent]

/-- The task that gets a 500 has ended before, on an open transport. -/
theorem genuine_extend (hx : Exchanging es c x) (h : Step c e c') (f : Nat) (response : Response)
    (ha : (f, response) ∈ (extend x c e).answers) :
    .handlerDone f (.returned response) ∈ es ++ [e] ∧ (HttpSimple.statusPhrase response.status).isSome ∨
      (.settle f ∈ es ++ [e] ∧ ∃ e' ∈ es ++ [e], FailsBy f e') ∧ response = sorry500 := by
  rcases List.mem_append.mp ha with ha | ha
  · rcases hx.genuine f response ha with ⟨hdone, hk⟩ | ⟨⟨hsettle, e', he', hfails⟩, hresponse⟩
    · exact .inl ⟨List.mem_append_left _ hdone, hk⟩
    · exact .inr ⟨⟨List.mem_append_left _ hsettle, e', List.mem_append_left _ he', hfails⟩, hresponse⟩
  · have hnew : newAnswer c e = some (f, response) := by simpa using ha
    rcases (newAnswer_eq_some h hnew).2 with ⟨rfl, hk⟩ | ⟨⟨rfl, hfails⟩, hresponse⟩
    · exact .inl ⟨by simp, hk⟩
    · obtain ⟨o, ho, -⟩ := step_settle.mp h
      obtain ⟨e', he', hby⟩ := hx.failed hfails.2.1 f o ho (by simpa [ho] using hfails.2.2)
      exact .inr ⟨⟨by simp, e', List.mem_append_left _ he', hby⟩, hresponse⟩

theorem failed_extend (hx : Exchanging es c x) (h : Step c e c') (ho : c'.transport.closing = false) (f : Nat) (o : Outcome)
    (hended : (c'.task f).state = .ended o) (hne : o ≠ .returned) : ∃ e' ∈ es ++ [e], FailsBy f e' := by
  by_cases hnew : (c.task f).state = .ended o
  · obtain ⟨e', he', hfails⟩ := hx.failed (step_open hx.toWf h ho).1 f o hnew hne
    exact ⟨e', List.mem_append_left _ he', hfails⟩
  · exact ⟨e, by simp, step_failed hx.toWf hx.http1 hx.pushFree h ho hended hne hnew⟩

theorem settled_extend (hx : Exchanging es c x) (h : Step c e c') (f : Nat) (hf : f ∈ (extend x c e).answered) :
    (c'.task f).state = .gone ∨ (c'.task f).state = .ended .returned := by
  have ht := step_task hx.toWf h f
  rw [answered_extend] at hf
  rcases List.mem_append.mp hf with hf | hf
  · -- A task that is over stays over.
    have hlt : f < c.next := hx.length_received ▸ (hx.reachable.answered_nodup.2 f hf)
    generalize (c'.task f).state = t' at ht
    rcases hx.settled f hf with hs | hs <;> rw [hs] at ht <;> cases ht
    · exact .inl rfl
    · omega
    · simp_all
    · exact .inr rfl
    · simp_all
    · exact .inl rfl
  · obtain ⟨⟨g, response⟩, ha, rfl⟩ := List.mem_map.mp hf
    have hnew : newAnswer c e = some (g, response) := by simpa using ha
    obtain ⟨⟨hgone, hreturned⟩, ⟨rfl, hk⟩ | ⟨⟨rfl, -⟩, -⟩⟩ := newAnswer_eq_some h hnew
    · obtain ⟨hs, rfl⟩ := step_handlerDone.mp h
      have hp := parser_of_task hx.toWf hx.http1 (hx.lt_of_task (f := g) (.inl hgone))
      rw [http1_handleRequest hp, if_pos hk]
      simp
    · obtain ⟨o, ho, -⟩ := step_settle.mp h
      simp only [ho] at ht
      generalize (c'.task g).state = t' at ht
      cases ht with
      | same _ hs => exact absurd rfl hs
      | cancelled hs => simp at hs
      | settled => exact .inl rfl

/-- On an open transport, a request that is not answered yet waits. -/
theorem waiting_extend (hx : Exchanging es c x) (h : Step c e c') (ho : c'.transport.closing = false) (f : Nat)
    (hf : f < (extend x c e).received.length) : f ∈ (extend x c e).answered ∨ Waiting c' f := by
  have hopen := (step_open hx.toWf h ho).1
  have ht := step_task hx.toWf h f
  rw [answered_extend, List.mem_append]
  by_cases hlt : f < c.next
  · rcases hx.waiting hopen f (hx.length_received ▸ hlt) with hin | hw
    · exact .inl (.inl hin)
    · generalize hs' : (c'.task f).state = s' at ht
      rcases hw with hs | ⟨o, hne, hs⟩
      · -- The handler runs on, is done or is cancelled.
        rw [hs] at ht
        cases ht with
        | same => exact .inr (.inl hs')
        | handled =>
          refine (handlerDone_answers hx.toWf hx.http1 h).imp (fun ⟨response, ha⟩ => .inr ?_) id
          simp [ha]
        | pushes => exact absurd hs' (step_pushFree hx.toWf hx.http1 hx.pushFree h f).1
        | cancelled => exact .inr (.inr ⟨.cancelled, by simp, hs'⟩)
      · -- It has failed, and a 500 is still to come or comes now.
        rw [hs] at ht
        cases ht with
        | same => exact .inr (.inr ⟨o, hne, hs'⟩)
        | cancelled h => simp at h
        | settled =>
          have hpending : (c.future f).state = .pending := hx.pending f (hx.live hopen f (by simp [hs]))
          have hfails : Fails500 c f := ⟨hpending, hopen, by simpa [hs] using hne⟩
          exact .inl (.inr (by simp [newAnswer, hfails]))
  · have hlen : f < c.next + (newRequests c e).length := by simpa [extend, hx.length_received] using hf
    exact .inr (.inl (newRequests_handling hx.http1 h (by omega) hlen))

theorem step (hx : Exchanging es c x) (h : Step c e c') : Exchanging (es ++ [e]) c' (extend x c e) where
  toWf := step_wf hx.toWf h
  reachable := hx.reachable_extend h
  received := by
    rw [extend, hx.received, http1_newRequests hx.http1]
    exact (List.filterMap_append ..).symm
  sent := hx.sent_extend h
  genuine := hx.genuine_extend h
  waiting := hx.waiting_extend h
  http1 := step_http1 hx.toWf hx.http1 h
  live := step_live hx.toWf hx.live h
  pushFree := step_pushFree hx.toWf hx.http1 hx.pushFree h
  response500 := by
    refine step_response500 (Q := fun r => HttpSimple.setContentLength r = HttpSimple.setContentLength sorry500) ?_
      hx.toWf h hx.response500
    exact fun p r request hr => steady_http1.stays p request hr
  requests := by rw [step_requests hx.toWf h, ← hx.requests]; rfl
  settled := hx.settled_extend h
  failed := hx.failed_extend h

theorem fresh (info : TransportInfo) (sslcontext : Bool) : Exchanging [] (fresh [{}] info sslcontext) {} where
  toWf := wf_fresh _ _ _
  reachable := ⟨[], .nil⟩
  received := rfl
  sent := rfl
  genuine := nofun
  waiting _ := nofun
  http1 := .inr ⟨rfl, rfl⟩
  live _ _ hf := absurd rfl hf
  pushFree _ := ⟨by simp [Connection.fresh, connectionMade], rfl⟩
  response500 := rfl
  requests := rfl
  settled := nofun
  failed _ f o hended := by cases hended

end Exchanging

/-- Every run of an HTTP/1 connection is an exchange: its requests are those that the chunks parse to, and what it has
written is the answers' messages, one after the other. -/
theorem exchanged_run {info : TransportInfo} {sslcontext : Bool} (h : Run Step (fresh [{}] info sslcontext) es c) :
    ∃ x, Exchanged es c x := by
  obtain ⟨x, hx⟩ := h.history (I := fun es c => ∃ x, Exchanging es c x) ⟨{}, .fresh info sslcontext⟩
    fun es c e c' ⟨x, hx⟩ hs => ⟨extend x c e, hx.step hs⟩
  exact ⟨x, hx.toExchanged⟩

/-- Once no request waits on an open transport, each has exactly one answer. -/
theorem Exchanged.complete {x : Exchange Request Response} (hx : Exchanged es c x) (ho : c.transport.closing = false)
    (hwaits : ∀ f, ¬ Waiting c f) : x.answered.Perm (List.range (parsedRequests es).length) := by
  rw [← hx.received]
  exact hx.reachable.perm_range fun f hf => (hx.waiting ho f hf).resolve_right (hwaits f)

end Levin.Connection

namespace Levin.Connections

open Framework Connection

variable {π ω : Type} [ParserProtocol π ω] {parsers : List π} {es : List ServerEvent} {k : Nat}

/-- The events of the connections, without their numbers. -/
def events (es : List ServerEvent) : List Event :=
  es.filterMap fun
    | .of _ e => some e
    | .made _ _ _ => none

/-- A connection alone is made, and runs. -/
theorem run_alone {s : Option (Connection π ω)} (h : Run (Alone parsers) none es s) :
    (s = none ∧ es = []) ∨ ∃ info sslcontext c, s = some c ∧
      Run Connection.Step (.fresh parsers info sslcontext) (events es) c := by
  refine h.history (I := fun es s => (s = none ∧ es = []) ∨ ∃ info sslcontext c, s = some c ∧
    Run Connection.Step (.fresh parsers info sslcontext) (events es) c) (.inl ⟨rfl, rfl⟩) ?_
  rintro es s e s' hs hstep
  rcases hs with ⟨rfl, rfl⟩ | ⟨info, sslcontext, c, rfl, hrun⟩
  · cases e with
    | made k info sslcontext =>
      obtain rfl := Option.some.inj hstep
      exact .inr ⟨info, sslcontext, _, rfl, .nil⟩
    | of k e => cases hstep
  · cases e with
    | made k info sslcontext => cases hstep
    | of k e =>
      obtain ⟨c', hc', rfl⟩ := Option.map_eq_some_iff.mp hstep
      have hevents : events (es ++ [.of k e]) = events es ++ [e] := List.filterMap_append ..
      exact .inr ⟨info, sslcontext, c', rfl, hevents ▸ .snoc hrun hc'⟩

/-- In every run of a server with the simple parser, each connection is an exchange. -/
theorem http1_exchange {x : Connections HttpSimple.Parser UInt8} {c : Connection HttpSimple.Parser UInt8}
    (h : Run (Step [{}]) {} es x) (hc : x.connection k = some c) :
    ∃ y, Exchanged (events (on ServerEvent.connection k es)) c y := by
  obtain ⟨-, hi, ht⟩ := (splits steady_http1 [{}]).of_run steady_http1.first holds_new h
  obtain ⟨s, hs⟩ := hi k
  obtain ⟨r, hr⟩ := (ht hs).same
  rw [hc] at hr
  rcases run_alone hs with ⟨rfl, -⟩ | ⟨info, sslcontext, c₀, rfl, hrun⟩
  · cases hr
  · obtain rfl : c = c₀.with500 r := Option.some.inj hr
    obtain ⟨y, hy⟩ := exchanged_run hrun
    exact ⟨y, hy.reachable, hy.received, hy.sent, hy.genuine, hy.waiting⟩

theorem bothFail_exchange :
    let c := ((afterBothFail.get (by decide)).connection 1).get (by decide)
    ∃ y, Exchanged (events (on ServerEvent.connection 1 bothFail)) c y :=
  http1_exchange bothFail_run (Option.some_get _).symm

end Levin.Connections
