import Levin.Proof.Connection.Steps
import Mathlib.Data.List.Infix

/-!
# HTTP/1 connections

The simple parser has no memory, and a connection no queue of responses. Each
chunk is one request or an exception, so that a request cut into several chunks
is never received as one (`segmentation_iff`). Each response is written when its
handler completes, so that the responses are in the order of the requests exactly
if the handlers complete in that order (`in_order_iff`).
-/

namespace Levin.Connection

open Framework

variable {c c' : Connection HttpSimple.Parser UInt8} {f g : Nat} {data : Bytes}

/-- The simple parser is the only one of the connection, selected or not. -/
def Http1 (c : Connection HttpSimple.Parser UInt8) : Prop :=
  c.parser = some {} ∨ c.parser = none ∧ c.parsers = [{}]

/-! ## Chunks -/

/-- A chunk that is a request is dispatched. -/
theorem http1_receive (h : Http1 c) {request : Request} (hr : HttpSimple.parseRequest data = .ok request) :
    c.receive data = dispatched [request] false { c with parser := some {} } := by
  have hparsed : (HttpSimple.handleRequest data) = .ok { data := [], requests := [request], close := false } := by
    simp [HttpSimple.handleRequest, hr]
  have hparse : c.parse data =
      ({ c with parser := some {} }, .ok (some { data := [], requests := [request], close := false })) := by
    rcases h with hp | ⟨hp, hps⟩
    · simp [parse, hp, ParserProtocol.handleRequest, hparsed, Except.map]
    · simp [parse, hp, hps, selectParser, ParserProtocol.handleRequest, hparsed]
  simp [receive, dataReceived, hparse, accept_eq, sent]

/-- Any other chunk makes `data_received` raise. -/
theorem http1_receive_error (h : Http1 c) {e : Exc} (hr : HttpSimple.parseRequest data = .error e) :
    ∃ e', c.receive data = { c.setClosing with escaped := c.escaped ++ [e'] } := by
  have hparsed : (HttpSimple.handleRequest data) = .error e := by
    simp [HttpSimple.handleRequest, hr]
  rcases h with hp | ⟨hp, hps⟩
  · refine ⟨e, ?_⟩
    simp [receive, dataReceived, parse, hp, ParserProtocol.handleRequest, hparsed, Except.map, setClosing]
  · by_cases he : e = .ParseError
    · refine ⟨.TypeError, ?_⟩
      simp [receive, dataReceived, parse, hp, hps, selectParser, ParserProtocol.handleRequest, hparsed, he, setClosing]
    · refine ⟨e, ?_⟩
      have hsel : selectParser data [({} : HttpSimple.Parser)] = ([{}], .error e) := by
        cases e <;> simp_all [selectParser, ParserProtocol.handleRequest]
      simp [receive, dataReceived, parse, hp, hps, hsel, setClosing]

/-- Each chunk is one request more, or one exception. -/
theorem http1_receive_count (h : Http1 c) (data : Bytes) :
    Http1 (c.receive data) ∧
      (c.receive data).next + (c.receive data).escaped.length = c.next + c.escaped.length + 1 := by
  cases hr : HttpSimple.parseRequest data with
  | ok request =>
    rw [http1_receive h hr]
    refine ⟨.inl rfl, ?_⟩
    show c.next + 1 + c.escaped.length = _
    omega
  | error e =>
    obtain ⟨e', he⟩ := http1_receive_error h hr
    rw [he]
    refine ⟨h, ?_⟩
    simp [setClosing]
    omega

/-! ## Segmentation -/

/-- Successive calls of `data_received`. -/
def deliver (cs : List Bytes) (c : Connection HttpSimple.Parser UInt8) : Connection HttpSimple.Parser UInt8 :=
  cs.foldl (fun c data => c.receive data) c

theorem deliver_count (h : Http1 c) (cs : List Bytes) :
    (deliver cs c).next + (deliver cs c).escaped.length = c.next + c.escaped.length + cs.length := by
  induction cs generalizing c with
  | nil => rfl
  | cons data cs ih =>
    obtain ⟨h', hc⟩ := http1_receive_count h data
    have := ih h'
    simp only [deliver, List.foldl_cons, List.length_cons] at this ⊢
    omega

/-- A request that the parser accepts whole, cut in any way into chunks, is dispatched as it was
sent, and nothing else is dispatched or raised, exactly if it is not cut. -/
theorem segmentation_iff {r : Bytes} {request : Request} (hr : HttpSimple.parseRequest r = .ok request)
    {cs : List Bytes} (hcs : cs.flatten = r) (info : TransportInfo) (sslcontext : Bool) :
    ((deliver cs (fresh [{}] info sslcontext)).escaped = [] ∧ (deliver cs (fresh [{}] info sslcontext)).next = 1 ∧
        ((deliver cs (fresh [{}] info sslcontext)).future 0).request = request) ↔ cs.length = 1 := by
  have h : Http1 (fresh [{}] info sslcontext) := .inr ⟨rfl, rfl⟩
  constructor
  · rintro ⟨he, hn, -⟩
    have := deliver_count h cs
    rw [he, hn] at this
    simpa [fresh, connectionMade] using this.symm
  · intro hlen
    obtain ⟨data, rfl⟩ := List.length_eq_one_iff.mp hlen
    obtain rfl : data = r := by simpa using hcs
    have hd : deliver [data] (fresh [{}] info sslcontext) =
        dispatched [request] false { fresh [{}] info sslcontext with parser := some {} } := http1_receive h hr
    rw [hd]
    exact ⟨rfl, rfl, rfl⟩

/-- A request with a body of two bytes, cut before the body. -/
def cutRequest : List Bytes :=
  [Bytes.ascii "POST / HTTP/1.1\r\nContent-Length: 2\r\n\r\n", Bytes.ascii "ab"]

theorem cutRequest_parsed : HttpSimple.parseRequest cutRequest.flatten =
    .ok (.create (Bytes.ascii "/") (Bytes.ascii "POST") (some (Bytes.ascii "ab"))
      [(Bytes.ascii "content-length", Bytes.ascii "2")] (Bytes.ascii "HTTP/1.1")) := by
  decide

theorem uncutRequest_dispatched : (deliver [cutRequest.flatten] createConnection).escaped = [] ∧
    (deliver [cutRequest.flatten] createConnection).next = 1 ∧
    ((deliver [cutRequest.flatten] createConnection).future 0).request =
      .create (Bytes.ascii "/") (Bytes.ascii "POST") (some (Bytes.ascii "ab"))
        [(Bytes.ascii "content-length", Bytes.ascii "2")] (Bytes.ascii "HTTP/1.1") :=
  (segmentation_iff cutRequest_parsed (by simp) createConnection.transport.info false).mpr rfl

/-- The two chunks are a request without its body and an exception. -/
theorem cutRequest_not_dispatched :
    ¬ ∀ (r : Bytes) (request : Request), HttpSimple.parseRequest r = .ok request →
        ∀ cs : List Bytes, cs.flatten = r → (∀ data ∈ cs, data ≠ []) →
          (deliver cs createConnection).escaped = [] ∧ (deliver cs createConnection).next = 1 ∧
            ((deliver cs createConnection).future 0).request = request :=
  fun h => absurd (h _ _ cutRequest_parsed cutRequest rfl (by decide)).1 (by decide)

/-! ## The order of responses -/

/-- The requests whose responses were written, in that order. A response that cannot be
serialised is not. -/
def answered {ω : Type} : List (Action ω) → List Nat
  | [] => []
  | .respond (.request f) :: .write _ :: l => f :: answered l
  | _ :: l => answered l

theorem answered_append {ω : Type} {l l' : List (Action ω)} (h : ∀ d l'', l' ≠ .write d :: l'') :
    answered (l ++ l') = answered l ++ answered l' := by
  fun_induction answered l with
  | case1 => rfl
  | case2 f d l ih => simp [answered, ih]
  | case3 a l hn ih =>
    rw [List.cons_append, ← ih]
    rcases a with (f | ⟨f, k⟩) | d | _ | _
    · rcases l with _ | ⟨b, l⟩
      · rcases l' with _ | ⟨b, l'⟩
        · rfl
        · cases b <;> simp_all [answered]
      · cases b <;> simp_all [answered]
    all_goals rfl

/-- The request waits for its response: its handler runs, or has failed and the 500 response is
still to come. -/
def Waiting (c : Connection HttpSimple.Parser UInt8) (f : Nat) : Prop :=
  (c.task f).state = .handling ∨ ∃ o, o ≠ .returned ∧ (c.task f).state = .ended o

/-- The request that an event completes: its handler returns a response that can be serialised, or
its future learns of a failure. -/
def completes (c : Connection HttpSimple.Parser UInt8) : Event → Option Nat
  | .handlerDone f (.returned response) => if (HttpSimple.statusPhrase response.status).isSome then some f else none
  | .settle f => if (c.task f).state = .ended .returned then none else some f
  | _ => none

theorem http1_writeResponse (hp : c.parser = some {}) (owner : Owner) (response : Response) (request : Request) :
    c.writeResponse owner response request =
      ({ c with log := c.log ++ .respond owner :: (HttpSimple.handleResponse response).1.chunks.map .write },
        (HttpSimple.handleResponse response).2, (HttpSimple.handleResponse response).1.exc) := by
  simp [writeResponse, hp, ParserProtocol.handleResponse]

/-- A response is written exactly if its status has a phrase. -/
theorem handleResponse_chunks (response : Response) :
    (HttpSimple.handleResponse response).2.status = response.status ∧
      if (HttpSimple.statusPhrase response.status).isSome then
        (HttpSimple.handleResponse response).1.exc = none ∧
          ∃ d ds, (HttpSimple.handleResponse response).1.chunks = d :: ds
      else (HttpSimple.handleResponse response).1.exc = some .TypeError ∧
        (HttpSimple.handleResponse response).1.chunks = [] := by
  have hstatus : (HttpSimple.setContentLength response).status = response.status := by
    unfold HttpSimple.setContentLength
    split <;> rfl
  simp only [HttpSimple.handleResponse, hstatus]
  cases HttpSimple.statusPhrase response.status with
  | none => simp [hstatus]
  | some phrase => simp [hstatus]

theorem http1_handleRequest (hp : c.parser = some {}) (f : Nat) (response : Response) :
    c.handleRequest f (.returned response) =
      let outcome := if (HttpSimple.statusPhrase response.status).isSome then .returned else .raised .TypeError
      { c with
        log := c.log ++ .respond (.request f) :: (HttpSimple.handleResponse response).1.chunks.map .write,
        task := Function.update c.task f { c.task f with state := .ended outcome } } := by
  have hc := (handleResponse_chunks response).2
  simp only [handleRequest, http1_writeResponse hp]
  split at hc
  · rename_i hs
    simp [hc.1, hs, hp, ParserProtocol.pushSupport, endTask, setTask]
  · rename_i hs
    simp [hc.1, hs, endTask, setTask]

/-- The connection with one response more in the log, for a request that failed. -/
def answer500 (f : Nat) (c : Connection HttpSimple.Parser UInt8) : Connection HttpSimple.Parser UInt8 :=
  { c with
    response500 := (HttpSimple.handleResponse c.response500).2,
    log := c.log ++ .respond (.request f) :: (HttpSimple.handleResponse c.response500).1.chunks.map .write }

theorem http1_doneCallback (hp : c.parser = some {}) (ho : c.transport.closing = false) (hf : f ∈ c.futures)
    (state : FutureState) :
    ((c.setFuture f state).doneCallback f).1 =
      if failed state then (c.drop f state).answer500 f else c.drop f state := by
  rw [doneCallback_eq (c := c.setFuture f state) hf, setFuture_future_self]
  cases hs : failed state with
  | false => rfl
  | true =>
    have ho' : (c.setFuture f state).transport.closing = false := ho
    simp only [write500, ho', http1_writeResponse (c := c.setFuture f state) hp]
    rfl

/-- The end of a task on an open HTTP/1 connection. -/
theorem http1_settle (hp : c.parser = some {}) (ho : c.transport.closing = false) (hw : Pending c)
    (hf : f ∈ c.futures) (hcb : (c.future f).callbacks = [.done]) (o : Outcome) :
    c.settle f o =
      let c₁ := (c.setTask f { c.task f with state := .gone }).drop f o.toFuture
      if o = .returned then c₁ else c₁.answer500 f := by
  have hpend : ((c.setTask f { c.task f with state := .gone }).future f).state = .pending := hw.pending f hf
  simp only [settle, hpend]
  rw [invokeCallbacks_eq (by rw [setFuture_future_self]; exact .inl hcb), setFuture_future_self,
    if_neg (by simp [setTask, hcb]), http1_doneCallback (c := c.setTask f _) hp ho hf]
  by_cases hr : o = .returned
  · subst hr
    rfl
  · rw [if_pos ((failed_toFuture o).mpr hr), if_neg hr]

/-- An open HTTP/1 connection: no request waits for pushes, and those wait for their response that
have none. -/
structure Serving (c : Connection HttpSimple.Parser UInt8) : Prop extends Wf c where
  http1 : Http1 c
  status : c.response500.status = 500
  live : ∀ f, (c.task f).state ≠ .gone → f ∈ c.futures
  done : ∀ f ∈ c.futures, (c.future f).callbacks = [.done]
  noPush : ∀ f, (c.task f).state ≠ .pushing ∧ (c.task f).running = []
  waiting : ∀ f < c.next, Waiting c f ↔ f ∉ answered c.log
  answered_lt : ∀ f ∈ answered c.log, f < c.next

/-- A step that leaves the transport open. -/
def OpenStep (c : Connection HttpSimple.Parser UInt8) (e : Event) (c' : Connection HttpSimple.Parser UInt8) : Prop :=
  Step c e c' ∧ c'.transport.closing = false

theorem Serving.parser_eq (hs : Serving c) (hf : f < c.next) : c.parser = some {} :=
  hs.http1.resolve_right fun ⟨h, _⟩ => by have := hs.parser h; omega

theorem answered_respond (f : Nat) (d : List UInt8) (ds : List (List UInt8)) (l : List (Action UInt8)) :
    answered (l ++ .respond (.request f) :: (d :: ds).map .write) = answered l ++ [f] := by
  have hds : answered (ds.map Action.write) = [] := by
    induction ds with
    | nil => rfl
    | cons d ds ih => exact ih
  rw [answered_append (by simp)]
  simp [answered, hds]

theorem answered_respond_nil (f : Nat) (l : List (Action UInt8)) :
    answered (l ++ [.respond (.request f)]) = answered l := by
  rw [answered_append (by simp)]
  simp [answered]

namespace Serving

theorem lt_of_task (hs : Serving c) (h : (c.task f).state ≠ .gone) : f < c.next := hs.toWf.lt_of_task (.inl h)

theorem not_answered (hs : Serving c) (h : Waiting c f) : f < c.next ∧ f ∉ answered c.log := by
  have hlt : f < c.next := by
    refine hs.lt_of_task fun hg => ?_
    rcases h with h | ⟨o, -, h⟩ <;> rw [hg] at h <;> cases h
  exact ⟨hlt, (hs.waiting f hlt).mp h⟩

/-- A new request waits. -/
theorem receive (hs : Serving c) {request : Request} (hr : HttpSimple.parseRequest data = .ok request) :
    Serving (c.receive data) ∧ answered (c.receive data).log = answered c.log := by
  have hw := wf_receive hs.toWf data
  have hlt := hs.answered_lt
  rw [http1_receive hs.http1 hr, ← foldl_dispatch] at hw ⊢
  simp only [List.foldl_cons, List.foldl_nil, dispatch, addDoneCallback, Function.update_self, Function.update_idem,
    List.nil_append] at hw ⊢
  refine ⟨⟨hw, .inl rfl, hs.status, fun f hf => ?_, fun f hf => ?_, fun f => ?_, fun f hf => ?_, fun f hf => ?_⟩, trivial⟩
  · by_cases h : f = c.next
    · simp [h]
    · simp only [Function.update_of_ne h] at hf
      exact List.mem_append_left _ (hs.live f hf)
  · by_cases h : f = c.next
    · simp [h]
    · simp only [List.mem_append, List.mem_singleton, h, or_false] at hf
      simpa [h] using hs.done f hf
  · by_cases h : f = c.next
    · simp [h]
    · simpa [h] using hs.noPush f
  · by_cases h : f = c.next
    · subst h
      have hn : c.next ∉ answered c.log := fun h => Nat.lt_irrefl _ (hlt _ h)
      simp [Waiting, hn]
    · simpa [Waiting, h] using hs.waiting f (by simp at hf; omega)
  · exact Nat.lt_succ_of_lt (hlt f hf)

/-- The handler of a request ends, with or without a response written. -/
theorem ended (hs : Serving c) (hf : (c.task f).state = .handling) (hw : Wf c') {l : List (Action UInt8)}
    {o : Outcome}
    (hc : c' = { c with log := c.log ++ l, task := Function.update c.task f { c.task f with state := .ended o } })
    (hl : answered (c.log ++ l) = answered c.log ++ if o = .returned then [f] else []) :
    Serving c' ∧ answered c'.log = answered c.log ++ if o = .returned then [f] else [] := by
  subst hc
  refine ⟨?_, hl⟩
  have hlt := hs.lt_of_task (f := f) (by simp [hf])
  have hn := (hs.waiting f hlt).mp (.inl hf)
  refine ⟨hw, hs.http1, hs.status, fun g hg => ?_, hs.done, fun g => ?_, fun g hg => ?_, fun g hg => ?_⟩
  · by_cases h : g = f
    · subst h
      exact hs.live g (by simp [hf])
    · simp only [Function.update_of_ne h] at hg
      exact hs.live g hg
  · by_cases h : g = f
    · subst h
      simpa using (hs.noPush g).2
    · simpa [h] using hs.noPush g
  · rw [hl]
    by_cases h : g = f
    · subst h
      by_cases ho : o = .returned <;> simp [Waiting, ho, hn]
    · have := hs.waiting g hg
      by_cases ho : o = .returned <;> simpa [Waiting, ho, h] using this
  · rw [hl] at hg
    rcases List.mem_append.mp hg with hg | hg
    · exact hs.answered_lt g hg
    · split at hg
      · rw [List.mem_singleton.mp hg]
        exact hlt
      · cases hg

/-- The future of a request that has ended learns of it, and a 500 response is written if it failed. -/
theorem settle (hs : Serving c) (ho : c.transport.closing = false) {o : Outcome} (hf : (c.task f).state = .ended o) :
    Serving (c.settle f o) ∧
      answered (c.settle f o).log = answered c.log ++ if o = .returned then [] else [f] := by
  have hlt := hs.lt_of_task (f := f) (by simp [hf])
  have hmem := hs.live f (by simp [hf])
  have hp := hs.parser_eq hlt
  have hw : Wf (c.settle f o) := step_wf hs.toWf (step_settle.mpr ⟨o, hf, rfl⟩)
  have hsettle := http1_settle hp ho hs.toPending hmem (hs.done f hmem) o
  obtain ⟨hst, hchunks⟩ := handleResponse_chunks c.response500
  rw [hs.status, if_pos (by decide)] at hchunks
  obtain ⟨-, d, ds, hds⟩ := hchunks
  have hl : answered (c.settle f o).log = answered c.log ++ if o = .returned then [] else [f] := by
    rw [hsettle]
    by_cases hr : o = .returned
    · simp [hr, drop, Connection.setTask, setFuture]
    · simp only [hr, ite_false]
      rw [← answered_respond f d ds, ← hds]
      rfl
  have hfields : Http1 (c.settle f o) ∧ (c.settle f o).response500.status = 500 ∧
      (c.settle f o).futures = c.futures.erase f ∧ (c.settle f o).next = c.next ∧
      (c.settle f o).task = Function.update c.task f { c.task f with state := .gone } ∧
      ∀ g ≠ f, (c.settle f o).future g = c.future g := by
    rw [hsettle]
    by_cases hr : o = .returned
    · rw [if_pos hr]
      exact ⟨hs.http1, hs.status, rfl, rfl, rfl, fun g hg => drop_future_of_ne (c := c) _ hg⟩
    · rw [if_neg hr]
      exact ⟨hs.http1, hst.trans hs.status, rfl, rfl, rfl, fun g hg => drop_future_of_ne (c := c) _ hg⟩
  obtain ⟨h1, hst', hfutures, hnext, htask, hfuture⟩ := hfields
  have hn := hs.waiting f hlt
  have hne : ∀ g, g ∈ c.futures.erase f → g ≠ f := fun g hg h => hs.nodup.not_mem_erase (h ▸ hg)
  refine ⟨⟨hw, h1, hst', fun g hg => ?_, fun g hg => ?_, fun g => ?_, fun g hg => ?_, fun g hg => ?_⟩, hl⟩
  · have h : g ≠ f := by
      rintro rfl
      simp [htask] at hg
    rw [htask, Function.update_of_ne h] at hg
    rw [hfutures, List.mem_erase_of_ne h]
    exact hs.live g hg
  · rw [hfutures] at hg
    rw [hfuture g (hne g hg)]
    exact hs.done g (List.mem_of_mem_erase hg)
  · rw [htask]
    by_cases h : g = f
    · subst h
      simp [(hs.noPush g).2]
    · rw [Function.update_of_ne h]
      exact hs.noPush g
  · rw [hl, Waiting, htask]
    by_cases h : g = f
    · subst h
      by_cases hr : o = .returned
      · simpa [Waiting, hf, hr] using hn
      · simp [hr]
    · have := hs.waiting g (hnext ▸ hg)
      by_cases hr : o = .returned <;> simpa [Waiting, h, hr] using this
  · rw [hl] at hg
    rw [hnext]
    rcases List.mem_append.mp hg with hg | hg
    · exact hs.answered_lt g hg
    · split at hg
      · cases hg
      · rw [List.mem_singleton.mp hg]
        exact hlt

/-- A step that leaves the transport open: the request that it completes was waiting, and is the
one whose response it writes. -/
theorem step (hs : Serving c) {e : Event} (h : OpenStep c e c') :
    Serving c' ∧ answered c'.log = answered c.log ++ (completes c e).toList ∧
      ∀ f, completes c e = some f → Waiting c f := by
  obtain ⟨h, ho⟩ := h
  have hw := step_wf hs.toWf h
  cases e with
  | dataReceived data =>
    obtain ⟨-, rfl⟩ := step_dataReceived.mp h
    cases hr : HttpSimple.parseRequest data with
    | error e =>
      obtain ⟨e', he⟩ := http1_receive_error hs.http1 hr
      rw [he] at ho
      cases ho
    | ok request =>
      obtain ⟨hs', hl⟩ := hs.receive hr
      exact ⟨hs', by simp [hl, completes], by simp [completes]⟩
  | handlerDone f result =>
    obtain ⟨hf, rfl⟩ := step_handlerDone.mp h
    have hwait : Waiting c f := .inl hf
    cases result with
    | raised exc =>
      have h := hs.ended hf hw (l := []) (o := .raised exc) (by simp [handleRequest, endTask, Connection.setTask])
        (by simp)
      exact ⟨h.1, by simpa [completes] using h.2, by simp [completes]⟩
    | cancelled =>
      have h := hs.ended hf hw (l := []) (o := .cancelled) (by simp [handleRequest, endTask, Connection.setTask]) (by simp)
      exact ⟨h.1, by simpa [completes] using h.2, by simp [completes]⟩
    | returned response =>
      have hc := http1_handleRequest (hs.parser_eq (hs.lt_of_task (f := f) (by simp [hf]))) f response
      obtain ⟨-, hchunks⟩ := handleResponse_chunks response
      cases hp : (HttpSimple.statusPhrase response.status).isSome with
      | true =>
        rw [if_pos hp] at hchunks
        obtain ⟨-, d, ds, hds⟩ := hchunks
        simp only [hp, hds, ite_true] at hc
        have h := hs.ended hf hw hc (answered_respond f d ds c.log)
        refine ⟨h.1, by simpa [completes, hp] using h.2, fun g hg => ?_⟩
        obtain rfl : f = g := by simpa [completes, hp] using hg
        exact hwait
      | false =>
        rw [if_neg (by simp [hp])] at hchunks
        simp only [hp, hchunks.2, Bool.false_eq_true, ite_false] at hc
        have h := hs.ended hf hw hc (by simpa using answered_respond_nil f c.log)
        exact ⟨h.1, by simpa [completes, hp] using h.2, by simp [completes, hp]⟩
  | pushDone f k result =>
    obtain ⟨hk, -⟩ := step_pushDone.mp h
    rw [(hs.noPush f).2] at hk
    cases hk
  | settle f =>
    obtain ⟨o, hf, rfl⟩ := step_settle.mp h
    have hopen := (step_open hs.toWf h ho).1
    obtain ⟨hs', hl⟩ := hs.settle hopen hf
    refine ⟨hs', ?_, fun g hg => ?_⟩
    · rw [hl]
      by_cases hr : o = .returned <;> simp [completes, hf, hr]
    · by_cases hr : o = .returned
      · simp [completes, hf, hr] at hg
      · obtain rfl : f = g := by simpa [completes, hf, hr] using hg
        exact .inr ⟨o, hr, hf⟩
  | cancelTask f =>
    obtain ⟨hf, rfl⟩ := step_cancelTask.mp h
    have hh := hf.resolve_right (hs.noPush f).1
    have hstop : (c.task f).stop = { c.task f with state := .ended .cancelled } := by
      simp [Task.stop, hh, (hs.noPush f).2]
    have h := hs.ended hh hw (l := []) (o := .cancelled) (by simp [stopTask, Connection.setTask, hstop]) (by simp)
    exact ⟨h.1, by simpa [completes] using h.2, by simp [completes]⟩
  | transportClosing =>
    obtain rfl := step_transportClosing.mp h
    cases ho
  | connectionLost =>
    obtain rfl := step_connectionLost.mp h
    have := (connectionLost_drains (pending_setClosing hs.toPending)).closing rfl
    rw [this] at ho
    cases ho
  | close =>
    obtain rfl := step_close.mp h
    rw [(closes_close hs.toPending).closing] at ho
    cases ho

end Serving

theorem serving_fresh (info : TransportInfo) (sslcontext : Bool) : Serving (fresh [{}] info sslcontext) where
  toWf := wf_fresh _ _ _
  http1 := .inr ⟨rfl, rfl⟩
  status := rfl
  live _ h := absurd rfl h
  done _ h := nomatch h
  noPush _ := ⟨by simp [fresh, connectionMade], rfl⟩
  waiting _ h := absurd h (Nat.not_lt_zero _)
  answered_lt _ h := nomatch h

theorem prefix_range {l : List Nat} {n : Nat} (h : l <+: List.range n) : l = List.range l.length := by
  have hle := h.length_le
  rw [List.length_range] at hle
  rw [List.prefix_iff_eq_take.mp h, List.take_range, List.length_range, Nat.min_eq_left (by omega)]

/-- The responses written are those of the first requests received, in the order received. -/
def InOrder (c : Connection HttpSimple.Parser UInt8) : Prop := answered c.log <+: List.range c.next

theorem Serving.inOrder_iff (hs : Serving c) : InOrder c ↔ answered c.log = List.range (answered c.log).length := by
  refine ⟨prefix_range, fun h => ?_⟩
  have hle : (answered c.log).length ≤ c.next := by
    by_contra hlt
    have hmem : c.next ∈ answered c.log := by
      rw [h, List.mem_range]
      omega
    exact absurd (hs.answered_lt _ hmem) (Nat.lt_irrefl _)
  rw [InOrder, List.prefix_iff_eq_take, List.take_range, Nat.min_eq_left hle]
  exact h

/-- A step keeps the order exactly if the request that it completes is the first of those that
wait. -/
theorem Serving.inOrder_step (hs : Serving c) {e : Event} (h : OpenStep c e c') (ho : InOrder c) :
    InOrder c' ↔ ∀ f, completes c e = some f → ∀ g < f, ¬ Waiting c g := by
  obtain ⟨hs', hl, hw⟩ := hs.step h
  rw [hs'.inOrder_iff, hl]
  rw [hs.inOrder_iff] at ho
  generalize hk : (answered c.log).length = k at ho
  cases hc : completes c e with
  | none => simp [ho]
  | some f =>
    obtain ⟨hlt, hn⟩ := hs.not_answered (hw f hc)
    have hkf : k ≤ f := by
      rw [ho, List.mem_range] at hn
      omega
    have hlen : (answered c.log ++ (some f).toList).length = k + 1 := by simp [hk]
    rw [hlen, List.range_succ, ho]
    constructor
    · intro h
      obtain rfl : f = k := by simpa using h
      intro f' hf' g hg hwait
      obtain rfl := Option.some.inj hf'
      exact (hs.not_answered hwait).2 (by rw [ho]; simpa using hg)
    · intro h
      have hfk : ¬ k < f := by
        intro hkf
        have hwait : Waiting c k := (hs.waiting k (by omega)).mpr (by simp [ho])
        exact h f rfl k hkf hwait
      obtain rfl : f = k := by omega
      rfl

/-- In every run that leaves the transport open, the responses are in the order of the requests
exactly if each request that completed was the first of those that waited. -/
theorem in_order_iff {info : TransportInfo} {sslcontext : Bool} {es : List Event}
    (h : Run OpenStep (fresh [{}] info sslcontext) es c) :
    InOrder c ↔
      Throughout OpenStep (fresh [{}] info sslcontext)
        (fun _ c e => ∀ f, completes c e = some f → ∀ g < f, ¬ Waiting c g) es := by
  have hserving : ∀ ⦃es c⦄, Run OpenStep (fresh [{}] info sslcontext) es c → Serving c := fun es c hr =>
    hr.invariant (serving_fresh info sslcontext) fun _ _ _ hs hstep => (hs.step hstep).1
  refine Run.good_iff (G := InOrder) (fun _ _ _ _ h₁ h₂ => Step.det h₁.1 h₂.1) List.nil_prefix
    (fun es c e c' hr hstep hg => ?_) (fun es c e c' hr hstep hg => (hserving hr).inOrder_step hstep hg) h
  obtain ⟨-, hl, -⟩ := (hserving hr).step hstep
  rw [(hserving hr).inOrder_iff]
  rw [InOrder, hl] at hg
  exact prefix_range ((List.prefix_append _ _).trans hg)

/-- Two requests, the first of which is completed first. -/
theorem inTurn_run : Run OpenStep createConnection
    [.dataReceived (chunk "/"), .dataReceived (chunk "/q/"), .handlerDone 0 returnsOk]
    (twoPending.handleRequest 0 returnsOk) :=
  .cons ⟨step_dataReceived.mpr ⟨rfl, rfl⟩, by decide⟩ <| .cons ⟨step_dataReceived.mpr ⟨by decide, rfl⟩, by decide⟩ <|
    .single ⟨step_handlerDone.mpr ⟨by decide, rfl⟩, by decide⟩

/-- Two requests, the second of which is completed first. -/
theorem overtaken_run : Run OpenStep createConnection
    [.dataReceived (chunk "/"), .dataReceived (chunk "/q/"), .handlerDone 1 returnsOk, .handlerDone 0 returnsOk]
    ((twoPending.handleRequest 1 returnsOk).handleRequest 0 returnsOk) :=
  .cons ⟨step_dataReceived.mpr ⟨rfl, rfl⟩, by decide⟩ <| .cons ⟨step_dataReceived.mpr ⟨by decide, rfl⟩, by decide⟩ <|
    .cons ⟨step_handlerDone.mpr ⟨by decide, rfl⟩, by decide⟩ <|
    .single ⟨step_handlerDone.mpr ⟨by decide, rfl⟩, by decide⟩

theorem inTurn_order : InOrder (twoPending.handleRequest 0 returnsOk) := by
  refine (in_order_iff inTurn_run).mpr (Run.throughout_of_forall_mem fun e he _ _ f hf g hg _ => ?_)
  simp only [List.mem_cons, List.not_mem_nil, or_false] at he
  rcases he with rfl | rfl | rfl
  · cases hf
  · cases hf
  · -- No request is before the first.
    cases hf
    exact absurd hg (Nat.not_lt_zero g)

/-- The response to the second request is written before the response to the first. -/
theorem overtaken_order :
    ¬ ∀ es (c : Connection HttpSimple.Parser UInt8), Run OpenStep createConnection es c → InOrder c := by
  intro h
  have hl : answered ((twoPending.handleRequest 1 returnsOk).handleRequest 0 returnsOk).log = [1, 0] := by decide
  have := prefix_range (h _ _ overtaken_run)
  rw [hl] at this
  exact absurd this (by decide)

end Levin.Connection
