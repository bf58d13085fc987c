import Levin.Proof.Connection.Http2
import Levin.Proof.Http2.Outbox

/-!
# What each HTTP/2 stream carries

Whatever clients send and h2 makes of it, and in whatever order handlers, pushes and
tasks end, the server writes on a stream one response at most: a header block, and DATA
with a beginning of the body that goes with it (`OneResponse`). It is that of a request
on the stream, the 500 response to one, or a response to a push for which the stream
has been promised before (`Answers`). `response_one` is the result: no response is on
the stream of another, and none is mixed with another.
-/

namespace Levin.Server

open Framework Connection
open Hyper (DataOn Adds Takes framesOf responseHeaders setContentLength)

/-- What is on `t` for the client to read: header blocks, and DATA with a payload. -/
def carried (t : Nat) (frames : List Frame) : List Frame :=
  frames.filter fun
    | .headers s _ _ => s = t
    | .data s d _ => s = t ∧ d ≠ []
    | _ => false

@[simp] theorem carried_nil (t : Nat) : carried t [] = [] := rfl

@[simp] theorem carried_append (t : Nat) (fs gs : List Frame) : carried t (fs ++ gs) = carried t fs ++ carried t gs :=
  List.filter_append ..

theorem carried_mono {t : Nat} {fs gs : List Frame} (h : fs <+: gs) : carried t fs <+: carried t gs := h.filter _

theorem carried_eq_nil {t : Nat} {fs gs : List Frame} (h : fs <+: gs) (hgs : carried t gs = []) : carried t fs = [] :=
  List.prefix_nil.mp (hgs ▸ carried_mono h)

theorem carried_control (t : Nat) {frames : List Frame} (h : ∀ frame ∈ frames, frame.streams = []) :
    carried t frames = [] := by
  refine List.filter_eq_nil_iff.mpr fun frame hf => ?_
  have := h frame hf
  cases frame <;> simp_all [Frame.streams]

/-- DATA frames are on their stream alone. -/
theorem carried_dataOn {s t : Nat} {body : Bytes} {frames : List Frame} (h : DataOn s body frames) :
    DataOn t body (carried t frames) ∧ (s ≠ t → carried t frames = []) := by
  obtain ⟨ds, rfl, hbody⟩ := h
  by_cases hs : s = t
  · subst hs
    refine ⟨⟨ds.filter (·.1 ≠ []), ?_, ?_⟩, fun h => absurd rfl h⟩
    · simp [carried, List.filter_map, Function.comp_def]
    · have hds : (ds.filter (·.1 ≠ [])).map Prod.fst = (ds.map Prod.fst).filter (· ≠ []) := by
        rw [List.filter_map]
        rfl
      rwa [hds, List.flatten_filter_ne_nil]
  · have hnone : carried t (ds.map fun d => Frame.data s d.1 d.2) = [] := by
      refine List.filter_eq_nil_iff.mpr fun frame hf => ?_
      obtain ⟨d, -, rfl⟩ := List.mem_map.mp hf
      simp [hs]
    rw [hnone]
    exact ⟨.nil t body, fun _ => rfl⟩

/-- On `t` there is nothing, or a response's header block and a beginning of its body; `P` tells of the response
and the frames before it. -/
def OneResponse (t : Nat) (P : List Frame → Response → Prop) (frames : List Frame) : Prop :=
  carried t frames = [] ∨
    ∃ before response after, frames = before ++ .headers t (responseHeaders response) false :: after ∧
      carried t before = [] ∧ DataOn t response.body (carried t after) ∧ P before response

section

variable {t : Nat} {P P' : List Frame → Response → Prop} {frames frames' : List Frame}

theorem OneResponse.beginning (h : OneResponse t P frames) (hp : frames' <+: frames) : OneResponse t P frames' := by
  rcases h with h | ⟨before, response, after, rfl, hb, hd, hP⟩
  · exact .inl (carried_eq_nil hp h)
  · -- It ends before the header block, or after it.
    rcases List.prefix_or_prefix_of_prefix hp (List.prefix_append before _) with h | ⟨rest, rfl⟩
    · exact .inl (carried_eq_nil h hb)
    · have hrest := (List.prefix_append_right_inj before).mp hp
      rcases List.prefix_cons_iff.mp hrest with rfl | ⟨after', rfl, hafter⟩
      · exact .inl (by simpa using hb)
      · exact .inr ⟨before, response, after', rfl, hb, hd.beginning (carried_mono hafter), hP⟩

theorem OneResponse.append (h : OneResponse t P frames) (hc : carried t frames' = []) :
    OneResponse t P (frames ++ frames') := by
  rcases h with h | ⟨before, response, after, rfl, hb, hd, hP⟩
  · exact .inl (by simp [h, hc])
  · exact .inr ⟨before, response, after ++ frames', by simp, hb, by simpa [hc] using hd, hP⟩

theorem OneResponse.mono (h : OneResponse t P frames) (hP : ∀ before response, P before response → P' before response) :
    OneResponse t P' frames :=
  h.imp id fun ⟨before, response, after, hf, hb, hd, h⟩ => ⟨before, response, after, hf, hb, hd, hP _ _ h⟩

end

/-! ## What is added -/

/-- A response is added to one stream at most, that of its request or one that has been promised. -/
theorem Adds.carries {response : Response} {s : Nat} {begun begun' : Nat → Bool} {frames : List Frame}
    (h : Adds response s begun frames begun') (t : Nat) :
    carried t frames = [] ∧ begun' t = begun t ∨
      begun t = false ∧ begun' t = true ∧
        ∃ before after, frames = before ++ .headers t (responseHeaders response) false :: after ∧
          carried t before = [] ∧ DataOn t response.body (carried t after) ∧
          (response.push = false ∧ s = t ∨ response.push = true ∧ ∃ fields, .pushPromise s t fields ∈ before) := by
  cases h with
  | nothing => exact .inl ⟨rfl, rfl⟩
  | promised u fields hpush => exact .inl ⟨by simp [carried], rfl⟩
  | unsent u fields hpush => exact .inl ⟨by simp [carried], rfl⟩
  | own hpush hb hd =>
    obtain ⟨hon, hother⟩ := carried_dataOn (t := t) hd
    by_cases hs : s = t
    · subst hs
      exact .inr ⟨hb, by simp, [], _, rfl, rfl, hon, .inl ⟨hpush, rfl⟩⟩
    · refine .inl ⟨?_, Function.update_of_ne (Ne.symm hs) _ _⟩
      refine (carried_append t [.headers s _ false] _).trans ?_
      rw [hother hs]
      simp [carried, hs]
  | pushed u fields hpush hb hd =>
    obtain ⟨hon, hother⟩ := carried_dataOn (t := t) hd
    by_cases hu : u = t
    · subst hu
      refine .inr ⟨hb, by simp, [.pushPromise s u fields, .data s [] true], _, rfl, by simp [carried], hon, ?_⟩
      exact .inr ⟨hpush, fields, by simp⟩
    · refine .inl ⟨?_, Function.update_of_ne (Ne.symm hu) _ _⟩
      refine (carried_append t [.pushPromise s u fields, .data s [] true, .headers u _ false] _).trans ?_
      rw [hother hu]
      simp [carried, hu]

section

variable {σ : Type} [H2Connection σ] {c₀ c c' : Connection (Server.Parser σ) Wire} {p p' : Hyper.Parser σ} {e : Event}
  {es : List Event} {f k t : Nat} {data : Bytes} {view : σ → Outbox}

/-- The end of the task of `f`, which has failed on an open transport. -/
def Failing (f : Nat) (c : Connection (Server.Parser σ) Wire) (e : Event) : Prop := e = .settle f ∧ Fails500 c f

/-- A response that may be on `t`, after the frames `before` and a run with the events `es` from `c₀`. -/
inductive Answers (c₀ : Connection (Server.Parser σ) Wire) (es : List Event) (requests : List Request) (t : Nat)
    (before : List Frame) : Response → Prop
  /-- What the handler of a request on `t` has returned. -/
  | request {f : Nat} {request : Request} {response : Response} (h : .handlerDone f (.returned response) ∈ es)
    (hf : requests[f]? = some request) (ht : request.stream = t) (hpush : response.push = false) :
    Answers c₀ es requests t before (setContentLength response)
  /-- The task of a request on `t` has failed. -/
  | failed {f : Nat} {request : Request} {response : Response} (h : Sometime Step c₀ (Failing f) es)
    (hf : requests[f]? = some request) (ht : request.stream = t) (hstatus : response.status = 500)
    (hbody : response.body = Bytes.ascii "Sorry") :
    Answers c₀ es requests t before (setContentLength response)
  /-- What the handler of a push has returned, and `t` has been promised on the stream of its request. -/
  | push {f k : Nat} {request : Request} {response : Response} {fields : Fields}
    (h : .pushDone f k (.returned response) ∈ es) (hf : requests[f]? = some request)
    (ht : .pushPromise request.stream t fields ∈ before) :
    Answers c₀ es requests t before (setContentLength { response with push := true })
  /-- What the handler of a request has returned as a push. -/
  | pushed {f : Nat} {request : Request} {response : Response} {fields : Fields}
    (h : .handlerDone f (.returned response) ∈ es) (hf : requests[f]? = some request)
    (ht : .pushPromise request.stream t fields ∈ before) (hpush : response.push = true) :
    Answers c₀ es requests t before (setContentLength response)

theorem Answers.mono {requests requests' : List Request} {before : List Frame} {response : Response}
    (h : Answers c₀ es requests t before response) (e : Event) (hr : requests <+: requests') :
    Answers c₀ (es ++ [e]) requests' t before response := by
  have hget : ∀ {f : Nat} {request : Request}, requests[f]? = some request → requests'[f]? = some request := by
    intro f request hf
    obtain ⟨hlt, -⟩ := List.getElem?_eq_some_iff.mp hf
    obtain ⟨rest, rfl⟩ := hr
    rw [List.getElem?_append_left hlt, hf]
  have hmem : ∀ {e' : Event}, e' ∈ es → e' ∈ es ++ [e] := fun h => List.mem_append_left _ h
  cases h with
  | request h hf ht hpush => exact .request (hmem h) (hget hf) ht hpush
  | failed h hf ht hstatus hbody => exact .failed (Run.sometime_append h [e]) (hget hf) ht hstatus hbody
  | push h hf ht => exact .push (hmem h) (hget hf) ht
  | pushed h hf ht hpush => exact .pushed (hmem h) (hget hf) ht hpush

/-- `response_500` as the connections leave it. -/
def IsSorry (response : Response) : Prop :=
  response.status = 500 ∧ response.body = Bytes.ascii "Sorry" ∧ response.push = false

/-- What a step writes a response to, its response may be on. -/
theorem answers_new (hrun : Run Step c₀ es c) (hw : Wf c) (h500 : IsSorry c.response500) (h : Step c e c')
    {response : Response} {request : Request} (hnew : newResponse c e = some (response, request)) {before : List Frame}
    (ht : (setContentLength response).push = false ∧ request.stream = t ∨
      (setContentLength response).push = true ∧ ∃ fields, .pushPromise request.stream t fields ∈ before) :
    Answers c₀ (es ++ [e]) c'.requests t before (setContentLength response) := by
  have hmem : e ∈ es ++ [e] := by simp
  -- The request is still that of the future.
  have hrequests : ∀ {f}, f < c.next → c'.requests[f]? = some (c.future f).request := by
    intro f hf
    rw [getElem?_requests (Nat.lt_of_lt_of_le hf (step_next_le hw h)), step_request hw h hf]
  cases e with
  | handlerDone f result =>
    cases result with
    | returned r =>
      simp only [newResponse, Option.some.injEq, Prod.mk.injEq] at hnew
      obtain ⟨rfl, rfl⟩ := hnew
      have hf : f < c.next := hw.lt_of_task (.inl (by simp [(step_handlerDone.mp h).1]))
      rcases ht with ⟨hpush, ht⟩ | ⟨hpush, fields, ht⟩
      · exact .request hmem (hrequests hf) ht hpush
      · exact .pushed hmem (hrequests hf) ht hpush
    | raised e => cases hnew
    | cancelled => cases hnew
  | pushDone f k result =>
    cases result with
    | returned r =>
      simp only [newResponse, Option.map_eq_some_iff, Prod.mk.injEq] at hnew
      obtain ⟨push, -, rfl, rfl⟩ := hnew
      have hk := (step_pushDone.mp h).1
      have hf : f < c.next := hw.lt_of_task (.inr (by rintro hnil; rw [hnil] at hk; cases hk))
      rcases ht with ⟨hpush, -⟩ | ⟨-, fields, ht⟩
      · cases hpush
      · exact .push hmem (hrequests hf) ht
    | raised e => cases hnew
    | cancelled => cases hnew
  | settle f =>
    obtain ⟨o, ho, -⟩ := step_settle.mp h
    have hf : f < c.next := hw.lt_of_task (.inl (by simp [ho]))
    simp only [newResponse] at hnew
    split at hnew
    · rename_i hfails
      simp only [Option.some.injEq, Prod.mk.injEq] at hnew
      obtain ⟨rfl, rfl⟩ := hnew
      obtain ⟨hstatus, hbody, hno⟩ := h500
      rcases ht with ⟨-, ht⟩ | ⟨hpush, -⟩
      · exact .failed ⟨es, .settle f, [], c, rfl, hrun, rfl, hfails⟩ (hrequests hf) ht hstatus hbody
      · exact absurd (hno.symm.trans hpush) (by simp)
    · cases hnew
  | _ => cases hnew

/-! ## Parsers that write no frames -/

/-- An HTTP/1 parser. -/
def Plain : Server.Parser σ → Prop
  | .http2 _ => False
  | .http1 _ | .httpTools _ => True

omit [H2Connection σ] in
theorem filterMap_bytes (bytes : Bytes) : (bytes.map Wire.byte).filterMap Wire.frame? = [] := by
  simp [List.filterMap_eq_nil_iff, Wire.frame?]

theorem Plain.handleRequest {q : Server.Parser σ} (hq : Plain q) (data : Bytes) :
    Plain (ParserProtocol.handleRequest q data).2 ∧ framesOf (ParserProtocol.handleRequest q data).1 = [] := by
  have hframes : ∀ result : Except Exc (Parsed UInt8), framesOf (result.map toWire) = [] := by
    intro result
    cases result with
    | error e => rfl
    | ok parsed => exact filterMap_bytes parsed.data
  cases q with
  | http2 p => exact hq.elim
  | http1 p => exact ⟨trivial, hframes _⟩
  | httpTools p => exact ⟨trivial, hframes _⟩

theorem Plain.handleResponse {q : Server.Parser σ} (hq : Plain q) (response : Response) (request : Request) :
    Plain (ParserProtocol.handleResponse q response request).2.2 ∧
      (ParserProtocol.handleResponse q response request).1.chunks.flatten.filterMap Wire.frame? = [] := by
  have hframes : ∀ out : Yielded UInt8, (yieldedToWire out).chunks.flatten.filterMap Wire.frame? = [] := by
    intro out
    rw [yieldedToWire, ← List.map_flatten]
    exact filterMap_bytes _
  cases q with
  | http2 p => exact hq.elim
  | http1 p => exact ⟨trivial, hframes _⟩
  | httpTools p => exact ⟨trivial, hframes _⟩

theorem selectParser_plain (data : Bytes) {ps : List (Server.Parser σ)} (hps : ∀ q ∈ ps, Plain q) :
    (∀ q ∈ (selectParser data ps).1, Plain q) ∧
      ∀ q parsed, (selectParser data ps).2 = .ok (some (q, parsed)) → Plain q ∧ parsed.data.filterMap Wire.frame? = [] := by
  induction ps with
  | nil => simp [selectParser]
  | cons q ps ih =>
    obtain ⟨hq, hframes⟩ := (hps q (by simp)).handleRequest data
    have hrest : ∀ q ∈ ps, Plain q := fun q hq => hps q (by simp [hq])
    obtain ⟨ihps, ihaccepts⟩ := ih hrest
    generalize hx : ParserProtocol.handleRequest q data = x at hq hframes
    obtain ⟨result, q'⟩ := x
    rcases result with e | parsed
    · have hcons : ∀ ps' : List (Server.Parser σ), (∀ r ∈ ps', Plain r) → ∀ r ∈ q' :: ps', Plain r :=
        fun ps' h => List.forall_mem_cons.mpr ⟨hq, h⟩
      by_cases he : e = .ParseError
      · subst he
        simp only [selectParser, hx]
        exact ⟨hcons _ ihps, ihaccepts⟩
      · have hsel : selectParser data (q :: ps) = (q' :: ps, .error e) := by
          simp only [selectParser, hx]
        rw [hsel]
        exact ⟨hcons _ hrest, by simp⟩
    · simp only [selectParser, hx]
      refine ⟨List.forall_mem_cons.mpr ⟨hq, hrest⟩, ?_⟩
      rintro r parsed' heq
      simp only [Except.ok.injEq, Option.some.injEq, Prod.mk.injEq] at heq
      obtain ⟨rfl, rfl⟩ := heq
      exact ⟨hq, hframes⟩

/-- The frames that a chunk writes. -/
theorem written_dataReceived (hw : Wf c) (h : Step c (.dataReceived data) c') :
    written c'.log = written c.log ++
      (c.parse data).2.toOption.join.elim [] fun parsed => parsed.data.filterMap Wire.frame? := by
  rw [written, step_writes hw h]
  simp only [newWrites]
  rcases (c.parse data).2 with e | _ | parsed
  · simp [written, Except.toOption]
  · simp [written, Except.toOption]
  · by_cases hd : parsed.data = []
    · simp [written, Except.toOption, hd]
    · simp [written, Except.toOption, hd]

/-- A connection that speaks HTTP/2 or may come to do so, and what is tried if it does not. -/
structure Offers (c : Connection (Server.Parser σ) Wire) (p : Hyper.Parser σ) : Prop where
  speaks : Speaks c p
  plain : c.parser = none → ∀ q ∈ c.parsers.tail, Plain q

/-- HTTP/1 has been chosen. -/
def Declines (c : Connection (Server.Parser σ) Wire) : Prop := ∃ q, c.parser = some q ∧ Plain q

/-- A chunk that no parser accepts leaves the parsers as trying them has left them, and writes nothing. -/
theorem Offers.rejected (hw : Wf c) (h : Step c (.dataReceived data) c')
    (hreject : ∀ parsed, (c.parse data).2 ≠ .ok (some parsed)) (hs : Speaks (c.parse data).1 p)
    (hplain : (c.parse data).1.parser = none → ∀ q ∈ (c.parse data).1.parsers.tail, Plain q) :
    Offers c' p ∧ written c'.log = written c.log := by
  have hwritten := written_dataReceived hw h
  obtain ⟨-, rfl⟩ := step_dataReceived.mp h
  obtain ⟨hparser, hparsers⟩ := receive_parsers_of_rejects hreject
  refine ⟨⟨?_, ?_⟩, ?_⟩
  · rwa [Speaks, hparser, hparsers]
  · rwa [hparser, hparsers]
  · rw [hwritten]
    rcases hx : (c.parse data).2 with e | _ | parsed
    · exact List.append_nil _
    · exact List.append_nil _
    · exact absurd hx (hreject parsed)

/-- None of the parsers that are tried accepts the chunk. -/
theorem Offers.unselected (hw : Wf c) (h : Step c (.dataReceived data) c') (hp : c.parser = none)
    {rest : List (Server.Parser σ)} (hrest : ∀ q ∈ rest, Plain q)
    {result : Except Exc (Option (Server.Parser σ × Parsed Wire))} (hresult : ∀ r, result ≠ .ok (some r))
    (hsel : selectParser data c.parsers = (.http2 p' :: rest, result)) :
    Offers c' p' ∧ written c'.log = written c.log := by
  have hparse : (c.parse data).1 = { c with parsers := .http2 p' :: rest } ∧
      ∀ parsed, (c.parse data).2 ≠ .ok (some parsed) := by
    rcases result with e | _ | r
    · simp [Connection.parse, hp, hsel]
    · simp [Connection.parse, hp, hsel]
    · exact absurd rfl (hresult r)
  refine Offers.rejected hw h hparse.2 ?_ ?_ <;> rw [hparse.1]
  · exact .inr ⟨hp, rest, rfl⟩
  · exact fun _ => hrest

/-- A chunk is read by h2, or it is the one that decides for HTTP/1. -/
theorem Offers.chunk (hw : Wf c) (ho : Offers c p) (h : Step c (.dataReceived data) c') :
    Offers c' (Hyper.handleRequest data p).2 ∧
        written c'.log = written c.log ++ framesOf (Hyper.handleRequest data p).1 ∨
      Declines c' ∧ written c'.log = written c.log := by
  generalize hr : Hyper.handleRequest data p = x
  obtain ⟨result, p'⟩ := x
  have hhandle := http2_handleRequest hr
  -- What h2 accepts goes to the HTTP/2 parser, and the next chunks do, too.
  rcases result with e | parsed
  · have hnone : framesOf (.error e) = [] := rfl
    rw [hnone, List.append_nil]
    rcases ho.speaks with hp | ⟨hp, rest, hps⟩
    · have hparse : c.parse data = ({ c with parser := some (.http2 p') }, .error e) := by
        simp [Connection.parse, hp, hhandle, Except.map]
      refine .inl (Offers.rejected hw h ?_ ?_ ?_) <;> rw [hparse]
      · simp
      · exact .inl rfl
      · simp
    · have hrest : ∀ q ∈ rest, Plain q := by
        have hplain := ho.plain hp
        rwa [hps] at hplain
      by_cases he : e = .ParseError
      · -- The other parsers are tried.
        subst he
        obtain ⟨hkept, haccepts⟩ := selectParser_plain data hrest
        generalize hx : selectParser data rest = x at hkept haccepts
        obtain ⟨rest', result⟩ := x
        have hsel : selectParser data c.parsers = (.http2 p' :: rest', result) := by
          rw [hps]
          simp only [selectParser, hhandle, hx]
        rcases result with e | _ | ⟨q, parsed⟩
        · exact .inl (Offers.unselected hw h hp hkept (by simp) hsel)
        · exact .inl (Offers.unselected hw h hp hkept (by simp) hsel)
        · obtain ⟨hq, hframes⟩ := haccepts q parsed rfl
          have hparse : c.parse data =
              ({ c with parsers := .http2 p' :: rest', parser := some q }, .ok (some parsed)) := by
            simp [Connection.parse, hp, hsel]
          have hwritten := written_dataReceived hw h
          obtain ⟨-, rfl⟩ := step_dataReceived.mp h
          refine .inr ⟨⟨q, ?_, hq⟩, ?_⟩
          · rw [receive_parsers hw.toPending (by rw [hparse]), hparse]
          · rw [hwritten, hparse]
            exact (congrArg _ hframes).trans (List.append_nil _)
      · refine .inl (Offers.unselected hw h hp hrest (by simp) (show _ = (_, .error e) from ?_))
        rw [hps]
        simp only [selectParser, hhandle]
  · obtain ⟨hparsed, hparser⟩ := ho.speaks.parse hr
    have hwritten := written_dataReceived hw h
    obtain ⟨-, rfl⟩ := step_dataReceived.mp h
    rw [← receive_parsers hw.toPending hparsed] at hparser
    refine .inl ⟨⟨.inl hparser, fun hnone => ?_⟩, ?_⟩
    · rw [hparser] at hnone
      cases hnone
    · rw [hwritten, hparsed]
      rfl

/-! ## Every run -/

/-- What holds of every stream after the events `es`, with the frames `frames`. -/
def OnEvery (c₀ : Connection (Server.Parser σ) Wire) (es : List Event) (c : Connection (Server.Parser σ) Wire)
    (frames : List Frame) : Prop :=
  ∀ t, OneResponse t (Answers c₀ es c.requests t) frames

structure Streaming (view : σ → Outbox) (c₀ : Connection (Server.Parser σ) Wire) (es : List Event)
    (c : Connection (Server.Parser σ) Wire) : Prop extends Wf c where
  run : Run Step c₀ es c
  sorry500 : IsSorry c.response500
  frames : (∃ p, Offers c p ∧ OnEvery c₀ es c (written c.log ++ (view p.conn).outbound) ∧
      ∀ t, (view p.conn).begun t = false → carried t (written c.log ++ (view p.conn).outbound) = []) ∨
    Declines c ∧ OnEvery c₀ es c (written c.log)

theorem OnEvery.step {frames : List Frame} (h : OnEvery c₀ es c frames) (hw : Wf c) (hstep : Step c e c') :
    OnEvery c₀ (es ++ [e]) c' frames := by
  have hr : c.requests <+: c'.requests := by
    rw [step_requests hw hstep]
    exact List.prefix_append _ _
  exact fun t => (h t).mono fun before response ha => ha.mono e hr

/-- Frames of which some are dropped, and to which frames of no stream are added. -/
theorem Takes.onEvery {v v' : Outbox} {sent frames : List Frame} (h : Takes v frames v')
    (hone : OnEvery c₀ es c (sent ++ v.outbound)) (hidle : ∀ t, v.begun t = false → carried t (sent ++ v.outbound) = []) :
    OnEvery c₀ es c (sent ++ frames ++ v'.outbound) ∧
      ∀ t, v'.begun t = false → carried t (sent ++ frames ++ v'.outbound) = [] := by
  obtain ⟨kept, control, hkept, hcontrol, hout, hbegun⟩ := h
  have hp : sent ++ kept <+: sent ++ v.outbound := (List.prefix_append_right_inj sent).mpr hkept
  rw [List.append_assoc, hout, ← List.append_assoc]
  refine ⟨fun t => ((hone t).beginning hp).append (carried_control t hcontrol), fun t ht => ?_⟩
  rw [hbegun] at ht
  rw [carried_append, carried_eq_nil hp (hidle t ht), carried_control t hcontrol, List.append_nil]

/-- `handle_response` keeps what `IsSorry` says. -/
theorem isSorry_handleResponse (q : Server.Parser σ) {response : Response} (request : Request)
    (h : IsSorry response) : IsSorry (ParserProtocol.handleResponse q response request).2.1 := by
  have hlength : IsSorry (HttpSimple.setContentLength response) := by
    unfold HttpSimple.setContentLength
    split <;> exact h
  have hhttp1 : IsSorry (HttpSimple.handleResponse response).2 := by
    unfold HttpSimple.handleResponse
    simp only
    split <;> exact hlength
  cases q with
  | http2 p => exact h
  | http1 p => exact hhttp1
  | httpTools p => exact hhttp1

theorem Streaming.chunk (O : Orderly view) (hs : Streaming view c₀ es c) (h : Step c (.dataReceived data) c') :
    Streaming view c₀ (es ++ [.dataReceived data]) c' := by
  refine ⟨step_wf hs.toWf h, .snoc hs.run h, step_response500 (fun q _ request => isSorry_handleResponse q request) hs.toWf h
    hs.sorry500, ?_⟩
  rcases hs.frames with ⟨p, ho, hone, hidle⟩ | ⟨⟨q, hq, hplain⟩, hone⟩
  · obtain ⟨hone', hidle'⟩ := Takes.onEvery (Hyper.handleRequest_takes O data p) hone hidle
    rcases ho.chunk hs.toWf h with ⟨ho', hwritten⟩ | ⟨hd, hwritten⟩
    · refine .inl ⟨_, ho', ?_, ?_⟩ <;> rw [hwritten]
      · exact hone'.step hs.toWf h
      · exact hidle'
    · refine .inr ⟨hd, ?_⟩
      rw [hwritten]
      exact fun t => (hone.step hs.toWf h t).beginning (List.prefix_append _ _)
  · obtain ⟨hq', hframes⟩ := hplain.handleRequest data
    generalize hx : ParserProtocol.handleRequest q data = x at hq' hframes
    obtain ⟨result, q'⟩ := x
    have hparse : c.parse data = ({ c with parser := some q' }, result.map some) := by
      simp [Connection.parse, hq, hx]
    have hwritten : written c'.log = written c.log := by
      rw [written_dataReceived hs.toWf h, hparse]
      rcases result with e | parsed
      · exact List.append_nil _
      · exact (congrArg _ hframes).trans (List.append_nil _)
    refine .inr ⟨⟨q', ?_, hq'⟩, ?_⟩
    · obtain ⟨-, rfl⟩ := step_dataReceived.mp h
      rcases result with e | parsed
      · rw [(receive_parsers_of_rejects (by rw [hparse]; simp [Except.map])).1, hparse]
      · rw [receive_parsers hs.toPending (by rw [hparse]; rfl), hparse]
    · rw [hwritten]
      exact hone.step hs.toWf h

/-- The frames of a response are added. -/
theorem Adds.onEvery {response : Response} {request : Request} {frames new : List Frame} {begun begun' : Nat → Bool}
    (hadds : Adds (setContentLength response) request.stream begun new begun') (hs : Streaming view c₀ es c)
    (h : Step c e c') (hnew : newResponse c e = some (response, request)) (hone : OnEvery c₀ es c frames)
    (hidle : ∀ t, begun t = false → carried t frames = []) :
    OnEvery c₀ (es ++ [e]) c' (frames ++ new) ∧ ∀ t, begun' t = false → carried t (frames ++ new) = [] := by
  constructor
  · intro t
    rcases Adds.carries hadds t with ⟨hnone, -⟩ | ⟨hb, -, before, after, rfl, hbefore, hd, hon⟩
    · exact (hone.step hs.toWf h t).append hnone
    · refine .inr ⟨frames ++ before, setContentLength response, after, by simp, ?_, hd, ?_⟩
      · rw [carried_append, hidle t hb, hbefore, List.append_nil]
      · refine answers_new hs.run hs.toWf hs.sorry500 h hnew (hon.imp id ?_)
        rintro ⟨hpush, fields, hmem⟩
        exact ⟨hpush, fields, List.mem_append_right _ hmem⟩
  · intro t ht
    rcases Adds.carries hadds t with ⟨hnone, hb⟩ | ⟨-, hb, -⟩
    · rw [carried_append, hidle t (hb ▸ ht), hnone, List.append_nil]
    · rw [hb] at ht
      cases ht

theorem Streaming.response (O : Orderly view) (hs : Streaming view c₀ es c) (h : Step c e c')
    (hne : ∀ data, e ≠ .dataReceived data)
    (hfinal : ∀ r ∈ newResponse c e, Final (responseHeaders (setContentLength r.1))) :
    Streaming view c₀ (es ++ [e]) c' := by
  refine ⟨step_wf hs.toWf h, .snoc hs.run h, step_response500 (fun q _ request => isSorry_handleResponse q request) hs.toWf h
    hs.sorry500, ?_⟩
  obtain ⟨hparser, hwrites⟩ := step_yields hs.toWf h hne
  rcases hs.frames with ⟨p, ho, hone, hidle⟩ | ⟨⟨q, hq, hplain⟩, hone⟩
  · have ho' : Offers c' (afterResponse c e p) := by
      refine ⟨ho.speaks.step hs.toWf h hne, fun hnone => ?_⟩
      have hp : c.parser = none := by
        have := step_parser_isSome hs.toWf h hne
        rwa [hnone, Option.isSome_none, eq_comm, Option.isSome_eq_false_iff, Option.isNone_iff_eq_none] at this
      rw [(step_unused hs.toWf hp h hne).1]
      exact ho.plain hp
    cases hnew : newResponse c e with
    | none =>
      have hsame : afterResponse c e p = p := by rw [afterResponse, hnew]; rfl
      have hwritten : written c'.log = written c.log := by
        rw [written, hwrites, hnew]
        simp [written]
      rw [hsame] at ho'
      refine .inl ⟨p, ho', ?_, ?_⟩ <;> rw [hwritten]
      · exact hone.step hs.toWf h
      · exact hidle
    | some r =>
      obtain ⟨response, request⟩ := r
      have hp : c.parser = some (.http2 p) := by
        refine ho.speaks.resolve_right ?_
        rintro ⟨hp, -⟩
        have hunused := (step_unused hs.toWf hp h hne).2
        rw [hnew] at hunused
        cases hunused
      have hafter : (afterResponse c e p).conn = (Hyper.send (setContentLength response) request p.conn).2.2 := by
        rw [afterResponse, hnew]
        rfl
      have hwritten : written c'.log = written c.log ++
          (Hyper.send (setContentLength response) request p.conn).1.flatten := by
        have hchunks : c.chunksOf response request =
            (Hyper.send (setContentLength response) request p.conn).1.map (·.map .frame) := by
          simp only [chunksOf, hp]
          rfl
        rw [written, hwrites, hnew]
        simp only [Option.elim, hchunks, List.flatten_append, List.filterMap_append, ← List.map_flatten,
          Hyper.filterMap_frames]
        rfl
      obtain ⟨new, hadds, hqueues⟩ := Hyper.send_adds O (hfinal _ hnew) request p.conn
      obtain ⟨hone', hidle'⟩ := Adds.onEvery hadds hs h hnew hone hidle
      rw [Hyper.Queues] at hqueues
      refine .inl ⟨_, ho', ?_, ?_⟩ <;> rw [hafter, hwritten, List.append_assoc, hqueues, ← List.append_assoc]
      · exact hone'
      · exact hidle'
  · have hwritten : written c'.log = written c.log := by
      rw [written, hwrites]
      cases newResponse c e with
      | none => simp [written]
      | some r =>
        have hchunks : c.chunksOf r.1 r.2 = (ParserProtocol.handleResponse q r.1 r.2).1.chunks := by
          simp only [chunksOf, hq]
        simp only [Option.elim, hchunks, List.flatten_append, List.filterMap_append,
          (hplain.handleResponse r.1 r.2).2, List.append_nil]
        rfl
    refine .inr ⟨?_, ?_⟩
    · cases hnew : newResponse c e with
      | none => exact ⟨q, by rw [hparser, hnew]; exact hq, hplain⟩
      | some r =>
        refine ⟨_, ?_, (hplain.handleResponse r.1 r.2).1⟩
        rw [hparser, hnew]
        simp only [Option.elim, parserAfter, hq]
        rfl
    · rw [hwritten]
      exact hone.step hs.toWf h

/-- The status is what makes a header block final. -/
theorem final_congr {response response' : Response} (h : response'.status = response.status)
    (hfinal : Final (responseHeaders response)) : Final (responseHeaders response') := by
  intro value hvalue
  rw [responseHeaders, List.head?_cons, h] at hvalue
  exact hfinal value hvalue

theorem final_500 {response : Response} (h : response.status = 500) : Final (responseHeaders response) := by
  intro value hvalue
  rw [responseHeaders, List.head?_cons, h, Option.some.injEq, Prod.mk.injEq] at hvalue
  rw [← hvalue.2]
  decide

/-- The event is that of a handler that returns the response. -/
def Returns (response : Response) : Event → Prop
  | .handlerDone _ result | .pushDone _ _ result => result = .returned response
  | _ => False

omit [H2Connection σ] in
theorem final_new (h500 : IsSorry c.response500)
    (hfinal : ∀ response, Returns response e → Final (responseHeaders response)) :
    ∀ r ∈ newResponse c e, Final (responseHeaders (setContentLength r.1)) := by
  intro r hr
  cases e with
  | handlerDone f result =>
    cases result with
    | returned response =>
      cases hr
      exact final_congr rfl (hfinal response rfl)
    | raised e => cases hr
    | cancelled => cases hr
  | pushDone f k result =>
    cases result with
    | returned response =>
      simp only [newResponse, Option.mem_def, Option.map_eq_some_iff] at hr
      obtain ⟨push, -, rfl⟩ := hr
      exact final_congr rfl (hfinal response rfl)
    | raised e => cases hr
    | cancelled => cases hr
  | settle f =>
    simp only [newResponse, Option.mem_def] at hr
    split at hr
    · cases hr
      exact final_500 h500.1
    · cases hr
  | _ => cases hr

/-- In every run in which no handler returns a response with a status of 1xx: what is written on a stream is one
response at most, or the beginning of one, and it is a response to a request on the stream or to a push for which the
stream has been promised. -/
theorem response_one (O : Orderly view) {conn : σ} (hout : (view conn).outbound = [])
    {feedData : Bytes → HttpTools.Fed} {info : TransportInfo} {sslcontext : Bool}
    (h : Run Step (fresh (parsers conn feedData) info sslcontext) es c)
    (hfinal : ∀ e ∈ es, ∀ response, Returns response e → Final (responseHeaders response)) (t : Nat) :
    OneResponse t (Answers (fresh (parsers conn feedData) info sslcontext) es c.requests t) (written c.log) := by
  have hall : (∀ e ∈ es, ∀ response, Returns response e → Final (responseHeaders response)) →
      Streaming view (fresh (parsers conn feedData) info sslcontext) es c := by
    refine h.history (I := fun es c => (∀ e ∈ es, ∀ response, Returns response e → Final (responseHeaders response)) →
      Streaming view (fresh (parsers conn feedData) info sslcontext) es c) (fun _ => ?_) ?_
    · obtain ⟨control, hcontrol, hview⟩ := O.initiateConnection conn
      have hnothing : ∀ t, carried t (written [] ++ (view (H2Connection.initiateConnection conn)).outbound) = [] := by
        intro t
        rw [hview, Outbox.queue, hout]
        exact carried_control t hcontrol
      refine ⟨wf_fresh _ _ _, .nil, ⟨rfl, rfl, rfl⟩, .inl ⟨{ conn := H2Connection.initiateConnection conn }, ⟨?_, ?_⟩, ?_, ?_⟩⟩
      · exact .inr ⟨rfl, _, rfl⟩
      · intro _ q hq
        simp only [fresh, connectionMade, parsers, List.map_cons, List.map_nil, List.tail_cons, List.mem_cons,
          List.not_mem_nil, or_false] at hq
        rcases hq with rfl | rfl
        · trivial
        · trivial
      · exact fun t => .inl (hnothing t)
      · exact fun t _ => hnothing t
    · intro es c e c' hI hstep hfinal
      have hs := hI fun e he => hfinal e (List.mem_append_left _ he)
      by_cases he : ∃ data, e = .dataReceived data
      · obtain ⟨data, rfl⟩ := he
        exact hs.chunk O hstep
      · exact hs.response O hstep (fun data hd => he ⟨data, hd⟩) (final_new hs.sorry500 (hfinal _ (by simp)))
  rcases (hall hfinal).frames with ⟨p, -, hone, -⟩ | ⟨-, hone⟩
  · exact (hone t).beginning (List.prefix_append _ _)
  · exact hone t

end

/-- A new connection of the server. -/
def offering : Connection (Server.Parser Upgradable) Wire :=
  fresh (parsers (show Reader from {}) fun _ => { callbacks := [], exc := none, method := [], version := [] })
    createConnection.transport.info false

/-- The request that asks for HTTP/2 is answered. -/
def answering : List Event := [.dataReceived upgrading, .handlerDone 0 returnsOk, .settle 0]

theorem answering_one :
    ∃ c, offering.run answering = some c ∧ carried 1 (written c.log) ≠ [] ∧
      OneResponse 1 (Answers offering answering c.requests 1) (written c.log) := by
  have hrun : (offering.run answering).any fun c => carried 1 (written c.log) ≠ [] := by
    decide
  cases hc : offering.run answering with
  | none =>
    rw [hc] at hrun
    cases hrun
  | some c =>
    rw [hc] at hrun
    refine ⟨c, rfl, by simpa using hrun, response_one Upgradable.orderly rfl (run_sound hc) ?_ 1⟩
    intro e he response hreturns
    simp only [answering, List.mem_cons, List.not_mem_nil, or_false] at he
    rcases he with rfl | rfl | rfl
    · exact hreturns.elim
    · cases hreturns
      intro value hvalue
      cases hvalue
      decide
    · exact hreturns.elim

end Levin.Server
