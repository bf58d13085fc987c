import Levin.Proof.Http1.Framing
import Levin.Proof.Http2.Reference

/-!
# Responses serialised more than once

`handle_response` writes the length of the body into the response's own headers:
under `Content-Length` on an HTTP/1 connection, under `content-length` on an
HTTP/2 one. The next call for the same response finds what the last one has
written: nothing new if both are of one protocol, a second length header if they
are not. So the calls on a response each send what the first one would exactly if
none of them writes a header that a later call of the other protocol sends
(`serialised_alike_iff`).
-/

namespace Levin

open Framework Bytes

/-- The protocol of the connection a response is sent on. -/
inductive Protocol
  | http1
  | http2
  deriving DecidableEq, Repr

/-- A call of `handle_response`: the parser of the connection as the call finds it, and the request. -/
inductive Call : Type 1
  | http1 (request : Request)
  | http2 (σ : Type) [H2Connection σ] (p : Hyper.Parser σ) (request : Request)

namespace Call

def protocol : Call → Protocol
  | http1 _ => .http1
  | @http2 _ _ _ _ => .http2

/-- What the call yields, and the response as it leaves it. -/
def serialise (response : Response) : Call → Yielded Wire × Response
  | http1 request =>
    let (out, response, _) := ParserProtocol.handleResponse ({} : HttpSimple.Parser) response request
    ({ chunks := out.chunks.map (·.map .byte), exc := out.exc }, response)
  | @http2 _ _ p request =>
    let (out, response, _) := ParserProtocol.handleResponse p response request
    (out, response)

/-- The h2 of the connection does what it is documented to do. -/
def Documented : Call → Prop
  | http1 _ => True
  | @http2 σ _ _ _ => ∃ view : σ → H2State, Levin.Documented view

/-- What the calls on one response yield, in order. -/
def outputs : Response → List Call → List (Yielded Wire)
  | _, [] => []
  | response, call :: calls => (call.serialise response).1 :: outputs (call.serialise response).2 calls

end Call

namespace Protocol

/-- The response once its length is set for the protocol. -/
def setLength : Protocol → Response → Response
  | .http1 => HttpSimple.setContentLength
  | .http2 => Hyper.setContentLength

/-- The header that a call sets. -/
def key : Protocol → Bytes
  | .http1 => ascii "Content-Length"
  | .http2 => ascii "content-length"

/-- A call sets its header: in HTTP/1, if there is a body. -/
def SetsLength (response : Response) : Protocol → Prop
  | .http1 => response.body ≠ []
  | .http2 => True

/-- A call changes the response's headers. -/
def Writes (response : Response) (p : Protocol) : Prop :=
  p.SetsLength response ∧ Dict.get? response.headers p.key ≠ some (decimal response.body.length)

/-- A call sends the response's headers: in HTTP/1, if there is a phrase for its status. -/
def SendsHeaders (response : Response) : Protocol → Prop
  | .http1 => HttpSimple.statusPhrase response.status ≠ none
  | .http2 => True

variable {p q : Protocol} {r : Response}

theorem key_injective (h : p ≠ q) : p.key ≠ q.key := by
  cases p <;> cases q <;> first | exact absurd rfl h | decide

theorem setLength_sets (h : p.SetsLength r) :
    p.setLength r = { r with headers := r.headers.set p.key (decimal r.body.length) } := by
  cases p with
  | http1 => exact if_neg h
  | http2 => rfl

theorem setLength_of_not_sets (h : ¬ p.SetsLength r) : p.setLength r = r := by
  cases p with
  | http1 => exact if_pos (Classical.not_not.mp h)
  | http2 => exact absurd trivial h

theorem setLength_of_not_writes (h : ¬ p.Writes r) : p.setLength r = r := by
  by_cases hs : p.SetsLength r
  · rw [setLength_sets hs, Dict.set_of_get? (Classical.not_not.mp fun hn => h ⟨hs, hn⟩)]
  · exact setLength_of_not_sets hs

/-- The headers are all that a call changes. -/
theorem setLength_rest (p : Protocol) (r : Response) : p.setLength r = { r with headers := (p.setLength r).headers } := by
  by_cases hs : p.SetsLength r
  · rw [setLength_sets hs]
  · rw [setLength_of_not_sets hs]

theorem setsLength_setLength (p q : Protocol) (r : Response) : q.SetsLength (p.setLength r) ↔ q.SetsLength r := by
  rw [setLength_rest]
  cases q <;> rfl

/-- After a call, no call of its protocol writes. -/
theorem not_writes_setLength (p : Protocol) (r : Response) : ¬ p.Writes (p.setLength r) := by
  rintro ⟨hs, hn⟩
  rw [setLength_sets ((setsLength_setLength p p r).mp hs)] at hn
  exact hn (Dict.get?_set_self _ _ _)

theorem setLength_self (p : Protocol) (r : Response) : p.setLength (p.setLength r) = p.setLength r :=
  setLength_of_not_writes (not_writes_setLength p r)

/-- A call does not touch the header of the other protocol. -/
theorem writes_setLength (hne : q ≠ p) (r : Response) : q.Writes (p.setLength r) ↔ q.Writes r := by
  unfold Writes
  rw [setsLength_setLength]
  by_cases hs : p.SetsLength r
  · rw [setLength_sets hs]
    simp only [Dict.get?_set_of_ne _ _ (key_injective hne)]
  · rw [setLength_of_not_sets hs]

/-- Nor does a call of the other protocol make one write again. -/
theorem setLength_again (hne : q ≠ p) (r : Response) :
    q.setLength (p.setLength (q.setLength r)) = p.setLength (q.setLength r) := by
  apply setLength_of_not_writes
  rw [writes_setLength hne]
  exact not_writes_setLength q r

end Protocol

open Protocol

variable {p : Protocol} {r : Response}

/-! ## The response that calls leave -/

/-- The response once calls of the protocols `ps` have been made on it. -/
def leave (r : Response) (ps : List Protocol) : Response := ps.foldl (fun r p => p.setLength r) r

theorem leave_concat (r : Response) (ps : List Protocol) (q : Protocol) :
    leave r (ps ++ [q]) = q.setLength (leave r ps) := by
  simp [leave]

/-- The headers are all that calls change. -/
theorem leave_rest (r : Response) (ps : List Protocol) : leave r ps = { r with headers := (leave r ps).headers } := by
  induction ps using List.reverseRecOn with
  | nil => rfl
  | append_singleton ps q ih =>
    rw [leave_concat, setLength_rest, ih]

theorem eq_of_headers {ps : List Protocol} (h : (p.setLength (leave r ps)).headers = (p.setLength r).headers) :
    p.setLength (leave r ps) = p.setLength r := by
  rw [setLength_rest, h, leave_rest]
  exact (setLength_rest p r).symm

/-- Calls of the other protocol that write nothing leave the response as it was, or as a call of
this protocol does. -/
theorem leave_eq {ps : List Protocol} (h : ∀ q ∈ ps, q ≠ p → ¬ q.Writes r) :
    leave r ps = r ∨ leave r ps = p.setLength r := by
  induction ps using List.reverseRecOn with
  | nil => exact .inl rfl
  | append_singleton ps q ih =>
    have ih := ih fun q' hq' => h q' (List.mem_append_left _ hq')
    rw [leave_concat]
    by_cases hq : q = p
    · subst hq
      right
      rcases ih with e | e <;> rw [e]
      exact setLength_self q r
    · have hw := h q (by simp) hq
      rcases ih with e | e <;> rw [e]
      · exact .inl (setLength_of_not_writes hw)
      · exact .inr (setLength_of_not_writes fun hw' => hw ((writes_setLength hq r).mp hw'))

/-- What a call sends depends on the response with its length set, and on nothing else of it. -/
theorem serialise_congr (call : Call) {r r' : Response} (h : call.protocol.setLength r = call.protocol.setLength r') :
    (call.serialise r).1 = (call.serialise r').1 := by
  cases call with
  | http1 request =>
    have h : HttpSimple.setContentLength r = HttpSimple.setContentLength r' := h
    simp only [Call.serialise, ParserProtocol.handleResponse, HttpSimple.handleResponse, h]
  | http2 σ p request =>
    have h : Hyper.setContentLength r = Hyper.setContentLength r' := h
    simp only [Call.serialise, ParserProtocol.handleResponse, Hyper.handleResponse, h]

theorem serialise_leave (call : Call) (r : Response) : (call.serialise r).2 = call.protocol.setLength r := by
  cases call with
  | http1 request =>
    simp only [Call.serialise, ParserProtocol.handleResponse, HttpSimple.handleResponse]
    split <;> rfl
  | http2 σ p request => rfl

/-- The outputs are those of single calls, each on the response that the calls before it leave. -/
theorem outputs_eq_iff (r : Response) (calls : List Call) :
    Call.outputs r calls = calls.map (fun call => (call.serialise r).1) ↔
      ∀ before call after, calls = before ++ call :: after →
        (call.serialise (leave r (before.map Call.protocol))).1 = (call.serialise r).1 := by
  have houtputs : ∀ r' (calls : List Call), Call.outputs r' calls = calls.map (fun call => (call.serialise r).1) ↔
      ∀ before call after, calls = before ++ call :: after →
        (call.serialise (leave r' (before.map Call.protocol))).1 = (call.serialise r).1 := by
    intro r' calls
    induction calls generalizing r' with
    | nil => simp [Call.outputs]
    | cons call calls ih =>
      rw [Call.outputs, List.map_cons, List.cons.injEq, ih, serialise_leave]
      constructor
      · rintro ⟨hc, hcs⟩ before call' after h
        cases before with
        | nil =>
          obtain ⟨rfl, -⟩ := List.cons.inj h
          exact hc
        | cons call₀ before =>
          obtain ⟨rfl, h'⟩ := List.cons.inj h
          exact hcs before call' after h'
      · intro h
        exact ⟨h [] call calls rfl, fun before call' after hcs => h (call :: before) call' after (by rw [hcs]; rfl)⟩
  exact houtputs r calls

/-! ## What is sent tells the headers -/

/-- The lines of a header map, each with its end. -/
def encodeHeaders (headers : Dict Bytes Bytes) : Bytes := Message.encodeFields (HttpSimple.writtenFields headers)

theorem encodeHeaders_append (h h' : Dict Bytes Bytes) : encodeHeaders (h ++ h') = encodeHeaders h ++ encodeHeaders h' := by
  simp [encodeHeaders, Message.encodeFields, HttpSimple.writtenFields]

theorem encodeHeaders_cons (k v : Bytes) (h : Dict Bytes Bytes) :
    encodeHeaders ((k, v) :: h) = HttpSimple.headerName k ++ 58 :: 32 :: (v ++ CR :: LF :: encodeHeaders h) := by
  simp [encodeHeaders, Message.encodeFields, HttpSimple.writtenFields, Message.fieldLine]

/-- A header that is set anew shows. -/
theorem encodeHeaders_set_ne {k v : Bytes} {h : Dict Bytes Bytes} (hne : h.get? k ≠ some v) :
    encodeHeaders (h.set k v) ≠ encodeHeaders h := by
  cases hget : h.get? k with
  | none =>
    rw [Dict.set_of_get?_none v hget, encodeHeaders_append]
    intro e
    have := congrArg List.length e
    rw [encodeHeaders_cons] at this
    simp at this
  | some old =>
    obtain ⟨before, after, hd, hset⟩ := Dict.exists_of_get? hget
    rw [hset v]
    conv_rhs => rw [hd]
    simp only [encodeHeaders_append, encodeHeaders_cons]
    intro e
    have hline := List.append_cancel_left (List.append_cancel_left e)
    have hv := List.append_cancel_right (List.cons.inj (List.cons.inj hline).2).2
    exact hne (by rw [hget, hv])

/-- It shows also under a header that is set after it. -/
theorem encodeHeaders_set_set_ne {k k' v v' : Bytes} {h : Dict Bytes Bytes} (hkk : k ≠ k') (hne : h.get? k' ≠ some v') :
    encodeHeaders ((h.set k' v').set k v) ≠ encodeHeaders (h.set k v) := by
  have hlast : encodeHeaders ((h.set k v).set k' v') ≠ encodeHeaders (h.set k v) :=
    encodeHeaders_set_ne (by rwa [Dict.get?_set_of_ne _ _ (Ne.symm hkk)])
  by_cases h₁ : h.get? k = none
  · by_cases h₂ : h.get? k' = none
    · have h₁' : (h.set k' v').get? k = none := by rw [Dict.get?_set_of_ne _ _ hkk, h₁]
      rw [Dict.set_of_get?_none _ h₁', Dict.set_of_get?_none _ h₂, Dict.set_of_get?_none _ h₁]
      simp only [encodeHeaders_append, encodeHeaders_cons]
      intro e
      have hlen := congrArg List.length e
      simp only [List.length_append, List.length_cons] at hlen
      omega
    · rwa [← Dict.set_comm _ _ (Ne.symm hkk) h₂]
  · rwa [Dict.set_comm _ _ hkk h₁]

theorem encodeHeaders_of_headerLines {h h' : Dict Bytes Bytes}
    (e : HttpSimple.headerLines h = HttpSimple.headerLines h') : encodeHeaders h = encodeHeaders h' := by
  have hlong : ∀ h : Dict Bytes Bytes, h ≠ [] → HttpSimple.headerLines h ≠ [] := by
    intro h hh hnil
    have := HttpSimple.headerLines_encode hh
    cases h with
    | nil => exact hh rfl
    | cons kv h =>
      have hlen := congrArg List.length (this.symm.trans (congrArg (· ++ HttpSimple.CRLF) hnil))
      rw [← encodeHeaders, encodeHeaders_cons] at hlen
      simp [HttpSimple.CRLF] at hlen
      omega
  by_cases hh : h = []
  · subst hh
    by_cases hh' : h' = []
    · rw [hh']
    · exact absurd e.symm (hlong h' hh')
  · by_cases hh' : h' = []
    · subst hh'
      exact absurd e (hlong h hh)
    · rw [encodeHeaders, ← HttpSimple.headerLines_encode hh, e, HttpSimple.headerLines_encode hh']
      rfl

/-- Where calls of both protocols have been made, both lengths are set, in one order or the other. -/
theorem setLength_leave {p q : Protocol} (hne : q ≠ p) (r : Response) {ps : List Protocol} (hq : q ∈ ps) :
    p.setLength (leave r ps) = p.setLength (q.setLength r) ∨ p.setLength (leave r ps) = q.setLength (p.setLength r) := by
  have hcases : ∀ ps : List Protocol,
      (q ∉ ps ∧ (leave r ps = r ∨ leave r ps = p.setLength r)) ∨
        q ∈ ps ∧ (leave r ps = q.setLength r ∨ leave r ps = p.setLength (q.setLength r) ∨
          leave r ps = q.setLength (p.setLength r)) := by
    intro ps
    induction ps using List.reverseRecOn with
    | nil => exact .inl ⟨List.not_mem_nil, .inl rfl⟩
    | append_singleton ps s ih =>
      rw [leave_concat]
      have hs : s = p ∨ s = q := by
        cases s <;> cases p <;> cases q <;> simp_all
      rcases hs with rfl | rfl
      · rcases ih with ⟨hn, e | e⟩ | ⟨hm, e | e | e⟩ <;> rw [e]
        · exact .inl ⟨by simp [hn, hne], .inr rfl⟩
        · exact .inl ⟨by simp [hn, hne], .inr (setLength_self _ _)⟩
        · exact .inr ⟨by simp [hm], .inr (.inl rfl)⟩
        · exact .inr ⟨by simp [hm], .inr (.inl (setLength_self _ _))⟩
        · exact .inr ⟨by simp [hm], .inr (.inr (setLength_again (Ne.symm hne) _))⟩
      · refine .inr ⟨by simp, ?_⟩
        rcases ih with ⟨-, e | e⟩ | ⟨-, e | e | e⟩ <;> rw [e]
        · exact .inl rfl
        · exact .inr (.inr rfl)
        · exact .inl (setLength_self _ _)
        · exact .inr (.inl (setLength_again hne _))
        · exact .inr (.inr (setLength_self _ _))
  rcases hcases ps with ⟨hn, -⟩ | ⟨-, e | e | e⟩
  · exact absurd hq hn
  · exact .inl (by rw [e])
  · exact .inl (by rw [e, setLength_self])
  · exact .inr (by rw [e, setLength_again (Ne.symm hne)])

/-- After a call of HTTP/2 that has written, an HTTP/1 call writes other lines. -/
theorem encodeHeaders_leave_ne {ps : List Protocol} (hq : Protocol.http2 ∈ ps) (hw : Protocol.http2.Writes r) :
    encodeHeaders (Protocol.http1.setLength (leave r ps)).headers ≠
      encodeHeaders (Protocol.http1.setLength r).headers := by
  have hlast : encodeHeaders (Protocol.http2.setLength (Protocol.http1.setLength r)).headers ≠
      encodeHeaders (Protocol.http1.setLength r).headers :=
    encodeHeaders_set_ne ((writes_setLength (by decide) r).mpr hw).2
  rcases setLength_leave (show Protocol.http2 ≠ Protocol.http1 by decide) r hq with e | e <;> rw [e]
  · by_cases hs : Protocol.http1.SetsLength r
    · rw [setLength_sets ((setsLength_setLength .http2 .http1 r).mpr hs), setLength_sets hs]
      exact encodeHeaders_set_set_ne (show Protocol.http1.key ≠ Protocol.http2.key by decide) hw.2
    · rw [setLength_of_not_sets hs] at hlast ⊢
      rwa [setLength_of_not_sets (mt (setsLength_setLength _ _ _).mp hs)]
  · exact hlast

/-- After a call of HTTP/1 that has written, an HTTP/2 call sends other headers. -/
theorem headers_leave_ne {ps : List Protocol} (hq : Protocol.http1 ∈ ps) (hw : Protocol.http1.Writes r) :
    (Protocol.http2.setLength (leave r ps)).headers ≠ (Protocol.http2.setLength r).headers := by
  intro h
  have hw' := (writes_setLength (p := .http2) (q := .http1) (by decide) r).mpr hw
  rw [← eq_of_headers h] at hw'
  rcases setLength_leave (show Protocol.http1 ≠ Protocol.http2 by decide) r hq with e | e <;> rw [e] at hw'
  · exact not_writes_setLength _ _ ((writes_setLength (by decide) _).mp hw')
  · exact not_writes_setLength _ _ hw'

/-! ## Calls that send -/

theorem setContentLength_status (r : Response) : (HttpSimple.setContentLength r).status = r.status := by
  show (Protocol.http1.setLength r).status = r.status
  rw [setLength_rest]

/-- The lines of the headers are the second chunk of an HTTP/1 call. -/
theorem http1_sends {r r' : Response} (hs : HttpSimple.statusPhrase r.status ≠ none) (hst : r'.status = r.status)
    {request : Request} (e : ((Call.http1 request).serialise r').1 = ((Call.http1 request).serialise r).1) :
    encodeHeaders (Protocol.http1.setLength r').headers = encodeHeaders (Protocol.http1.setLength r).headers := by
  obtain ⟨phrase, hphrase⟩ := Option.ne_none_iff_exists'.mp hs
  have hchunks : ∀ r : Response, HttpSimple.statusPhrase r.status = some phrase →
      ∃ line rest, (HttpSimple.handleResponse r).1.chunks =
        line :: HttpSimple.headerLines (Protocol.http1.setLength r).headers :: rest := by
    intro r hr
    simp only [HttpSimple.handleResponse, setContentLength_status, hr]
    exact ⟨_, _, rfl⟩
  obtain ⟨line, rest, h⟩ := hchunks r hphrase
  obtain ⟨line', rest', h'⟩ := hchunks r' (by rw [hst, hphrase])
  have e := congrArg Yielded.chunks e
  simp only [Call.serialise, ParserProtocol.handleResponse, h, h', List.map_cons, List.cons.injEq] at e
  exact encodeHeaders_of_headerLines (List.map_injective_iff.mpr (fun _ _ => Wire.byte.inj) e.2.1)

/-- Without a phrase for its status an HTTP/1 call sends nothing. -/
theorem http1_unknown {r : Response} (h : HttpSimple.statusPhrase r.status = none) {request : Request} :
    ((Call.http1 request).serialise r).1 = { chunks := [], exc := some .TypeError } := by
  have hstatus : (HttpSimple.setContentLength r).status = r.status := setContentLength_status r
  simp [Call.serialise, ParserProtocol.handleResponse, HttpSimple.handleResponse, hstatus, h]

/-- A connection with room for a body of `n` bytes, on which a response, or one that is pushed, is
waited for. -/
def roomyConn (push : Bool) (n : Nat) : Reference :=
  { window := n + 1, streams := [(1, (if push then .body else .ready, n + 1))], initialWindow := n + 1 }

def roomyRequest : Request :=
  { Request.create (ascii "/") (ascii "GET") (some []) [] (ascii "HTTP/2") 1 with
    transportInfo := some Connection.createConnection.transport.info }

/-- A call on such a connection. -/
def roomy (push : Bool) (n : Nat) : Call := .http2 Reference { conn := roomyConn push n } roomyRequest

/-- A call with room for the response, for either protocol. -/
def roomyCall (response : Response) : Protocol → Call
  | .http1 => .http1 roomyRequest
  | .http2 => roomy response.push response.body.length

theorem roomyCall_protocol (response : Response) (p : Protocol) : (roomyCall response p).protocol = p := by
  cases p <;> rfl

theorem roomyCall_documented (response : Response) (p : Protocol) : (roomyCall response p).Documented := by
  cases p with
  | http1 => exact trivial
  | http2 => exact ⟨Reference.state, Reference.documented⟩

/-- A response is sent on a connection that has room for it, its headers first. -/
theorem sendResponse_headers {conn : Reference} {s t : Nat} (ht : conn.state.stream t = .ready)
    (hs : conn.state.stream s ≠ .idle) {r : Response} (hws : 1 ≤ conn.state.windowOf s)
    (hwt : (r.body.length : Int) ≤ conn.state.windowOf t) :
    ∃ (chunks : List (List Frame)) (after : List Frame) (conn' : Reference),
      Hyper.sendResponse r s t conn = (chunks, none, conn') ∧
        chunks.flatten = conn.outbound ++ .headers t (Hyper.responseHeaders r) false :: after := by
  obtain ⟨chunks, ds, conn', hsend, hsends, -, hchunks⟩ := Hyper.sendResponse_spec Reference.documented r ht hs
  have hds : ds ≠ [] := (hsends.starts_iff hwt).mpr hws
  rw [if_neg hds] at hchunks
  exact ⟨chunks, _, conn', hsend, hchunks⟩

/-- The frames before the headers and the stream they are sent on do not depend on the response. -/
theorem roomy_sends (push : Bool) (n : Nat) : ∃ (before : List Frame) (t : Nat), ∀ r : Response, r.push = push →
    r.body.length ≤ n → ∃ (chunks : List (List Frame)) (after : List Frame),
      ((roomy push n).serialise r).1 = { chunks := chunks.map (·.map .frame), exc := none } ∧
        chunks.flatten = before ++ .headers t (Hyper.responseHeaders (Hyper.setContentLength r)) false :: after := by
  have hwindow : (roomyConn push n).state.windowOf 1 = n + 1 := Int.min_self _
  have hserialise : ∀ r : Response, ((roomy push n).serialise r).1 =
      { chunks := (Hyper.send (Hyper.setContentLength r) roomyRequest (roomyConn push n)).1.map (·.map .frame),
        exc := (Hyper.send (Hyper.setContentLength r) roomyRequest (roomyConn push n)).2.1 } := fun _ => rfl
  have hbody : ∀ r : Response, (Hyper.setContentLength r).body = r.body := fun _ => rfl
  cases push with
  | false =>
    have hready : (roomyConn false n).state.stream 1 = .ready := rfl
    refine ⟨[], 1, fun r hr hn => ?_⟩
    obtain ⟨chunks, after, conn', hsend, hchunks⟩ := sendResponse_headers (s := 1) (r := Hyper.setContentLength r)
      hready (by simp [hready]) (by omega) (by rw [hwindow, hbody]; omega)
    refine ⟨chunks, after, ?_, hchunks⟩
    have hpush : (Hyper.setContentLength r).push = false := hr
    have hstream : roomyRequest.stream = 1 := rfl
    simp only [hserialise, Hyper.send, hpush, Bool.false_eq_true, if_false, hstream, hsend]
  | true =>
    have hstate : (roomyConn true n).state.stream 1 = .body := rfl
    have henabled : (roomyConn true n).state.enablePush = true := rfl
    obtain ⟨t, conn₁, hpromise, hidle, hview⟩ := Hyper.promise_spec Reference.documented
      (show roomyRequest.transportInfo = some _ from rfl) henabled rfl hstate
    have hne : 1 ≠ t := by
      rintro rfl
      rw [hstate] at hidle
      cases hidle
    have hready : conn₁.state.stream t = .ready := by rw [hview]; exact H2State.promised_stream_of_ne _ _ hne
    have hended : conn₁.state.stream 1 = .ended := by rw [hview]; exact H2State.promised_stream_self _ _
    have hws : conn₁.state.windowOf 1 = n + 1 := by rw [hview, ← hwindow]; exact H2State.promised_windowOf_self _ _ hne
    have hwt : conn₁.state.windowOf t = n + 1 := by
      rw [hview]
      exact (H2State.promised_windowOf_of_ne _ _ hne).trans (Int.min_self _)
    refine ⟨conn₁.outbound, t, fun r hr hn => ?_⟩
    obtain ⟨chunks, after, conn', hsend, hchunks⟩ := sendResponse_headers (s := 1) (r := Hyper.setContentLength r)
      hready (by simp [hended]) (by omega) (by rw [hwt, hbody]; omega)
    refine ⟨chunks, after, ?_, hchunks⟩
    have hpush : (Hyper.setContentLength r).push = true := hr
    have hstream : roomyRequest.stream = 1 := rfl
    simp only [hserialise, Hyper.send, hpush, if_true, hpromise, hstream, hsend]

/-- So on such a connection the headers show in what is sent. -/
theorem http2_sends {r r' : Response} {n : Nat} (hn : r.body.length ≤ n) (hb : r'.body = r.body) (hp : r'.push = r.push)
    (e : ((roomy r.push n).serialise r').1 = ((roomy r.push n).serialise r).1) :
    (Protocol.http2.setLength r').headers = (Protocol.http2.setLength r).headers := by
  obtain ⟨before, t, hsends⟩ := roomy_sends r.push n
  obtain ⟨chunks, after, h, hc⟩ := hsends r rfl hn
  obtain ⟨chunks', after', h', hc'⟩ := hsends r' hp (by rw [hb]; exact hn)
  rw [h, h'] at e
  have hflat : chunks' = chunks :=
    List.map_injective_iff.mpr (List.map_injective_iff.mpr fun _ _ => Wire.frame.inj) (congrArg Yielded.chunks e)
  rw [hflat, hc] at hc'
  have hhead := (Frame.headers.inj (List.cons.inj (List.append_cancel_left hc')).1).2.1
  exact (List.cons.inj hhead).2.symm

/-! ## Responses sent more than once -/

/-- Each call sends what it would as the first call on the response. -/
def AsFirst (response : Response) (calls : List Call) : Prop :=
  Call.outputs response calls = calls.map fun call => (call.serialise response).1

/-- Whatever connections the calls are made on, each sends what it would as the first one exactly if
no call writes a header that a later call of the other protocol sends. -/
theorem serialised_alike_iff (response : Response) (ps : List Protocol) :
    (∀ calls : List Call, calls.map Call.protocol = ps → (∀ call ∈ calls, call.Documented) → AsFirst response calls) ↔
      ∀ before p after, ps = before ++ p :: after → p.SendsHeaders response →
        ∀ q ∈ before, q ≠ p → ¬ q.Writes response := by
  constructor
  · intro h before p after hps hsend q hq hne hw
    have hmap : ∀ ps : List Protocol, (ps.map (roomyCall response)).map Call.protocol = ps := by
      intro ps
      rw [List.map_map]
      exact (List.map_congr_left fun p _ => roomyCall_protocol response p).trans (List.map_id ps)
    have hdoc : ∀ call ∈ ps.map (roomyCall response), call.Documented := by
      intro call hc
      obtain ⟨p, -, rfl⟩ := List.mem_map.mp hc
      exact roomyCall_documented response p
    have hsame := (outputs_eq_iff response _).mp (h (ps.map (roomyCall response)) (hmap ps) hdoc)
      (before.map (roomyCall response)) (roomyCall response p) (after.map (roomyCall response))
      (by rw [hps, List.map_append, List.map_cons])
    rw [hmap] at hsame
    have hrest := leave_rest response before
    cases p with
    | http1 =>
      obtain rfl : q = .http2 := by
        cases q
        · exact absurd rfl hne
        · rfl
      exact encodeHeaders_leave_ne hq hw (http1_sends hsend (by rw [hrest]) hsame)
    | http2 =>
      obtain rfl : q = .http1 := by
        cases q
        · rfl
        · exact absurd rfl hne
      exact headers_leave_ne hq hw (http2_sends (Nat.le_refl _) (by rw [hrest]) (by rw [hrest]) hsame)
  · intro h calls hcalls _
    refine (outputs_eq_iff response calls).mpr fun before call after hsplit => ?_
    by_cases hsend : call.protocol.SendsHeaders response
    · have hleave := leave_eq (h (before.map Call.protocol) call.protocol (after.map Call.protocol)
        (by rw [← hcalls, hsplit, List.map_append, List.map_cons]) hsend)
      rcases hleave with e | e <;> rw [e]
      exact serialise_congr call (setLength_self _ _)
    · -- Without a phrase for its status nothing of the response is sent.
      cases call with
      | http1 request =>
        have hnone : HttpSimple.statusPhrase response.status = none := Classical.not_not.mp hsend
        have hleft : HttpSimple.statusPhrase (leave response (before.map Call.protocol)).status = none := by
          rw [leave_rest]
          exact hnone
        rw [http1_unknown hnone, http1_unknown hleft]
      | http2 σ p request => exact absurd trivial hsend

/-- The response `response_500` of the connections. -/
def response500 : Response where
  status := 500
  body := ascii "Sorry"

/-- Sent in HTTP/2 first, it has two length headers in HTTP/1. -/
theorem response500_not_asFirst :
    ¬ ∀ (response : Response) (calls : List Call), (∀ call ∈ calls, call.Documented) → AsFirst response calls := by
  intro h
  have hdoc : ∀ call ∈ [roomy false 5, .http1 roomyRequest], call.Documented := by
    intro call hc
    rcases List.mem_cons.mp hc with rfl | hc
    · exact ⟨Reference.state, Reference.documented⟩
    · obtain rfl := List.mem_singleton.mp hc
      exact trivial
  have hlines := congrArg (fun out => out[1]?.map fun y => y.chunks[1]?.map List.length) (h response500 _ hdoc)
  revert hlines
  decide

end Levin
