import Levin.Proof.Http2.Writing

/-!
# The first push ends the stream

The response to a push is promised on the request's stream, which is then ended:
the first push handler that returns has its response sent, and nothing is sent
for the others, in whatever order they come (`pushes_run`). A push handler that
fails makes the request's task fail; the 500 response that follows is refused, as
the request has been answered.
-/

namespace Levin

open Framework

/-- The push whose handler returns with the event, and its response. -/
def Event.returnedPush : Event → Option (Nat × Response)
  | .pushDone _ k (.returned response) => some (k, response)
  | _ => none

/-- The first push whose handler has returned, and its response. -/
def firstReturned (es : List Event) : Option (Nat × Response) := es.findSome? Event.returnedPush

theorem returnedPush_failed {f k : Nat} {result : HandlerResult} (h : ∀ r, result ≠ .returned r) :
    (Event.pushDone f k result).returnedPush = none := by
  cases result with
  | returned response => exact absurd rfl (h response)
  | raised e => rfl
  | cancelled => rfl

theorem firstReturned_concat (es : List Event) (e : Event) :
    firstReturned (es ++ [e]) = (firstReturned es).or e.returnedPush := by
  simp [firstReturned]

namespace Connection

open Hyper (Parser Sends responseFrames responded setContentLength)

variable {σ : Type} [H2Connection σ] {view : σ → H2State} {c c₁ c' : Connection (Parser σ) Wire} {p p₁ : Parser σ}
  {f k s : Nat} {es : List Event}

/-- A push handler of the request `f` is done, or the future of `f` learns how its task ended. -/
def PushEvent (f : Nat) : Event → Prop
  | .pushDone g _ _ | .settle g => g = f
  | _ => False

def PushStep (f : Nat) (c : Connection (Parser σ) Wire) (e : Event) (c' : Connection (Parser σ) Wire) : Prop :=
  PushEvent f e ∧ Step c e c'

/-- The response to a push has been sent, on the stream `t` promised for it on `s`, as far as `ds`:
h2 has gone from the state `v` to `v'`, and the frames `fs` have been written. -/
structure PushSent (v v' : H2State) (s t : Nat) (fields : Fields) (response : Response) (ds : List Bytes)
    (fs : List Frame) : Prop where
  idle : v.stream t = .idle
  sends : Sends (v.promised s t fields) s t response.body ds
  state : v' = responded (setContentLength response) t ds (v.promised s t fields)
  frames : fs =
    if ds = [] then [] else (v.promised s t fields).outbound ++ responseFrames (setContentLength response) t ds

/-- What has been sent for the pushes of a request: nothing as long as no handler has returned, and
then the response of the first that has. -/
def PushesSent (v v' : H2State) (s : Nat) (fs : List Frame) : Option (Nat × Response) → Prop
  | none => v' = v ∧ fs = []
  | some (_, response) => ∃ t fields ds, PushSent v v' s t fields response ds fs

omit [H2Connection σ] in
/-- The stream of the request has ended if a push has been sent. -/
theorem PushSent.stream_ended {v v' : H2State} {t : Nat} {fields : Fields} {response : Response} {ds : List Bytes}
    {fs : List Frame} (h : PushSent v v' s t fields response ds fs) (hs : v.stream s ≠ .idle) :
    v'.stream s = .ended := by
  have hne : s ≠ t := by
    rintro rfl
    exact hs h.idle
  rw [h.state, Hyper.responded_stream_of_ne _ _ _ hne, H2State.promised_stream_self]

omit [H2Connection σ] in
/-- A request that has been answered stays so, whatever has been sent for its pushes. -/
theorem PushesSent.answered {v v' : H2State} {fs : List Frame} {first : Option (Nat × Response)}
    (h : PushesSent v v' s fs first) (hs : v.stream s = .body ∨ v.stream s = .ended) :
    v'.stream s = .body ∨ v'.stream s = .ended := by
  cases first with
  | none =>
    obtain ⟨rfl, -⟩ := h
    exact hs
  | some first =>
    obtain ⟨t, fields, ds, hsent⟩ := h
    refine .inr (hsent.stream_ended ?_)
    rcases hs with h | h <;> simp [h]

/-- What a push handler that returns sends, while the request's stream goes on. -/
theorem handlePush_first (D : Documented view) (hp : c.parser = some p) {push : Push}
    (hk : (c.task f).pushes[k]? = some push) (response : Response) (he : (view p.conn).enablePush = true)
    (hodd : (c.future f).request.stream % 2 = 1) (hs : (view p.conn).stream (c.future f).request.stream = .body) :
    ∃ p' t ds fs, PushSent (view p.conn) (view p'.conn) (c.future f).request.stream t
        (Hyper.pushHeaders (c.pushRequest push (c.future f).request) c.transport.info.sockname) response ds fs ∧
      Wrote c (c.handlePush f k (.returned response)).1 p' fs := by
  rw [handlePush_returned hk]
  have hinfo : (c.pushRequest push (c.future f).request).transportInfo = some c.transport.info := rfl
  have hpush : ({ response with push := true } : Response).push = true := rfl
  obtain ⟨p', t, ds, hidle, hsends, hv, hw⟩ := writeResponse_promises D hp (.push f k) hpush hinfo he hodd hs
  exact ⟨p', t, ds, _, ⟨hidle, hsends, hv, rfl⟩, hw⟩

/-- Once the request's stream has ended a push handler sends nothing, nor does one that fails. -/
theorem handlePush_idle (D : Documented view) (hp : c.parser = some p) {push : Push}
    (hk : (c.task f).pushes[k]? = some push) (result : HandlerResult)
    (h : (∀ r, result ≠ .returned r) ∨ (view p.conn).stream (c.future f).request.stream = .ended) :
    ∃ p' : Parser σ, view p'.conn = view p.conn ∧ Wrote c (c.handlePush f k result).1 p' [] := by
  by_cases hr : ∀ r, result ≠ .returned r
  · exact ⟨p, rfl, handlePush_failed hp hr⟩
  · obtain ⟨response, rfl⟩ : ∃ r, result = .returned r := by
      simpa using hr
    have hinfo : (c.pushRequest push (c.future f).request).transportInfo = some c.transport.info := rfl
    have hpush : ({ response with push := true } : Response).push = true := rfl
    rw [handlePush_returned hk]
    exact writeResponse_refused D hp (.push f k) hpush hinfo (h.resolve_left hr)

/-- The first push handler that returns has its response sent, and one that fails or comes after it
has nothing sent. -/
theorem handlePush_sent (D : Documented view) (hp : c.parser = some p) {push : Push}
    (hk : (c.task f).pushes[k]? = some push) (result : HandlerResult) (hrequest : (c.future f).request.stream = s)
    (hodd : s % 2 = 1) {v : H2State} (hs : v.stream s = .body) (he : v.enablePush = true) {fs : List Frame}
    (h : PushesSent v (view p.conn) s fs (firstReturned es)) :
    ∃ p' fs', Wrote c (c.handlePush f k result).1 p' fs' ∧
      PushesSent v (view p'.conn) s (fs ++ fs') (firstReturned (es ++ [.pushDone f k result])) := by
  rw [firstReturned_concat]
  cases hfirst : firstReturned es with
  | none =>
    rw [hfirst] at h
    obtain ⟨hv, rfl⟩ := h
    by_cases hr : ∀ r, result ≠ .returned r
    · obtain ⟨p', hv', hwrote⟩ := handlePush_idle D hp hk result (.inl hr)
      rw [returnedPush_failed hr]
      exact ⟨p', [], hwrote, hv'.trans hv, rfl⟩
    · obtain ⟨response, rfl⟩ : ∃ r, result = .returned r := by
        simpa using hr
      obtain ⟨p', t, ds, fs', hsent, hwrote⟩ := handlePush_first D hp hk response (by rwa [hv])
        (by rwa [hrequest]) (by rwa [hrequest, hv])
      rw [hrequest, hv] at hsent
      exact ⟨p', fs', hwrote, t, _, ds, hsent⟩
  | some first =>
    rw [hfirst] at h
    obtain ⟨t, fields, ds, hsent⟩ := h
    have hended := hsent.stream_ended (by simp [hs])
    obtain ⟨p', hv', hwrote⟩ := handlePush_idle D hp hk result (.inr (by rwa [hrequest]))
    refine ⟨p', [], hwrote, t, fields, ds, ?_⟩
    rw [hv', List.append_nil]
    exact hsent

/-- What holds after the events `es` since `c₁`, the state in which the pushes of `f` are started. -/
structure Pushing (view : σ → H2State) (c₁ : Connection (Parser σ) Wire) (p₁ : Parser σ) (f s : Nat) (es : List Event)
    (c : Connection (Parser σ) Wire) : Prop extends Wf c where
  request : (c.future f).request.stream = s
  response500 : c.response500.push = false
  noPushes : (c₁.task f).running = [] → (c.task f).running = [] ∧ firstReturned es = none
  sent : ∃ p fs, c.parser = some p ∧ written c.log = written c₁.log ++ fs ∧
    PushesSent (view p₁.conn) (view p.conn) s fs (firstReturned es)

theorem pushing_step (D : Documented view) (hodd : s % 2 = 1)
    (hs : (view p₁.conn).stream s = .body ∨ (view p₁.conn).stream s = .ended)
    (hpushing : (c₁.task f).running ≠ [] → (view p₁.conn).stream s = .body ∧ (view p₁.conn).enablePush = true)
    {e : Event} (hi : Pushing view c₁ p₁ f s es c) (h : PushStep f c e c') : Pushing view c₁ p₁ f s (es ++ [e]) c' := by
  obtain ⟨hev, hstep⟩ := h
  have hw' := step_wf hi.toWf hstep
  obtain ⟨p, fs, hp, hwritten, hsent⟩ := hi.sent
  cases e with
  | pushDone g k result =>
    obtain rfl : g = f := hev
    obtain ⟨hk, rfl⟩ := step_pushDone.mp hstep
    have hpush := List.getElem?_eq_getElem (hi.toWf.running g k hk)
    have hrunning : (c₁.task g).running ≠ [] := by
      intro h
      rw [(hi.noPushes h).1] at hk
      cases hk
    obtain ⟨hbody, he⟩ := hpushing hrunning
    obtain ⟨p', fs', hwrote, hsent'⟩ := handlePush_sent D hp hpush result hi.request hodd hbody he hsent
    obtain ⟨t, ⟨l, hc, hl⟩, -, ht⟩ := pushDone_wrote hwrote
    refine ⟨hw', ?_, ?_, fun h => absurd h hrunning, p', fs ++ fs', by rw [hc], ?_, hsent'⟩
    · rw [hc]
      exact hi.request
    · rw [hc]
      exact hi.response500
    · rw [hc, written_append, hl]
      show written c.log ++ fs' = _
      rw [hwritten, List.append_assoc]
  | settle g =>
    obtain rfl : g = f := hev
    obtain ⟨o, ho, rfl⟩ := step_settle.mp hstep
    have hanswered := hsent.answered hs
    obtain ⟨p', hp', hv', h500, hlog⟩ := settle_again D hi.toWf hp hi.response500 (by rwa [hi.request]) ho
    have hd := drains_settle hi.toWf ho
    refine ⟨hw', ?_, h500, fun h => ?_, p', fs, hp', by rw [hlog, hwritten], ?_⟩
    · rcases hd.future g with e | ⟨-, -, state, -, e⟩ <;> rw [e] <;> exact hi.request
    · obtain ⟨hrun, hfirst⟩ := hi.noPushes h
      refine ⟨?_, by rw [firstReturned_concat, hfirst]; rfl⟩
      rcases hd.task g with e | ⟨-, e⟩
      · rw [e]
        simpa [setTask] using hrun
      · rw [e]
        simpa [setTask, Task.stop] using hrun
    · rw [firstReturned_concat, hv', show Event.returnedPush (.settle g) = none from rfl, Option.or_none]
      exact hsent
  | _ => exact hev.elim

/-- The handler of the request has returned: its response has been sent as far as `ds`, the frames
`fs` of it have been written, and the handlers of its pushes are started if the peer takes pushes. -/
structure Handled (view : σ → H2State) (c : Connection (Parser σ) Wire) (p : Parser σ) (f s : Nat) (response : Response)
    (c₁ : Connection (Parser σ) Wire) (p₁ : Parser σ) (ds : List Bytes) (fs : List Frame) : Prop extends Wf c₁ where
  selected : c₁.parser = some p₁
  sends : Sends (view p.conn) s s response.body ds
  state : view p₁.conn = responded (setContentLength response) s ds (view p.conn)
  written : Connection.written c₁.log = Connection.written c.log ++ fs
  frames : fs =
    if ds = [] then [] else (view p.conn).outbound ++ responseFrames (setContentLength response) s ds
  task : c₁.task f =
    if response.pushes ≠ [] ∧ (view p.conn).enablePush = true then
      { state := .pushing, pushes := response.pushes, running := List.range response.pushes.length }
    else { state := .ended .returned }
  future : c₁.future = c.future
  transport : c₁.transport = c.transport
  response500 : c₁.response500 = c.response500

theorem handlerDone_handled (D : Documented view) (ha : Awaiting view c p f s) {response : Response}
    (hpush : response.push = false) (h : Step c (.handlerDone f (.returned response)) c₁) :
    ∃ p₁ ds fs, Handled view c p f s response c₁ p₁ ds fs := by
  have hw := step_wf ha.toWf h
  obtain ⟨-, rfl⟩ := step_handlerDone.mp h
  obtain ⟨p₁, ds, hsends, hv, l, hc, hl⟩ := handleRequest_sends D ha.selected hpush (ha.request ▸ ha.ready)
  rw [ha.request] at hsends hv hl
  refine ⟨p₁, ds, _, hw, by rw [hc], hsends, hv, ?_, hl, ?_, by rw [hc]; rfl, by rw [hc]; rfl, by rw [hc]; rfl⟩
  · rw [hc, written_append]
    rfl
  · rw [hc]
    simp only [setTask, Function.update_self, ha.task]

namespace Handled

variable {response : Response} {ds : List Bytes} {fs : List Frame}

omit [H2Connection σ] in
theorem enablePush (h : Handled view c p f s response c₁ p₁ ds fs) :
    (view p₁.conn).enablePush = (view p.conn).enablePush := by
  rw [h.state, responded, H2State.sentBody_enablePush]
  rfl

omit [H2Connection σ] in
/-- The response has ended the stream if it has no pushes and all of its body has been sent. -/
theorem stream (h : Handled view c p f s response c₁ p₁ ds fs) :
    (view p₁.conn).stream s =
      if ds ≠ [] ∧ response.pushes = [] ∧ ds.flatten = response.body then .ended else .body := by
  rw [h.state, Hyper.responded_stream]
  refine if_congr (and_congr_right fun _ => ?_) rfl rfl
  rw [Hyper.endsStream, Bool.and_eq_true, List.isEmpty_iff, decide_eq_true_eq]
  rfl

/-- In whatever order the push handlers come: nothing is sent but the response of the first that
returns. -/
theorem pushes_run (D : Documented view) (ha : Awaiting view c p f s) (h : Handled view c p f s response c₁ p₁ ds fs)
    (hr : Run (PushStep f) c₁ es c') : Pushing view c₁ p₁ f s es c' := by
  have hrequest : (c₁.future f).request.stream = s := by
    rw [h.future, ha.request]
  refine hr.history (I := fun es c => Pushing view c₁ p₁ f s es c)
    ⟨h.toWf, hrequest, by rw [h.response500, ha.response500], fun hn => ⟨hn, rfl⟩, p₁, [], h.selected, by simp, rfl, rfl⟩
    fun es c e c' hi hs => pushing_step D ha.odd ?_ ?_ hi hs
  · rw [h.stream]
    split <;> simp
  · intro hrunning
    rw [h.task] at hrunning
    split at hrunning
    · rename_i hpushing
      rw [h.stream, if_neg fun hn => hpushing.1 hn.2.1, h.enablePush]
      exact ⟨rfl, hpushing.2⟩
    · exact absurd rfl hrunning

end Handled

end Connection

end Levin
