import Levin.Proof.Http2.EndStream

/-!
# One push is delivered, the others are not

The first push that is promised ends the request's stream, on which the others
would have to be promised; and the loop that sends a pushed body asks for the
window of the request's stream. So all pushes are delivered exactly if there are
none, or there is one and the response has left some of the request's window
(`pushes_delivered_iff`).
-/

namespace Levin

open Framework

/-- The promises of the stream `t`. -/
def promises (t : Nat) (frames : List Frame) : List Frame :=
  frames.filter fun
    | .pushPromise _ t' _ => t' = t
    | _ => false

@[simp] theorem promises_append (t : Nat) (fs gs : List Frame) :
    promises t (fs ++ gs) = promises t fs ++ promises t gs :=
  List.filter_append ..

theorem promises_of_not_mem {t : Nat} {frames : List Frame} (h : ∀ frame ∈ frames, t ∉ frame.streams) :
    promises t frames = [] := by
  refine List.filter_eq_nil_iff.mpr fun frame hf => ?_
  have := h frame hf
  cases frame <;> simp_all [Frame.streams, eq_comm]

/-- A response promises nothing. -/
theorem not_mem_responseFrames {s t s' : Nat} {fields : Fields} {response : Response} {ds : List Bytes} :
    .pushPromise s t fields ∉ Hyper.responseFrames response s' ds := by
  intro h
  have := streams_of_mem_responseFrames h
  simp [Frame.streams] at this

theorem promises_responseFrames (t s : Nat) (response : Response) (ds : List Bytes) :
    promises t (Hyper.responseFrames response s ds) = [] := by
  refine List.filter_eq_nil_iff.mpr fun frame hf => ?_
  cases frame with
  | pushPromise s' t' fields => exact absurd hf not_mem_responseFrames
  | _ => simp

namespace Connection

open Hyper (Parser Sends responseFrames responded setContentLength endsStream)

variable {σ : Type} [H2Connection σ] {view : σ → H2State} {c c₁ c' : Connection (Parser σ) Wire} {p p₁ : Parser σ}
  {f k s : Nat} {es : List Event} {response pushed : Response} {ds : List Bytes} {fs : List Frame}

/-- The frames `fs` deliver a push of the request `f`, whose stream is `s`, on the stream `t`: they
promise it once, and have the headers and the whole body of the response to it. -/
structure PushDelivered (c : Connection (Parser σ) Wire) (fs : List Frame) (f s : Nat) (push : Push)
    (pushed : Response) (t : Nat) : Prop where
  promised : promises t fs = [.pushPromise s t
    (Hyper.pushHeaders (c.pushRequest push (c.future f).request) c.transport.info.sockname)]
  sent : ∃ ds, onStream t fs = .headers t (Hyper.responseHeaders (setContentLength pushed)) false ::
    dataFrames t pushed.pushes.isEmpty ds ∧ ds ≠ [] ∧ ds.flatten = pushed.body

/-- From `c` to `c'` each of the pushes has been delivered, on a stream of its own. -/
def PushesDelivered (c c' : Connection (Parser σ) Wire) (f s : Nat) (pushes : List Push) (es : List Event) : Prop :=
  ∃ (fs : List Frame) (stream : Nat → Nat), written c'.log = written c.log ++ fs ∧
    (∀ j < pushes.length, ∀ k < pushes.length, stream j = stream k → j = k) ∧
    ∀ k push pushed, pushes[k]? = some push → .pushDone f k (.returned pushed) ∈ es →
      PushDelivered c fs f s push pushed (stream k)

/-- A push handler of the request `f` returns. -/
def ReturnStep (f : Nat) (c : Connection (Parser σ) Wire) (e : Event) (c' : Connection (Parser σ) Wire) : Prop :=
  (∃ k pushed, e = .pushDone f k (.returned pushed)) ∧ Step c e c'

theorem ReturnStep.pushStep ⦃c : Connection (Parser σ) Wire⦄ ⦃e : Event⦄ ⦃c' : Connection (Parser σ) Wire⦄
    (h : ReturnStep f c e c') : PushStep f c e c' := by
  obtain ⟨⟨k, pushed, rfl⟩, hs⟩ := h
  exact ⟨rfl, hs⟩

/-- A push handler that has not returned runs on. -/
theorem returned_or_running (hr : Run (ReturnStep f) c₁ es c') (hk : k ∈ (c₁.task f).running) :
    k ∈ (c'.task f).running ∨ ∃ pushed, .pushDone f k (.returned pushed) ∈ es := by
  refine hr.history (I := fun es c' => k ∈ (c'.task f).running ∨ ∃ pushed, .pushDone f k (.returned pushed) ∈ es)
    (.inl hk) ?_
  rintro es c e c' hi ⟨⟨j, pushed, rfl⟩, hs⟩
  obtain ⟨-, rfl⟩ := step_pushDone.mp hs
  obtain ⟨p, t, l, -, hc, -, -, ht, -⟩ := pushDone_eq f j (.returned pushed) c
  rcases hi with hi | ⟨pushed', hi⟩
  · by_cases hj : k = j
    · subst hj
      exact .inr ⟨pushed, by simp⟩
    · left
      rw [hc]
      simp only [Function.update_self, ht]
      exact (List.mem_erase_of_ne hj).mpr hi
  · exact .inr ⟨pushed', by simp [hi]⟩

/-! ## One push, or more -/

omit [H2Connection σ] in
/-- The response to the request promises nothing on its stream. -/
theorem Handled.not_promised (ha : Awaiting view c p f s) (h : Handled view c p f s response c₁ p₁ ds fs) {t : Nat}
    {fields : Fields} : .pushPromise s t fields ∉ fs ∧ .pushPromise s t fields ∉ (view p₁.conn).outbound := by
  have hnot : .pushPromise s t fields ∉
      (view p.conn).outbound ++ responseFrames (setContentLength response) s ds := by
    intro hmem
    rcases List.mem_append.mp hmem with hmem | hmem
    · exact ha.queued _ hmem (by simp [Frame.streams])
    · exact not_mem_responseFrames hmem
  rw [h.frames, h.state, Hyper.responded_outbound]
  by_cases hds : ds = [] <;> simp only [hds, if_true, if_false]
  · exact ⟨List.not_mem_nil, hds ▸ hnot⟩
  · exact ⟨hnot, List.not_mem_nil⟩

omit [H2Connection σ] in
/-- The response leaves some of its stream's window exactly if it is smaller. -/
theorem Handled.window_left_iff (h : Handled view c p f s response c₁ p₁ ds fs) :
    1 ≤ (view p₁.conn).windowOf s ↔ (response.body.length : Int) < (view p.conn).windowOf s := by
  have hw : (view p₁.conn).windowOf s = (view p.conn).windowOf s - ds.flatten.length := by
    rw [h.state, responded, H2State.sentBody_windowOf, H2State.sendHeaders_windowOf]
  rw [hw]
  constructor
  · intro hleft
    rcases h.sends.rest rfl with hall | hrest
    · rw [hall] at hleft
      omega
    · omega
  · intro hlt
    rw [h.sends.whole (by omega) (by omega)]
    omega

/-- A promise on the request's stream is that of the push sent. -/
theorem PushSent.promised_eq {v v' : H2State} {t t' : Nat} {fields fields' : Fields}
    (h : PushSent v v' s t fields pushed ds fs) (hq : .pushPromise s t' fields' ∉ v.outbound)
    (hmem : .pushPromise s t' fields' ∈ fs) : t' = t := by
  rw [h.frames] at hmem
  split at hmem
  · cases hmem
  · rw [H2State.promised_outbound, List.mem_append, List.mem_append] at hmem
    rcases hmem with (hmem | hmem) | hmem
    · exact absurd hmem hq
    · simp only [List.mem_cons, Frame.pushPromise.injEq, reduceCtorEq, List.not_mem_nil, or_false] at hmem
      exact hmem.2.1
    · exact absurd hmem not_mem_responseFrames

omit [H2Connection σ] in
theorem PushDelivered.mem {push : Push} {t : Nat} (h : PushDelivered c fs f s push pushed t) :
    .pushPromise s t (Hyper.pushHeaders (c.pushRequest push (c.future f).request) c.transport.info.sockname) ∈ fs := by
  have hmem : _ ∈ promises t fs := h.promised ▸ List.mem_singleton_self _
  exact (List.mem_filter.mp hmem).1

/-- Once all push handlers have returned, each push that is delivered is promised after the response. -/
theorem Handled.promise_mem (ha : Awaiting view c p f s) (h : Handled view c p f s response c₁ p₁ ds fs)
    (he : (view p.conn).enablePush = true) (hr : Run (ReturnStep f) c₁ es c') (hdone : (c'.task f).running = [])
    {fs' : List Frame} {stream : Nat → Nat}
    (hall : ∀ k push pushed, response.pushes[k]? = some push → .pushDone f k (.returned pushed) ∈ es →
      PushDelivered c (fs ++ fs') f s push pushed (stream k)) (hk : k < response.pushes.length) :
    ∃ fields, .pushPromise s (stream k) fields ∈ fs' := by
  have hne : response.pushes ≠ [] := by
    rintro hn
    simp [hn] at hk
  have hmem : k ∈ (c₁.task f).running := by
    rw [h.task, if_pos ⟨hne, he⟩]
    exact List.mem_range.mpr hk
  obtain ⟨pushed, hpushed⟩ : ∃ pushed, .pushDone f k (.returned pushed) ∈ es := by
    refine (returned_or_running hr hmem).resolve_left fun hrunning => ?_
    rw [hdone] at hrunning
    cases hrunning
  have hpromise := (hall k _ pushed (List.getElem?_eq_getElem hk) hpushed).mem
  exact ⟨_, (List.mem_append.mp hpromise).resolve_left (h.not_promised ha).1⟩

/-- Of several pushes not all are delivered: only one is promised. -/
theorem Handled.several_not_delivered (D : Documented view) (ha : Awaiting view c p f s)
    (h : Handled view c p f s response c₁ p₁ ds fs) (he : (view p.conn).enablePush = true)
    (hr : Run (ReturnStep f) c₁ es c') (hdone : (c'.task f).running = []) (hn : 1 < response.pushes.length) :
    ¬ PushesDelivered c c' f s response.pushes es := by
  rintro ⟨total, stream, htotal, hinj, hall⟩
  obtain ⟨p', fs', -, hwritten, hsent⟩ := (h.pushes_run D ha (hr.mono ReturnStep.pushStep)).sent
  obtain rfl : total = fs ++ fs' := by
    rw [hwritten, h.written, List.append_assoc] at htotal
    exact (List.append_cancel_left htotal).symm
  have hpromise : ∀ k < response.pushes.length, ∃ fields, .pushPromise s (stream k) fields ∈ fs' := fun k hk =>
    h.promise_mem ha he hr hdone hall hk
  obtain ⟨t, ht⟩ : ∃ t, ∀ k < response.pushes.length, stream k = t := by
    cases hfirst : firstReturned es with
    | none =>
      rw [hfirst] at hsent
      obtain ⟨fields, hmem⟩ := hpromise 0 (by omega)
      rw [hsent.2] at hmem
      cases hmem
    | some first =>
      rw [hfirst] at hsent
      obtain ⟨t, fields, ds', hs⟩ := hsent
      refine ⟨t, fun k hk => ?_⟩
      obtain ⟨fields', hmem⟩ := hpromise k hk
      exact hs.promised_eq (h.not_promised ha).2 hmem
  have := hinj 0 (by omega) 1 hn ((ht 0 (by omega)).trans (ht 1 hn).symm)
  omega

/-- The only push of a response is promised with its own request, on whatever is left of the window
of the request's stream. -/
theorem Handled.single_sent (D : Documented view) (ha : Awaiting view c p f s)
    (h : Handled view c p f s response c₁ p₁ ds fs) (he : (view p.conn).enablePush = true) {push : Push}
    (hpushes : response.pushes = [push]) (hr : Run (ReturnStep f) c₁ es c') (hdone : (c'.task f).running = []) :
    ∃ (pushed : Response) (p' : Parser σ) (t : Nat) (ds' : List Bytes) (fs' : List Frame),
      es = [.pushDone f 0 (.returned pushed)] ∧
        Connection.written c'.log = Connection.written c.log ++ (fs ++ fs') ∧
        PushSent (view p₁.conn) (view p'.conn) s t
          (Hyper.pushHeaders (c.pushRequest push (c.future f).request) c.transport.info.sockname) pushed ds' fs' := by
  have htask : c₁.task f = { state := .pushing, pushes := [push], running := [0] } := by
    rw [h.task, if_pos ⟨by simp [hpushes], he⟩, hpushes]
    rfl
  cases es with
  | nil =>
    obtain rfl := Run.nil_iff.mp hr
    rw [htask] at hdone
    cases hdone
  | cons e es =>
    obtain ⟨c₂, ⟨⟨k, pushed, rfl⟩, hstep⟩, hr₂⟩ := Run.cons_iff.mp hr
    obtain ⟨hk, rfl⟩ := step_pushDone.mp hstep
    obtain rfl : k = 0 := by simpa [htask] using hk
    have hpush : (c₁.task f).pushes[0]? = some push := by rw [htask]; rfl
    have hrequest : (c₁.future f).request = (c.future f).request := by rw [h.future]
    have hstream : (c₁.future f).request.stream = s := by rw [hrequest, ha.request]
    obtain ⟨p', t, ds', fs', hsent, hwrote⟩ := handlePush_first D h.selected hpush pushed (by rw [h.enablePush, he])
      (by rw [hstream, ha.odd]) (by rw [hstream, h.stream, if_neg (by simp [hpushes])])
    obtain ⟨task, ⟨l, hc, hl⟩, -, hrunning⟩ := pushDone_wrote hwrote
    rw [htask] at hrunning
    rw [hstream, hrequest] at hsent
    -- No other handler is left to return.
    obtain rfl : es = [] := by
      cases es with
      | nil => rfl
      | cons e es =>
        obtain ⟨c₃, ⟨⟨k, pushed', rfl⟩, hstep'⟩, -⟩ := Run.cons_iff.mp hr₂
        have hk' := (step_pushDone.mp hstep').1
        rw [hc] at hk'
        simp [setTask, hrunning] at hk'
    obtain rfl := Run.nil_iff.mp hr₂
    refine ⟨pushed, p', t, ds', fs', rfl, ?_, ?_⟩
    · rw [hc, written_append, hl]
      show Connection.written c₁.log ++ fs' = _
      rw [h.written, List.append_assoc]
    · have hsame : c₁.pushRequest push (c.future f).request = c.pushRequest push (c.future f).request := by
        simp only [pushRequest, scheme, h.transport]
      rwa [hsame, h.transport] at hsent

omit [H2Connection σ] in
/-- A push is delivered by the frames of the response and its own. -/
theorem Handled.single_delivered (ha : Awaiting view c p f s) (h : Handled view c p f s response c₁ p₁ ds fs)
    (hds : ds ≠ []) {push : Push} {v' : H2State} {t : Nat} {ds' : List Bytes} {fs' : List Frame}
    (hs : PushSent (view p₁.conn) v' s t
      (Hyper.pushHeaders (c.pushRequest push (c.future f).request) c.transport.info.sockname) pushed ds' fs')
    (hds' : ds' ≠ []) (hall : ds'.flatten = pushed.body) : PushDelivered c (fs ++ fs') f s push pushed t := by
  obtain ⟨hne, hidle⟩ := h.push_stream hs
  have hqueued := ha.unopened t hidle
  have hother : ∀ frame ∈ responseFrames (setContentLength response) s ds, t ∉ frame.streams := by
    intro frame hf
    rw [streams_of_mem_responseFrames hf]
    simpa using Ne.symm hne
  have houtbound : (view p₁.conn).outbound = [] := by
    rw [h.state, Hyper.responded_outbound, if_neg hds]
  have hlast : endsStream (setContentLength pushed) ds' = pushed.pushes.isEmpty := by
    simp [endsStream, setContentLength, hall]
  rw [h.frames, if_neg hds, hs.frames, if_neg hds', H2State.promised_outbound, houtbound]
  constructor
  · simp only [promises_append, promises_of_not_mem hqueued, promises_responseFrames, List.nil_append, List.append_nil]
    simp [promises]
  · refine ⟨ds', ?_, hds', hall⟩
    simp only [onStream_append, onStream_of_not_mem hqueued, onStream_of_not_mem hother, onStream_responseFrames,
      List.nil_append]
    simp [onStream, hne, responseFrames, hlast]

/-- All pushes of a response to a peer that takes them are delivered, if the windows they are sent on
have room for them, exactly if there are none, or there is one and the response leaves some of the
window of the request's stream. -/
theorem pushes_delivered_iff (D : Documented view) (ha : Awaiting view c p f s) (hpush : response.push = false)
    (he : (view p.conn).enablePush = true) (h : Step c (.handlerDone f (.returned response)) c₁)
    (hr : Run (ReturnStep f) c₁ es c') (hdone : (c'.task f).running = [])
    (hfit : ∀ k pushed, .pushDone f k (.returned pushed) ∈ es →
      (response.body.length + pushed.body.length : Int) ≤ (view p.conn).window ∧
        (pushed.body.length : Int) ≤ (view p.conn).initialWindow) :
    PushesDelivered c c' f s response.pushes es ↔
      response.pushes = [] ∨
        response.pushes.length = 1 ∧ (response.body.length : Int) < (view p.conn).windowOf s := by
  obtain ⟨p₁, ds, fs, hh⟩ := handlerDone_handled D ha hpush h
  match hn : response.pushes with
  | [] =>
    obtain ⟨p', fs', -, hwritten, -⟩ := (hh.pushes_run D ha (hr.mono ReturnStep.pushStep)).sent
    refine iff_of_true ⟨fs ++ fs', id, by rw [hwritten, hh.written, List.append_assoc], fun j hj => ?_, fun k push pushed hk => ?_⟩
      (.inl rfl)
    · cases hj
    · cases hk
  | [push] =>
    obtain ⟨pushed, p', t, ds', fs', rfl, hwritten, hs⟩ := hh.single_sent D ha he hn hr hdone
    obtain ⟨hne, -⟩ := hh.push_stream hs
    obtain ⟨hwindow, hinitial⟩ := hfit 0 pushed (by simp)
    have hws := H2State.promised_windowOf_self (view p₁.conn)
      (Hyper.pushHeaders (c.pushRequest push (c.future f).request) c.transport.info.sockname) hne
    rw [or_iff_right (by simp), List.length_singleton, and_iff_right rfl, ← hh.window_left_iff]
    constructor
    · rintro ⟨total, stream, htotal, -, hall⟩
      obtain rfl : total = fs ++ fs' := List.append_cancel_left (htotal.symm.trans hwritten)
      have hmem := (List.mem_append.mp (hall 0 push pushed rfl (by simp)).mem).resolve_left (hh.not_promised ha).1
      have hds' : ds' ≠ [] := by
        rintro rfl
        rw [hs.frames] at hmem
        cases hmem
      exact hws ▸ (hs.sends.starts.mp hds').1
    · intro hleft
      have hlt := hh.window_left_iff.mp hleft
      have hall := hh.sends.whole (by omega) (Int.le_of_lt hlt)
      have hds : ds ≠ [] := (hh.sends.starts_iff (Int.le_of_lt hlt)).mpr (by omega)
      have hwt := hh.promised_windowOf hall
        (Hyper.pushHeaders (c.pushRequest push (c.future f).request) c.transport.info.sockname) hne
      rw [← hws] at hleft
      have hroom : (pushed.body.length : Int) ≤ ((view p₁.conn).promised s t
          (Hyper.pushHeaders (c.pushRequest push (c.future f).request) c.transport.info.sockname)).windowOf t := by
        rw [hwt]
        omega
      have hds' : ds' ≠ [] := (hs.sends.starts_iff hroom).mpr hleft
      have hdelivered := hh.single_delivered ha hds hs hds' (hs.sends.whole hleft hroom)
      refine ⟨fs ++ fs', fun _ => t, hwritten, fun j hj k hk _ => ?_, fun k push' pushed' hk hmem => ?_⟩
      · simp only [List.length_singleton] at hj hk
        omega
      · simp only [List.mem_singleton, Event.pushDone.injEq, HandlerResult.returned.injEq, true_and] at hmem
        obtain ⟨rfl, rfl⟩ := hmem
        obtain rfl : push = push' := by simpa using hk
        exact hdelivered
  | push :: push' :: pushes =>
    have hlen : 1 < response.pushes.length := by simp [hn]
    have hnot := hh.several_not_delivered D ha he hr hdone hlen
    rw [hn] at hnot
    refine iff_of_false hnot ?_
    simp

theorem page_returned : ReturnStep 0 (pageSent true) (.pushDone 0 0 (.returned styleSheet))
    ((pageSent true).pushDone 0 0 (.returned styleSheet)) :=
  ⟨⟨0, styleSheet, rfl⟩, step_pushDone.mpr ⟨by decide, rfl⟩⟩

/-- A single push on a response of five bytes, with a window of twenty, is delivered. -/
theorem single_push_delivered : PushesDelivered (handling 20 true)
    ((pageSent true).pushDone 0 0 (.returned styleSheet)) 0 1 page.pushes [.pushDone 0 0 (.returned styleSheet)] := by
  refine (pushes_delivered_iff Reference.documented (awaiting_handling 20 true) rfl rfl
    (step_handlerDone.mpr ⟨rfl, rfl⟩) (.single page_returned) (by decide) ?_).mpr (.inr ⟨rfl, by decide⟩)
  simp only [List.mem_singleton, Event.pushDone.injEq, HandlerResult.returned.injEq, true_and]
  rintro k pushed ⟨rfl, rfl⟩
  decide

/-- The page with one more push. -/
def richPage : Response := { page with pushes := page.pushes ++ [{ path := Bytes.ascii "/script.js" }] }

def richPageSent : Connection (Parser Reference) Wire := (handling 20 true).handleRequest 0 (.returned richPage)

/-- Both push handlers have returned. -/
def bothReturned : Connection (Parser Reference) Wire :=
  (richPageSent.pushDone 0 0 (.returned styleSheet)).pushDone 0 1 (.returned styleSheet)

/-- The second of two pushes is never promised, although there is room for both. -/
theorem second_push_lost : ¬ ∀ es (c' : Connection (Parser Reference) Wire), Run (ReturnStep 0) richPageSent es c' →
    (c'.task 0).running = [] →
      (∀ k pushed, .pushDone 0 k (.returned pushed) ∈ es → pushed.body.length ≤ 3) →
        PushesDelivered (handling 20 true) c' 0 1 richPage.pushes es := by
  intro h
  have hrun : Run (ReturnStep 0) richPageSent
      [.pushDone 0 0 (.returned styleSheet), .pushDone 0 1 (.returned styleSheet)] bothReturned :=
    .cons ⟨⟨0, styleSheet, rfl⟩, step_pushDone.mpr ⟨by decide, rfl⟩⟩ <|
      .single ⟨⟨1, styleSheet, rfl⟩, step_pushDone.mpr ⟨by decide, rfl⟩⟩
  have hfit : ∀ k pushed, .pushDone 0 k (.returned pushed) ∈
      [Event.pushDone 0 0 (.returned styleSheet), .pushDone 0 1 (.returned styleSheet)] → pushed.body.length ≤ 3 := by
    intro k pushed hmem
    rcases List.mem_pair.mp hmem with h | h <;> cases h <;> decide
  obtain ⟨fs, stream, hwritten, -, hall⟩ := h _ _ hrun (by decide) hfit
  have hmem := (hall 1 { path := Bytes.ascii "/script.js" } styleSheet rfl (by simp)).mem
  rw [show written (handling 20 true).log = [] from rfl, List.nil_append] at hwritten
  have hnone : ∀ frame ∈ written bothReturned.log, ∀ field ∈ (match frame with
      | .pushPromise _ _ fields => fields
      | _ => []), field ≠ (Bytes.ascii ":path", Bytes.ascii "/script.js") := by
    decide
  rw [hwritten] at hnone
  exact hnone _ hmem _ (List.mem_cons_of_mem _ List.mem_cons_self) rfl

end Connection

end Levin
