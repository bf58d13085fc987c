import Levin.Proof.Http2.Pushes
import Levin.Proof.Http2.Reference

/-!
# The end of the request's stream

Three places end the stream of a request: the send loop, if the response has no
pushes; the first push that is promised; and neither, if the peer takes no push.
So it is ended once exactly if the response has no pushes, or a push handler
returns for a peer that takes them (`ended_once_iff`), and the frame that ends it
is written as soon as h2 lets the loop send something after it.
-/

namespace Levin

open Framework

/-- How many of the frames end the stream `s`. -/
def ends (s : Nat) (frames : List Frame) : Nat :=
  frames.countP fun
    | .headers t _ endStream | .data t _ endStream => t = s && endStream
    | _ => false

@[simp] theorem ends_nil (s : Nat) : ends s [] = 0 := rfl

@[simp] theorem ends_append (s : Nat) (fs gs : List Frame) : ends s (fs ++ gs) = ends s fs + ends s gs :=
  List.countP_append

theorem ends_of_not_mem {s : Nat} {frames : List Frame} (h : ∀ frame ∈ frames, s ∉ frame.streams) : ends s frames = 0 := by
  refine List.countP_eq_zero.mpr fun frame hf => ?_
  have := h frame hf
  cases frame <;> simp_all [Frame.streams, eq_comm]

theorem ends_dataFrames (s : Nat) (last : Bool) (ds : List Bytes) :
    ends s (dataFrames s last ds) = if ds ≠ [] ∧ last = true then 1 else 0 := by
  induction ds with
  | nil => rfl
  | cons d ds ih =>
    rw [dataFrames, ← List.singleton_append, ends_append, ih]
    by_cases hds : ds = [] <;> cases last <;> simp [ends, hds]

theorem ends_responseFrames (response : Response) (s : Nat) (ds : List Bytes) :
    ends s (Hyper.responseFrames response s ds) = if ds ≠ [] ∧ Hyper.endsStream response ds = true then 1 else 0 := by
  rw [Hyper.responseFrames, ← List.singleton_append, ends_append, ends_dataFrames]
  simp [ends]

theorem ends_responseFrames_of_ne (response : Response) {s t : Nat} (ds : List Bytes) (h : s ≠ t) :
    ends s (Hyper.responseFrames response t ds) = 0 := by
  refine ends_of_not_mem fun frame hf => ?_
  rw [streams_of_mem_responseFrames hf]
  simpa using h

namespace Connection

open Hyper (Parser Sends responseFrames responded setContentLength endsStream)

variable {σ : Type} [H2Connection σ] {view : σ → H2State} {c c₁ c' : Connection (Parser σ) Wire} {p p₁ : Parser σ}
  {f s : Nat} {es : List Event} {response : Response} {ds : List Bytes} {fs : List Frame}

/-- The frames h2 has queued. -/
def queue (view : σ → H2State) (c : Connection (Parser σ) Wire) : List Frame :=
  (c.parser.map fun p => (view p.conn).outbound).getD []

/-- From `c` to `c'` the stream has been ended once, as far as h2 is concerned. -/
def EndedOnce (view : σ → H2State) (c c' : Connection (Parser σ) Wire) (s : Nat) : Prop :=
  ends s (written c'.log ++ queue view c') = ends s (written c.log ++ queue view c) + 1

/-- One frame that ends the stream has been written from `c` to `c'`. -/
def EndWritten (c c' : Connection (Parser σ) Wire) (s : Nat) : Prop :=
  ends s (written c'.log) = ends s (written c.log) + 1

/-- h2 lets the loop send the first frame of a pushed body of `n` bytes, where the window of the
request's stream is `w`. -/
def FirstFits (v : H2State) (w : Int) (n : Nat) : Prop :=
  1 ≤ w ∧ ((min (min w.toNat n) v.maxFrameSize : Nat) : Int) ≤ v.initialWindow

instance (v : H2State) (w : Int) (n : Nat) : Decidable (FirstFits v w n) := inferInstanceAs (Decidable (_ ∧ _))

omit [H2Connection σ] in
/-- Whether the response itself ends its stream. -/
theorem Handled.ends_frames (ha : Awaiting view c p f s) (h : Handled view c p f s response c₁ p₁ ds fs) :
    ends s fs = (if ds ≠ [] ∧ endsStream response ds = true then 1 else 0) ∧ ends s (view p₁.conn).outbound = 0 := by
  have hq := ends_of_not_mem ha.queued
  have hresponse : ends s (responseFrames (setContentLength response) s ds) =
      if ds ≠ [] ∧ endsStream response ds = true then 1 else 0 := ends_responseFrames _ _ _
  rw [h.frames, h.state, Hyper.responded_outbound]
  by_cases hds : ds = []
  · simp only [if_pos hds, ends_nil, ends_append, hq, hresponse]
    simp [hds]
  · simp [hds, hq, hresponse]

/-- A push ends the request's stream; the frame that does is written if something is sent after it. -/
theorem PushSent.ends_frames {v v' : H2State} {t : Nat} {fields : Fields}
    (h : PushSent v v' s t fields response ds fs) (hs : v.stream s ≠ .idle) (hq : ends s v.outbound = 0) :
    ends s fs = (if ds = [] then 0 else 1) ∧ ends s (fs ++ v'.outbound) = 1 := by
  have hne : s ≠ t := by
    rintro rfl
    exact hs h.idle
  have hresponse : ends s (responseFrames (setContentLength response) t ds) = 0 :=
    ends_responseFrames_of_ne _ _ hne
  have hall : ends s ((v.promised s t fields).outbound ++ responseFrames (setContentLength response) t ds) = 1 := by
    rw [H2State.promised_outbound, ends_append, ends_append, hq, hresponse]
    simp [ends]
  rw [h.frames, h.state, Hyper.responded_outbound]
  by_cases hds : ds = []
  · simp only [if_pos hds, List.nil_append, hall]
    exact ⟨rfl, trivial⟩
  · simp only [if_neg hds, List.append_nil, hall]
    exact ⟨trivial, trivial⟩

omit [H2Connection σ] in
/-- All of the body is sent if the window has room for it, or it is empty. -/
theorem Handled.flatten_eq (h : Handled view c p f s response c₁ p₁ ds fs)
    (hfit : (response.body.length : Int) ≤ (view p.conn).windowOf s) : ds.flatten = response.body := by
  by_cases hone : 1 ≤ (view p.conn).windowOf s
  · exact h.sends.whole hone hfit
  · have hbody : response.body = [] := List.eq_nil_of_length_eq_zero (by omega)
    have hprefix := h.sends.isPrefix
    rw [hbody] at hprefix ⊢
    exact List.prefix_nil.mp hprefix

omit [H2Connection σ] in
/-- The stream a push has been sent on is not the request's, and was not open before the response. -/
theorem Handled.push_stream (h : Handled view c p f s response c₁ p₁ ds fs) {v' : H2State} {t : Nat} {fields : Fields}
    {pushed : Response} {ds' : List Bytes} {fs' : List Frame}
    (hs : PushSent (view p₁.conn) v' s t fields pushed ds' fs') : s ≠ t ∧ (view p.conn).stream t = .idle := by
  have hne : s ≠ t := by
    rintro rfl
    have := hs.idle
    rw [h.stream] at this
    split at this <;> cases this
  have hidle := hs.idle
  rw [h.state, Hyper.responded_stream_of_ne _ _ _ (Ne.symm hne)] at hidle
  exact ⟨hne, hidle⟩

omit [H2Connection σ] in
/-- The window of the first promised stream, once all of the response has been sent. -/
theorem Handled.promised_windowOf (h : Handled view c p f s response c₁ p₁ ds fs) (hall : ds.flatten = response.body)
    {t : Nat} (fields : Fields) (hne : s ≠ t) :
    ((view p₁.conn).promised s t fields).windowOf t =
      min ((view p.conn).window - response.body.length) (view p.conn).initialWindow := by
  rw [H2State.promised_windowOf_of_ne _ _ hne, h.state, responded, H2State.sentBody_window,
    H2State.sentBody_initialWindow, hall]
  rfl

omit [H2Connection σ] in
/-- Whether anything of the body of a push is sent, the first of the request. -/
theorem Handled.push_starts_iff (h : Handled view c p f s response c₁ p₁ ds fs)
    (hfit : (response.body.length : Int) ≤ (view p.conn).windowOf s) {v' : H2State} {t : Nat} {fields : Fields}
    {pushed : Response} {ds' : List Bytes} {fs' : List Frame}
    (hs : PushSent (view p₁.conn) v' s t fields pushed ds' fs') :
    ds' ≠ [] ↔ FirstFits (view p.conn) ((view p.conn).windowOf s - response.body.length) pushed.body.length := by
  obtain ⟨hne, -⟩ := h.push_stream hs
  have hall := h.flatten_eq hfit
  have hws : ((view p₁.conn).promised s t fields).windowOf s = (view p.conn).windowOf s - response.body.length := by
    rw [H2State.promised_windowOf_self _ _ hne, h.state, responded, H2State.sentBody_windowOf, hall,
      H2State.sendHeaders_windowOf]
  have hmax : ((view p₁.conn).promised s t fields).maxFrameSize = (view p.conn).maxFrameSize := by
    show (view p₁.conn).maxFrameSize = _
    rw [h.state, responded, H2State.sentBody_maxFrameSize]
    rfl
  have hle : (view p.conn).windowOf s ≤ (view p.conn).window := by
    simp only [H2State.windowOf]
    omega
  rw [hs.sends.starts, Hyper.firstChunk, hws, h.promised_windowOf hall _ hne, hmax, FirstFits]
  omega

/-- The request's stream is ended once exactly if the response has no pushes, and the window room for
a byte, or a push handler returns for a peer that takes pushes. The end is written exactly if,
besides, something is sent of the body of the first push. -/
theorem ended_once_iff (D : Documented view) (ha : Awaiting view c p f s) (hpush : response.push = false)
    (hfit : (response.body.length : Int) ≤ (view p.conn).windowOf s)
    (h : Step c (.handlerDone f (.returned response)) c₁) (hr : Run (PushStep f) c₁ es c') :
    (EndedOnce view c c' s ↔
      response.pushes = [] ∧ 1 ≤ (view p.conn).windowOf s ∨
        response.pushes ≠ [] ∧ (view p.conn).enablePush = true ∧ firstReturned es ≠ none) ∧
    (EndWritten c c' s ↔
      response.pushes = [] ∧ 1 ≤ (view p.conn).windowOf s ∨
        response.pushes ≠ [] ∧ (view p.conn).enablePush = true ∧ ∃ k pushed, firstReturned es = some (k, pushed) ∧
          FirstFits (view p.conn) ((view p.conn).windowOf s - response.body.length) pushed.body.length) := by
  obtain ⟨p₁, ds, fs, hh⟩ := handlerDone_handled D ha hpush h
  have hi := hh.pushes_run D ha hr
  obtain ⟨p', fs', hp', hwritten, hsent⟩ := hi.sent
  obtain ⟨hends, hqueue₁⟩ := hh.ends_frames ha
  -- What the response itself does.
  have hstarts : ds ≠ [] ↔ 1 ≤ (view p.conn).windowOf s := hh.sends.starts_iff hfit
  have hlast : endsStream response ds = true ↔ response.pushes = [] := by
    simp [endsStream, hh.flatten_eq hfit]
  have hown : ends s fs = if response.pushes = [] ∧ 1 ≤ (view p.conn).windowOf s then 1 else 0 :=
    hends.trans (if_congr (by rw [hstarts, hlast, and_comm]) rfl rfl)
  -- Push handlers run only if there are pushes and the peer takes them.
  have hpushing : firstReturned es ≠ none → response.pushes ≠ [] ∧ (view p.conn).enablePush = true := by
    intro hfirst
    by_contra hn
    refine hfirst (hi.noPushes ?_).2
    rw [hh.task, if_neg hn]
  have hcount : ends s (written c'.log) = ends s (written c.log) + ends s fs + ends s fs' := by
    rw [hwritten, hh.written, ends_append, ends_append]
  have hqueue : ends s (queue view c) = 0 := by
    rw [queue, ha.selected]
    exact ends_of_not_mem ha.queued
  have hqueue' : queue view c' = (view p'.conn).outbound := by
    rw [queue, hp']
    rfl
  simp only [EndedOnce, EndWritten, ends_append, hqueue, hqueue', hcount]
  cases hfirst : firstReturned es with
  | none =>
    rw [hfirst] at hsent
    obtain ⟨hv', rfl⟩ := hsent
    rw [hv', hqueue₁, hown]
    by_cases hcond : response.pushes = [] ∧ 1 ≤ (view p.conn).windowOf s <;> simp [hcond]
  | some first =>
    obtain ⟨k, pushed⟩ := first
    obtain ⟨hne, he⟩ := hpushing (by simp [hfirst])
    rw [hfirst] at hsent
    obtain ⟨t, fields, ds', hpushSent⟩ := hsent
    have hidle : (view p₁.conn).stream s ≠ .idle := by
      rw [hh.stream]
      split <;> simp
    obtain ⟨hwrote, hall⟩ := hpushSent.ends_frames hidle hqueue₁
    rw [ends_append] at hall
    rw [hown, if_neg fun hn => hne hn.1]
    constructor
    · refine iff_of_true (by omega) (.inr ⟨hne, he, by simp⟩)
    · have hfits := hh.push_starts_iff hfit hpushSent
      rw [hwrote]
      constructor
      · intro hone
        refine .inr ⟨hne, he, k, pushed, rfl, hfits.mp fun hds => ?_⟩
        rw [if_pos hds] at hone
        omega
      · rintro (hn | ⟨-, -, k', pushed', hsome, hfirstFits⟩)
        · exact absurd hn.1 hne
        · obtain ⟨rfl, rfl⟩ := Prod.mk.inj (Option.some.inj hsome)
          rw [if_neg (hfits.mpr hfirstFits)]

/-- A response with one push. -/
def page : Response where
  status := 200
  body := Bytes.ascii "hello"
  pushes := [{ path := Bytes.ascii "/style.css" }]

/-- The response to the push. -/
def styleSheet : Response where
  status := 200
  body := Bytes.ascii "b{}"

/-- The handler of the request has returned, on a window of 20 bytes. -/
def pageSent (enablePush : Bool) : Connection (Parser Reference) Wire :=
  (handling 20 enablePush).handleRequest 0 (.returned page)

/-- The push ends the stream. -/
theorem pushed_ended :
    EndedOnce Reference.state (handling 20 true) ((pageSent true).pushDone 0 0 (.returned styleSheet)) 1 ∧
      EndWritten (handling 20 true) ((pageSent true).pushDone 0 0 (.returned styleSheet)) 1 := by
  have hstep : PushStep 0 (pageSent true) (.pushDone 0 0 (.returned styleSheet))
      ((pageSent true).pushDone 0 0 (.returned styleSheet)) := ⟨rfl, step_pushDone.mpr ⟨by decide, rfl⟩⟩
  obtain ⟨hended, hwritten⟩ := ended_once_iff Reference.documented (awaiting_handling 20 true) rfl
    (show (page.body.length : Int) ≤ _ by decide) (step_handlerDone.mpr ⟨rfl, rfl⟩) (.single hstep)
  exact ⟨hended.mpr (.inr ⟨by decide, rfl, by decide⟩),
    hwritten.mpr (.inr ⟨by decide, rfl, 0, styleSheet, rfl, by decide⟩)⟩

/-- To a peer that takes no push nothing ends the stream of a response that has one. -/
theorem unpushed_not_ended : ¬ ∀ es (c' : Connection (Parser Reference) Wire),
    Run (PushStep 0) (pageSent false) es c' → (c'.task 0).running = [] →
      EndedOnce Reference.state (handling 20 false) c' 1 := by
  intro h
  have hended : ends 1 (written (pageSent false).log ++ queue Reference.state (pageSent false)) = 0 := by
    decide
  have hone := h [] _ .nil rfl
  rw [EndedOnce, hended] at hone
  omega

end Connection

end Levin
