import Levin.Proof.Http2.Reference

/-!
# A response is delivered whole, or cut off

`handle_response` sends a response as far as the flow-control window allows, and
drops the rest of the body: a WINDOW_UPDATE that comes later only makes room.
Whatever updates come, the response is delivered exactly if the window has room
for all of it, and for one byte at least, when the handler returns
(`delivered_iff`).
-/

namespace Levin.Connection

open Framework
open Hyper (Parser Sends responseFrames responded setContentLength endsStream)

variable {σ : Type} [H2Connection σ] {view : σ → H2State} {c c₁ c' : Connection (Parser σ) Wire} {p : Parser σ}
  {f s : Nat} {response : Response} {es : List Event}

/-- From `c` to `c'` the whole response has been written to the stream `s`: its headers, and DATA
frames that make up its body, the last of which ends the stream. -/
def Delivered (c c' : Connection (Parser σ) Wire) (s : Nat) (response : Response) : Prop :=
  ∃ fs ds, written c'.log = written c.log ++ fs ∧
    onStream s fs =
      .headers s (Hyper.responseHeaders (setContentLength response)) false :: dataFrames s true ds ∧
    ds ≠ [] ∧ ds.flatten = response.body

/-- The event is a chunk of WINDOW_UPDATE frames: h2 makes windows larger, and changes nothing else. -/
def Updates (view : σ → H2State) (c : Connection (Parser σ) Wire) : Event → Prop
  | .dataReceived data => ∃ p events conn w ws, c.parser = some p ∧
      H2Connection.receiveData data p.conn = (.ok events, conn) ∧ (∀ e ∈ events, e = H2Event.other) ∧
      view conn = { view p.conn with window := w, streamWindow := ws } ∧
      (view p.conn).window ≤ w ∧ ∀ t, (view p.conn).streamWindow t ≤ ws t
  | _ => False

def UpdateStep (view : σ → H2State) (c : Connection (Parser σ) Wire) (e : Event) (c' : Connection (Parser σ) Wire) :
    Prop :=
  Updates view c e ∧ Step c e c'

omit [H2Connection σ] in
/-- Events that are not about requests change nothing of what is received. -/
theorem parseEvents_other {events : List H2Event} (h : ∀ e ∈ events, e = H2Event.other) (parsed : Parsed Wire)
    (p : Parser σ) : Hyper.parseEvents events parsed p = (.ok parsed, p) := by
  induction events with
  | nil => rfl
  | cons e events ih =>
    obtain rfl := h e List.mem_cons_self
    exact ih fun e he => h e (List.mem_cons_of_mem _ he)

theorem written_sent (frames : List Frame) : written (sent (frames.map Wire.frame)) = frames := by
  unfold sent
  split
  · rename_i h
    rw [List.map_eq_nil_iff.mp h]
    rfl
  · simp only [written, writes, List.filterMap_cons, List.filterMap_nil, List.flatten_cons, List.flatten_nil,
      List.append_nil, List.filterMap_map]
    exact List.filterMap_some

/-- A WINDOW_UPDATE makes the connection write what is queued, and nothing else. -/
theorem update_step (D : Documented view) {e : Event} (hp : c.parser = some p) (h : UpdateStep view c e c') :
    ∃ p' : Parser σ, c'.parser = some p' ∧ (view p'.conn).outbound = [] ∧
      written c'.log = written c.log ++ (view p.conn).outbound := by
  obtain ⟨hu, hs⟩ := h
  cases e with
  | dataReceived data =>
    obtain ⟨p₀, events, conn, w, ws, hp₀, hreceive, hother, hv, -⟩ := hu
    obtain rfl : p = p₀ := Option.some.inj (hp.symm.trans hp₀)
    obtain ⟨-, rfl⟩ := step_dataReceived.mp hs
    obtain ⟨conn', hdata, hv'⟩ := D.dataToSend conn
    have hr : ParserProtocol.handleRequest p data =
        (.ok { data := (view p.conn).outbound.map Wire.frame, requests := [], close := false }, { p with conn := conn' }) := by
      show Hyper.handleRequest data p = _
      simp only [Hyper.handleRequest, hreceive, hdata, hv]
      exact parseEvents_other hother _ _
    have hc : c.receive data = { c with
        parser := some { p with conn := conn' }, log := c.log ++ sent ((view p.conn).outbound.map Wire.frame) } := by
      simp only [receive, dataReceived, parse, hp, hr, Except.map, accept, sent, List.foldl_nil, Bool.false_eq_true,
        ite_false]
      split <;> simp [write]
    rw [hc]
    exact ⟨_, rfl, by rw [hv']; rfl, by rw [written_append, written_sent]⟩
  | _ => exact hu.elim

/-- The response is delivered exactly if the window has room for all of it, and for a byte at
least, when the handler returns, whatever WINDOW_UPDATEs come then. -/
theorem delivered_iff (D : Documented view) (ha : Awaiting view c p f s) (hpush : response.push = false)
    (hpushes : response.pushes = []) (h : Step c (.handlerDone f (.returned response)) c₁)
    (hr : Run (UpdateStep view) c₁ es c') :
    Delivered c c' s response ↔
      1 ≤ (view p.conn).windowOf s ∧ (response.body.length : Int) ≤ (view p.conn).windowOf s := by
  obtain ⟨-, rfl⟩ := step_handlerDone.mp h
  obtain ⟨p₁, ds, hsends, hv₁, l, hw, hl⟩ := handleRequest_sends D ha.selected hpush (ha.request ▸ ha.ready)
  rw [ha.request] at hsends hv₁ hl
  -- What has been given to h2 stays the same, and nothing is queued if some of the body was sent.
  obtain ⟨p', -, hhanded, hqueued⟩ : ∃ p' : Parser σ, c'.parser = some p' ∧
      written c'.log ++ (view p'.conn).outbound =
        written c.log ++ ((view p.conn).outbound ++ responseFrames (setContentLength response) s ds) ∧
      (ds ≠ [] → (view p'.conn).outbound = []) := by
    refine hr.invariant (I := fun c' => ∃ p' : Parser σ, c'.parser = some p' ∧
      written c'.log ++ (view p'.conn).outbound =
        written c.log ++ ((view p.conn).outbound ++ responseFrames (setContentLength response) s ds) ∧
      (ds ≠ [] → (view p'.conn).outbound = [])) ?_ ?_
    · refine ⟨p₁, by rw [hw], ?_, fun hds => ?_⟩
      · rw [hw, hv₁, written_append, List.append_assoc, written_responded hl]
        rfl
      · rw [hv₁, Hyper.responded_outbound, if_neg hds]
    · rintro c₁ e c₂ ⟨p₁, hp₁, hhanded, -⟩ hstep
      obtain ⟨p₂, hp₂, hq, hwritten⟩ := update_step D hp₁ hstep
      exact ⟨p₂, hp₂, by rw [hq, hwritten, List.append_nil, hhanded], fun _ => hq⟩
  constructor
  · rintro ⟨fs, ds', hwritten, hfs, hds', -⟩
    -- A frame that ends the stream has been written, so that it was sent: the loop got to the end of the body.
    obtain ⟨d, hd⟩ := exists_mem_dataFrames s hds'
    rw [hwritten, List.append_assoc] at hhanded
    have hmem : .data s d true ∈ onStream s (responseFrames (setContentLength response) s ds) := by
      rw [← List.nil_append (onStream s _), ← onStream_of_not_mem ha.queued, ← onStream_append,
        ← List.append_cancel_left hhanded, onStream_append, hfs]
      exact List.mem_append_left _ (List.mem_cons_of_mem _ hd)
    rw [onStream_responseFrames] at hmem
    have hmem := List.mem_of_ne_of_mem (by simp) hmem
    have hds : ds ≠ [] := by
      rintro rfl
      cases hmem
    have hall : ds.flatten = response.body := by
      have := mem_dataFrames hmem
      simp only [endsStream, Bool.and_eq_true, decide_eq_true_eq] at this
      exact this.2
    exact ⟨(hsends.starts.mp hds).1, hall ▸ hsends.le hds⟩
  · rintro ⟨hone, hfit⟩
    have hds : ds ≠ [] := (hsends.starts_iff hfit).mpr hone
    have hall := hsends.whole hone hfit
    rw [hqueued hds, List.append_nil] at hhanded
    have hlast : endsStream (setContentLength response) ds = true := by
      simp [endsStream, setContentLength, hpushes, hall]
    refine ⟨_, ds, hhanded, ?_, hds, hall⟩
    rw [onStream_append, onStream_of_not_mem ha.queued, onStream_responseFrames, responseFrames, hlast]
    rfl

/-- A handler that returns `Response(status=200, body=b"hello")`. -/
def hello : Response where
  status := 200
  body := Bytes.ascii "hello"

/-- WINDOW_UPDATE: ten bytes more for stream 1. -/
def tenMore : Bytes := [0, 0, 4, 8, 0, 0, 0, 0, 1, 0, 0, 0, 10]

theorem update_tenMore {c : Connection (Parser Reference) Wire} {p : Parser Reference} (hp : c.parser = some p)
    (ho : c.transport.closing = false) (hs : p.conn.stream 1 ≠ .idle) :
    UpdateStep Reference.state c (.dataReceived tenMore) (c.receive tenMore) := by
  refine ⟨⟨p, [.other], p.conn.setStream 1 (p.conn.stream 1) (p.conn.streamWindow 1 + 10), p.conn.window,
    Function.update p.conn.streamWindow 1 (p.conn.streamWindow 1 + 10), hp, if_neg hs, by simp,
    (p.conn.state_setStream 1 _ _ p.conn.window p.conn.outbound).trans ?_, Int.le_refl _, fun t => ?_⟩,
    step_dataReceived.mpr ⟨ho, rfl⟩⟩
  · rw [Function.update_eq_self]
    rfl
  · show p.conn.streamWindow t ≤ Function.update p.conn.streamWindow 1 (p.conn.streamWindow 1 + 10) t
    by_cases ht : t = 1
    · subst ht
      rw [Function.update_self]
      omega
    · exact Int.le_of_eq (Function.update_of_ne ht ..).symm

/-- The state after the handler has returned. -/
def helloSent (window : Int) : Connection (Parser Reference) Wire :=
  (handling window true).handleRequest 0 (.returned hello)

/-- A window of five bytes has room for a body of five. -/
theorem fitting_delivered : Delivered (handling 5 true) ((helloSent 5).receive tenMore) 1 hello :=
  (delivered_iff Reference.documented (awaiting_handling 5 true) rfl rfl (step_handlerDone.mpr ⟨rfl, rfl⟩)
    (.single (update_tenMore rfl rfl (by decide)))).mpr (by decide)

/-- Of a body of five bytes three are sent on a window of three: the rest is lost, although there
is room for it later. -/
theorem cutOff_not_delivered : ¬ ∀ es (c' : Connection (Parser Reference) Wire),
    Run (UpdateStep Reference.state) (helloSent 3) es c' →
      (∃ p, c'.parser = some p ∧ (hello.body.length : Int) ≤ (Reference.state p.conn).windowOf 1) →
        Delivered (handling 3 true) c' 1 hello := by
  intro h
  obtain ⟨fs, ds, hwritten, hfs, hds, -⟩ :=
    h _ _ (.single (update_tenMore rfl rfl (by decide))) ⟨_, rfl, by decide⟩
  obtain ⟨d, hd⟩ := exists_mem_dataFrames 1 hds
  have hall : written ((helloSent 3).receive tenMore).log =
      [.headers 1 (Hyper.responseHeaders (setContentLength hello)) false, .data 1 (Bytes.ascii "hel") false] := by
    decide
  have hmem : .data 1 d true ∈ fs := by
    refine (List.mem_filter.mp (?_ : _ ∈ onStream 1 fs)).1
    rw [hfs]
    exact List.mem_cons_of_mem _ hd
  rw [hall, show written (handling 3 true).log = [] from rfl, List.nil_append] at hwritten
  rw [← hwritten] at hmem
  simp at hmem

end Levin.Connection
