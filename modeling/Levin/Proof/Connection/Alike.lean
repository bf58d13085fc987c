import Levin.Proof.Connection.Invariant
import Levin.Proof.Serialisation

/-!
# Connections that differ in `response_500`

`response_500` belongs to the module: a 500 response that any connection writes
leaves its length in the headers that all of them read. Where what a parser writes
does not depend on that (`Steady`), it makes no difference to what a connection does
(`step_alike`). It does not on connections of one protocol (`steady_http1`,
`steady_http2`).
-/

namespace Levin.Connection

open Framework

variable {π ω : Type} [ParserProtocol π ω] {P : Response → Prop} {c d c' : Connection π ω} {f k : Nat} {e : Event}

/-- The responses that `P` holds of are written alike, and stay so. -/
structure Steady (π : Type) {ω : Type} [ParserProtocol π ω] (P : Response → Prop) : Prop where
  /-- `response_500` as the module defines it. -/
  first : P { status := 500, body := Bytes.ascii "Sorry" }
  stays (p : π) {r : Response} (request : Request) (h : P r) : P (ParserProtocol.handleResponse p r request).2.1
  alike (p : π) {r r' : Response} (request : Request) (h : P r) (h' : P r') :
    (ParserProtocol.handleResponse p r request).1 = (ParserProtocol.handleResponse p r' request).1 ∧
      (ParserProtocol.handleResponse p r request).2.2 = (ParserProtocol.handleResponse p r' request).2.2

/-- The connection, with another `response_500`. -/
def with500 (r : Response) (c : Connection π ω) : Connection π ω := { c with response500 := r }

/-- Two connections are the same but for their `response_500`. -/
structure Alike (P : Response → Prop) (c d : Connection π ω) : Prop where
  eq : d = c.with500 d.response500
  left : P c.response500
  right : P d.response500

/-- Two calls leave connections that are alike, and raise the same. -/
def AlikeCalls (P : Response → Prop) (x y : Connection π ω × Option Exc) : Prop := Alike P x.1 y.1 ∧ x.2 = y.2

omit [ParserProtocol π ω] in
theorem alike_with500 {r : Response} (h : P c.response500) (hr : P r) : Alike P c (c.with500 r) := ⟨rfl, h, hr⟩

omit [ParserProtocol π ω] in
theorem Alike.refl (h : P c.response500) : Alike P c c := ⟨rfl, h, h⟩

omit [ParserProtocol π ω] in
/-- What reads no `response_500` and writes none does the same to both. -/
theorem Alike.map (h : Alike P c d) {g : Connection π ω → Connection π ω}
    (hg : ∀ (r : Response) (c : Connection π ω), g (c.with500 r) = (g c).with500 r)
    (hkeep : ∀ c : Connection π ω, (g c).response500 = c.response500) : Alike P (g c) (g d) := by
  obtain ⟨heq, hc, hd⟩ := h
  refine ⟨?_, hkeep c ▸ hc, hkeep d ▸ hd⟩
  rw [hkeep d, ← hg, ← heq]

omit [ParserProtocol π ω] in
theorem Alike.future (h : Alike P c d) : d.future = c.future := by rw [h.eq]; rfl

omit [ParserProtocol π ω] in
theorem Alike.futures (h : Alike P c d) : d.futures = c.futures := by rw [h.eq]; rfl

omit [ParserProtocol π ω] in
theorem Alike.task (h : Alike P c d) : d.task = c.task := by rw [h.eq]; rfl

omit [ParserProtocol π ω] in
theorem Alike.transport (h : Alike P c d) : d.transport = c.transport := by rw [h.eq]; rfl

/-! ## Writing -/

theorem writeResponse_with500 (owner : Owner) (response : Response) (request : Request) (r : Response)
    (c : Connection π ω) :
    (c.with500 r).writeResponse owner response request =
      ((c.writeResponse owner response request).1.with500 r, (c.writeResponse owner response request).2) := by
  simp only [writeResponse, with500]
  split <;> rfl

theorem Alike.write500 (S : Steady π P) (h : Alike P c d) (f : Nat) : AlikeCalls P (c.write500 f) (d.write500 f) := by
  rw [h.eq]
  obtain ⟨-, hc, hd⟩ := h
  generalize d.response500 = r at hd
  unfold Connection.write500
  have hclosing : (c.with500 r).transport.closing = c.transport.closing := rfl
  rw [hclosing]
  split
  · exact ⟨alike_with500 hc hd, rfl⟩
  · have hrequest : ((c.with500 r).future f).request = (c.future f).request := rfl
    rw [writeResponse_with500, hrequest]
    simp only [writeResponse]
    cases c.parser with
    | none => exact ⟨⟨rfl, hc, hd⟩, rfl⟩
    | some p =>
      obtain ⟨hout, hp⟩ := S.alike p (c.future f).request hc hd
      have hread : (c.with500 r).response500 = r := rfl
      simp only [hread, hout, hp]
      exact ⟨⟨rfl, S.stays p _ hc, S.stays p _ hd⟩, rfl⟩

/-! ## Callbacks -/

theorem Alike.doneCallback (S : Steady π P) (h : Alike P c d) (f : Nat) :
    AlikeCalls P (c.doneCallback f) (d.doneCallback f) := by
  have hw := h.write500 S f
  have hcalls : ∀ x y : Connection π ω × Option Exc, AlikeCalls P x y →
      AlikeCalls P (if f ∈ x.1.futures then ({ x.1 with futures := x.1.futures.erase f }, x.2) else (x.1, some .ValueError))
        (if f ∈ y.1.futures then ({ y.1 with futures := y.1.futures.erase f }, y.2) else (y.1, some .ValueError)) := by
    rintro x y ⟨hxy, hexc⟩
    rw [hxy.futures]
    split
    · exact ⟨hxy.map (g := fun c => { c with futures := x.1.futures.erase f }) (fun _ _ => rfl) fun _ => rfl, hexc⟩
    · exact ⟨hxy, rfl⟩
  simp only [Connection.doneCallback, h.future]
  split
  · exact hcalls _ _ hw
  · split
    · exact hcalls _ _ hw
    · exact hcalls _ _ ⟨h, rfl⟩

theorem Alike.invokeCallbacks (S : Steady π P) {close : Connection π ω → Connection π ω × Option Exc}
    (hclose : ∀ {c d : Connection π ω}, Alike P c d → AlikeCalls P (close c) (close d)) (h : Alike P c d) (f : Nat) :
    Alike P (c.invokeCallbacks close f) (d.invokeCallbacks close f) := by
  unfold Connection.invokeCallbacks
  rw [h.future]
  refine List.foldl_rel h fun callback _ c d h => ?_
  cases callback with
  | done => exact (h.doneCallback S f).1
  | close => exact (hclose h).1

omit [ParserProtocol π ω] in
theorem Alike.setFuture (h : Alike P c d) (f : Nat) (state : FutureState) :
    Alike P (c.setFuture f state) (d.setFuture f state) :=
  h.map (g := Connection.setFuture f state) (fun _ _ => rfl) fun _ => rfl

theorem Alike.setException (S : Steady π P) {close : Connection π ω → Connection π ω × Option Exc}
    (hclose : ∀ {c d : Connection π ω}, Alike P c d → AlikeCalls P (close c) (close d)) (h : Alike P c d) (f : Nat) :
    AlikeCalls P (c.setException close f) (d.setException close f) := by
  unfold Connection.setException
  rw [h.future]
  split
  · exact ⟨(h.setFuture f _).invokeCallbacks S hclose f, rfl⟩
  · exact ⟨h, rfl⟩

omit [ParserProtocol π ω] in
theorem Alike.closeTransport (h : Alike P c d) : Alike P c.closeTransport d.closeTransport :=
  h.map (g := Connection.closeTransport) (fun _ _ => rfl) fun _ => rfl

theorem Alike.closeNested (S : Steady π P) (depth : Nat) {c d : Connection π ω} (h : Alike P c d) :
    AlikeCalls P (Connection.closeNested depth c) (Connection.closeNested depth d) := by
  induction depth generalizing c d with
  | zero => exact ⟨h.closeTransport, rfl⟩
  | succ depth ih =>
    simp only [Connection.closeNested, h.closeTransport.futures]
    exact forEach_rel (fun _ _ h => h.futures.symm) (fun f _ _ h => h.setException S ih f) _ _ _ _ h.closeTransport

theorem Alike.close (S : Steady π P) (h : Alike P c d) : AlikeCalls P c.close d.close := by
  unfold Connection.close
  rw [h.futures]
  exact h.closeNested S _

omit [ParserProtocol π ω] in
theorem Alike.setTask (h : Alike P c d) (f : Nat) (t : Task) : Alike P (c.setTask f t) (d.setTask f t) :=
  h.map (g := Connection.setTask f t) (fun _ _ => rfl) fun _ => rfl

omit [ParserProtocol π ω] in
theorem Alike.stopTask (h : Alike P c d) (f : Nat) : Alike P (c.stopTask f) (d.stopTask f) :=
  h.map (g := Connection.stopTask f) (fun _ _ => rfl) fun _ => rfl

theorem Alike.cancel (S : Steady π P) (h : Alike P c d) (f : Nat) : Alike P (c.cancel f) (d.cancel f) := by
  unfold Connection.cancel
  rw [h.future]
  split
  · exact ((h.setFuture f _).invokeCallbacks S (fun h => h.close S) f).stopTask f
  · exact h

theorem Alike.connectionLost (S : Steady π P) (h : Alike P c d) : Alike P c.connectionLost d.connectionLost := by
  unfold Connection.connectionLost
  have hlost : Alike P c.logLost d.logLost := h.map (g := Connection.logLost) (fun _ _ => rfl) fun _ => rfl
  have hcancel : ∀ (f : Nat) (c d : Connection π ω), Alike P c d →
      Alike P (c.cancel f, (none : Option Exc)).1 (d.cancel f, (none : Option Exc)).1 ∧ (none : Option Exc) = none :=
    fun f _ _ h => ⟨h.cancel S f, rfl⟩
  rw [h.futures]
  exact (forEach_rel (fun _ _ h => h.futures.symm) hcancel _ _ _ _ hlost).1

/-! ## Chunks and handlers -/

theorem parse_with500 (data : Bytes) (r : Response) (c : Connection π ω) :
    (c.with500 r).parse data = ((c.parse data).1.with500 r, (c.parse data).2) := by
  simp only [parse, with500]
  split
  · rfl
  · split <;> rfl

theorem parse_response500 (data : Bytes) (c : Connection π ω) : (c.parse data).1.response500 = c.response500 := by
  obtain ⟨ps, p, -, -, h⟩ := parse_eq data c
  rw [h]

theorem Alike.accept (S : Steady π P) (h : Alike P c d) (parsed : Parsed ω) :
    AlikeCalls P (c.accept parsed) (d.accept parsed) := by
  have hsent : Alike P { c with log := c.log ++ sent parsed.data } { d with log := d.log ++ sent parsed.data } :=
    h.map (g := fun c => { c with log := c.log ++ sent parsed.data }) (fun _ _ => rfl) fun _ => rfl
  rw [accept_eq, accept_eq]
  simp only
  split
  · exact hsent.close S
  · exact ⟨hsent.map (g := dispatched parsed.requests parsed.close) (fun _ _ => rfl) fun _ => rfl, rfl⟩

theorem Alike.dataReceived (S : Steady π P) (h : Alike P c d) (data : Bytes) :
    AlikeCalls P (c.dataReceived data) (d.dataReceived data) := by
  have hparse : Alike P (c.parse data).1 (d.parse data).1 :=
    h.map (g := fun c => (c.parse data).1) (fun r c => by rw [parse_with500]) (parse_response500 data)
  have hresult : (d.parse data).2 = (c.parse data).2 := by rw [h.eq, parse_with500]
  simp only [Connection.dataReceived]
  generalize c.parse data = x at hparse hresult
  generalize d.parse data = y at hparse hresult
  obtain ⟨c, result⟩ := x
  obtain ⟨d, result'⟩ := y
  obtain rfl : result' = result := hresult
  rcases result' with e | _ | parsed
  · exact ⟨hparse, rfl⟩
  · exact ⟨hparse, rfl⟩
  · exact hparse.accept S parsed

theorem Alike.receive (S : Steady π P) (h : Alike P c d) (data : Bytes) : Alike P (c.receive data) (d.receive data) := by
  obtain ⟨hcd, hexc⟩ := h.dataReceived S data
  simp only [Connection.receive]
  generalize c.dataReceived data = x at hcd hexc
  generalize d.dataReceived data = y at hcd hexc
  obtain ⟨c, e⟩ := x
  obtain ⟨d, e'⟩ := y
  obtain rfl : e = e' := hexc
  cases e with
  | none => exact hcd
  | some e =>
    exact hcd.map (g := fun c => { c.setClosing with escaped := c.escaped ++ [e] }) (fun _ _ => rfl) fun _ => rfl

theorem Alike.handleRequest (h : Alike P c d) (f : Nat) (result : HandlerResult) :
    Alike P (c.handleRequest f result) (d.handleRequest f result) := by
  refine h.map (g := Connection.handleRequest f result) (fun r c => ?_) fun c => ?_
  · cases result with
    | raised e => rfl
    | cancelled => rfl
    | returned response =>
      have hrequest : ((c.with500 r).future f).request.setTransportInfo (c.with500 r).transport.info =
          (c.future f).request.setTransportInfo c.transport.info := rfl
      simp only [Connection.handleRequest, hrequest, writeResponse_with500]
      rcases c.writeResponse (.request f) response ((c.future f).request.setTransportInfo c.transport.info)
        with ⟨c', r', _ | e⟩
      · by_cases hpushes : r'.pushes ≠ [] ∧ c'.parser.any ParserProtocol.pushSupport
        · have hpushes' : r'.pushes ≠ [] ∧ (c'.with500 r).parser.any ParserProtocol.pushSupport := hpushes
          simp only [if_pos hpushes, if_pos hpushes']
          rfl
        · have hpushes' : ¬ (r'.pushes ≠ [] ∧ (c'.with500 r).parser.any ParserProtocol.pushSupport) := hpushes
          simp only [if_neg hpushes, if_neg hpushes']
          rfl
      · rfl
  · obtain ⟨p, t, l, -, e, -⟩ := handleRequest_eq f result c
    rw [e]

omit [ParserProtocol π ω] in
theorem gather_with500 (f k : Nat) (outcome : Outcome) (r : Response) (c : Connection π ω) :
    (c.with500 r).gather f k outcome = (c.gather f k outcome).with500 r := by
  simp only [gather, apply_ite (with500 r)]
  rfl

theorem Alike.pushDone (h : Alike P c d) (f k : Nat) (result : HandlerResult) :
    Alike P (c.pushDone f k result) (d.pushDone f k result) := by
  refine h.map (g := Connection.pushDone f k result) (fun r c => ?_) fun c => ?_
  · have hpush : (c.with500 r).handlePush f k result =
        ((c.handlePush f k result).1.with500 r, (c.handlePush f k result).2) := by
      cases result with
      | raised e => rfl
      | cancelled => rfl
      | returned response =>
        have hpushes : ((c.with500 r).task f).pushes = (c.task f).pushes := rfl
        simp only [Connection.handlePush, hpushes]
        split
        · rfl
        · rename_i push _
          have hrequest : (c.with500 r).pushRequest push ((c.with500 r).future f).request =
            c.pushRequest push (c.future f).request := rfl
          rw [hrequest, writeResponse_with500]
          rcases c.writeResponse (.push f k) { response with push := true } (c.pushRequest push (c.future f).request)
            with ⟨c', r', _ | e⟩ <;> rfl
    rw [pushDone_gather, pushDone_gather, hpush, gather_with500]
  · obtain ⟨p, t, l, -, e, -⟩ := pushDone_eq f k result c
    rw [e]

theorem Alike.settle (S : Steady π P) (h : Alike P c d) (f : Nat) (o : Outcome) :
    Alike P (c.settle f o) (d.settle f o) := by
  by_cases hp : (c.future f).state = .pending
  · have hpending : ∀ c : Connection π ω, (c.future f).state = .pending →
        c.settle f o = ((c.setTask f { c.task f with state := .gone }).setFuture f o.toFuture).invokeCallbacks
          Connection.close f := by
      intro c hp
      simp only [Connection.settle, Connection.setTask, hp]
    rw [hpending c hp, hpending d (by rwa [h.future]), h.task]
    exact ((h.setTask f _).setFuture f _).invokeCallbacks S (fun h => h.close S) f
  · rw [settle_of_ne_pending hp, settle_of_ne_pending (by rwa [h.future]), h.task]
    exact h.setTask f _

/-! ## Steps -/

/-- Connections that are alike do the same, and stay alike. -/
theorem step_alike (S : Steady π P) (h : Alike P c d) (hs : Step c e c') : ∃ d', Step d e d' ∧ Alike P c' d' := by
  cases e with
  | dataReceived data =>
    obtain ⟨ho, rfl⟩ := step_dataReceived.mp hs
    exact ⟨_, step_dataReceived.mpr ⟨by rwa [h.transport], rfl⟩, h.receive S data⟩
  | handlerDone f result =>
    obtain ⟨hf, rfl⟩ := step_handlerDone.mp hs
    exact ⟨_, step_handlerDone.mpr ⟨by rwa [h.task], rfl⟩, h.handleRequest f result⟩
  | pushDone f k result =>
    obtain ⟨hk, rfl⟩ := step_pushDone.mp hs
    exact ⟨_, step_pushDone.mpr ⟨by rwa [h.task], rfl⟩, h.pushDone f k result⟩
  | settle f =>
    obtain ⟨o, ho, rfl⟩ := step_settle.mp hs
    exact ⟨_, step_settle.mpr ⟨o, by rwa [h.task], rfl⟩, h.settle S f o⟩
  | cancelTask f =>
    obtain ⟨hf, rfl⟩ := step_cancelTask.mp hs
    exact ⟨_, step_cancelTask.mpr ⟨by rwa [h.task], rfl⟩, h.stopTask f⟩
  | transportClosing =>
    obtain rfl := step_transportClosing.mp hs
    exact ⟨_, step_transportClosing.mpr rfl, h.map (g := Connection.setClosing) (fun _ _ => rfl) fun _ => rfl⟩
  | connectionLost =>
    obtain rfl := step_connectionLost.mp hs
    have hclosing : Alike P c.setClosing d.setClosing := h.map (g := Connection.setClosing) (fun _ _ => rfl) fun _ => rfl
    exact ⟨_, step_connectionLost.mpr rfl, hclosing.connectionLost S⟩
  | close =>
    obtain rfl := step_close.mp hs
    exact ⟨_, step_close.mpr rfl, (h.close S).1⟩

/-! ## The protocols -/

/-- An HTTP/1 connection writes a response with its length set. -/
theorem steady_http1 : Steady HttpSimple.Parser fun r =>
    HttpSimple.setContentLength r = HttpSimple.setContentLength { status := 500, body := Bytes.ascii "Sorry" } where
  first := rfl
  stays _ r _ h := by
    have hleft : (HttpSimple.handleResponse r).2 = HttpSimple.setContentLength r := by
      simp only [HttpSimple.handleResponse]
      split <;> rfl
    show HttpSimple.setContentLength (HttpSimple.handleResponse r).2 = _
    rw [hleft]
    exact (Protocol.setLength_self .http1 r).trans h
  alike _ r r' _ h h' := by
    have heq : HttpSimple.setContentLength r = HttpSimple.setContentLength r' := h.trans h'.symm
    simp only [ParserProtocol.handleResponse, HttpSimple.handleResponse, heq, and_self]

/-- So does an HTTP/2 connection. -/
theorem steady_http2 {σ : Type} [H2Connection σ] : Steady (Hyper.Parser σ) fun r =>
    Hyper.setContentLength r = Hyper.setContentLength { status := 500, body := Bytes.ascii "Sorry" } where
  first := rfl
  stays _ r _ h := (Protocol.setLength_self .http2 r).trans h
  alike _ r r' _ h h' := by
    have heq : Hyper.setContentLength r = Hyper.setContentLength r' := h.trans h'.symm
    simp only [ParserProtocol.handleResponse, Hyper.handleResponse, heq, and_self]

end Levin.Connection
