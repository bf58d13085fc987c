import Levin.Proof.Http2.Reader
import Levin.Proof.Http2.ReceiveWindow
import Mathlib.Data.List.Infix

/-!
# What responses queue

`Outbox` is what matters of an h2 connection for which frames it sends: those it has
queued, and the streams on which a header block has been sent. `Orderly view` says
that every operation, in whatever state, queues its own frames or is refused and
queues none; that a second header block is refused; and that reading queues frames
of no stream. What `handle_response` queues is then one of five things (`Adds`):
nothing, a response on the request's stream, or the promise of a pushed one with as
much of it as h2 took. A chunk queues no frame of a stream, whatever comes of it
(`handleRequest_takes`).
-/

namespace Levin

open Framework

/-- The frames queued, and the streams on which headers have been sent. -/
structure Outbox where
  outbound : List Frame
  begun : Nat → Bool

namespace Outbox

def queue (frames : List Frame) (v : Outbox) : Outbox := { v with outbound := v.outbound ++ frames }

def begin_ (t : Nat) (fields : Fields) (v : Outbox) : Outbox where
  outbound := v.outbound ++ [.headers t fields false]
  begun := Function.update v.begun t true

end Outbox

section

variable {σ : Type} [H2Connection σ] (view : σ → Outbox)

/-- A call that returns does what `P` says, and one that raises does nothing. -/
def Does (call : σ → Except Exc Unit × σ) (conn : σ) (P : Outbox → Outbox → Prop) : Prop :=
  match call conn with
  | (.ok (), conn') => P (view conn) (view conn')
  | (.error _, conn') => view conn' = view conn

variable {view} {call : σ → Except Exc Unit × σ} {conn conn' : σ} {P : Outbox → Outbox → Prop}

omit [H2Connection σ] in
theorem Does.of_ok (h : Does view call conn P) (hcall : call conn = (.ok (), conn')) : P (view conn) (view conn') := by
  rwa [Does, hcall] at h

omit [H2Connection σ] in
theorem Does.of_error {e : Exc} (h : Does view call conn P) (hcall : call conn = (.error e, conn')) :
    view conn' = view conn := by
  rwa [Does, hcall] at h

variable (view)

/-- The header block of a final response: after one with a status of 1xx, h2 takes another. -/
def Final (fields : Fields) : Prop :=
  ∀ value, fields.head? = some (Bytes.ascii ":status", value) → ¬ Bytes.ascii "1" <+: value

/-- Frames of no stream are queued. -/
def QueuesControl (v v' : Outbox) : Prop := ∃ frames, (∀ frame ∈ frames, frame.streams = []) ∧ v' = v.queue frames

structure Orderly : Prop where
  dataToSend (conn : σ) :
    ∃ conn', H2Connection.dataToSend conn = ((view conn).outbound, conn') ∧ view conn' = { view conn with outbound := [] }
  clearOutboundDataBuffer (conn : σ) : view (H2Connection.clearOutboundDataBuffer conn) = { view conn with outbound := [] }
  initiateConnection (conn : σ) : QueuesControl (view conn) (view (H2Connection.initiateConnection conn))
  initiateUpgradeConnection (settings : Bytes) (conn : σ) :
    QueuesControl (view conn) (view (H2Connection.initiateUpgradeConnection settings conn).2)
  receiveData (data : Bytes) (conn : σ) : QueuesControl (view conn) (view (H2Connection.receiveData data conn).2)
  sendHeaders (t : Nat) {fields : Fields} (hfinal : Final fields) (conn : σ) :
    Does view (H2Connection.sendHeaders t fields) conn fun v v' => v.begun t = false ∧ v' = v.begin_ t fields
  sendData (t : Nat) (data : Bytes) (endStream : Bool) (conn : σ) :
    Does view (H2Connection.sendData t data endStream) conn fun v v' => v' = v.queue [.data t data endStream]
  pushStream (s t : Nat) (fields : Fields) (conn : σ) :
    Does view (H2Connection.pushStream s t fields) conn fun v v' => v' = v.queue [.pushPromise s t fields]
  endStream (s : Nat) (conn : σ) :
    Does view (H2Connection.endStream s) conn fun v v' => v' = v.queue [.data s [] true]

end

namespace Hyper

variable {σ : Type} [H2Connection σ] {view : σ → Outbox}

/-- DATA frames on `t` with a beginning of the body. -/
def DataOn (t : Nat) (body : Bytes) (frames : List Frame) : Prop :=
  ∃ ds : List (Bytes × Bool), frames = ds.map (fun d => .data t d.1 d.2) ∧ (ds.map Prod.fst).flatten <+: body

theorem DataOn.nil (t : Nat) (body : Bytes) : DataOn t body [] := ⟨[], rfl, List.nil_prefix⟩

/-- A chunk, and DATA with a beginning of the rest. -/
theorem DataOn.cons {t n : Nat} {body : Bytes} {frames : List Frame} (endStream : Bool)
    (h : DataOn t (body.drop n) frames) : DataOn t body (.data t (body.take n) endStream :: frames) := by
  obtain ⟨ds, rfl, rest, hrest⟩ := h
  refine ⟨(body.take n, endStream) :: ds, rfl, rest, ?_⟩
  rw [List.map_cons, List.flatten_cons, List.append_assoc, hrest, List.take_append_drop]

theorem DataOn.beginning {t : Nat} {body : Bytes} {frames frames' : List Frame} (h : DataOn t body frames)
    (hp : frames' <+: frames) : DataOn t body frames' := by
  obtain ⟨ds, rfl, hbody⟩ := h
  obtain ⟨ds', hds, rfl⟩ := List.prefix_map_iff.mp hp
  exact ⟨ds', rfl, (hds.map Prod.fst).flatten.trans hbody⟩

/-- The frames that a call writes, with those it leaves queued, are those queued before and `frames`. -/
def Queues (view : σ → Outbox) (conn : σ) (frames : List Frame) (sent : List (List Frame) × Option Exc × σ) : Prop :=
  sent.1.flatten ++ (view sent.2.2).outbound = (view conn).outbound ++ frames

/-- The call queues DATA on `t` with a beginning of the body. -/
def SendsData (view : σ → Outbox) (t : Nat) (body : Bytes) (conn : σ) (sent : List (List Frame) × Option Exc × σ) : Prop :=
  ∃ fs, DataOn t body fs ∧ Queues view conn fs sent ∧ (view sent.2.2).begun = (view conn).begun

omit [H2Connection σ] in
theorem queues_nothing {conn conn' : σ} (exc : Option Exc) (h : view conn' = view conn) :
    Queues view conn [] ([], exc, conn') := by
  simp [Queues, h]

omit [H2Connection σ] in
theorem sendsData_nothing {conn conn' : σ} (t : Nat) (body : Bytes) (exc : Option Exc) (h : view conn' = view conn) :
    SendsData view t body conn ([], exc, conn') :=
  ⟨[], .nil t body, queues_nothing exc h, by rw [h]⟩

/-- The loop of `handle_response` queues DATA. -/
theorem sendLoop_queues (O : Orderly view) (stream t : Nat) (pushes : List Push) (n : Nat) (data : Bytes) (conn : σ) :
    SendsData view t data conn (sendLoop stream t pushes n data conn) := by
  induction n generalizing data conn with
  | zero => exact sendsData_nothing t data none rfl
  | succ n ih =>
    simp only [sendLoop]
    split
    · exact sendsData_nothing t data _ rfl
    · rename_i window _
      split
      · exact sendsData_nothing t data none rfl
      · have hsend := fun size last => O.sendData t (data.take size) last conn
        generalize min (min window.toNat data.length) (H2Connection.maxOutboundFrameSize conn) = size
        generalize (pushes.isEmpty && decide (size ≥ data.length)) = last
        split
        · rename_i hcall
          exact sendsData_nothing t data _ ((hsend size last).of_error hcall)
        · rename_i conn' hcall
          have hsend := (hsend size last).of_ok hcall
          obtain ⟨conn'', hflush, hview⟩ := O.dataToSend conn'
          have hbegun : (view conn'').begun = (view conn).begun := by
            rw [hview, hsend]
            rfl
          simp only [hflush]
          split
          · refine ⟨[.data t (data.take size) last], (DataOn.nil t _).cons last, ?_, hbegun⟩
            simp [Queues, hview, hsend, Outbox.queue]
          · obtain ⟨fs, hfs, hqueues, hbegun'⟩ := ih (data.drop size) conn''
            refine ⟨.data t (data.take size) last :: fs, hfs.cons last, ?_, hbegun'.trans hbegun⟩
            have hempty : (view conn'').outbound = [] := by rw [hview]
            rw [Queues, hempty, List.nil_append] at hqueues
            rw [Queues, List.flatten_cons, List.append_assoc, hqueues, hsend]
            simp [Outbox.queue]

/-- What `handle_response` may queue of a response for a request on `stream`, and the streams begun then. -/
inductive Adds (response : Response) (stream : Nat) (begun : Nat → Bool) : List Frame → (Nat → Bool) → Prop
  | nothing : Adds response stream begun [] begun
  /-- The response, or the beginning of it, on the request's stream. -/
  | own {fs : List Frame} (hpush : response.push = false) (hb : begun stream = false)
    (hd : DataOn stream response.body fs) :
    Adds response stream begun (.headers stream (responseHeaders response) false :: fs)
      (Function.update begun stream true)
  | promised (t : Nat) (fields : Fields) (hpush : response.push = true) :
    Adds response stream begun [.pushPromise stream t fields] begun
  | unsent (t : Nat) (fields : Fields) (hpush : response.push = true) :
    Adds response stream begun [.pushPromise stream t fields, .data stream [] true] begun
  /-- The response, or the beginning of it, on the stream promised for it. -/
  | pushed (t : Nat) (fields : Fields) {fs : List Frame} (hpush : response.push = true) (hb : begun t = false)
    (hd : DataOn t response.body fs) :
    Adds response stream begun
      (.pushPromise stream t fields :: .data stream [] true :: .headers t (responseHeaders response) false :: fs)
      (Function.update begun t true)

/-- From `send_headers` on: nothing, or the headers and DATA. -/
theorem sendResponse_queues (O : Orderly view) {response : Response} (hfinal : Final (responseHeaders response))
    (stream t : Nat) (conn : σ) :
    (Queues view conn [] (sendResponse response stream t conn) ∧
        (view (sendResponse response stream t conn).2.2).begun = (view conn).begun) ∨
      ∃ fs, (view conn).begun t = false ∧ DataOn t response.body fs ∧
        Queues view conn (.headers t (responseHeaders response) false :: fs) (sendResponse response stream t conn) ∧
        (view (sendResponse response stream t conn).2.2).begun = Function.update (view conn).begun t true := by
  have hheaders := O.sendHeaders t hfinal conn
  simp only [sendResponse]
  split
  · rename_i hcall
    have hview := hheaders.of_error hcall
    exact .inl ⟨queues_nothing _ hview, by rw [hview]⟩
  · rename_i conn' hcall
    obtain ⟨hb, hview⟩ := hheaders.of_ok hcall
    obtain ⟨fs, hfs, hqueues, hbegun⟩ := sendLoop_queues O stream t response.pushes (response.body.length + 1)
      response.body conn'
    refine .inr ⟨fs, hb, hfs, ?_, by rw [hbegun, hview]; rfl⟩
    rw [Queues] at hqueues ⊢
    rw [hqueues, hview]
    simp [Outbox.begin_]

/-- What the promise of a push queues. -/
theorem promise_queues (O : Orderly view) {request : Request} {conn conn' : σ} {result : Except Exc (Option Nat)}
    (h : promise request conn = (result, conn')) :
    (∃ t fields, result = .ok (some t) ∧
        view conn' = (view conn).queue [.pushPromise request.stream t fields, .data request.stream [] true]) ∨
      (∀ t, result ≠ .ok (some t)) ∧
        (view conn' = view conn ∨ ∃ t fields, view conn' = (view conn).queue [.pushPromise request.stream t fields]) := by
  unfold promise at h
  split at h
  · cases h
    exact .inr ⟨nofun, .inl rfl⟩
  · rename_i info _
    split at h
    · cases h
      exact .inr ⟨nofun, .inl rfl⟩
    · rename_i t _
      have hpromise := O.pushStream request.stream t (pushHeaders request info.sockname) conn
      split at h
      · rename_i hcall
        cases h
        refine .inr ⟨fun t => ?_, .inl (hpromise.of_error hcall)⟩
        split <;> nofun
      · rename_i conn₁ hcall
        have hpromise := hpromise.of_ok hcall
        have hend := O.endStream request.stream conn₁
        split at h
        · rename_i hcall'
          cases h
          exact .inr ⟨nofun, .inr ⟨t, _, (hend.of_error hcall').trans hpromise⟩⟩
        · rename_i hcall'
          cases h
          refine .inl ⟨t, pushHeaders request info.sockname, rfl, ?_⟩
          rw [hend.of_ok hcall', hpromise]
          simp [Outbox.queue]

/-- What `handle_response` writes and leaves queued, besides what was queued before. -/
theorem send_adds (O : Orderly view) {response : Response} (hfinal : Final (responseHeaders response))
    (request : Request) (conn : σ) :
    ∃ frames, Adds response request.stream (view conn).begun frames (view (send response request conn).2.2).begun ∧
      Queues view conn frames (send response request conn) := by
  simp only [send]
  split
  · rename_i hpush
    rcases hp : promise request conn with ⟨result, conn'⟩
    rcases promise_queues O hp with ⟨t, fields, rfl, hview⟩ | ⟨hno, hview⟩
    · have hbegun : (view conn').begun = (view conn).begun := by rw [hview]; rfl
      simp only
      rcases sendResponse_queues O hfinal request.stream t conn' with ⟨hq, hb⟩ | ⟨fs, hb, hd, hq, hb'⟩
      · refine ⟨_, by rw [hb, hbegun]; exact .unsent t fields hpush, ?_⟩
        rw [Queues] at hq ⊢
        rw [hq, hview, Outbox.queue, List.append_nil]
      · rw [hbegun] at hb hb'
        refine ⟨_, by rw [hb']; exact .pushed t fields hpush hb hd, ?_⟩
        rw [Queues] at hq ⊢
        rw [hq, hview]
        simp [Outbox.queue]
    · have hsent : ∀ exc : Option Exc,
          ∃ frames, Adds response request.stream (view conn).begun frames (view conn').begun ∧
            Queues view conn frames ([], exc, conn') := by
        intro exc
        rcases hview with hview | ⟨t, fields, hview⟩
        · exact ⟨[], by rw [hview]; exact .nothing, queues_nothing exc hview⟩
        · exact ⟨_, by rw [hview]; exact .promised t fields hpush, by simp [Queues, hview, Outbox.queue]⟩
      rcases result with e | _ | t
      · exact hsent (some e)
      · exact hsent none
      · exact absurd rfl (hno t)
  · rename_i hpush
    rcases sendResponse_queues O hfinal request.stream request.stream conn with ⟨hq, hb⟩ | ⟨fs, hb, hd, hq, hb'⟩
    · exact ⟨[], by rw [hb]; exact .nothing, hq⟩
    · exact ⟨_, by rw [hb']; exact .own (by simpa using hpush) hb hd, hq⟩

/-! ## Chunks -/

/-- Frames that are written, and what is queued then: those of `v`, or a beginning of them, with frames of no stream. -/
def Takes (v : Outbox) (frames : List Frame) (v' : Outbox) : Prop :=
  ∃ kept control, kept <+: v.outbound ∧ (∀ frame ∈ control, frame.streams = []) ∧
    frames ++ v'.outbound = kept ++ control ∧ v'.begun = v.begun

theorem QueuesControl.takes {v v' : Outbox} (h : QueuesControl v v') : Takes v [] v' := by
  obtain ⟨control, hc, rfl⟩ := h
  exact ⟨v.outbound, control, List.prefix_rfl, hc, rfl, rfl⟩

/-- Two in a row, the first of which writes nothing. -/
theorem Takes.trans {v v₁ v₂ : Outbox} {frames : List Frame} (h₁ : Takes v [] v₁) (h₂ : Takes v₁ frames v₂) :
    Takes v frames v₂ := by
  obtain ⟨kept₁, control₁, hk₁, hc₁, ho₁, hb₁⟩ := h₁
  obtain ⟨kept₂, control₂, hk₂, hc₂, ho₂, hb₂⟩ := h₂
  rw [List.nil_append] at ho₁
  rw [ho₁] at hk₂
  -- What is kept of the two may end within what the first has queued.
  rcases List.prefix_or_prefix_of_prefix hk₂ (List.prefix_append kept₁ control₁) with h | ⟨control, rfl⟩
  · exact ⟨kept₂, control₂, h.trans hk₁, hc₂, ho₂, hb₂.trans hb₁⟩
  · have hcontrol := (List.prefix_append_right_inj kept₁).mp hk₂
    refine ⟨kept₁, control ++ control₂, hk₁, fun frame hf => ?_, by rw [ho₂, List.append_assoc], hb₂.trans hb₁⟩
    rcases List.mem_append.mp hf with hf | hf
    · exact hc₁ frame (hcontrol.subset hf)
    · exact hc₂ frame hf

/-- The frames of a result. -/
def framesOf (result : Except Exc (Parsed Wire)) : List Frame :=
  result.toOption.elim [] fun parsed => parsed.data.filterMap Wire.frame?

omit [H2Connection σ] in
/-- What h2 has to send is returned, or lost with the exception of an event. -/
theorem parseEvents_framesOf (events : List H2Event) (parsed : Parsed Wire) (p : Parser σ) :
    framesOf (parseEvents events parsed p).1 = [] ∨
      framesOf (parseEvents events parsed p).1 = parsed.data.filterMap Wire.frame? := by
  induction events generalizing parsed p with
  | nil => exact .inr rfl
  | cons event events ih =>
    simp only [parseEvents]
    split
    · exact .inl rfl
    · exact ih _ _
    · exact ih _ _
    · exact ih _ _

theorem filterMap_frames (frames : List Frame) : (frames.map Wire.frame).filterMap Wire.frame? = frames := by
  rw [List.filterMap_map]
  exact List.filterMap_some

theorem handleHttp1_takes (O : Orderly view) (data : Bytes) (p : Parser σ) :
    Takes (view p.conn) ((handleHttp1 data p).1.toOption.elim [] fun r => r.1.filterMap Wire.frame?)
      (view (handleHttp1 data p).2.conn) := by
  have hsame : Takes (view p.conn) [] (view p.conn) := ⟨_, [], List.prefix_rfl, by simp, by simp, rfl⟩
  have hclear : Takes (view p.conn) [] (view (H2Connection.clearOutboundDataBuffer p.conn)) := by
    rw [O.clearOutboundDataBuffer]
    exact ⟨[], [], List.nil_prefix, by simp, rfl, rfl⟩
  unfold handleHttp1
  split
  · exact hsame
  · exact hsame
  · exact hsame
  · split
    · exact hclear
    · rename_i settings _
      have hupgrade := hclear.trans
        (QueuesControl.takes (O.initiateUpgradeConnection settings (H2Connection.clearOutboundDataBuffer p.conn)))
      simp only
      split <;> rename_i hcall <;> rw [hcall] at hupgrade
      · exact hupgrade
      · rename_i conn
        obtain ⟨conn', hflush, hview⟩ := O.dataToSend conn
        refine hupgrade.trans ?_
        rw [hflush]
        refine ⟨(view conn).outbound, [], List.prefix_rfl, by simp, ?_, by rw [hview]⟩
        have hbytes : ∀ bs : Bytes, (bs.map Wire.byte).filterMap Wire.frame? = [] := fun bs => by
          simp [List.filterMap_eq_nil_iff, Wire.frame?]
        simp only [Except.toOption, Option.elim, List.filterMap_append, hbytes, filterMap_frames, hview]
        simp

/-- A chunk queues no frame of a stream. -/
theorem handleRequest_takes (O : Orderly view) (data : Bytes) (p : Parser σ) :
    Takes (view p.conn) (framesOf (handleRequest data p).1) (view (handleRequest data p).2.conn) := by
  have hreceive := QueuesControl.takes (O.receiveData data p.conn)
  unfold handleRequest
  split <;> rename_i hcall <;> rw [hcall] at hreceive
  · rename_i events conn
    obtain ⟨conn', hflush, hview⟩ := O.dataToSend conn
    refine hreceive.trans ?_
    simp only [hflush, parseEvents_conn]
    rcases parseEvents_framesOf events
      { data := (view conn).outbound.map .frame, requests := [], close := false } { p with conn := conn' } with h | h
    · exact ⟨[], [], List.nil_prefix, by simp, by rw [h, hview], by rw [hview]⟩
    · refine ⟨(view conn).outbound, [], List.prefix_rfl, by simp, ?_, by rw [hview]⟩
      rw [h, filterMap_frames, hview]
  · split
    · rename_i conn _
      have htakes := hreceive.trans (handleHttp1_takes O data { p with conn })
      split <;> rename_i hhttp <;> rw [hhttp] at htakes <;> exact htakes
    · exact hreceive

end Hyper

/-! ## A small h2 is orderly -/

namespace Reference

variable (r : Reference)

def outbox : Outbox where
  outbound := r.outbound
  begun t := r.stream t = .body || r.stream t = .ended

theorem begun_eq_false {t : Nat} : r.outbox.begun t = false ↔ r.stream t ≠ .body ∧ r.stream t ≠ .ended := by
  simp [outbox]

/-- A call that moves a stream on. -/
theorem outbox_setStream (t : Nat) (state : StreamState) (window w : Int) (frames : List Frame) :
    outbox { r.setStream t state window with outbound := frames, window := w } =
      { outbound := frames,
        begun := Function.update r.outbox.begun t (state = .body || state = .ended) } := by
  have hstream : Reference.stream { r.setStream t state window with outbound := frames, window := w } =
      Function.update r.stream t state := setStream_stream r t state window
  simp only [outbox, hstream, Outbox.mk.injEq, true_and]
  funext s
  by_cases hs : s = t
  · subst hs
    simp
  · simp [hs]

theorem outbox_same {t : Nat} {state : StreamState} {window w : Int} {frames : List Frame}
    (h : r.outbox.begun t = (state = .body || state = .ended)) :
    outbox { r.setStream t state window with outbound := r.outbound ++ frames, window := w } = r.outbox.queue frames := by
  rw [outbox_setStream, ← h, Function.update_eq_self]
  rfl

end Reference

namespace Reader

/-- Reading sends nothing. -/
theorem read_sender (n : Nat) (r : Reader) : (read n r).2.2.sender = r.sender := by
  induction n generalizing r with
  | zero => rfl
  | succ n ih =>
    simp only [read]
    split
    · rfl
    · split
      · rfl
      · split
        · rfl
        · exact ih _

theorem receiveData_sender (data : Bytes) (r : Reader) : (r.receiveData data).2.sender = r.sender := by
  have hchunk : (r.readChunk data).2.2.sender = r.sender := by
    simp only [readChunk]
    split
    · split
      · exact read_sender _ _
      · rfl
    · exact read_sender _ _
  simp only [receiveData]
  split <;> rename_i h <;> rw [h] at hchunk <;> exact hchunk

/-- A call of the sender. -/
theorem does_sending {call : Reference → Except Exc Unit × Reference} {r : Reader} {P : Outbox → Outbox → Prop}
    (h : Does Reference.outbox call r.sender P) : Does (fun r : Reader => r.sender.outbox) (·.sending call) r P := by
  unfold Does at h ⊢
  simp only [sending]
  generalize call r.sender = x at h ⊢
  obtain ⟨e | _, s⟩ := x
  · exact h
  · exact h

end Reader

/-- A `Reader` that can be upgraded only while nothing is on stream 1. -/
def Upgradable : Type := Reader

namespace Upgradable

def initiateUpgradeConnection (settings : Bytes) (r : Reader) : Except Exc Unit × Reader :=
  if r.sender.stream 1 = .idle then H2Connection.initiateUpgradeConnection settings r
  else (.error .ProtocolError, r)

instance : H2Connection Upgradable :=
  let reader : H2Connection Reader := inferInstance
  { reader with initiateUpgradeConnection }

def outbox (r : Upgradable) : Outbox := (Reader.sender r).outbox

theorem orderly : Orderly outbox where
  dataToSend r := ⟨_, rfl, rfl⟩
  clearOutboundDataBuffer r := rfl
  initiateConnection r := ⟨[.control []], by simp [Frame.streams], rfl⟩
  initiateUpgradeConnection settings r := by
    show QueuesControl (outbox r) (outbox (initiateUpgradeConnection settings r).2)
    unfold initiateUpgradeConnection
    split
    · rename_i hidle
      refine ⟨[.control []], by simp [Frame.streams], ?_⟩
      refine Reference.outbox_same (w := r.sender.window) r.sender ?_
      simp [Reference.outbox, hidle]
    · exact ⟨[], by simp, by simp [Outbox.queue]⟩
  receiveData data r := by
    refine ⟨[], by simp, (congrArg Reference.outbox (Reader.receiveData_sender data r)).trans ?_⟩
    simp [Outbox.queue, outbox]
  sendHeaders t fields _ r := by
    refine Reader.does_sending ?_
    show Does _ (fun s : Reference => s.sendHeaders t fields) _ _
    unfold Does
    by_cases h : r.sender.stream t = .ready
    · have hb : r.sender.outbox.begun t = false := (Reference.begun_eq_false _).mpr (by simp [h])
      simp only [Reference.sendHeaders, if_pos h]
      refine ⟨hb, (Reference.outbox_setStream r.sender t .body _ r.sender.window _).trans ?_⟩
      rfl
    · simp only [Reference.sendHeaders, if_neg h]
  sendData t data endStream r := by
    refine Reader.does_sending ?_
    show Does _ (fun s : Reference => s.sendData t data endStream) _ _
    unfold Does
    by_cases h : r.sender.stream t = .body ∧ (data.length : Int) ≤ r.sender.state.windowOf t ∧
        data.length ≤ r.sender.maxFrameSize
    · simp only [Reference.sendData, if_pos h]
      refine Reference.outbox_same r.sender ?_
      cases endStream <;> simp [Reference.outbox, h.1, H2State.afterData]
    · simp only [Reference.sendData, if_neg h]
  pushStream s t fields r := by
    refine Reader.does_sending ?_
    show Does _ (fun v : Reference => v.pushStream s t fields) _ _
    unfold Does
    by_cases h : r.sender.enablePush ∧ s % 2 = 1 ∧ r.sender.stream s = .body ∧ t = r.sender.nextStream
    · simp only [Reference.pushStream, if_pos h]
      refine Reference.outbox_same (w := r.sender.window) r.sender ?_
      simp [Reference.outbox, h.2.2.2, Reference.nextStream_idle]
    · simp only [Reference.pushStream, if_neg h]
  endStream s r := by
    refine Reader.does_sending ?_
    show Does _ (fun v : Reference => v.endStream s) _ _
    unfold Does
    by_cases h : r.sender.stream s = .body
    · simp only [Reference.endStream, if_pos h]
      refine Reference.outbox_same (w := r.sender.window) r.sender ?_
      simp [Reference.outbox, h]
    · simp only [Reference.endStream, if_neg h]

end Upgradable

end Levin
