import Levin.Proof.Http2.Demultiplexing
import Mathlib.Data.Bool.AllAny

/-!
# The receive window

DATA uses up the connection's receive window, and only an acknowledgement gives it
back. The parser acknowledges nothing: over any run the window falls by the
flow-controlled lengths of all that has been received (`window_run`). So it is back
where it was, once every stream has ended and its request has been handed out,
exactly if none of those lengths is positive (`window_restored_iff`).
-/

namespace Levin.Hyper

open Framework Bytes

/-- `n` is the flow-controlled length of an event: of DATA its length with padding, else nothing. -/
def Costs : H2Event → Nat → Prop
  | .DataReceived _ data, n => data.length ≤ n
  | _, n => n = 0

/-- What h2 is documented to do to the connection's receive window. `lengths data c` are the
flow-controlled lengths of what `receive_data` reads. -/
structure FlowControl {σ : Type} [H2Connection σ] (window : σ → Int) (lengths : Bytes → σ → List Nat) : Prop where
  receiveData (data : Bytes) (c : σ) :
    window (H2Connection.receiveData data c).2 = window c - (lengths data c).sum
  costs {data : Bytes} {c c' : σ} {events : List H2Event}
    (h : H2Connection.receiveData data c = (.ok events, c')) : List.Forall₂ Costs events (lengths data c)
  initiateConnection (c : σ) : window (H2Connection.initiateConnection c) = window c
  initiateUpgradeConnection (settings : Bytes) (c : σ) :
    window (H2Connection.initiateUpgradeConnection settings c).2 = window c
  clearOutboundDataBuffer (c : σ) : window (H2Connection.clearOutboundDataBuffer c) = window c
  dataToSend (c : σ) : window (H2Connection.dataToSend c).2 = window c
  pushStream (s t : Nat) (fields : Fields) (c : σ) : window (H2Connection.pushStream s t fields c).2 = window c
  endStream (s : Nat) (c : σ) : window (H2Connection.endStream s c).2 = window c
  sendHeaders (t : Nat) (fields : Fields) (c : σ) : window (H2Connection.sendHeaders t fields c).2 = window c
  sendData (t : Nat) (data : Bytes) (endStream : Bool) (c : σ) :
    window (H2Connection.sendData t data endStream c).2 = window c

variable {σ : Type} [H2Connection σ] {window : σ → Int} {lengths : Bytes → σ → List Nat} {p₀ p p' : Parser σ}

/-! ## One call -/

omit [H2Connection σ] in
theorem parseEvents_conn (events : List H2Event) (parsed : Parsed Wire) (p : Parser σ) :
    (parseEvents events parsed p).2.conn = p.conn := by
  have hevent : ∀ (p : Parser σ) (e : H2Event), (parseEvent p e).2.conn = p.conn := by
    intro p e
    cases e <;> simp only [parseEvent] <;> split <;> rfl
  induction events generalizing parsed p with
  | nil => rfl
  | cons e events ih =>
    have he := hevent p e
    simp only [parseEvents]
    split <;> simp_all

theorem handleHttp1_window (hf : FlowControl window lengths) (data : Bytes) (p : Parser σ) :
    window (handleHttp1 data p).2.conn = window p.conn := by
  unfold handleHttp1
  split
  · rfl
  · rfl
  · rfl
  · rename_i request toSend _ _
    dsimp only
    split
    · exact hf.clearOutboundDataBuffer p.conn
    · rename_i settings _
      have hup := hf.initiateUpgradeConnection settings (H2Connection.clearOutboundDataBuffer p.conn)
      rw [hf.clearOutboundDataBuffer] at hup
      split
      · rename_i e conn h
        rwa [h] at hup
      · rename_i conn h
        rw [h] at hup
        exact (hf.dataToSend conn).trans hup

/-- Reading a chunk uses up the window, and nothing after that gives it back. -/
theorem handleRequest_window (hf : FlowControl window lengths) (data : Bytes) (p : Parser σ) :
    window (handleRequest data p).2.conn = window p.conn - (lengths data p.conn).sum := by
  rw [← hf.receiveData]
  unfold handleRequest
  split
  · rename_i events conn h
    rw [parseEvents_conn, hf.dataToSend, h]
  · rename_i e conn h
    rw [h]
    split
    · have hhttp := handleHttp1_window hf data { p with conn }
      split <;> simp_all
    · rfl

theorem sendLoop_window (hf : FlowControl window lengths) (stream streamId : Nat) (pushes : List Push) (n : Nat)
    (data : Bytes) (c : σ) : window (sendLoop stream streamId pushes n data c).2.2 = window c := by
  induction n generalizing data c with
  | zero => rfl
  | succ n ih =>
    unfold sendLoop
    split
    · rfl
    · rename_i w _
      split
      · rfl
      · dsimp only
        have hsend := hf.sendData streamId
          (data.take (min (min w.toNat data.length) (H2Connection.maxOutboundFrameSize c)))
          (pushes.isEmpty && decide (min (min w.toNat data.length) (H2Connection.maxOutboundFrameSize c) ≥ data.length)) c
        split
        · rename_i e conn h
          rwa [h] at hsend
        · rename_i conn h
          rw [h] at hsend
          have hflush := (hf.dataToSend conn).trans hsend
          split
          · exact hflush
          · exact (ih _ _).trans hflush

theorem sendResponse_window (hf : FlowControl window lengths) (response : Response) (stream streamId : Nat) (c : σ) :
    window (sendResponse response stream streamId c).2.2 = window c := by
  have hsend := hf.sendHeaders streamId (responseHeaders response) c
  unfold sendResponse
  split
  · rename_i e conn h
    rwa [h] at hsend
  · rename_i conn h
    rw [h] at hsend
    exact (sendLoop_window hf _ _ _ _ _ _).trans hsend

theorem promise_window (hf : FlowControl window lengths) (request : Request) (c : σ) :
    window (promise request c).2 = window c := by
  unfold promise
  split
  · rfl
  · rename_i info _
    split
    · rfl
    · rename_i streamId _
      have hpush := hf.pushStream request.stream streamId (pushHeaders request info.sockname) c
      split
      · rename_i e conn h
        rwa [h] at hpush
      · rename_i conn h
        rw [h] at hpush
        have hend := (hf.endStream request.stream conn).trans hpush
        split
        · rename_i e conn h
          rwa [h] at hend
        · rename_i conn h
          rwa [h] at hend

theorem handleResponse_window (hf : FlowControl window lengths) (response : Response) (request : Request)
    (p : Parser σ) : window (handleResponse response request p).2.2.conn = window p.conn := by
  show window (send (setContentLength response) request p.conn).2.2 = window p.conn
  unfold send
  split
  · have hpromise := promise_window hf request p.conn
    split
    · rename_i e conn h
      rwa [h] at hpromise
    · rename_i conn h
      rwa [h] at hpromise
    · rename_i streamId conn h
      rw [h] at hpromise
      exact (sendResponse_window hf _ _ _ _).trans hpromise
  · exact sendResponse_window hf _ _ _ _

/-! ## Runs -/

/-- The flow-controlled lengths of what a call receives. -/
def lengthsOf (lengths : Bytes → σ → List Nat) (p : Parser σ) : Call → List Nat
  | .request data _ _ | .refused data _ => lengths data p.conn
  | .connect | .response _ _ => []

/-- A call, with the flow-controlled lengths of what it receives. -/
def Metered (lengths : Bytes → σ → List Nat) (p : Parser σ) (call : Call × List Nat) (p' : Parser σ) : Prop :=
  Step p call.1 p' ∧ call.2 = lengthsOf lengths p call.1

theorem step_window (hf : FlowControl window lengths) {call : Call} (h : Step p call p') :
    window p'.conn = window p.conn - (lengthsOf lengths p call).sum := by
  cases h with
  | connect => exact (hf.initiateConnection p.conn).trans (Int.sub_zero _).symm
  | request h => exact handleRequest_window hf _ p
  | refused h => exact handleRequest_window hf _ p
  | response response request => simpa [lengthsOf] using handleResponse_window hf response request p

/-- Over a run the window falls by the flow-controlled lengths of all that is received. -/
theorem window_run (hf : FlowControl window lengths) {calls : List (Call × List Nat)}
    (h : Run (Metered lengths) p₀ calls p) :
    window p.conn = window p₀.conn - (calls.flatMap Prod.snd).sum := by
  induction h with
  | nil => simp
  | snoc _ hs ih =>
    obtain ⟨hs, hn⟩ := hs
    rw [step_window hf hs, ih, ← hn]
    simp only [List.flatMap_append, List.sum_append, List.flatMap_singleton]
    omega

/-! ## The window is not restored -/

/-- The streams whose request has come. -/
def begunIn (events : List H2Event) : List Nat :=
  events.filterMap fun | .RequestReceived t _ => some t | _ => none

/-- Every stream whose request has come has ended, and its request has been handed out. -/
def AllHandedOut (calls : List Call) : Prop :=
  ∀ t ∈ begunIn (received calls), t ∈ endedIn (received calls) ∧ t ∈ (handedOut calls).map Request.stream

instance (calls : List Call) : Decidable (AllHandedOut calls) :=
  inferInstanceAs (Decidable (∀ t ∈ begunIn (received calls), _ ∧ _))

/-- Every stream whose request has come has ended. -/
def AllEnded (events : List H2Event) : Prop := ∀ t ∈ begunIn events, t ∈ endedIn events

instance (events : List H2Event) : Decidable (AllEnded events) :=
  inferInstanceAs (Decidable (∀ t ∈ begunIn events, _))

/-- The window is back where it was whenever all requests have been handed out. -/
def Restored (window : σ → Int) (lengths : Bytes → σ → List Nat) (p₀ : Parser σ) (calls : List (Call × List Nat)) :
    Prop :=
  ∀ calls₁ p₁, calls₁ <+: calls → Run (Metered lengths) p₀ calls₁ p₁ → AllHandedOut (calls₁.map Prod.fst) →
    window p₁.conn = window p₀.conn

/-- Whenever the calls so far are `due`, nothing that counts has been received. -/
def NothingCounts (due : List Call → Prop) (calls : List (Call × List Nat)) : Prop :=
  ∀ calls₁, calls₁ <+: calls → due (calls₁.map Prod.fst) → ∀ n ∈ calls₁.flatMap Prod.snd, n = 0

theorem run_calls {calls : List (Call × List Nat)} (h : Run (Metered lengths) p₀ calls p) :
    Run Step p₀ (calls.map Prod.fst) p := by
  induction h with
  | nil => exact .nil
  | snoc _ hs ih =>
    rw [List.map_append]
    exact .snoc ih hs.1

/-- Where events are well formed, a stream that has ended has been handed out. -/
theorem allHandedOut_iff (h₀ : p₀.streams = []) {calls : List Call} (h : Run Step p₀ calls p)
    (hwf : WellFormed (received calls)) : AllHandedOut calls ↔ AllEnded (received calls) := by
  refine ⟨fun hall t ht => (hall t ht).1, fun hall t ht => ⟨hall t ht, ?_⟩⟩
  have hstreams : (handedOut calls).map Request.stream = endedIn (received calls) := by
    rw [(demultiplexed_run h₀ h hwf).handedOut, List.map_map]
    exact List.map_id' _
  rw [hstreams]
  exact hall t ht

/-- The window is back where it was whenever all requests have been handed out, exactly if nothing
that counts has been received until then; where events are well formed stream by stream, exactly if
nothing has been whenever all streams have ended. -/
theorem window_restored_iff (hf : FlowControl window lengths) {calls : List (Call × List Nat)}
    (h : Run (Metered lengths) p₀ calls p) :
    (Restored window lengths p₀ calls ↔ NothingCounts AllHandedOut calls) ∧
      (p₀.streams = [] → WellFormed (received (calls.map Prod.fst)) →
        (Restored window lengths p₀ calls ↔ NothingCounts (AllEnded ∘ received) calls)) := by
  have hiff : Restored window lengths p₀ calls ↔ NothingCounts AllHandedOut calls := by
    constructor
    · rintro hback calls₁ ⟨calls₂, rfl⟩ hall
      obtain ⟨p₁, h₁, -⟩ := Run.append_iff.mp h
      have hwindow := window_run hf h₁
      rw [hback calls₁ p₁ (List.prefix_append _ _) h₁ hall] at hwindow
      have hsum : (calls₁.flatMap Prod.snd).sum = 0 := by omega
      exact List.sum_eq_zero_iff_forall_eq_nat.mp hsum
    · intro hzero calls₁ p₁ hfirst h₁ hall
      have hsum : (calls₁.flatMap Prod.snd).sum = 0 := List.sum_eq_zero_iff_forall_eq_nat.mpr (hzero calls₁ hfirst hall)
      rw [window_run hf h₁, hsum]
      exact Int.sub_zero _
  refine ⟨hiff, fun h₀ hwf => hiff.trans ?_⟩
  refine forall_congr' fun calls₁ => forall_congr' fun hfirst => ?_
  obtain ⟨calls₂, rfl⟩ := hfirst
  obtain ⟨p₁, h₁, -⟩ := Run.append_iff.mp h
  rw [List.map_append, received_append] at hwf
  rw [allHandedOut_iff h₀ (run_calls h₁) hwf.of_append]
  rfl

/-- The flow-controlled lengths of what `Reader` reads. -/
def readerLengths (data : Bytes) (r : Reader) : List Nat := (r.readChunk data).1.map Prod.snd

/-- A frame costs the window what it carries. -/
theorem events?_costs {f : Reader.RawFrame} {es : List (H2Event × Nat)} (h : Reader.events? f = some es) :
    ∀ e ∈ es, Costs e.1 e.2 := by
  simp only [Reader.events?] at h
  split at h
  · split at h <;> cases h <;> simp [Costs]
  · obtain ⟨fields, -, rfl⟩ := Option.map_eq_some_iff.mp h
    split <;> simp [Costs]
  · cases h
    simp [Costs]
  · cases h
    simp [Costs]
  · cases h
    simp [Costs]
  · cases h
    simp [Costs]
  · cases h

theorem reader_costs (n : Nat) (r : Reader) : ∀ e ∈ (Reader.read n r).1, Costs e.1 e.2 := by
  induction n generalizing r with
  | zero => exact fun _ h => absurd h List.not_mem_nil
  | succ n ih =>
    unfold Reader.read
    split
    · exact fun _ h => absurd h List.not_mem_nil
    · split
      · exact fun _ h => absurd h List.not_mem_nil
      · rename_i es hes
        split
        · exact fun _ h => absurd h List.not_mem_nil
        · intro e he
          rcases List.mem_append.mp he with he | he
          · exact events?_costs hes e he
          · exact ih _ e he

theorem flowControl_reader : FlowControl Reader.window readerLengths where
  receiveData data r := by
    show (Reader.receiveData data r).2.window = r.window - Reader.total (r.readChunk data).1
    rw [← Reader.readChunk_window]
    unfold Reader.receiveData
    split <;> simp_all
  costs {data r r' events} h := by
    have hcosts : ∀ e ∈ (r.readChunk data).1, Costs e.1 e.2 := by
      simp only [Reader.readChunk]
      split
      · split
        · exact reader_costs _ _
        · exact fun _ h => absurd h List.not_mem_nil
      · exact reader_costs _ _
    have hevents : events = (r.readChunk data).1.map Prod.fst := by
      have h : Reader.receiveData data r = (.ok events, r') := h
      unfold Reader.receiveData at h
      split at h <;> cases h
      simp_all
    rw [hevents, readerLengths, List.forall₂_map_left_iff, List.forall₂_map_right_iff]
    exact List.forall₂_same.mpr hcosts
  initiateConnection _ := rfl
  initiateUpgradeConnection _ _ := rfl
  clearOutboundDataBuffer _ := rfl
  dataToSend _ := rfl
  pushStream _ _ _ _ := rfl
  endStream _ _ := rfl
  sendHeaders _ _ _ := rfl
  sendData _ _ _ _ := rfl

/-- One chunk, with its flow-controlled lengths. -/
def meter (data : Bytes) (p : Parser Reader) : Call × List Nat :=
  (callRequest data p, readerLengths data p.conn)

theorem run_meter (data : Bytes) (p : Parser Reader) :
    Run (Metered readerLengths) p [meter data p] (handleRequest data p).2 := by
  apply Run.single
  refine ⟨step_callRequest data p, ?_⟩
  simp only [meter, callRequest]
  split <;> rfl

/-- A request without a body. -/
def page : Bytes := Reader.frame 1 5 1 [0x82, 0x84, 0x86]

theorem page_restored : AllHandedOut [callRequest page started] ∧
    (handleRequest page started).2.conn.window = started.conn.window := by
  have hrun := run_meter page started
  have hnone : ∀ n ∈ [meter page started].flatMap Prod.snd, n = 0 := List.all_iff_forall_prop.mp (by decide)
  have hall : AllHandedOut [callRequest page started] := by decide
  have hiff := (window_restored_iff flowControl_reader hrun).2 rfl (by decide)
  refine ⟨hall, hiff.mpr ?_ _ _ (List.prefix_refl _) hrun hall⟩
  intro calls hfirst _ n hn
  apply hnone n
  obtain ⟨call, hcall, hn⟩ := List.mem_flatMap.mp hn
  exact List.mem_flatMap.mpr ⟨call, hfirst.subset hcall, hn⟩

/-- A request with a body of three bytes. -/
def upload : Bytes := Reader.headersFrame 0x83 1 ++ Reader.dataFrame 1 (ascii "hey") true

/-- It is handed out, and its three bytes stay off the window. -/
theorem upload_not_restored : FlowControl Reader.window readerLengths ∧
    Run (Metered readerLengths) started [meter upload started] (handleRequest upload started).2 ∧
    AllHandedOut [callRequest upload started] ∧
    (handleRequest upload started).2.conn.window = started.conn.window - 3 :=
  ⟨flowControl_reader, run_meter upload started, by decide, by decide⟩

end Levin.Hyper
