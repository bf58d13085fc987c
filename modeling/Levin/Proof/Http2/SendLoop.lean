import Levin.Core.Parsers.Hyper
import Levin.Proof.Http2.Documented

/-!
# What `handle_response` sends

The send loop (`sendLoop_spec`) cuts the body into DATA frames as the windows of
two streams allow: it asks for the window of the request's stream `s` and sends
on `t`, which is another stream for a pushed response. It writes what is queued
with each frame it sends and keeps nothing of the rest of the body. A response
(`sendResponse_spec`) starts with its headers, which stay queued if the loop
sends nothing; a pushed one (`promise_spec`) first ends the request's stream, so
that a second one is refused (`promise_refused`).
-/

namespace Levin

open Framework

namespace H2State

variable (v : H2State) {s t : Nat}

/-- The state once the loop has sent `ds` on `t`. -/
def sentBody (t : Nat) (last : Bool) (ds : List Bytes) (v : H2State) : H2State :=
  if ds = [] then v else (v.flush.spend t ds.flatten.length).setStream t (afterData last)

@[simp] theorem sentBody_nil (last : Bool) : v.sentBody t last [] = v := rfl

@[simp] theorem sentBody_maxFrameSize (last : Bool) (ds : List Bytes) :
    (v.sentBody t last ds).maxFrameSize = v.maxFrameSize := by
  unfold sentBody
  split <;> rfl

@[simp] theorem sentBody_enablePush (last : Bool) (ds : List Bytes) :
    (v.sentBody t last ds).enablePush = v.enablePush := by
  unfold sentBody
  split <;> rfl

@[simp] theorem sentBody_initialWindow (last : Bool) (ds : List Bytes) :
    (v.sentBody t last ds).initialWindow = v.initialWindow := by
  unfold sentBody
  split <;> rfl

theorem sentBody_stream_of_ne (last : Bool) (ds : List Bytes) (h : s ≠ t) :
    (v.sentBody t last ds).stream s = v.stream s := by
  unfold sentBody
  split
  · rfl
  · simp [setStream, spend, flush, h]

theorem sentBody_outbound {ds : List Bytes} (last : Bool) (h : ds ≠ []) : (v.sentBody t last ds).outbound = [] := by
  simp [sentBody, h, setStream, spend, flush]

theorem sentBody_stream {ds : List Bytes} (last : Bool) (h : ds ≠ []) :
    (v.sentBody t last ds).stream t = afterData last := by
  simp [sentBody, h, setStream]

/-- What is sent is taken from the windows of the connection and of its stream. -/
theorem sentBody_windowOf (last : Bool) (ds : List Bytes) :
    (v.sentBody t last ds).windowOf t = v.windowOf t - ds.flatten.length := by
  unfold sentBody
  split
  · rename_i h
    simp [h]
  · simp only [windowOf, setStream, spend, flush, Function.update_self]
    omega

theorem sentBody_window (last : Bool) (ds : List Bytes) :
    (v.sentBody t last ds).window = v.window - ds.flatten.length := by
  unfold sentBody
  split
  · rename_i h
    simp [h]
  · rfl

/-- One frame sent and written, and the others after it. -/
theorem sentBody_cons (last : Bool) (d : Bytes) (ds : List Bytes) :
    v.sentBody t last (d :: ds) =
      ((v.sendData t d (last && decide (ds = []))).flush).sentBody t last ds := by
  cases ds with
  | nil => simp [sentBody, sendData, queue, flush, spend, setStream]
  | cons d' ds =>
    simp only [sentBody, List.cons_ne_nil, ite_false, sendData, queue, flush, spend, setStream,
      Function.update_self, Function.update_idem, List.flatten_cons, List.length_append, H2State.mk.injEq, true_and]
    push_cast
    refine ⟨by omega, ?_, trivial⟩
    congr 1
    omega

end H2State

/-- The DATA frames of a body cut into `ds`, the last of which ends the stream if `last` says so. -/
def dataFrames (t : Nat) (last : Bool) : List Bytes → List Frame
  | [] => []
  | d :: ds => .data t d (last && decide (ds = [])) :: dataFrames t last ds

namespace Hyper

variable {σ : Type} [H2Connection σ] {view : σ → H2State} {conn : σ} {s t : Nat}

/-- The first of the DATA frames of a body of `n` bytes has `firstChunk v s n` bytes. -/
def firstChunk (v : H2State) (s n : Nat) : Nat := min (min (v.windowOf s).toNat n) v.maxFrameSize

/-- A turn of the loop sends something, if something is left. -/
theorem firstChunk_pos {v : H2State} {n : Nat} (h : 1 ≤ v.windowOf s) (hn : 0 < n) : 0 < firstChunk v s n := by
  have := v.maxFrameSize_pos
  simp only [firstChunk]
  omega

theorem firstChunk_le (v : H2State) (s n : Nat) : firstChunk v s n ≤ n := by
  simp only [firstChunk]
  omega

theorem length_take_firstChunk (v : H2State) (s : Nat) (data : Bytes) :
    (data.take (firstChunk v s data.length)).length = firstChunk v s data.length := by
  have := firstChunk_le v s data.length
  rw [List.length_take]
  omega

/-- What the loop sends of `data`, as the pieces `ds` of a prefix of it. -/
structure Sends (v : H2State) (s t : Nat) (data : Bytes) (ds : List Bytes) : Prop where
  isPrefix : ds.flatten <+: data
  le : ds ≠ [] → (ds.flatten.length : Int) ≤ v.windowOf t
  /-- The loop asks for the window of `s`; h2 refuses a frame that the window of `t` has no room for. -/
  starts : ds ≠ [] ↔ 1 ≤ v.windowOf s ∧ (firstChunk v s data.length : Int) ≤ v.windowOf t
  whole : 1 ≤ v.windowOf s → (data.length : Int) ≤ v.windowOf t → ds.flatten = data
  /-- On the stream whose window it asks for the loop uses the window up. -/
  rest : s = t → ds.flatten = data ∨ v.windowOf t - ds.flatten.length < 1

/-- Where there is room for all of the body, something of it is sent if there is a window to ask for. -/
theorem Sends.starts_iff {v : H2State} {data : Bytes} {ds : List Bytes} (h : Sends v s t data ds)
    (hfit : (data.length : Int) ≤ v.windowOf t) : ds ≠ [] ↔ 1 ≤ v.windowOf s := by
  rw [h.starts, and_iff_left_iff_imp]
  intro
  have := firstChunk_le v s data.length
  omega

/-- The loop stops before it has sent anything. -/
theorem sends_nil {v : H2State} {data : Bytes}
    (h : ¬ (1 ≤ v.windowOf s ∧ (firstChunk v s data.length : Int) ≤ v.windowOf t)) : Sends v s t data [] where
  isPrefix := List.nil_prefix
  le h := absurd rfl h
  starts := by simpa using h
  whole hs ht := by
    refine absurd ⟨hs, Int.le_trans ?_ ht⟩ h
    simp only [firstChunk]
    omega
  rest hst := by
    subst hst
    right
    simp only [firstChunk, List.flatten_nil, List.length_nil] at h ⊢
    omega

/-- The last piece is all that is left. -/
theorem sends_last {v : H2State} {data : Bytes} (hs : 1 ≤ v.windowOf s)
    (ht : (firstChunk v s data.length : Int) ≤ v.windowOf t) (hl : data.length ≤ firstChunk v s data.length) :
    Sends v s t data [data] where
  isPrefix := by simp
  le _ := by
    simp only [List.flatten_cons, List.flatten_nil, List.append_nil]
    omega
  starts := by simp [hs, ht]
  whole _ _ := by simp
  rest _ := by simp

/-- One piece is sent, and the loop goes on with the rest. -/
theorem sends_cons {v v' : H2State} {data : Bytes} {ds : List Bytes} (hs : 1 ≤ v.windowOf s)
    (ht : (firstChunk v s data.length : Int) ≤ v.windowOf t) (hlt : firstChunk v s data.length < data.length)
    (hw : v'.windowOf t = v.windowOf t - firstChunk v s data.length)
    (hws : s = t ∨ v'.windowOf s = min (v.window - firstChunk v s data.length) (v.streamWindow s))
    (h : Sends v' s t (data.drop (firstChunk v s data.length)) ds) :
    Sends v s t data (data.take (firstChunk v s data.length) :: ds) := by
  have hlen := length_take_firstChunk v s data
  refine ⟨?_, fun _ => ?_, by simp [hs, ht], fun _ hfit => ?_, fun hst => ?_⟩
  · obtain ⟨rest, hrest⟩ := h.isPrefix
    exact ⟨rest, by rw [List.flatten_cons, List.append_assoc, hrest, List.take_append_drop]⟩
  · rw [List.flatten_cons, List.length_append, hlen]
    by_cases hds : ds = []
    · subst hds
      simpa using ht
    · have := h.le hds
      omega
  · have hdrop : ((data.drop (firstChunk v s data.length)).length : Int) ≤ v'.windowOf t := by
      rw [List.length_drop]
      omega
    have hs' : 1 ≤ v'.windowOf s := by
      rcases hws with rfl | hws
      · rw [List.length_drop] at hdrop
        omega
      · -- The window of `s` itself is not spent, the connection's has room for the rest.
        simp only [H2State.windowOf] at hs hfit ⊢ hws
        omega
    rw [List.flatten_cons, h.whole hs' hdrop, List.take_append_drop]
  · rw [List.flatten_cons, List.length_append, hlen]
    rcases h.rest hst with hall | hrest
    · exact .inl (by rw [hall, List.take_append_drop])
    · right
      omega

/-- A turn of the loop that finds room: a piece is sent, and written after all that is queued. -/
theorem sendLoop_turn (D : Documented view) (data : Bytes) (last : Bool) (ht : (view conn).stream t = .body)
    (hfit : (firstChunk (view conn) s data.length : Int) ≤ (view conn).windowOf t) :
    let d := data.take (firstChunk (view conn) s data.length)
    ∃ conn₁ conn₂, H2Connection.sendData t d last conn = (.ok (), conn₁) ∧
      H2Connection.dataToSend conn₁ = ((view conn).outbound ++ [.data t d last], conn₂) ∧
      view conn₂ = ((view conn).sendData t d last).flush := by
  intro d
  have hlen : d.length = firstChunk (view conn) s data.length := length_take_firstChunk _ _ _
  have hmax : d.length ≤ (view conn).maxFrameSize := by
    rw [hlen]
    simp only [firstChunk]
    omega
  obtain ⟨conn₁, hsend, hv₁⟩ := D.sendData last ht (by rwa [hlen]) hmax
  obtain ⟨conn₂, hdata, hv₂⟩ := D.dataToSend conn₁
  rw [hv₁] at hdata hv₂
  exact ⟨conn₁, conn₂, hsend, hdata, hv₂⟩

/-- The stream whose window the loop asks for stays known. -/
theorem sendData_stream_ne_idle {v : H2State} (d : Bytes) (last : Bool) (hs : v.stream s ≠ .idle) :
    (v.sendData t d last).flush.stream s ≠ .idle := by
  rw [H2State.flush_stream]
  by_cases hst : s = t
  · subst hst
    rw [H2State.sendData_stream_self]
    cases last <;> simp [H2State.afterData]
  · rwa [H2State.sendData_stream_of_ne _ _ _ hst]

/-- A piece and others after it are all of the body if the others are all that is left of it. -/
theorem flatten_take_cons (data : Bytes) (ds : List Bytes) (n : Nat) :
    (data.take n :: ds).flatten = data ↔ ds.flatten = data.drop n := by
  rw [List.flatten_cons]
  constructor
  · intro h
    exact List.append_cancel_left (h.trans (List.take_append_drop _ _).symm)
  · intro h
    rw [h, List.take_append_drop]

/-- The loop of `handle_response` sends pieces of the body on `t`, writes all that is queued with
each of them, and raises nothing. -/
theorem sendLoop_spec (D : Documented view) (pushes : List Push) :
    ∀ (n : Nat) (data : Bytes) (conn : σ), data.length < n → (view conn).stream s ≠ .idle →
      (view conn).stream t = .body →
      ∃ (chunks : List (List Frame)) (ds : List Bytes) (conn' : σ),
        sendLoop s t pushes n data conn = (chunks, none, conn') ∧ Sends (view conn) s t data ds ∧
          let last := pushes.isEmpty && decide (ds.flatten = data)
          view conn' = (view conn).sentBody t last ds ∧
            chunks.flatten = if ds = [] then [] else (view conn).outbound ++ dataFrames t last ds
  | 0, _, _, hn, _, _ => absurd hn (Nat.not_lt_zero _)
  | n + 1, data, conn, hn, hs, ht => by
    simp only [sendLoop, D.localFlowControlWindow hs]
    split
    · rename_i hlt
      refine ⟨[], [], conn, rfl, sends_nil fun h => ?_, rfl, rfl⟩
      omega
    · rename_i hlt
      have hw : 1 ≤ (view conn).windowOf s := by omega
      have hchunk : min (min ((view conn).windowOf s).toNat data.length) (H2Connection.maxOutboundFrameSize conn) =
          firstChunk (view conn) s data.length := by
        rw [D.maxOutboundFrameSize]
        rfl
      have hlen := length_take_firstChunk (view conn) s data
      rw [hchunk]
      by_cases hfit : (firstChunk (view conn) s data.length : Int) ≤ (view conn).windowOf t
      · obtain ⟨conn₁, conn₂, hsend, hdata, hv₂⟩ := sendLoop_turn D data
          (pushes.isEmpty && decide (firstChunk (view conn) s data.length ≥ data.length)) ht hfit
        simp only [hsend, hdata]
        split
        · rename_i hdrop
          have hl := List.drop_eq_nil_iff.mp hdrop
          have htake := List.take_of_length_le hl
          rw [htake] at hv₂ ⊢
          refine ⟨_, [data], conn₂, rfl, sends_last hw hfit hl, ?_, ?_⟩
          · rw [H2State.sentBody_cons, H2State.sentBody_nil, hv₂]
            simp [hl]
          · simp [dataFrames, hl]
        · rename_i hdrop
          have hlt : firstChunk (view conn) s data.length < data.length := by
            rw [List.drop_eq_nil_iff] at hdrop
            omega
          have hpos := firstChunk_pos hw (Nat.zero_lt_of_lt hlt)
          -- More is left, so that this piece is not the last one sent.
          have hfin : (pushes.isEmpty && decide (firstChunk (view conn) s data.length ≥ data.length)) = false := by
            simp [hlt]
          rw [hfin] at hv₂
          have hst : (view conn₂).stream s ≠ .idle := hv₂ ▸ sendData_stream_ne_idle _ _ hs
          have htt : (view conn₂).stream t = .body := by
            rw [hv₂, H2State.flush_stream, H2State.sendData_stream_self]
            rfl
          obtain ⟨chunks, ds, conn₃, hrest, hsends, hv₃, hchunks⟩ := sendLoop_spec D pushes n
            (data.drop (firstChunk (view conn) s data.length)) conn₂ (by rw [List.length_drop]; omega) hst htt
          have hall := flatten_take_cons data ds (firstChunk (view conn) s data.length)
          have hnotLast : ((pushes.isEmpty && decide (ds.flatten = data.drop (firstChunk (view conn) s data.length))) &&
              decide (ds = [])) = false := by
            by_cases hds : ds = []
            · subst hds
              simp [Ne.symm hdrop]
            · simp [hds]
          refine ⟨_, data.take (firstChunk (view conn) s data.length) :: ds, conn₃, by rw [hrest],
            sends_cons hw hfit hlt ?_ ?_ hsends, ?_, ?_⟩
          · rw [hv₂, H2State.flush_windowOf, H2State.sendData_windowOf_self, hlen]
          · rw [hv₂, H2State.flush_windowOf]
            by_cases hst : s = t
            · exact .inl hst
            · exact .inr (by rw [H2State.sendData_windowOf_of_ne _ _ _ hst, hlen])
          · rw [H2State.sentBody_cons, decide_eq_decide.mpr hall, hnotLast, ← hv₂]
            exact hv₃
          · rw [if_neg (List.cons_ne_nil _ _), List.flatten_cons, hchunks, dataFrames, decide_eq_decide.mpr hall,
              hnotLast, hv₂, hfin, H2State.flush_outbound]
            by_cases hds : ds = []
            · simp [hds, dataFrames]
            · simp [hds]
      · have hover : (view conn).windowOf t < (data.take (firstChunk (view conn) s data.length)).length := by
          rw [hlen]
          omega
        obtain ⟨e, conn₁, hsend, he, hv⟩ := D.sendData_refused
          (pushes.isEmpty && decide (firstChunk (view conn) s data.length ≥ data.length)) ht hover
        simp only [hsend, he, if_true]
        exact ⟨[], [], conn₁, rfl, sends_nil fun h => hfit h.2, hv, rfl⟩

/-- Whether the pieces `ds` of the body end the stream: all of it has been sent, and nothing is pushed. -/
def endsStream (response : Response) (ds : List Bytes) : Bool :=
  response.pushes.isEmpty && decide (ds.flatten = response.body)

/-- The frames of a response, its body sent as far as `ds`. -/
def responseFrames (response : Response) (t : Nat) (ds : List Bytes) : List Frame :=
  .headers t (responseHeaders response) false :: dataFrames t (endsStream response ds) ds

/-- The state once the response has been sent on `t` as far as `ds`. -/
def responded (response : Response) (t : Nat) (ds : List Bytes) (v : H2State) : H2State :=
  (v.sendHeaders t (responseHeaders response)).sentBody t (endsStream response ds) ds

/-- The response is queued if nothing of its body has been sent, and nothing is queued else. -/
theorem responded_outbound (response : Response) (t : Nat) (ds : List Bytes) (v : H2State) :
    (responded response t ds v).outbound = if ds = [] then v.outbound ++ responseFrames response t ds else [] := by
  split
  · rename_i h
    subst h
    rfl
  · rename_i h
    exact H2State.sentBody_outbound _ _ h

theorem responded_stream_of_ne (response : Response) (ds : List Bytes) (v : H2State) (h : s ≠ t) :
    (responded response t ds v).stream s = v.stream s := by
  rw [responded, H2State.sentBody_stream_of_ne _ _ _ h, H2State.sendHeaders_stream_of_ne _ _ h]

theorem responded_stream (response : Response) (ds : List Bytes) (v : H2State) :
    (responded response t ds v).stream t = if ds ≠ [] ∧ endsStream response ds = true then .ended else .body := by
  unfold responded
  by_cases hds : ds = []
  · simp [hds]
  · simp [hds, H2State.sentBody_stream, H2State.afterData]

/-- A response is sent on a stream that waits for it, from its headers on. -/
theorem sendResponse_spec (D : Documented view) (response : Response) (ht : (view conn).stream t = .ready)
    (hs : (view conn).stream s ≠ .idle) :
    ∃ (chunks : List (List Frame)) (ds : List Bytes) (conn' : σ),
      sendResponse response s t conn = (chunks, none, conn') ∧ Sends (view conn) s t response.body ds ∧
        view conn' = responded response t ds (view conn) ∧
          chunks.flatten = if ds = [] then [] else (view conn).outbound ++ responseFrames response t ds := by
  obtain ⟨conn₁, hsend, hv₁⟩ := D.sendHeaders (responseHeaders response) ht
  have ht₁ : (view conn₁).stream t = .body := by rw [hv₁, H2State.sendHeaders_stream_self]
  have hs₁ : (view conn₁).stream s ≠ .idle := by
    by_cases hst : s = t
    · simp [hst, ht₁]
    · rwa [hv₁, H2State.sendHeaders_stream_of_ne _ _ hst]
  obtain ⟨chunks, ds, conn', hloop, hsends, hv', hchunks⟩ :=
    sendLoop_spec D response.pushes (response.body.length + 1) response.body conn₁ (Nat.lt_succ_self _) hs₁ ht₁
  rw [hv₁] at hsends hv' hchunks
  refine ⟨chunks, ds, conn', ?_, ⟨hsends.isPrefix, hsends.le, hsends.starts, hsends.whole, hsends.rest⟩, hv', ?_⟩
  · simp only [sendResponse, hsend, hloop]
  · rw [hchunks]
    simp [responseFrames, endsStream]

/-- A push is promised on a stream of its own, and the request's stream is ended. -/
theorem promise_spec (D : Documented view) {request : Request} {info : TransportInfo}
    (hinfo : request.transportInfo = some info) (he : (view conn).enablePush = true) (hodd : request.stream % 2 = 1)
    (hs : (view conn).stream request.stream = .body) :
    ∃ t conn', promise request conn = (.ok (some t), conn') ∧ (view conn).stream t = .idle ∧
      view conn' = (view conn).promised request.stream t (pushHeaders request info.sockname) := by
  obtain ⟨t, ht, hidle⟩ := D.getNextAvailableStreamId conn
  obtain ⟨conn₁, hpush, hv₁⟩ := D.pushStream (pushHeaders request info.sockname) he hodd hs ht
  have hne : request.stream ≠ t := by
    rintro rfl
    rw [hs] at hidle
    cases hidle
  have hs₁ : (view conn₁).stream request.stream = .body := by
    rw [hv₁, H2State.pushStream_stream_of_ne _ _ hne, hs]
  obtain ⟨conn₂, hend, hv₂⟩ := D.endStream hs₁
  refine ⟨t, conn₂, ?_, hidle, by rw [hv₂, hv₁, H2State.promised]⟩
  simp only [promise, hinfo, ht, hpush, hend]

/-- No push is promised on a stream that has ended. -/
theorem promise_refused (D : Documented view) {request : Request} {info : TransportInfo}
    (hinfo : request.transportInfo = some info) (hs : (view conn).stream request.stream = .ended) :
    ∃ conn', promise request conn = (.ok none, conn') ∧ view conn' = view conn := by
  obtain ⟨t, ht, -⟩ := D.getNextAvailableStreamId conn
  obtain ⟨e, conn', hpush, he, hv⟩ := D.pushStream_refused (t := t) (pushHeaders request info.sockname) hs
  exact ⟨conn', by simp [promise, hinfo, ht, hpush, he], hv⟩

end Hyper

end Levin
