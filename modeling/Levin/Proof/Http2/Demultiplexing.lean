import Levin.Proof.Http2.Reader
import Levin.Proof.Http2.Streams

/-!
# Runs of the HTTP/2 parser

A parser object is called with chunks and responses, in any order. As long as the
events h2 reads from the chunks are well formed stream by stream, no call raises
and each stream that ends gives one request, its own (`demultiplexed`). An
unfinished request stays in the table until its stream ends, which a stream that
is reset never does: so the table holds the live streams and no others exactly
if no stream is reset before its end (`table_exact_iff`).
-/

namespace Levin.Hyper

open Framework Bytes

/-- A call on a parser object. -/
inductive Call
  | connect
  /-- `handle_request` of a chunk that h2 reads: its events, and the result. -/
  | request (data : Bytes) (events : List H2Event) (result : Except Exc (Parsed Wire))
  /-- `handle_request` of a chunk that h2 refuses. -/
  | refused (data : Bytes) (result : Except Exc (Parsed Wire))
  | response (response : Response) (request : Request)

/-- The events of the chunks, in one sequence. -/
def received (calls : List Call) : List H2Event :=
  calls.flatMap fun | .request _ events _ => events | _ => []

/-- What `handle_request` returns for the chunks that h2 reads. -/
def results (calls : List Call) : List (Except Exc (Parsed Wire)) :=
  calls.filterMap fun | .request _ _ result => some result | _ => none

/-- The requests handed out for them. -/
def handedOut (calls : List Call) : List Request :=
  (results calls).flatMap fun | .ok parsed => parsed.requests | .error _ => []

variable {σ : Type} [H2Connection σ] {p₀ p p' : Parser σ} {calls : List Call}

/-- A call takes the parser to its next state. -/
inductive Step : Parser σ → Call → Parser σ → Prop
  | connect (p : Parser σ) : Step p .connect (ParserProtocol.connect p)
  | request {p : Parser σ} {data : Bytes} {events : List H2Event} {conn : σ}
    (h : H2Connection.receiveData data p.conn = (.ok events, conn)) :
    Step p (.request data events (handleRequest data p).1) (handleRequest data p).2
  | refused {p : Parser σ} {data : Bytes} {e : Exc} {conn : σ}
    (h : H2Connection.receiveData data p.conn = (.error e, conn)) :
    Step p (.refused data (handleRequest data p).1) (handleRequest data p).2
  | response (p : Parser σ) (response : Response) (request : Request) :
    Step p (.response response request) (handleResponse response request p).2.2

/-- The call that hands the parser a chunk. -/
def callRequest (data : Bytes) (p : Parser σ) : Call :=
  match H2Connection.receiveData data p.conn with
  | (.ok events, _) => .request data events (handleRequest data p).1
  | (.error _, _) => .refused data (handleRequest data p).1

/-- The calls that hand it chunks one after the other, and the parser they lead to. -/
def feed : List Bytes → Parser σ → List Call × Parser σ
  | [], p => ([], p)
  | data :: chunks, p =>
    let (calls, p') := feed chunks (handleRequest data p).2
    (callRequest data p :: calls, p')

theorem step_callRequest (data : Bytes) (p : Parser σ) : Step p (callRequest data p) (handleRequest data p).2 := by
  unfold callRequest
  split
  · exact .request ‹_›
  · exact .refused ‹_›

theorem run_feed (chunks : List Bytes) (p : Parser σ) : Run Step p (feed chunks p).1 (feed chunks p).2 := by
  induction chunks generalizing p with
  | nil => exact .nil
  | cons data chunks ih => exact .cons (step_callRequest data p) (ih _)

/-! ## One request a stream -/

/-- A chunk that h2 refuses leaves the table as it is. -/
theorem handleRequest_refused {data : Bytes} {e : Exc} {conn : σ}
    (h : H2Connection.receiveData data p.conn = (.error e, conn)) : (handleRequest data p).2.streams = p.streams := by
  have hupgrade : ∀ q : Parser σ, (handleHttp1 data q).2.streams = q.streams := by
    intro q
    simp only [handleHttp1]
    repeat' split
    all_goals rfl
  simp only [handleRequest, h]
  split
  · have := hupgrade { p with conn }
    split <;> simp_all
  · rfl

/-- What well-formed events have made of the parser and of the calls before. -/
structure Demultiplexed (calls : List Call) (p : Parser σ) : Prop where
  tracking : Tracking (received calls) p
  ok : ∀ result ∈ results calls, ∃ parsed, result = .ok parsed
  handedOut : handedOut calls = (endedIn (received calls)).map (requestIn (received calls))

theorem received_append (calls calls' : List Call) :
    received (calls ++ calls') = received calls ++ received calls' := List.flatMap_append

theorem results_append (calls calls' : List Call) : results (calls ++ calls') = results calls ++ results calls' :=
  List.filterMap_append

theorem handedOut_append (calls calls' : List Call) :
    handedOut (calls ++ calls') = handedOut calls ++ handedOut calls' := by
  rw [handedOut, results_append, List.flatMap_append]
  rfl

namespace Demultiplexed

omit [H2Connection σ] in
/-- A call that reads nothing and leaves the table as it is. -/
theorem quiet (h : Demultiplexed calls p) (hp : p'.streams = p.streams) {call : Call}
    (hr : received [call] = []) (hres : results [call] = []) : Demultiplexed (calls ++ [call]) p' where
  tracking := by
    rw [received_append, hr, List.append_nil]
    intro k l hl
    show p'.streams.get? k = _
    rw [hp]
    exact h.tracking hl
  ok := by
    rw [results_append, hres, List.append_nil]
    exact h.ok
  handedOut := by
    have hnone : Hyper.handedOut [call] = [] := by rw [Hyper.handedOut, hres]; rfl
    rw [handedOut_append, received_append, hnone, hr, List.append_nil, List.append_nil]
    exact h.handedOut

/-- A chunk of events that keep the sequence well formed. -/
theorem chunk (h : Demultiplexed calls p) {data : Bytes} {events : List H2Event} {conn : σ}
    (hconn : H2Connection.receiveData data p.conn = (.ok events, conn))
    (hwf : WellFormed (received calls ++ events)) :
    Demultiplexed (calls ++ [.request data events (handleRequest data p).1]) (handleRequest data p).2 := by
  have htracking : Tracking (received calls) { p with conn := (H2Connection.dataToSend conn).2 } :=
    fun k l hl => h.tracking hl
  obtain ⟨parsed, p', he, -, ht, hreq⟩ := parseEvents_tracks htracking hwf
    { data := (H2Connection.dataToSend conn).1.map .frame, requests := [], close := false }
  have hhandle : handleRequest data p = (.ok parsed, p') := by
    simp only [handleRequest, hconn]
    exact he
  have hreceived : received (calls ++ [.request data events (handleRequest data p).1]) = received calls ++ events := by
    rw [received_append]
    simp [received]
  rw [List.nil_append] at hreq
  refine ⟨?_, ?_, ?_⟩
  · rwa [hreceived, hhandle]
  · intro result hmem
    rw [results_append] at hmem
    rcases List.mem_append.mp hmem with hmem | hmem
    · exact h.ok result hmem
    · exact ⟨parsed, by rw [List.mem_singleton.mp hmem, hhandle]⟩
  · rw [hreceived, handedOut_append, h.handedOut, endedIn_append, List.map_append, hhandle]
    congr 1
    · exact List.map_congr_left fun t ht => (requestIn_append hwf ht).symm
    · rw [← hreq]
      exact List.append_nil _

end Demultiplexed

theorem demultiplexed_run (h₀ : p₀.streams = []) (h : Run Step p₀ calls p) (hwf : WellFormed (received calls)) :
    Demultiplexed calls p := by
  induction h with
  | nil => exact ⟨.nil fun k => by rw [h₀]; rfl, by simp [results], rfl⟩
  | snoc _ hs ih =>
    rw [received_append] at hwf
    have ih := ih hwf.of_append
    cases hs with
    | connect => apply ih.quiet <;> rfl
    | refused hconn => apply ih.quiet (handleRequest_refused hconn) <;> rfl
    | response => apply ih.quiet <;> rfl
    | request hconn =>
      apply ih.chunk hconn
      simpa [received] using hwf

/-- Whatever comes between the events of a stream, and however they are grouped into chunks: no call
raises, and the streams that have ended have given one request each, in the order of their ends, with the
method, path and headers of the stream's own request and all of its own data as the body. -/
theorem demultiplexed (h₀ : p₀.streams = []) (h : Run Step p₀ calls p) (hwf : WellFormed (received calls)) :
    (∀ result ∈ results calls, ∃ parsed, result = .ok parsed) ∧ (endedIn (received calls)).Nodup ∧
      handedOut calls = (endedIn (received calls)).map (requestIn (received calls)) :=
  have hd := demultiplexed_run h₀ h hwf
  ⟨hd.ok, endedIn_nodup hwf, hd.handedOut⟩

/-- A connection whose preface has been read. -/
def started : Parser Reader := { conn := { preface := false } }

/-- Two streams at once: a request with a body in two pieces, and one without that ends before it. -/
def twoStreams : List Bytes :=
  [Reader.headersFrame 0x83 1 ++ Reader.dataFrame 1 (ascii "he") false,
    Reader.headersFrame 0x82 3 ++ Reader.dataFrame 3 [] true ++ Reader.dataFrame 1 (ascii "y") true]

theorem twoStreams_demultiplexed : handedOut (feed twoStreams started).1 =
    [requestOf 3 [(ascii ":method", ascii "GET"), (ascii ":path", ascii "/"), (ascii ":scheme", ascii "http")] [],
      requestOf 1 [(ascii ":method", ascii "POST"), (ascii ":path", ascii "/"), (ascii ":scheme", ascii "http")]
        (ascii "hey")] := by
  have h := demultiplexed rfl (run_feed twoStreams started) (by decide)
  exact h.2.2.trans (by decide)

/-! ## The streams in the table -/

/-- The table has the streams whose request has come and that have neither ended nor been reset. -/
def TableExact (events : List H2Event) (p : Parser σ) : Prop :=
  ∀ t, t ∈ p.streams.map Prod.fst ↔
    (∃ fields, .RequestReceived t fields ∈ events) ∧ .StreamEnded t ∉ events ∧ .StreamReset t ∉ events

/-- No stream is reset that has not ended. -/
def NoneCut (events : List H2Event) : Prop :=
  ∀ before t after, events = before ++ .StreamReset t :: after → .StreamEnded t ∈ before

/-- No stream is cut off in its life. -/
theorem noneCut_iff {events : List H2Event} (hwf : WellFormed events) :
    NoneCut events ↔ ∀ t fields data, ¬ Run Life.Step .idle (ofStream t events) (.cut fields data) := by
  constructor
  · intro h t fields data hcut
    obtain ⟨hreset, hended⟩ := (Life.cut_iff hcut).mpr ⟨fields, data, rfl⟩
    rw [exists_ofStream fun _ => rfl] at hreset hended
    obtain ⟨before, after, e⟩ := List.append_of_mem hreset
    apply hended
    rw [e]
    exact List.mem_append_left _ (h before t after e)
  · intro h before t after e
    rw [e, List.append_cons] at hwf
    obtain ⟨m, m', hm, hs⟩ := hwf.of_append.step (k := t) rfl
    obtain ⟨l, hl⟩ := hwf t
    have hm' := Run.on_snoc (R := Life.Step) (k := t) rfl hm hs
    cases hs with
    | cut _ fields data =>
      -- The stream would be cut off from here on.
      exfalso
      rw [on_append] at hl
      obtain ⟨m₁, hm₁, hl₁⟩ := Run.append_iff.mp hl
      obtain rfl := hm₁.det (R := Life.Step) (fun _ _ _ _ => Life.step_det) hm'
      obtain rfl := Life.stays (.inr rfl) hl₁
      apply h t fields data
      rw [e, List.append_cons, ofStream, on_append]
      exact Run.append hm' hl₁
    | late _ fields data => exact mem_endedIn.mp ((mem_endedIn_iff hm).mpr ⟨fields, data, rfl⟩)

omit [H2Connection σ] in
/-- A stream is in the table while it is open, and for good if it has been cut off. -/
theorem mem_table_iff {events : List H2Event} {t : Nat} {l : Life} (h : Tracking events p)
    (hl : Run Life.Step .idle (ofStream t events) l) :
    t ∈ p.streams.map Prod.fst ↔ l ≠ .idle ∧ ∀ fields data, l ≠ .ended fields data := by
  rw [← Dict.get?_ne_none, h hl]
  cases l <;> simp [pending]

/-- The table holds no dead stream exactly if every stream that was reset had ended before. -/
theorem table_exact_iff (h₀ : p₀.streams = []) (h : Run Step p₀ calls p) (hwf : WellFormed (received calls)) :
    TableExact (received calls) p ↔ NoneCut (received calls) := by
  have htracking := (demultiplexed_run h₀ h hwf).tracking
  rw [noneCut_iff hwf]
  refine ⟨fun hexact t fields data hcut => ?_, fun hnone t => ?_⟩
  · have hmem := (mem_table_iff htracking hcut).mpr ⟨nofun, nofun⟩
    have hreset := ((Life.cut_iff hcut).mpr ⟨fields, data, rfl⟩).1
    rw [exists_ofStream fun _ => rfl] at hreset
    exact ((hexact t).mp hmem).2.2 hreset
  · obtain ⟨l, hl⟩ := hwf t
    have hbegan : (∃ fields, .RequestReceived t fields ∈ received calls) ↔ l ≠ .idle := by
      rw [← Life.began_iff hl, exists_comm]
      exact exists_congr fun fields => (exists_ofStream (f := (.RequestReceived · fields)) fun _ => rfl).symm
    have hended : .StreamEnded t ∉ received calls ↔ ∀ fields data, l ≠ .ended fields data := by
      rw [← exists_ofStream fun _ => rfl, Life.ended_iff hl]
      simp only [not_exists]
    have huncut : .StreamEnded t ∉ received calls → .StreamReset t ∉ received calls := by
      intro hunended hreset
      rw [← exists_ofStream fun _ => rfl] at hunended hreset
      obtain ⟨fields, data, rfl⟩ := (Life.cut_iff hl).mp ⟨hreset, hunended⟩
      exact hnone t fields data hl
    rw [mem_table_iff htracking hl, hbegan, ← hended]
    exact and_congr_right fun _ => ⟨fun h => ⟨h, huncut h⟩, And.left⟩

/-- Of the two streams, one is still open after the first chunk. -/
theorem twoStreams_exact : (feed (twoStreams.take 1) started).2.streams.map Prod.fst = [1] ∧
    TableExact (received (feed (twoStreams.take 1) started).1) (feed (twoStreams.take 1) started).2 := by
  refine ⟨by decide, (table_exact_iff rfl (run_feed _ started) (by decide)).mpr ?_⟩
  intro before t after e
  have hmem : .StreamReset t ∈ received (feed (twoStreams.take 1) started).1 := e ▸ by simp
  have hreceived : received (feed (twoStreams.take 1) started).1 =
      [.RequestReceived 1 [(ascii ":method", ascii "POST"), (ascii ":path", ascii "/"), (ascii ":scheme", ascii "http")],
        .DataReceived 1 (ascii "he")] := by decide
  simp [hreceived] at hmem

/-- A client that gives up a request, and one that starts the next. -/
def givenUp : List Bytes := [Reader.headersFrame 0x83 1 ++ Reader.resetFrame 1, Reader.headersFrame 0x82 3]

/-- The stream given up stays in the table. -/
theorem givenUp_not_exact : Run Step started (feed givenUp started).1 (feed givenUp started).2 ∧
    WellFormed (received (feed givenUp started).1) ∧
    ¬ TableExact (received (feed givenUp started).1) (feed givenUp started).2 := by
  refine ⟨run_feed givenUp started, by decide, fun h => ?_⟩
  have hmem : 1 ∈ (feed givenUp started).2.streams.map Prod.fst := by decide
  exact absurd ((h 1).mp hmem).2.2 (by decide)

end Levin.Hyper
