import Levin.Proof.Connection.Receive
import Levin.Proof.Connection.Wire
import Levin.Proof.Http2.Demultiplexing
import Levin.Proof.Negotiation

/-!
# HTTP/2 connections of the server

The parser that the server tries first is the HTTP/2 one. As long as h2 reads the
chunks of a connection, and the events it reads are well formed stream by stream,
it stays with that parser, nothing is raised and the requests dispatched are those of
the streams that have ended, each once and in the order of their ends
(`http2_dispatched`), whatever happens between the chunks.
-/

namespace Levin.Server

open Framework Connection

variable {σ : Type} [H2Connection σ] {c c' : Connection (Server.Parser σ) Wire} {p p' : Hyper.Parser σ} {e : Event}
  {es : List Event} {events : List H2Event} {data : Bytes}

/-- The connection speaks HTTP/2 to the peer, or tries that first. -/
def Speaks (c : Connection (Server.Parser σ) Wire) (p : Hyper.Parser σ) : Prop :=
  c.parser = some (.http2 p) ∨ c.parser = none ∧ ∃ rest, c.parsers = .http2 p :: rest

/-- A chunk that the HTTP/2 parser accepts is parsed by it. -/
theorem Speaks.parse (h : Speaks c p) {parsed : Parsed Wire} (hr : Hyper.handleRequest data p = (.ok parsed, p')) :
    (c.parse data).2 = .ok (some parsed) ∧ (c.parse data).1.parser = some (.http2 p') := by
  have hhandle := http2_handleRequest hr
  rcases h with hp | ⟨hp, rest, hps⟩
  · simp [Connection.parse, hp, hhandle, Except.map]
  · simp [Connection.parse, hp, hps, selectParser, hhandle]

/-- The parser after an event that is no chunk: it has written the event's response, if there is one. -/
def afterResponse (c : Connection (Server.Parser σ) Wire) (e : Event) (p : Hyper.Parser σ) : Hyper.Parser σ :=
  (newResponse c e).elim p fun r => (Hyper.handleResponse r.1 r.2 p).2.2

theorem Speaks.step (hw : Wf c) (hp : Speaks c p) (h : Step c e c') (hne : ∀ data, e ≠ .dataReceived data) :
    Speaks c' (afterResponse c e p) := by
  have hparser := (step_yields hw h hne).1
  rcases hp with hp | ⟨hp, rest, hps⟩
  · left
    rw [hparser, afterResponse]
    cases newResponse c e with
    | none => exact hp
    | some r =>
      simp only [Option.elim, parserAfter, hp]
      rfl
  · obtain ⟨hkept, hnone⟩ := step_unused hw hp h hne
    have hsame : afterResponse c e p = p := by rw [afterResponse, hnone]; rfl
    rw [hnone] at hparser
    rw [hsame]
    exact .inr ⟨hparser.trans hp, rest, hkept.trans hps⟩

/-- A step of a connection together with the events that h2 has read: a chunk is one that h2 reads. -/
def Reads (s : Connection (Server.Parser σ) Wire × List H2Event) (e : Event)
    (s' : Connection (Server.Parser σ) Wire × List H2Event) : Prop :=
  Step s.1 e s'.1 ∧
    match e with
    | .dataReceived data => ∃ p events conn, Speaks s.1 p ∧
        H2Connection.receiveData data p.conn = (.ok events, conn) ∧ s'.2 = s.2 ++ events
    | _ => s'.2 = s.2

/-- What well-formed events have made of a connection. -/
structure Dispatched (c : Connection (Server.Parser σ) Wire) (events : List H2Event) : Prop extends Wf c where
  speaks : ∃ p, Speaks c p ∧ Hyper.Tracking events p
  escaped : c.escaped = []
  requests : c.requests = (endedIn events).map (Hyper.requestIn events)

omit [H2Connection σ] in
theorem Speaks.eq (h : Speaks c p) (h' : Speaks c p') : p = p' := by
  rcases h with h | ⟨h, rest, hps⟩ <;> rcases h' with h' | ⟨h', rest', hps'⟩ <;> simp_all

theorem Dispatched.chunk (hc : Dispatched c events) {new : List H2Event} {conn : σ} (hs : Speaks c p)
    (hread : H2Connection.receiveData data p.conn = (.ok new, conn)) (hwf : WellFormed (events ++ new))
    (h : Step c (.dataReceived data) c') : Dispatched c' (events ++ new) := by
  obtain ⟨q, hq, htracking⟩ := hc.speaks
  obtain rfl := hs.eq hq
  have htracking' : Hyper.Tracking events { p with conn := (H2Connection.dataToSend conn).2 } := fun k l hl => htracking hl
  obtain ⟨parsed, p', he, -, ht, hreq⟩ := Hyper.parseEvents_tracks htracking' hwf
    { data := (H2Connection.dataToSend conn).1.map .frame, requests := [], close := false }
  have hhandle : Hyper.handleRequest data p = (.ok parsed, p') := by
    simp only [Hyper.handleRequest, hread]
    exact he
  obtain ⟨hparsed, hparser⟩ := hs.parse hhandle
  have hrequests : newRequests c (.dataReceived data) = (endedIn new).map (Hyper.requestIn (events ++ new)) := by
    simp only [newRequests, hparsed, hreq, List.nil_append]
  obtain ⟨-, rfl⟩ := step_dataReceived.mp h
  refine ⟨step_wf hc.toWf h, ⟨p', .inl ?_, ht⟩, ?_, ?_⟩
  · rw [receive_parsers hc.toPending hparsed, hparser]
  · rw [receive_of_accepts hc.toPending (accepts_iff.mpr ⟨parsed, hparsed⟩), hc.escaped]
  · rw [step_requests hc.toWf h, hrequests, hc.requests, Hyper.endedIn_append, List.map_append]
    congr 1
    exact List.map_congr_left fun t ht => (Hyper.requestIn_append hwf ht).symm

theorem Dispatched.step (hc : Dispatched c events) (h : Step c e c') (hne : ∀ data, e ≠ .dataReceived data) :
    Dispatched c' events := by
  obtain ⟨p, hp, htracking⟩ := hc.speaks
  refine ⟨step_wf hc.toWf h, ⟨_, hp.step hc.toWf h hne, ?_⟩, ?_, ?_⟩
  · have hstreams : (afterResponse c e p).streams = p.streams := by
      unfold afterResponse
      cases newResponse c e <;> rfl
    intro k l hl
    show (afterResponse c e p).streams.get? k = _
    rw [hstreams]
    exact htracking hl
  · rw [step_escaped hc.toWf h hne, hc.escaped]
  · have hnone : newRequests c e = [] := by
      cases e with
      | dataReceived data => exact absurd rfl (hne data)
      | _ => rfl
    rw [step_requests hc.toWf h, hnone, List.append_nil, hc.requests]

/-- In every run in which h2 reads the chunks, and what it reads is well formed: the connection is still the HTTP/2
parser's, no exception has come out of `data_received`, and the requests dispatched are those of the streams that have
ended, one each, in the order of their ends. -/
theorem http2_dispatched {conn : σ} {feedData : Bytes → HttpTools.Fed} {info : TransportInfo} {sslcontext : Bool}
    (h : Run Reads (fresh (parsers conn feedData) info sslcontext, []) es (c, events)) (hwf : WellFormed events) :
    (∃ p, Speaks c p) ∧ c.escaped = [] ∧ (endedIn events).Nodup ∧
      c.requests = (endedIn events).map (Hyper.requestIn events) := by
  have hall : WellFormed events → Dispatched c events := by
    refine h.invariant (I := fun s => WellFormed s.2 → Dispatched s.1 s.2) (fun _ => ?_) ?_
    · refine ⟨wf_fresh _ _ _, ⟨_, .inr ⟨rfl, _, rfl⟩, .nil fun k => rfl⟩, rfl, rfl⟩
    · rintro ⟨c, events⟩ e ⟨c', events'⟩ hI ⟨hstep, hread⟩ hwf
      cases e with
      | dataReceived data =>
        obtain ⟨p, new, conn, hp, hreceive, rfl⟩ := hread
        exact (hI hwf.of_append).chunk hp hreceive hwf hstep
      | _ =>
        obtain rfl := hread
        exact (hI hwf).step hstep nofun
  have hd := hall hwf
  obtain ⟨p, hp, -⟩ := hd.speaks
  exact ⟨⟨p, hp⟩, hd.escaped, Hyper.endedIn_nodup hwf, hd.requests⟩

/-- A connection of the server to a client that has sent its preface. -/
def reading : Connection (Server.Parser Reader) Wire :=
  fresh (parsers { preface := false } fun _ => { callbacks := [], exc := none, method := [], version := [] })
    createConnection.transport.info false

/-- The events of two requests at once. -/
def twoRequests : List H2Event :=
  Hyper.received (Hyper.feed Hyper.twoStreams Hyper.started).1

theorem reading_dispatched :
    (∃ p, Speaks (reading.receive Hyper.twoStreams.flatten) p) ∧
      (reading.receive Hyper.twoStreams.flatten).escaped = [] ∧ (endedIn twoRequests).Nodup ∧
      (reading.receive Hyper.twoStreams.flatten).requests =
        (endedIn twoRequests).map (Hyper.requestIn twoRequests) := by
  have hread : (H2Connection.receiveData Hyper.twoStreams.flatten
      (H2Connection.initiateConnection ({ preface := false } : Reader))).1 = .ok twoRequests := by
    decide
  generalize hr : H2Connection.receiveData Hyper.twoStreams.flatten
    (H2Connection.initiateConnection ({ preface := false } : Reader)) = read at hread
  obtain ⟨result, conn⟩ := read
  obtain rfl : result = .ok twoRequests := hread
  have hstep : Reads (reading, []) (.dataReceived Hyper.twoStreams.flatten)
      (reading.receive Hyper.twoStreams.flatten, twoRequests) :=
    ⟨step_dataReceived.mpr ⟨rfl, rfl⟩, _, twoRequests, conn, .inr ⟨rfl, _, rfl⟩, hr, (List.nil_append _).symm⟩
  exact http2_dispatched (.single hstep) (by decide)

end Levin.Server
