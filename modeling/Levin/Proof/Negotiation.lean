import Levin.Core.Server
import Levin.Framework.Lines
import Levin.Proof.Http2.Reader

/-!
# Which protocol a connection speaks

A new connection offers its first chunk to the HTTP/2 parser first. What h2 refuses
there may still be an HTTP/1 request that asks for an upgrade: then the parser
answers with the 101 response and keeps the connection, and otherwise it raises
`ParseError` and the simple HTTP/1 parser takes the chunk (`negotiated`).
-/

namespace Levin

open Framework Bytes

namespace HttpSimple

/-- A loop that has found a path has read a request line. -/
theorem exists_firstLine {v v' : Locals} {lines : List Bytes} (h : parseLines v lines = .ok v') (hv : v.path = [])
    (hv' : v'.path ≠ []) : ∃ line ∈ lines, ∃ r, parseFirstLine line = .ok r := by
  induction lines generalizing v with
  | nil =>
    simp only [parseLines, Except.ok.injEq] at h
    exact absurd (h ▸ hv) hv'
  | cons line lines ih =>
    cases hline : parseFirstLine line with
    | ok r => exact ⟨line, List.mem_cons_self, r, hline⟩
    | error e => simp [parseLines, parseLine, hv, hline] at h

theorem contains_of_firstLine {line : Bytes} {r : Bytes × Bytes × Bytes} (h : parseFirstLine line = .ok r) :
    contains (ascii "HTTP") line = true := by
  unfold parseFirstLine at h
  split at h
  · rename_i method path version hsplit
    split at h
    · rename_i hversion
      rw [contains_iff] at hversion ⊢
      apply hversion.trans
      apply (split_pieces 32 line).2
      simp [hsplit]
    · exact nomatch h
  · exact nomatch h

/-- What the simple parser accepts names HTTP. -/
theorem contains_of_accepted {data : Bytes} {request : Request} (h : parseRequest data = .ok request) :
    contains (ascii "HTTP") data = true := by
  unfold parseRequest at h
  split at h
  · exact nomatch h
  · rename_i v hv
    split at h
    · rename_i hpath
      obtain ⟨line, hline, r, hr⟩ := exists_firstLine hv rfl hpath.1
      have hpart := contains_iff.mp (contains_of_firstLine hr)
      exact contains_iff.mpr (hpart.trans ((splitlines_pieces data).2 line hline))
    · exact nomatch h

end HttpSimple

namespace Server

/-- A request that asks for HTTP/2. -/
def AsksForH2c (request : Request) : Prop :=
  Dict.get? request.headers (ascii "upgrade") = some (ascii "h2c") ∧
    (Dict.get? request.headers (ascii "http2-settings")).getD [] ≠ []

instance (request : Request) : Decidable (AsksForH2c request) := inferInstanceAs (Decidable (_ ∧ _))

/-- The response that switches protocols, with the empty line that ends it. -/
def switchingProtocols : Bytes :=
  ascii "HTTP/1.1 101 Switching Protocols\r\nConnection: Upgrade\r\nUpgrade: h2c\r\n\r\n"

variable {σ : Type} [H2Connection σ] {data : Bytes} {request : Request}

/-- A new connection of h2 refuses what is neither a part of the client's preface nor begins with it. -/
def RefusesHttp1 (conn : σ) : Prop :=
  ∀ data, ¬ data <+: Reader.clientPreface → ¬ Reader.clientPreface <+: data →
    ∃ e c, H2Connection.receiveData data conn = (.error e, c) ∧ e.isProtocolError = true

/-- The connection of h2 accepts the settings of a request. -/
def AcceptsSettings (conn : σ) (request : Request) : Prop :=
  ∀ settings, Dict.get? request.headers (ascii "http2-settings") = some settings →
    (H2Connection.initiateUpgradeConnection settings conn).1 = .ok ()

/-- The connection that is upgraded: one that has refused the chunk, and whose answer to it is dropped. -/
def refused (data : Bytes) (conn : σ) : σ :=
  H2Connection.clearOutboundDataBuffer (H2Connection.receiveData data conn).2

theorem upgradeResponse_eq :
    (HttpSimple.handleResponse Hyper.upgradeResponse).1.chunks.flatten ++ HttpSimple.CRLF = switchingProtocols := by
  decide

theorem handleHttp1ToHttp2_eq (h : HttpSimple.parseRequest data = .ok request) :
    Hyper.handleHttp1ToHttp2 data = .ok (
      if AsksForH2c request then
        (some { request with stream := 1 }, (HttpSimple.handleResponse Hyper.upgradeResponse).1.chunks.flatten)
      else (some request, [])) := by
  have hparsed : HttpSimple.handleRequest data = .ok { data := [], requests := [request], close := false } := by
    simp only [HttpSimple.handleRequest, h]
  simp only [Hyper.handleHttp1ToHttp2, HttpSimple.contains_of_accepted h, if_true, hparsed]
  by_cases hasks : AsksForH2c request
  · rw [if_pos hasks, if_neg]
    rintro (hne | hnil)
    · exact hne hasks.1
    · exact hasks.2 hnil
  · rw [if_neg hasks, if_pos]
    by_contra hno
    rw [not_or, Classical.not_not] at hno
    exact hasks hno

/-- A request that asks for no upgrade is not for the HTTP/2 parser. -/
theorem handleHttp1_declines (h : HttpSimple.parseRequest data = .ok request) (hasks : ¬ AsksForH2c request)
    (p : Hyper.Parser σ) : Hyper.handleHttp1 data p = (.error .ParseError, p) := by
  simp only [Hyper.handleHttp1, handleHttp1ToHttp2_eq h, if_neg hasks]

/-- A request that asks for one is answered with the 101 response and what h2 sends first. -/
theorem handleHttp1_upgrades (h : HttpSimple.parseRequest data = .ok request) (hasks : AsksForH2c request)
    {p : Hyper.Parser σ} (hsettings : AcceptsSettings (H2Connection.clearOutboundDataBuffer p.conn) request) :
    ∃ (frames : List Frame) (p' : Hyper.Parser σ),
      Hyper.handleHttp1 data p =
        (.ok (switchingProtocols.map .byte ++ frames.map .frame, [{ request with stream := 1 }]), p') := by
  obtain ⟨settings, hget⟩ : ∃ settings, Dict.get? request.headers (ascii "http2-settings") = some settings := by
    rw [← Option.ne_none_iff_exists']
    exact fun hnone => hasks.2 (by rw [hnone]; rfl)
  have haccepts := hsettings settings hget
  have hne : (HttpSimple.handleResponse Hyper.upgradeResponse).1.chunks.flatten ≠ [] := by decide
  have heq := handleHttp1ToHttp2_eq h
  rw [if_pos hasks] at heq
  rw [← upgradeResponse_eq]
  generalize (HttpSimple.handleResponse Hyper.upgradeResponse).1.chunks.flatten = bytes at hne heq
  cases bytes with
  | nil => exact absurd rfl hne
  | cons b bytes =>
    simp only [Hyper.handleHttp1, heq, hget]
    split
    · rename_i e conn hup
      rw [hup] at haccepts
      cases haccepts
    · exact ⟨_, _, rfl⟩

/-- The parsers of a new connection, where the HTTP/2 parser has begun its own. -/
theorem connected_parsers (conn : σ) (feedData : Bytes → HttpTools.Fed) :
    (parsers conn feedData).map ParserProtocol.connect =
      [.http2 { conn := H2Connection.initiateConnection conn }, .http1 {}, .httpTools { feedData }] := rfl

theorem http2_handleRequest {p p' : Hyper.Parser σ} {result : Except Exc (Parsed Wire)}
    (h : Hyper.handleRequest data p = (result, p')) :
    ParserProtocol.handleRequest (Parser.http2 p) data = (result, .http2 p') := by
  simp only [ParserProtocol.handleRequest, h]

/-- The first parser of a new connection takes the chunk. -/
theorem parse_http2 {conn : σ} {p : Hyper.Parser σ} {parsed : Parsed Wire} (feedData : Bytes → HttpTools.Fed)
    (transport : Transport)
    (h : Hyper.handleRequest data { conn := H2Connection.initiateConnection conn } = (.ok parsed, p)) :
    ((handleConnection conn feedData transport).parse data).1.parser = some (.http2 p) ∧
      ((handleConnection conn feedData transport).parse data).2 = .ok (some parsed) := by
  have hselect : Connection.selectParser data ((parsers conn feedData).map ParserProtocol.connect) =
      ([.http2 p, .http1 {}, .httpTools { feedData }], .ok (some (.http2 p, parsed))) := by
    rw [connected_parsers]
    simp only [Connection.selectParser, http2_handleRequest h]
  simp only [Connection.parse, handleConnection, Connection.connectionMade, hselect]
  exact ⟨trivial, trivial⟩

/-- The first parser declines the chunk, and the second takes it. -/
theorem parse_http1 {conn : σ} {p : Hyper.Parser σ} (feedData : Bytes → HttpTools.Fed) (transport : Transport)
    (h : Hyper.handleRequest data { conn := H2Connection.initiateConnection conn } = (.error .ParseError, p))
    (hparse : HttpSimple.parseRequest data = .ok request) :
    ((handleConnection conn feedData transport).parse data).1.parser = some (.http1 {}) ∧
      ((handleConnection conn feedData transport).parse data).2 =
        .ok (some { data := [], requests := [request], close := false }) := by
  have hsecond : ParserProtocol.handleRequest (Parser.http1 {} : Parser σ) data =
      (.ok { data := [], requests := [request], close := false }, .http1 {}) := by
    simp only [ParserProtocol.handleRequest, HttpSimple.handleRequest, hparse]
    rfl
  have hselect : Connection.selectParser data ((parsers conn feedData).map ParserProtocol.connect) =
      ([.http2 p, .http1 {}, .httpTools { feedData }],
        .ok (some (.http1 {}, { data := [], requests := [request], close := false }))) := by
    rw [connected_parsers]
    simp only [Connection.selectParser, http2_handleRequest h, hsecond]
  simp only [Connection.parse, handleConnection, Connection.connectionMade, hselect]
  exact ⟨trivial, trivial⟩

/-- The first chunk of a connection, if it is an HTTP/1 request: one that asks for HTTP/2 selects the
HTTP/2 parser, which answers with a complete 101 response before anything else and hands the request out
for stream 1. Any other selects the simple HTTP/1 parser, which hands it out as it is and sends nothing. -/
theorem negotiated {conn : σ} (hrefuses : RefusesHttp1 (H2Connection.initiateConnection conn))
    (hshort : ¬ data <+: Reader.clientPreface) (hlong : ¬ Reader.clientPreface <+: data)
    (h : HttpSimple.parseRequest data = .ok request)
    (hsettings : AcceptsSettings (refused data (H2Connection.initiateConnection conn)) request)
    (feedData : Bytes → HttpTools.Fed) (transport : Transport) :
    let (c, result) := (handleConnection conn feedData transport).parse data
    if AsksForH2c request then
      (∃ p, c.parser = some (.http2 p)) ∧ ∃ frames : List Frame, result = .ok (some {
        data := switchingProtocols.map .byte ++ frames.map .frame,
        requests := [{ request with stream := 1 }], close := false })
    else
      c.parser = some (.http1 {}) ∧
        result = .ok (some { data := [], requests := [request], close := false }) := by
  obtain ⟨e, c, hreceive, he⟩ := hrefuses data hshort hlong
  rw [refused, hreceive] at hsettings
  dsimp only
  split
  · rename_i hasks
    obtain ⟨frames, p, hup⟩ := handleHttp1_upgrades (p := { conn := c }) h hasks hsettings
    have hhyper : Hyper.handleRequest data { conn := H2Connection.initiateConnection conn } =
        (.ok { data := switchingProtocols.map .byte ++ frames.map .frame,
               requests := [{ request with stream := 1 }], close := false }, p) := by
      simp only [Hyper.handleRequest, hreceive, he, if_true, hup]
    obtain ⟨hparser, hresult⟩ := parse_http2 feedData transport hhyper
    exact ⟨⟨p, hparser⟩, frames, hresult⟩
  · rename_i hasks
    have hhyper : Hyper.handleRequest data { conn := H2Connection.initiateConnection conn } =
        (.error .ParseError, { conn := c }) := by
      simp only [Hyper.handleRequest, hreceive, he, if_true, handleHttp1_declines h hasks]
    exact parse_http1 feedData transport hhyper h

theorem refusesHttp1_reader : RefusesHttp1 (H2Connection.initiateConnection ({} : Reader)) := by
  intro data hshort hlong
  refine ⟨.ProtocolError, { sender := H2Connection.initiateConnection ({} : Reference), buffer := data }, ?_, rfl⟩
  have hlong : Reader.clientPreface.isPrefixOf data = false :=
    Bool.eq_false_iff.mpr fun h => hlong (List.isPrefixOf_iff_prefix.mp h)
  have hshort : data.isPrefixOf Reader.clientPreface = false :=
    Bool.eq_false_iff.mpr fun h => hshort (List.isPrefixOf_iff_prefix.mp h)
  simp [H2Connection.receiveData, Reader.receiveData, Reader.readChunk, H2Connection.initiateConnection, hlong, hshort]

/-- A request that asks for HTTP/2. -/
def upgrading : Bytes := ascii "GET / HTTP/1.1\r\nUpgrade: h2c\r\nHTTP2-Settings: AAMAAABkAAQAAP__\r\n\r\n"

/-- What httptools makes of it. -/
def upgradingFed : HttpTools.Fed where
  callbacks := [.onUrl (ascii "/"), .onHeader (ascii "Upgrade") (ascii "h2c"),
    .onHeader (ascii "HTTP2-Settings") (ascii "AAMAAABkAAQAAP__"), .onMessageComplete]
  exc := some (.other (.other "HttpParserUpgrade"))
  method := ascii "GET"
  version := ascii "1.1"

/-- The request in it. -/
def upgradingRequest : Request :=
  .create (ascii "/") (ascii "GET") (some [])
    [(ascii "upgrade", ascii "h2c"), (ascii "http2-settings", ascii "AAMAAABkAAQAAP__")] (ascii "HTTP/1.1")

theorem upgrading_negotiated : ∃ frames : List Frame,
    ((handleConnection ({} : Reader) (fun _ => upgradingFed) Connection.createConnection.transport).parse upgrading).2 =
      .ok (some {
        data := switchingProtocols.map .byte ++ frames.map .frame,
        requests := [{ upgradingRequest with stream := 1 }], close := false }) := by
  have hparse : HttpSimple.parseRequest upgrading = .ok upgradingRequest := by decide
  have h := negotiated refusesHttp1_reader (by decide) (by decide) hparse (fun _ _ => rfl) (fun _ => upgradingFed)
    Connection.createConnection.transport
  dsimp only at h
  rw [if_pos (by decide)] at h
  exact h.2

end Server

end Levin
