import Levin.Proof.Http1.Body

/-!
# The head of a request

`handle_request` reads method, path and protocol from the first line, and headers from
the lines up to the first empty one; what comes after that changes the body alone
(`head_decoded`). It knows that it is at the first line by the path being empty: a
request line without a path leaves it there. So what is accepted is the grammar of a
head, unless a line without a path comes before the request line, or one without a
colon after it (`grammar_iff`).
-/

namespace Levin.HttpSimple

open Framework Bytes

/-! ## Heads put together -/

/-- The parts of a request's head: texts that can be told apart in it. -/
structure Head where
  method : Bytes
  path : Bytes
  protocol : Bytes
  headers : List (Bytes × Bytes)
  parts : ∀ part ∈ [method, path, protocol], (32 ∉ part ∧ OneLine part) ∧ Trimmed part
  method_ne_nil : method ≠ []
  path_ne_nil : path ≠ []
  http : ascii "HTTP" <:+: protocol
  names : ∀ header ∈ headers, (58 ∉ header.1 ∧ OneLine header.1) ∧ Trimmed header.1
  values : ∀ header ∈ headers, OneLine header.2 ∧ Trimmed header.2

namespace Head

variable (head : Head)

/-- `method path protocol`, the header lines `name: value`, an empty line and the body. -/
def message (body : Bytes) : Message where
  startLine := head.method ++ 32 :: (head.path ++ 32 :: head.protocol)
  fields := head.headers.map fun header => (header.1, 32 :: header.2)
  body := body

/-- The request with this head. -/
def request (body : Option Bytes) : Request := .create head.path head.method body head.headers head.protocol

theorem message_wellFormed (body : Bytes) : (head.message body).WellFormed := by
  have hparts := head.parts
  simp only [List.forall_mem_cons] at hparts
  obtain ⟨hm, hp, hv, -⟩ := hparts
  refine ⟨oneLine_append.mpr ⟨hm.1.2, oneLine_cons.mpr ⟨by decide,
    oneLine_append.mpr ⟨hp.1.2, oneLine_cons.mpr ⟨by decide, hv.1.2⟩⟩⟩⟩, fun field hfield => ?_⟩
  obtain ⟨header, hheader, rfl⟩ := List.mem_map.mp hfield
  exact ⟨(head.names header hheader).1, oneLine_cons.mpr ⟨by decide, (head.values header hheader).1⟩⟩

theorem parseFirstLine_message (body : Bytes) :
    parseFirstLine (head.message body).startLine = .ok (head.method, head.path, head.protocol) := by
  have hparts := head.parts
  simp only [List.forall_mem_cons] at hparts
  obtain ⟨hm, hp, hv, -⟩ := hparts
  rw [message, parseFirstLine_append hm.1.1 hp.1.1 hv.1.1, if_pos (contains_iff.mpr head.http), strip_of_trimmed hm.2,
    strip_of_trimmed hp.2, strip_of_trimmed hv.2]

theorem protocol_ne_nil : head.protocol ≠ [] := by
  intro h
  have hhttp := head.http
  rw [h] at hhttp
  exact absurd (List.eq_nil_of_infix_nil hhttp) (by decide)

/-- The headers arrive in lower case. -/
theorem map_header (body : Bytes) :
    (head.message body).fields.map header = head.headers.map fun header => (lower header.1, header.2) := by
  rw [message, List.map_map]
  refine List.map_congr_left fun header hheader => ?_
  show (lower (strip header.1), strip (32 :: header.2)) = _
  rw [strip_of_trimmed (head.names header hheader).2, strip_cons (by decide), strip_of_trimmed (head.values header hheader).2]

end Head

/-- The map of headers does not tell upper case from lower case. -/
theorem createHeadersMap_lower (headers : List (Bytes × Bytes)) :
    createHeadersMap (headers.map fun header => (lower header.1, header.2)) = createHeadersMap headers := by
  simp only [createHeadersMap, List.foldl_map, lower_lower]

/-- A request is read with its method, path, protocol and headers, whatever its body is. -/
theorem head_decoded (head : Head) (body : Bytes) : ∃ received, handleRequest (head.message body).encode =
    .ok { data := [], requests := [head.request received], close := false } := by
  have hparsed := parseRequest_message (head.message_wellFormed body) (head.parseFirstLine_message body) head.method_ne_nil
    head.path_ne_nil head.protocol_ne_nil
  refine ⟨some (bodyOf [] (splitlines body)), ?_⟩
  rw [handleRequest, hparsed, head.map_header]
  simp only [Head.request, Request.create, createHeadersMap_lower]
  rfl

/-- The head of a request with two headers. -/
def putHead : Head where
  method := ascii "PUT"
  path := ascii "/users/levin"
  protocol := ascii "HTTP/1.1"
  headers := [(ascii "Host", ascii "localhost:8000"), (ascii "X-Name", ascii "a b")]
  parts := by decide
  method_ne_nil := by decide
  path_ne_nil := by decide
  http := ⟨[], ascii "/1.1", rfl⟩
  names := by decide
  values := by decide

/-- A body that looks like another request does not change the head. -/
theorem putHead_decoded : ∃ received, handleRequest (ascii
    "PUT /users/levin HTTP/1.1\r\nHost: localhost:8000\r\nX-Name: a b\r\n\r\nGET / HTTP/1.0\r\nHost: other\r\n\r\n") =
      .ok { data := [], requests := [putHead.request received], close := false } ∧
    (putHead.request received).headers = [(ascii "host", ascii "localhost:8000"), (ascii "x-name", ascii "a b")] := by
  obtain ⟨received, h⟩ := head_decoded putHead (ascii "GET / HTTP/1.0\r\nHost: other\r\n\r\n")
  refine ⟨received, ?_, rfl⟩
  have hencoded : (putHead.message (ascii "GET / HTTP/1.0\r\nHost: other\r\n\r\n")).encode = ascii
      "PUT /users/levin HTTP/1.1\r\nHost: localhost:8000\r\nX-Name: a b\r\n\r\nGET / HTTP/1.0\r\nHost: other\r\n\r\n" := by
    decide
  rw [← hencoded]
  exact h

/-! ## Heads taken apart -/

/-- The lines before the first empty one. -/
def headerSection (lines : List Bytes) : List Bytes := lines.takeWhile (· ≠ [])

/-- A request line without a path: after it the loop is where it was. -/
def blankPath (line : Bytes) : Bool :=
  match parseFirstLine line with
  | .ok (_, [], _) => true
  | _ => false

variable {line : Bytes} {lines : List Bytes} {v : Locals} {method path protocol : Bytes}

theorem parseFirstLine_error {e : Exc} (h : parseFirstLine line = .error e) : e = .ParseError := by
  unfold parseFirstLine at h
  split at h
  · split at h <;> cases h
    rfl
  · cases h
    rfl

theorem protocol_ne_nil_of_ok (h : parseFirstLine line = .ok (method, path, protocol)) : protocol ≠ [] := by
  unfold parseFirstLine at h
  split at h
  · split at h
    · rename_i hhttp
      cases h
      have hmem : (72 : UInt8) ∈ ascii "HTTP" := by decide
      exact strip_ne_nil ((contains_iff.mp hhttp).subset hmem) (by decide)
    · cases h
  · cases h

theorem path_of_blankPath (hline : parseFirstLine line = .ok (method, path, protocol)) : blankPath line = true ↔ path = [] := by
  cases path with
  | nil => simp [blankPath, hline]
  | cons b path => simp [blankPath, hline]

/-- Lines without a path, at the beginning. -/
theorem parseLines_skip {skipped : List Bytes} (h : ∀ line ∈ skipped, blankPath line = true) (hv : v.path = []) :
    ∃ v' : Locals, parseLines v (skipped ++ lines) = parseLines v' lines ∧ v'.path = [] ∧ v'.body = v.body ∧
      v'.headers = v.headers := by
  induction skipped generalizing v with
  | nil => exact ⟨v, rfl, hv, rfl, rfl⟩
  | cons line skipped ih =>
    obtain ⟨hline, h⟩ := List.forall_mem_cons.mp h
    cases hfirst : parseFirstLine line with
    | error e => simp [blankPath, hfirst] at hline
    | ok parts =>
      obtain ⟨method, path, protocol⟩ := parts
      obtain rfl := (path_of_blankPath hfirst).mp hline
      obtain ⟨v', hparse, hpath, hbody, hheaders⟩ := ih (v := { v with method, path := [], protocol }) h rfl
      refine ⟨v', ?_, hpath, hbody, hheaders⟩
      simp only [List.cons_append, parseLines, parseLine, hv, if_true, hfirst]
      rw [← hparse]

theorem headerSection_cons (hl : line ≠ []) : headerSection (line :: lines) = line :: headerSection lines := by
  simp [headerSection, hl]

/-- A header line is a name and a value, or ends the loop. -/
theorem parseLine_header (hp : v.path ≠ []) (hb : v.body = none) (hl : line ≠ []) :
    (58 ∉ line → parseLine v line = .error .ValueError) ∧
      (58 ∈ line → ∃ header, parseLine v line = .ok { v with headers := v.headers ++ [header] }) := by
  simp only [parseLine, hp, hl, hb, if_false]
  cases hsplit : split1 58 line with
  | none => exact ⟨fun _ => rfl, fun hcolon => absurd hcolon (split1_eq_none.mp hsplit)⟩
  | some parts => exact ⟨fun hcolon => absurd (hsplit.symm.trans (split1_eq_none.mpr hcolon)) (by simp), fun _ => ⟨_, rfl⟩⟩

/-- Where every line of the header section has a colon, the lines after the first one change headers and body. -/
theorem parseLines_of_colons (hp : v.path ≠ []) (hb : v.body = none) (h : ∀ line ∈ headerSection lines, 58 ∈ line) :
    ∃ body headers, parseLines v lines = .ok { v with body, headers } := by
  induction lines generalizing v with
  | nil => exact ⟨v.body, v.headers, rfl⟩
  | cons line lines ih =>
    by_cases hl : line = []
    · subst hl
      refine ⟨some (bodyOf [] lines), v.headers, ?_⟩
      simp only [parseLines, parseLine, hp, if_false, if_true]
      exact parseLines_body (by exact hp) rfl lines
    · rw [headerSection_cons hl] at h
      obtain ⟨hcolon, h⟩ := List.forall_mem_cons.mp h
      obtain ⟨header, hheader⟩ := (parseLine_header hp hb hl).2 hcolon
      simp only [parseLines, hheader]
      exact ih (v := { v with headers := v.headers ++ [header] }) hp hb h

/-- A line of the header section without a colon cannot be unpacked. -/
theorem parseLines_of_no_colon (hp : v.path ≠ []) (hb : v.body = none) (h : ¬ ∀ line ∈ headerSection lines, 58 ∈ line) :
    parseLines v lines = .error .ValueError := by
  induction lines generalizing v with
  | nil => exact absurd (fun _ hmem => absurd hmem List.not_mem_nil) h
  | cons line lines ih =>
    by_cases hl : line = []
    · subst hl
      exact absurd (fun _ hmem => absurd hmem List.not_mem_nil) h
    · by_cases hcolon : 58 ∈ line
      · rw [headerSection_cons hl, List.forall_mem_cons] at h
        obtain ⟨header, hheader⟩ := (parseLine_header hp hb hl).2 hcolon
        simp only [parseLines, hheader]
        exact ih (v := { v with headers := v.headers ++ [header] }) hp hb fun hrest => h ⟨hcolon, hrest⟩
      · simp only [parseLines, (parseLine_header hp hb hl).1 hcolon]

/-! ## The grammar -/

/-- Method, path and protocol of a line of three tokens, none of them blank and the last one with `HTTP` in it. -/
def requestTokens (line : Bytes) : Option (Bytes × Bytes × Bytes) :=
  match split 32 line with
  | [method, path, version] =>
    if contains (ascii "HTTP") version ∧ strip method ≠ [] ∧ strip path ≠ [] ∧ strip version ≠ [] then
      some (strip method, strip path, strip version)
    else none
  | _ => none

/-- What the head of a text says, if it is one: its first line has three tokens, and every header line a colon. -/
def grammar (data : Bytes) : Option (Bytes × Bytes × Bytes) :=
  match splitlines data with
  | [] => none
  | line :: lines => if ∀ l ∈ headerSection lines, 58 ∈ l then requestTokens line else none

/-- One request with what the head of the text says, or `ParseError` if it is none. -/
def FollowsGrammar (data : Bytes) : Prop :=
  match grammar data with
  | none => handleRequest data = .error .ParseError
  | some (method, path, protocol) =>
    ∃ request, handleRequest data = .ok { data := [], requests := [request], close := false } ∧
      request.method = method ∧ request.rawPath = path ∧ request.protocol = protocol

/-- Of the lines from the first on that is no request line without a path: if that one is a request line, every line of the
header section after it has a colon, and nothing is before it, if it has a method. -/
def PlainHead (data : Bytes) : Prop :=
  ∀ line lines method path protocol, (splitlines data).dropWhile blankPath = line :: lines →
    parseFirstLine line = .ok (method, path, protocol) →
      (∀ l ∈ headerSection lines, 58 ∈ l) ∧ (splitlines data = line :: lines ∨ method = [])

theorem requestTokens_of_ok (h : parseFirstLine line = .ok (method, path, protocol)) :
    requestTokens line = if method ≠ [] ∧ path ≠ [] then some (method, path, protocol) else none := by
  have hprotocol := protocol_ne_nil_of_ok h
  unfold parseFirstLine at h
  split at h
  · rename_i hsplit
    split at h
    · rename_i hhttp
      cases h
      simp [requestTokens, hsplit, hhttp, hprotocol]
    · cases h
  · cases h

theorem requestTokens_of_error {e : Exc} (h : parseFirstLine line = .error e) : requestTokens line = none := by
  unfold parseFirstLine at h
  split at h
  · rename_i hsplit
    split at h
    · cases h
    · rename_i hhttp
      simp [requestTokens, hsplit, hhttp]
  · rename_i hsplit
    unfold requestTokens
    split
    · rename_i method path version heq
      exact absurd heq (hsplit method path version)
    · rfl

/-- A line without a path is no head. -/
theorem requestTokens_of_blankPath (h : blankPath line = true) : requestTokens line = none := by
  cases hfirst : parseFirstLine line with
  | error e => exact requestTokens_of_error hfirst
  | ok parts =>
    obtain ⟨method, path, protocol⟩ := parts
    obtain rfl := (path_of_blankPath hfirst).mp h
    rw [requestTokens_of_ok hfirst]
    simp

/-! ## What comes of a text -/

section Received

variable {data : Bytes}

/-- Lines without a path at the beginning make no difference to the rest. -/
theorem parseLines_data (data : Bytes) : ∃ v : Locals,
    parseLines {} (splitlines data) = parseLines v ((splitlines data).dropWhile blankPath) ∧ v.path = [] ∧ v.body = none ∧
      v.headers = [] := by
  have h := @parseLines_skip ((splitlines data).dropWhile blankPath) {} ((splitlines data).takeWhile blankPath)
    (fun _ hmem => List.mem_takeWhile_imp hmem) rfl
  rwa [List.takeWhile_append_dropWhile] at h

theorem handleRequest_of_blank (h : (splitlines data).dropWhile blankPath = []) :
    handleRequest data = .error .ParseError := by
  obtain ⟨v, hparse, hpath, -, -⟩ := parseLines_data data
  rw [h, parseLines] at hparse
  simp [handleRequest, parseRequest, hparse, hpath]

theorem handleRequest_of_error (h : (splitlines data).dropWhile blankPath = line :: lines) {e : Exc}
    (hline : parseFirstLine line = .error e) : handleRequest data = .error .ParseError := by
  obtain ⟨v, hparse, hpath, -, -⟩ := parseLines_data data
  obtain rfl := parseFirstLine_error hline
  simp only [h, parseLines, parseLine, hpath, if_true, hline] at hparse
  simp only [handleRequest, parseRequest, hparse]

/-- The loop from a request line with a path on. -/
theorem parseLines_of_ok (h : (splitlines data).dropWhile blankPath = line :: lines)
    (hline : parseFirstLine line = .ok (method, path, protocol)) :
    path ≠ [] ∧ parseLines {} (splitlines data) = parseLines { method, path, protocol } lines := by
  obtain ⟨v, hparse, hpath, hbody, hheaders⟩ := parseLines_data data
  simp only [h, parseLines, parseLine, hpath, if_true, hline, hbody, hheaders] at hparse
  refine ⟨fun hnil => ?_, hparse⟩
  have hfirst := List.head?_dropWhile_not blankPath (splitlines data)
  rw [h] at hfirst
  exact absurd ((path_of_blankPath hline).mpr hnil) (by simpa using hfirst)

theorem handleRequest_of_no_colon (h : (splitlines data).dropWhile blankPath = line :: lines)
    (hline : parseFirstLine line = .ok (method, path, protocol)) (hcolon : ¬ ∀ l ∈ headerSection lines, 58 ∈ l) :
    handleRequest data = .error .ValueError := by
  obtain ⟨hpath, hparse⟩ := parseLines_of_ok h hline
  rw [parseLines_of_no_colon (by exact hpath) rfl hcolon] at hparse
  simp only [handleRequest, parseRequest, hparse]

theorem handleRequest_of_colons (h : (splitlines data).dropWhile blankPath = line :: lines)
    (hline : parseFirstLine line = .ok (method, path, protocol)) (hcolon : ∀ l ∈ headerSection lines, 58 ∈ l) :
    ∃ body headers, handleRequest data =
      if method = [] then .error .ParseError
      else .ok { data := [], requests := [.create path method body headers protocol], close := false } := by
  obtain ⟨hpath, hparse⟩ := parseLines_of_ok h hline
  obtain ⟨body, headers, hrest⟩ := parseLines_of_colons (v := { method, path, protocol }) (by exact hpath) rfl hcolon
  rw [hrest] at hparse
  refine ⟨body, headers, ?_⟩
  have hprotocol := protocol_ne_nil_of_ok hline
  by_cases hmethod : method = []
  · simp [handleRequest, parseRequest, hparse, hmethod]
  · simp [handleRequest, parseRequest, hparse, hmethod, hpath, hprotocol]

/-- After lines without a path, nothing is a head. -/
theorem grammar_of_skipped (h : (splitlines data).dropWhile blankPath ≠ splitlines data) : grammar data = none := by
  unfold grammar
  cases hls : splitlines data with
  | nil => rfl
  | cons line lines =>
    have hline : blankPath line = true := by
      by_contra hline
      rw [hls, List.dropWhile_cons_of_neg hline] at h
      exact h rfl
    simp [requestTokens_of_blankPath hline]

theorem grammar_of_cons (h : splitlines data = line :: lines) :
    grammar data = if ∀ l ∈ headerSection lines, 58 ∈ l then requestTokens line else none := by
  rw [grammar, h]

theorem grammar_of_blank (h : (splitlines data).dropWhile blankPath = []) : grammar data = none := by
  by_cases hls : splitlines data = []
  · simp [grammar, hls]
  · exact grammar_of_skipped (by rw [h]; exact Ne.symm hls)

theorem grammar_of_error (h : (splitlines data).dropWhile blankPath = line :: lines) {e : Exc}
    (hline : parseFirstLine line = .error e) : grammar data = none := by
  by_cases hls : splitlines data = line :: lines
  · rw [grammar_of_cons hls, requestTokens_of_error hline, ite_self]
  · exact grammar_of_skipped (by rw [h]; exact Ne.symm hls)

theorem plainHead_of_blank (h : (splitlines data).dropWhile blankPath = []) : PlainHead data := by
  intro line lines method path protocol hdrop
  rw [h] at hdrop
  cases hdrop

theorem plainHead_of_error (h : (splitlines data).dropWhile blankPath = line :: lines) {e : Exc}
    (hline : parseFirstLine line = .error e) : PlainHead data := by
  intro line' lines' method path protocol hdrop hfirst
  obtain ⟨rfl, -⟩ := List.cons.inj (h.symm.trans hdrop)
  rw [hline] at hfirst
  cases hfirst

theorem plainHead_of_ok (h : (splitlines data).dropWhile blankPath = line :: lines)
    (hline : parseFirstLine line = .ok (method, path, protocol)) :
    PlainHead data ↔ (∀ l ∈ headerSection lines, 58 ∈ l) ∧ (splitlines data = line :: lines ∨ method = []) := by
  refine ⟨fun hplain => hplain line lines method path protocol h hline, fun hplain => ?_⟩
  intro line' lines' method' path' protocol' hdrop hfirst
  obtain ⟨rfl, rfl⟩ := List.cons.inj (h.symm.trans hdrop)
  rw [hline] at hfirst
  cases hfirst
  exact hplain

end Received

/-- A text is accepted as its grammar says exactly if its head is plain. -/
theorem grammar_iff (data : Bytes) : FollowsGrammar data ↔ PlainHead data := by
  cases hdrop : (splitlines data).dropWhile blankPath with
  | nil =>
    refine iff_of_true ?_ (plainHead_of_blank hdrop)
    rw [FollowsGrammar, grammar_of_blank hdrop]
    exact handleRequest_of_blank hdrop
  | cons line lines =>
    cases hfirst : parseFirstLine line with
    | error e =>
      refine iff_of_true ?_ (plainHead_of_error hdrop hfirst)
      rw [FollowsGrammar, grammar_of_error hdrop hfirst]
      exact handleRequest_of_error hdrop hfirst
    | ok parts =>
      obtain ⟨method, path, protocol⟩ := parts
      rw [plainHead_of_ok hdrop hfirst]
      by_cases hcolon : ∀ l ∈ headerSection lines, 58 ∈ l
      · obtain ⟨body, headers, hresult⟩ := handleRequest_of_colons hdrop hfirst hcolon
        obtain ⟨hpath, -⟩ := parseLines_of_ok hdrop hfirst
        rw [and_iff_right hcolon, FollowsGrammar, hresult]
        by_cases hls : splitlines data = line :: lines
        · rw [grammar_of_cons hls, if_pos hcolon, requestTokens_of_ok hfirst]
          by_cases hmethod : method = []
          · simp [hmethod]
          · simp [hmethod, hpath, hls, Request.create]
        · rw [grammar_of_skipped (by rw [hdrop]; exact Ne.symm hls)]
          by_cases hmethod : method = []
          · simp [hmethod]
          · simp [hmethod, hls]
      · -- A line that cannot be unpacked is no parse error.
        refine iff_of_false ?_ fun h => hcolon h.1
        rw [FollowsGrammar, handleRequest_of_no_colon hdrop hfirst hcolon]
        split <;> simp

/-- `GET / HTTP/1.1` and a header line without a colon. -/
theorem no_colon_not_parsed : ¬ ∀ data, FollowsGrammar data := by
  intro h
  have hdata := h (ascii "GET / HTTP/1.1\r\nhost\r\n\r\n")
  have hgrammar : grammar (ascii "GET / HTTP/1.1\r\nhost\r\n\r\n") = none := by decide
  rw [FollowsGrammar, hgrammar] at hdata
  have hresult : handleRequest (ascii "GET / HTTP/1.1\r\nhost\r\n\r\n") = .error .ValueError := by decide
  exact absurd (hresult.symm.trans hdata) (by decide)

end Levin.HttpSimple
