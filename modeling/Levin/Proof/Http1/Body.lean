import Levin.Core.Parsers.HttpSimple
import Levin.Framework.Message
import Mathlib.Data.Bool.AllAny

/-!
# The body of a request

`handle_request` reads the body with the loop that reads the head, line by line:
the ends of the lines are lost, and an empty line starts the body anew
(`bodyOf`). So a request's body is received as it was sent exactly if it is a
single line without its end (`body_received_iff`).
-/

namespace Levin.HttpSimple

open Framework Bytes

/-- A line of three texts without a space in them, a space between each two. -/
theorem parseFirstLine_append {method path version : Bytes} (hm : 32 ∉ method) (hp : 32 ∉ path) (hv : 32 ∉ version) :
    parseFirstLine (method ++ 32 :: (path ++ 32 :: version)) =
      if contains (ascii "HTTP") version then .ok (strip method, strip path, strip version) else .error .ParseError := by
  rw [parseFirstLine, split_append hm, split_append hp, split_of_not_mem hv]

/-- A request line: `method path HTTP/version`. -/
structure RequestLine where
  method : Bytes
  path : Bytes
  version : Bytes
  method_ne_nil : method ≠ []
  path_ne_nil : path ≠ []
  no_space : ∀ b ∈ method ++ path ++ version, isSpace b = false

namespace RequestLine

variable (line : RequestLine)

def protocol : Bytes := ascii "HTTP/" ++ line.version

def encode : Bytes := line.method ++ 32 :: (line.path ++ 32 :: line.protocol)

/-- The request with the fields `fields` and the body `body`. -/
def message (fields : List (Bytes × Bytes)) (body : Bytes) : Message := { startLine := line.encode, fields, body }

theorem method_no_space : ∀ b ∈ line.method, isSpace b = false := fun b hb => line.no_space b (by simp [hb])

theorem path_no_space : ∀ b ∈ line.path, isSpace b = false := fun b hb => line.no_space b (by simp [hb])

theorem protocol_no_space : ∀ b ∈ line.protocol, isSpace b = false := by
  intro b hb
  rcases List.mem_append.mp hb with hb | hb
  · have hall : ∀ b ∈ ascii "HTTP/", isSpace b = false := List.all_iff_forall_prop.mp (by decide)
    exact hall b hb
  · exact line.no_space b (by simp [hb])

theorem oneLine_encode : OneLine line.encode :=
  oneLine_append.mpr ⟨oneLine_of_no_space line.method_no_space, oneLine_cons.mpr ⟨by decide,
    oneLine_append.mpr ⟨oneLine_of_no_space line.path_no_space, oneLine_cons.mpr ⟨by decide,
      oneLine_of_no_space line.protocol_no_space⟩⟩⟩⟩

theorem message_wellFormed {fields : List (Bytes × Bytes)} (hf : Message.FieldsOk fields) (body : Bytes) :
    (line.message fields body).WellFormed :=
  ⟨line.oneLine_encode, hf⟩

/-- The request line is taken apart as it was put together. -/
theorem parseFirstLine_encode : parseFirstLine line.encode = .ok (line.method, line.path, line.protocol) := by
  have hm : (32 : UInt8) ∉ line.method := fun h => absurd (line.method_no_space _ h) (by decide)
  have hp : (32 : UInt8) ∉ line.path := fun h => absurd (line.path_no_space _ h) (by decide)
  have hv : (32 : UInt8) ∉ line.protocol := fun h => absurd (line.protocol_no_space _ h) (by decide)
  have hc : contains (ascii "HTTP") line.protocol = true :=
    contains_iff.mpr ⟨[], ascii "/" ++ line.version, by simp [protocol, ascii]⟩
  rw [encode, parseFirstLine_append hm hp hv, if_pos hc, strip_of_no_space line.method_no_space,
    strip_of_no_space line.path_no_space, strip_of_no_space line.protocol_no_space]

end RequestLine

/-! ## The loop -/

/-- What the loop makes of the lines after the empty one. -/
def bodyOf (body : Bytes) (lines : List Bytes) : Bytes :=
  lines.foldl (fun body line => if line = [] then [] else body ++ line) body

/-- The header that a field becomes. -/
def header (field : Bytes × Bytes) : Bytes × Bytes := (lower (strip field.1), strip field.2)

theorem parseLines_body {v : Locals} (hp : v.path ≠ []) {body : Bytes} (hb : v.body = some body) (lines : List Bytes) :
    parseLines v lines = .ok { v with body := some (bodyOf body lines) } := by
  induction lines generalizing v body with
  | nil => rw [parseLines, bodyOf, List.foldl_nil, ← hb]
  | cons line lines ih =>
    by_cases hl : line = []
    · subst hl
      simp only [parseLines, parseLine, hp, if_false, if_true]
      rw [ih (by exact hp) rfl]
      rfl
    · simp only [parseLines, parseLine, hp, hl, hb, if_false]
      rw [ih (by exact hp) rfl]
      simp [bodyOf, hl]

theorem parseLines_fields {v : Locals} (hp : v.path ≠ []) (hb : v.body = none) {fields : List (Bytes × Bytes)}
    (hf : Message.FieldsOk fields) (lines : List Bytes) :
    parseLines v (fields.map Message.fieldLine ++ lines) =
      parseLines { v with headers := v.headers ++ fields.map header } lines := by
  induction fields generalizing v with
  | nil => simp
  | cons field fields ih =>
    obtain ⟨hfield, hf⟩ := List.forall_mem_cons.mp hf
    have hsplit : split1 58 (Message.fieldLine field) = some (field.1, field.2) := split1_append hfield.1.1 _
    simp only [List.map_cons, List.cons_append, parseLines, parseLine, hp, Message.fieldLine_ne_nil, hb, hsplit,
      if_false]
    rw [ih (by exact hp) rfl hf]
    simp [header]

/-- A well-formed message with a request line is accepted, its body as `bodyOf` has it. -/
theorem parseRequest_message {m : Message} (hm : m.WellFormed) {method path protocol : Bytes}
    (hfirst : parseFirstLine m.startLine = .ok (method, path, protocol)) (hmethod : method ≠ []) (hpath : path ≠ [])
    (hprotocol : protocol ≠ []) : parseRequest m.encode =
      .ok (.create path method (some (bodyOf [] (splitlines m.body))) (m.fields.map header) protocol) := by
  rw [parseRequest, Message.splitlines_encode hm]
  simp only [parseLines, parseLine, if_true, hfirst]
  rw [parseLines_fields (by exact hpath) rfl hm.fields]
  simp only [parseLines, parseLine, hpath, if_false, if_true]
  rw [parseLines_body (by exact hpath) rfl]
  simp [hpath, hmethod, hprotocol]

theorem parseRequest_encode (line : RequestLine) {fields : List (Bytes × Bytes)} (hf : Message.FieldsOk fields)
    (body : Bytes) :
    parseRequest (line.message fields body).encode =
      .ok (.create line.path line.method (some (bodyOf [] (splitlines body))) (fields.map header) line.protocol) :=
  parseRequest_message (line.message_wellFormed hf body) line.parseFirstLine_encode line.method_ne_nil line.path_ne_nil
    (by simp [RequestLine.protocol, ascii])

/-! ## The body received -/

/-- The loop keeps an end of what it reads. -/
theorem bodyOf_suffix (body : Bytes) (lines : List Bytes) : bodyOf body lines <:+ body ++ lines.flatten := by
  induction lines generalizing body with
  | nil => simp [bodyOf]
  | cons line lines ih =>
    by_cases hl : line = []
    · subst hl
      exact (ih []).trans (List.suffix_append body _)
    · have := ih (body ++ line)
      rw [List.append_assoc] at this
      simpa [bodyOf, hl] using this

theorem bodyOf_eq_iff (body : Bytes) : bodyOf [] (splitlines body) = body ↔ OneLine body := by
  constructor
  · exact flatten_eq_iff (bodyOf_suffix [] (splitlines body))
  · intro h
    rw [splitlines_oneLine h]
    split
    · rename_i hb
      rw [hb]
      rfl
    · rename_i hb
      simp [bodyOf, hb]

/-- A request's body is received byte for byte exactly if no line ends in it. -/
theorem body_received_iff (line : RequestLine) {fields : List (Bytes × Bytes)} (hf : Message.FieldsOk fields)
    {body : Bytes} (_ : (line.message fields body).Announces) :
    (∃ request, handleRequest (line.message fields body).encode =
        .ok { data := [], requests := [request], close := false } ∧ request.body = some body) ↔
      CR ∉ body ∧ LF ∉ body := by
  simp only [handleRequest, parseRequest_encode line hf]
  constructor
  · rintro ⟨request, h, hb⟩
    have hr := List.cons.inj (congrArg Parsed.requests (Except.ok.inj h))
    rw [← hr.1] at hb
    exact (bodyOf_eq_iff body).mp (Option.some.inj hb)
  · intro h
    exact ⟨_, rfl, congrArg some ((bodyOf_eq_iff body).mpr h)⟩

/-- `POST / HTTP/1.1` -/
def post : RequestLine where
  method := ascii "POST"
  path := ascii "/"
  version := ascii "1.1"
  method_ne_nil := by decide
  path_ne_nil := by decide
  no_space := List.all_iff_forall_prop.mp (by decide)

theorem oneLine_received : ∃ request, handleRequest
    (post.message [(ascii "Content-Length", ascii " 2")] (ascii "ab")).encode =
      .ok { data := [], requests := [request], close := false } ∧ request.body = some (ascii "ab") :=
  (body_received_iff post (by unfold Message.FieldsOk OneLine; decide) ⟨_, List.mem_cons_self, by decide, by decide⟩).mpr
    (by decide)

/-- Of the body `a\r\nb` the line end is lost. -/
theorem twoLines_not_received :
    ¬ ∀ (line : RequestLine) (fields : List (Bytes × Bytes)) (body : Bytes), Message.FieldsOk fields →
      (line.message fields body).Announces →
        ∃ request, handleRequest (line.message fields body).encode =
          .ok { data := [], requests := [request], close := false } ∧ request.body = some body := by
  intro h
  obtain ⟨request, hr, hb⟩ := h post [(ascii "Content-Length", ascii " 4")] (ascii "a\r\nb")
    (by unfold Message.FieldsOk OneLine; decide) ⟨_, List.mem_cons_self, by decide, by decide⟩
  have hbody : parseRequest (post.message [(ascii "Content-Length", ascii " 4")] (ascii "a\r\nb")).encode =
      .ok (.create (ascii "/") (ascii "POST") (some (ascii "ab")) [(ascii "content-length", ascii "4")]
        (ascii "HTTP/1.1")) := by decide
  simp only [handleRequest, hbody] at hr
  rw [← (List.cons.inj (congrArg Parsed.requests (Except.ok.inj hr))).1] at hb
  exact absurd hb (by decide)

end Levin.HttpSimple
