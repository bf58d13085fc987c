import Levin.Components.Formating
import Levin.Proof.Components.ContentType

/-!
# JSON that is read back

`JsonFormat` encodes a text in UTF-8, and its content type says nothing of it; so
`PatchRequest` decodes the body as ISO-8859-1. A value is read back if and only if its
text is ASCII (`json_round_trip_iff`).
-/

namespace Levin

open Framework Bytes

variable {V : Type}

/-! ## What is written -/

/-- A response that `JsonFormat` makes of a value a handler has returned. -/
def JsonFormat.Produces (format : JsonFormat V) (v : V) (response : Response) : Prop :=
  ∃ depth, ∃ r r' : ScopedRequest V,
    format.middleware depth r () (fun r _ => (.ok (.value v), r)) = (.ok (.response response), r')

variable {format : JsonFormat V} {v : V} {response : Response}

theorem JsonFormat.Produces.body (h : format.Produces v response) (hv : format.typesToFormat v = true) :
    ∃ text, format.dumps v = .ok text ∧ Text.encodeUtf8 text = some response.body ∧
      response.headers = [(ascii "content-type", format.contentType)] := by
  obtain ⟨depth, r, r', h⟩ := h
  have h : format.respond depth v r = (.ok (.response response), r') := by
    rw [← h, middleware]
    exact (if_pos hv).symm
  unfold respond at h
  cases hdumps : format.dumps v with
  | error e =>
    rw [hdumps] at h
    cases h
  | ok text =>
    cases hstatus : r.get depth (ascii "status") with
    | mk out r₁ =>
      cases out with
      | error e =>
        simp only [hdumps, hstatus] at h
        cases h
      | ok status =>
        cases hbody : Text.encodeUtf8 text with
        | none =>
          simp only [hdumps, hstatus, hbody] at h
          cases h
        | some body =>
          simp only [hdumps, hstatus, hbody] at h
          obtain rfl := Result.response.inj (Except.ok.inj (Prod.mk.inj h).1)
          exact ⟨text, rfl, hbody, rfl⟩

/-- The response with this body, of a request that has no status. -/
def JsonFormat.responseOf (format : JsonFormat V) (body : Bytes) : Response where
  status := 200
  body := body
  headers := [(ascii "content-type", format.contentType)]

@[simp] theorem JsonFormat.responseOf_body (body : Bytes) : (format.responseOf body).body = body := rfl

/-- Every text that can be encoded is the body of a response. -/
theorem JsonFormat.produces_of_dumps (hv : format.typesToFormat v = true) {text : Text} (hdumps : format.dumps v = .ok text)
    {body : Bytes} (hbody : Text.encodeUtf8 text = some body) (request : Request) :
    format.Produces v (format.responseOf body) := by
  refine ⟨0, { request, scope := [] }, { request, scope := [] }, (if_pos hv).trans ?_⟩
  have hstatus : ScopedRequest.get 0 (ascii "status") ({ request, scope := [] } : ScopedRequest V) =
      (.ok none, { request, scope := [] }) := ScopedRequest.get_of_none rfl
  unfold respond
  simp only [hdumps, hstatus, hbody]
  rfl

/-! ## What is read -/

section Reading

variable [RequestValue V] {patch : PatchRequest V}

/-- `request.json`, of a request that comes to PatchRequest. -/
def PatchRequest.readJson (patch : PatchRequest V) (depth : Nat) (request : Request) (transportInfo : Other V) :
    Except Exc (Option V) :=
  ((patch.patched (request.connected transportInfo)).get depth (ascii "json")).1

variable {request : Request} {contentType : Bytes}

/-- A body of JSON is read as ISO-8859-1, if its content type has no parameters. -/
theorem PatchRequest.readJson_eq (hheader : request.headers.get? CONTENT_TYPE_HEADER = some contentType)
    (hjson : contentType = patch.jsonContentType) (hplain : 59 ∉ contentType) (hne : contentType ≠ []) {body : Bytes}
    (hbody : request.body = some body) (depth : Nat) (transportInfo : Other V) :
    patch.readJson (depth + 2) request transportInfo = (patch.jsonLoads (Text.decodeLatin1 body)).map some := by
  have hcontent : PatchRequest.contentType request = some contentType := by
    unfold PatchRequest.contentType
    rw [hheader]
    exact (if_neg hne).trans (congrArg some (firstPart_of_notMem hplain))
  have hencoding : PatchRequest.encoding request = DEFAULT_ENCODING := by
    unfold PatchRequest.encoding
    rw [hheader]
    exact if_pos (.inr hplain)
  have hslot : (patch.patched (request.connected transportInfo)).scope.get? (ascii "json") = some (.lazy patch.json) :=
    patch.get?_patched (request.get?_connected transportInfo (by decide)) (by simp [slots])
  have hrequest : (patch.patched (request.connected transportInfo)).request = request := by
    rw [patched_request, Request.connected_request]
  have htype := patch.settled_contentType (request.get?_connected transportInfo (by decide))
  have hcodec := patch.settled_encoding (request.get?_connected transportInfo (by decide))
  rw [Request.connected_request, hcontent] at htype
  rw [Request.connected_request, hencoding] at hcodec
  rw [readJson, ScopedRequest.get_of_lazy hslot, hrequest, json, ScopedRequest.run_attr_of_settled htype]
  simp only [Option.map_some, Option.getD_some, RequestValue.asBytes_bytes, hjson, if_true, hbody]
  rw [ScopedRequest.run_attr_of_settled (hcodec.get (depth + 1) _)]
  simp only [RequestValue.asStr_str, decode, if_true]
  cases patch.jsonLoads (Text.decodeLatin1 body) with
  | error e => rfl
  | ok v => rfl

end Reading

/-! ## The round trip -/

/-- `json_loads` gives back each of these values from the text `json_dumps` has made of it. -/
def JsonFormat.Inverse (format : JsonFormat V) (values : V → Prop) (loads : Text → Except Exc V) : Prop :=
  ∀ v text, values v → format.dumps v = .ok text → loads text = .ok v

/-- A request with the body and the content type of a response for the value has it as its `json`. -/
def JsonFormat.RoundTrip [RequestValue V] (format : JsonFormat V) (patch : PatchRequest V) (v : V)
    (loads : Text → Except Exc V) : Prop :=
  ∀ response, format.Produces v response → ∀ request depth transportInfo, request.body = some response.body →
    request.headers.get? CONTENT_TYPE_HEADER = response.headers.get? (ascii "content-type") →
    { patch with jsonLoads := loads }.readJson (depth + 2) request transportInfo = .ok (some v)

section RoundTrip

variable [RequestValue V] {patch : PatchRequest V}

/-- What a value comes back as. -/
theorem JsonFormat.readJson_of_produces (hcontent : format.contentType = patch.jsonContentType)
    (hplain : 59 ∉ format.contentType) (hne : format.contentType ≠ []) (loads : Text → Except Exc V) (response : Response)
    (request : Request) (hheaders : response.headers = [(ascii "content-type", format.contentType)])
    (hbody : request.body = some response.body)
    (hheader : request.headers.get? CONTENT_TYPE_HEADER = response.headers.get? (ascii "content-type")) (depth : Nat)
    (transportInfo : Other V) : { patch with jsonLoads := loads }.readJson (depth + 2) request transportInfo =
      (loads (Text.decodeLatin1 response.body)).map some := by
  have htype : request.headers.get? CONTENT_TYPE_HEADER = some format.contentType := by
    rw [hheader, hheaders]
    simp [Dict.get?]
  exact @PatchRequest.readJson_eq V _ { patch with jsonLoads := loads } request _ htype hcontent hplain hne _ hbody depth
    transportInfo

/-- A request with the body and the headers of a response. -/
def jsonRequest (response : Response) : Request :=
  { getRequest [] with body := some response.body, headers := response.headers }

/-- A value comes back, whatever the pair is that it is configured with, if and only if its text is ASCII; or if there is no
body, since the text cannot be encoded. -/
theorem json_round_trip_iff (hcontent : format.contentType = patch.jsonContentType) (hplain : 59 ∉ format.contentType)
    (hne : format.contentType ≠ []) {values : V → Prop} (hpair : format.Inverse values patch.jsonLoads) (hvalue : values v)
    (hv : format.typesToFormat v = true) :
    (∀ loads, format.Inverse values loads → format.RoundTrip patch v loads) ↔
      ∀ text, format.dumps v = .ok text → Text.IsAscii text ∨ Text.encodeUtf8 text = none := by
  constructor
  · intro h text hdumps
    by_contra hneither
    obtain ⟨hascii, hencodes⟩ := not_or.mp hneither
    obtain ⟨body, hbody⟩ := Option.ne_none_iff_exists'.mp hencodes
    have hother : Text.decodeLatin1 body ≠ text := fun heq => hascii ((Text.latin1_encodeUtf8 hbody).mp heq)
    have hback : ∀ loads, format.Inverse values loads → loads (Text.decodeLatin1 body) = .ok v := by
      intro loads hloads
      have hproduces := JsonFormat.produces_of_dumps hv hdumps hbody (getRequest [])
      have hread := h loads hloads _ hproduces (jsonRequest (format.responseOf body)) 0 patch.noParams rfl rfl
      have hloaded := JsonFormat.readJson_of_produces hcontent hplain hne loads (format.responseOf body)
        (jsonRequest (format.responseOf body)) rfl rfl rfl 0 patch.noParams
      rw [hread, JsonFormat.responseOf_body] at hloaded
      cases hresult : loads (Text.decodeLatin1 body) with
      | error e =>
        rw [hresult] at hloaded
        cases hloaded
      | ok v' =>
        rw [hresult] at hloaded
        rw [← Option.some.inj (Except.ok.inj hloaded)]
    by_cases hused : ∃ v', values v' ∧ format.dumps v' = .ok (Text.decodeLatin1 body)
    · -- The other text is that of another value.
      obtain ⟨v', hvalue', hdumps'⟩ := hused
      have hv' := (hpair v' _ hvalue' hdumps').symm.trans (hback _ hpair)
      rw [Except.ok.inj hv', hdumps] at hdumps'
      exact hother (Except.ok.inj hdumps').symm
    · -- There is a pair that makes nothing of the other text.
      have hloads := hback (fun s => if s = Text.decodeLatin1 body then .error .ValueError else patch.jsonLoads s)
        fun v' s hvalue' hdumps' => ?_
      · rw [if_pos rfl] at hloads
        cases hloads
      · have hs : s ≠ Text.decodeLatin1 body := fun heq => hused ⟨v', hvalue', heq ▸ hdumps'⟩
        exact (if_neg hs).trans (hpair v' s hvalue' hdumps')
  · intro h loads hloads response hproduces request depth transportInfo hbody hheader
    obtain ⟨text, hdumps, hencoded, hheaders⟩ := hproduces.body hv
    rw [JsonFormat.readJson_of_produces hcontent hplain hne loads response request hheaders hbody hheader]
    rcases h text hdumps with hascii | hnone
    · rw [(Text.latin1_encodeUtf8 hencoded).mpr hascii, hloads v text hvalue hdumps]
      rfl
    · rw [hencoded] at hnone
      cases hnone

end RoundTrip

/-- The list of one string of one character, by its number, with its text as it is. -/
def oneCharFormat : JsonFormat AttrValue where
  jsonDumps v _ :=
    match v with
    | .object n => .ok [91, 34, n, 34, 93]
    | _ => .error .TypeError
  default := none
  typesToFormat v := v matches .object _
  status _ := 200

def oneCharPatch : PatchRequest AttrValue :=
  { plainPatch with
    jsonLoads := fun text =>
      match text with
      | [91, 34, n, 34, 93] => .ok (.object n)
      | _ => .error .ValueError }

/-- The values that are such lists. -/
def IsOneChar (v : AttrValue) : Prop := ∃ n, v = .object n

theorem oneChar_inverse : oneCharFormat.Inverse IsOneChar oneCharPatch.jsonLoads := by
  rintro v text ⟨n, rfl⟩ hdumps
  obtain rfl := Except.ok.inj hdumps
  rfl

/-- `["é"]` does not come back. -/
theorem oneChar_not_round_trip : oneCharFormat.Inverse IsOneChar oneCharPatch.jsonLoads ∧ IsOneChar (.object 0xE9) ∧
    oneCharFormat.typesToFormat (.object 0xE9) = true ∧
    ¬ oneCharFormat.RoundTrip oneCharPatch (.object 0xE9) oneCharPatch.jsonLoads := by
  refine ⟨oneChar_inverse, ⟨0xE9, rfl⟩, rfl, fun h => ?_⟩
  have hbody : Text.encodeUtf8 [91, 34, 0xE9, 34, 93] = some [91, 34, 0xC3, 0xA9, 34, 93] := by decide
  have hproduces : oneCharFormat.Produces (.object 0xE9) (oneCharFormat.responseOf [91, 34, 0xC3, 0xA9, 34, 93]) :=
    JsonFormat.produces_of_dumps rfl rfl hbody (getRequest [])
  have hread := h _ hproduces (jsonRequest (oneCharFormat.responseOf [91, 34, 0xC3, 0xA9, 34, 93])) 0 plainPatch.noParams rfl rfl
  have hloaded := @JsonFormat.readJson_of_produces AttrValue oneCharFormat _ oneCharPatch rfl (by decide) (by decide)
    oneCharPatch.jsonLoads (oneCharFormat.responseOf [91, 34, 0xC3, 0xA9, 34, 93])
    (jsonRequest (oneCharFormat.responseOf [91, 34, 0xC3, 0xA9, 34, 93])) rfl rfl rfl 0 plainPatch.noParams
  rw [hread] at hloaded
  cases hloaded

/-- `["a"]` comes back. -/
theorem oneChar_round_trip : oneCharFormat.RoundTrip oneCharPatch (.object 97) oneCharPatch.jsonLoads := by
  have htext : ∀ text, oneCharFormat.dumps (.object 97) = .ok text → Text.IsAscii text ∨ Text.encodeUtf8 text = none := by
    intro text h
    obtain rfl := Except.ok.inj h
    exact .inl (by decide)
  exact (json_round_trip_iff rfl (by decide) (by decide) oneChar_inverse ⟨97, rfl⟩ rfl).mpr htext _ oneChar_inverse

end Levin
