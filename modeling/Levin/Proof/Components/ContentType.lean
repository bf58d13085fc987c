import Levin.Framework.Lines
import Levin.Proof.Components.PatchRequest
import Mathlib.Data.Bool.AllAny

/-!
# Parameters of a content type

A content type is a media type and parameters, `name=value`, with whitespace around
names and values. `_content_type` gives the media type, and `_encoding` finds the
parameter `charset` wherever it is, but what it gives is the name of the parameter
(`encoding_eq`), which is its value for one value only (`content_type_iff`).
-/

namespace Levin

open Framework Bytes

/-- A parameter of a content type, with the whitespace around its name and its value. -/
structure Parameter where
  name : Bytes
  value : Bytes
  beforeName : Bytes := []
  afterName : Bytes := []
  beforeValue : Bytes := []
  afterValue : Bytes := []
  padding : ∀ b ∈ beforeName ++ afterName ++ beforeValue ++ afterValue, isSpace b = true
  name_ok : 59 ∉ name ∧ 61 ∉ name ∧ Trimmed name
  value_ok : 59 ∉ value ∧ Trimmed value

namespace Parameter

variable (p : Parameter)

def text : Bytes := p.beforeName ++ p.name ++ p.afterName ++ 61 :: (p.beforeValue ++ p.value ++ p.afterValue)

theorem isSpace_of_mem_beforeName : ∀ b ∈ p.beforeName, isSpace b = true := fun b hb => p.padding b (by simp [hb])

theorem isSpace_of_mem_afterName : ∀ b ∈ p.afterName, isSpace b = true := fun b hb => p.padding b (by simp [hb])

/-- A byte that is no whitespace is in no padding. -/
theorem notMem_padding {b : UInt8} (hb : isSpace b = false) : b ∉ p.beforeName ++ p.afterName ++ p.beforeValue ++ p.afterValue :=
  fun hmem => by simp [p.padding b hmem] at hb

theorem semicolon_notMem_text : 59 ∉ p.text := by
  have hpadding := p.notMem_padding (b := 59) (by decide)
  simp only [List.mem_append, not_or] at hpadding
  simp [text, hpadding, p.name_ok.1, p.value_ok.1]

theorem equals_mem_text : 61 ∈ p.text := by simp [text]

theorem strip_firstPart : strip (firstPart 61 (strip p.text)) = p.name := by
  have hpadding := p.notMem_padding (b := 61) (by decide)
  simp only [List.mem_append, not_or] at hpadding
  have hname : 61 ∉ p.beforeName ++ p.name ++ p.afterName := by simp [hpadding, p.name_ok.2.1]
  have hdrop : 61 ∉ (p.beforeName ++ p.name ++ p.afterName).dropWhile isSpace :=
    fun hmem => hname ((List.dropWhile_suffix _).subset hmem)
  rw [text, strip_append_cons (by decide), firstPart, split1_append hdrop]
  show strip ((p.beforeName ++ p.name ++ p.afterName).dropWhile isSpace) = p.name
  rw [strip_dropWhile, strip_padded p.isSpace_of_mem_beforeName p.name_ok.2.2 p.isSpace_of_mem_afterName]

end Parameter

/-- A content type: a media type and parameters. -/
structure ContentType where
  mediaType : Bytes
  params : List Parameter
  mediaType_ok : 59 ∉ mediaType ∧ mediaType ≠ []

namespace ContentType

variable (c : ContentType)

def text : Bytes := c.mediaType ++ c.params.flatMap fun p => 59 :: p.text

/-- The parameter called `charset`: the first of them. -/
def charset : Option Parameter := c.params.find? fun p => p.name = ascii "charset"

/-- The encoding that a content type says: the value of its `charset`, in lower case, or the default one. -/
def saidEncoding : Bytes :=
  match c.charset with
  | none => DEFAULT_ENCODING
  | some p => lower p.value

end ContentType

/-! ## What is read of a content type -/

theorem firstPart_of_notMem {sep : UInt8} {s : Bytes} (h : sep ∉ s) : firstPart sep s = s := by
  rw [firstPart, split1_eq_none.mpr h]

theorem firstPart_append {sep : UInt8} {l : Bytes} (h : sep ∉ l) (rest : Bytes) : firstPart sep (l ++ sep :: rest) = l := by
  rw [firstPart, split1_append h]

/-- Texts with a separator before each of them. -/
theorem split_flatMap {sep : UInt8} {l : Bytes} (hl : sep ∉ l) {ls : List Bytes} (h : ∀ l ∈ ls, sep ∉ l) :
    Bytes.split sep (l ++ ls.flatMap (sep :: ·)) = l :: ls := by
  induction ls generalizing l with
  | nil => rw [List.flatMap_nil, List.append_nil, split_of_not_mem hl]
  | cons l' ls ih =>
    obtain ⟨hl', h⟩ := List.forall_mem_cons.mp h
    rw [List.flatMap_cons, List.cons_append, split_append hl, ih hl' h]

namespace PatchRequest

/-- The loop stops at the parameter called `charset`, and returns that name. -/
theorem encodingFrom_eq (params : List Parameter) : encodingFrom (params.map Parameter.text) =
    if ∃ p ∈ params, p.name = ascii "charset" then ascii "charset" else DEFAULT_ENCODING := by
  induction params with
  | nil => simp [encodingFrom]
  | cons p params ih =>
    simp only [List.map_cons, encodingFrom, p.equals_mem_text, not_true_eq_false, false_or, p.strip_firstPart, ih]
    by_cases hp : p.name = ascii "charset"
    · simp only [hp, ne_eq, not_true_eq_false, if_false, List.mem_cons, exists_eq_or_imp, true_or, if_true]
      decide
    · simp [hp]

variable {request : Request} {c : ContentType}

theorem contentType_eq (h : request.headers.get? CONTENT_TYPE_HEADER = some c.text) : contentType request = some c.mediaType := by
  have hne : c.text ≠ [] := by
    intro hnil
    exact c.mediaType_ok.2 (List.append_eq_nil_iff.mp hnil).1
  have hfirst : firstPart 59 c.text = c.mediaType := by
    unfold ContentType.text
    cases c.params with
    | nil => rw [List.flatMap_nil, List.append_nil, firstPart_of_notMem c.mediaType_ok.1]
    | cons p params => rw [List.flatMap_cons, List.cons_append, firstPart_append c.mediaType_ok.1]
  simp only [contentType, h, hne, if_false, hfirst]

theorem encoding_eq (h : request.headers.get? CONTENT_TYPE_HEADER = some c.text) : encoding request =
    if ∃ p ∈ c.params, p.name = ascii "charset" then ascii "charset" else DEFAULT_ENCODING := by
  have hsplit : Bytes.split 59 c.text = c.mediaType :: c.params.map Parameter.text := by
    have htexts : ∀ l ∈ c.params.map Parameter.text, 59 ∉ l := by
      intro l hl
      obtain ⟨p, -, rfl⟩ := List.mem_map.mp hl
      exact p.semicolon_notMem_text
    rw [← split_flatMap c.mediaType_ok.1 htexts, List.flatMap_map]
    rfl
  have hencoding : encoding request = encodingFrom (c.params.map Parameter.text) := by
    simp only [encoding, h, hsplit, List.tail_cons]
    split
    · rename_i hplain
      -- Without a semicolon there is no parameter.
      cases hparams : c.params with
      | nil => rfl
      | cons p params =>
        rcases hplain with hnil | hplain
        · exact absurd (List.append_eq_nil_iff.mp hnil).1 c.mediaType_ok.2
        · exact absurd (by simp [ContentType.text, hparams]) hplain
    · rfl
  rw [hencoding, encodingFrom_eq]

section Attributes

variable {V : Type} [RequestValue V]

/-- The attributes of a request are what the content type says, whatever has been asked for before. -/
def ReadsContentType (patch : PatchRequest V) (request : Request) (c : ContentType) : Prop :=
  ∀ transportInfo depth items depth',
    let r := (patch.patched (request.connected transportInfo)).gets depth items
    (r.get (depth' + 1) (ascii "content_type")).1 = .ok (some (RouteValue.bytes c.mediaType)) ∧
      (r.get (depth' + 1) (ascii "encoding")).1 = .ok (some (RouteValue.str c.saidEncoding))

theorem str_inj {s s' : Bytes} (h : (RouteValue.str s : V) = RouteValue.str s') : s = s' := by
  have heq := congrArg RequestValue.asStr h
  rwa [RequestValue.asStr_str, RequestValue.asStr_str, Option.some.injEq] at heq

theorem get_encoding (patch : PatchRequest V) (request : Request) (transportInfo : Other V) (depth depth' : Nat)
    (items : List Bytes) :
    (((patch.patched (request.connected transportInfo)).gets depth items).get (depth' + 1) (ascii "encoding")).1 =
      .ok (some (RouteValue.str (encoding request))) := by
  have hsettled := patch.settled_encoding (request.get?_connected transportInfo (by decide))
  rw [Request.connected_request] at hsettled
  exact ScopedRequest.get_gets_of_settled hsettled depth depth' items

theorem get_contentType (patch : PatchRequest V) (h : request.headers.get? CONTENT_TYPE_HEADER = some c.text)
    (transportInfo : Other V) (depth depth' : Nat) (items : List Bytes) :
    (((patch.patched (request.connected transportInfo)).gets depth items).get (depth' + 1) (ascii "content_type")).1 =
      .ok (some (RouteValue.bytes c.mediaType)) := by
  have hsettled := patch.settled_contentType (request.get?_connected transportInfo (by decide))
  rw [Request.connected_request, contentType_eq h] at hsettled
  exact ScopedRequest.get_gets_of_settled hsettled depth depth' items

/-- What is said is what is read if no parameter is called `charset`, or if the value of the first one is its name. -/
theorem content_type_iff (patch : PatchRequest V) (h : request.headers.get? CONTENT_TYPE_HEADER = some c.text) :
    patch.ReadsContentType request c ↔ ∀ p, c.charset = some p → lower p.value = ascii "charset" := by
  have hreads : patch.ReadsContentType request c ↔ encoding request = c.saidEncoding := by
    constructor
    · intro hreads
      have hsaid := (hreads patch.noParams 0 [] 0).2
      rw [get_encoding, Except.ok.injEq, Option.some.injEq] at hsaid
      exact str_inj hsaid
    · intro heq transportInfo depth items depth'
      exact ⟨get_contentType patch h .., heq ▸ get_encoding patch request ..⟩
  rw [hreads, encoding_eq h, ContentType.saidEncoding]
  cases hcharset : c.charset with
  | none =>
    have hnone : ¬ ∃ p ∈ c.params, p.name = ascii "charset" := by
      rintro ⟨p, hp, hname⟩
      exact absurd hname (by simpa using List.find?_eq_none.mp hcharset p hp)
    simp [hnone]
  | some p =>
    have hsome : ∃ p ∈ c.params, p.name = ascii "charset" :=
      ⟨p, List.mem_of_find?_eq_some hcharset, by simpa using List.find?_some hcharset⟩
    simp only [hsome, if_true, Option.some.injEq, forall_eq']
    exact eq_comm

end Attributes

/-- `charset=value`, after a space. -/
def charsetParameter (value : Bytes) (h : 59 ∉ value ∧ Trimmed value) : Parameter where
  name := ascii "charset"
  value := value
  beforeName := [32]
  padding := List.all_iff_forall_prop.mp (by decide)
  name_ok := by decide
  value_ok := h

/-- `text/html; boundary=a=b` -/
def boundaryType : ContentType where
  mediaType := ascii "text/html"
  params := [{
    name := ascii "boundary"
    value := ascii "a=b"
    beforeName := [32]
    padding := List.all_iff_forall_prop.mp (by decide)
    name_ok := by decide
    value_ok := by decide }]
  mediaType_ok := by decide

/-- `text/html; charset=utf-8` -/
def utf8Type : ContentType where
  mediaType := ascii "text/html"
  params := [charsetParameter (ascii "utf-8") (by decide)]
  mediaType_ok := by decide

/-- A request with this content type. -/
def typedRequest (c : ContentType) : Request := { getRequest [] with headers := [(CONTENT_TYPE_HEADER, c.text)] }

theorem typedRequest_header (c : ContentType) : (typedRequest c).headers.get? CONTENT_TYPE_HEADER = some c.text := by
  simp [typedRequest, Dict.get?]

theorem boundary_read : plainPatch.ReadsContentType (typedRequest boundaryType) boundaryType := by
  have h := content_type_iff (c := boundaryType) plainPatch (typedRequest_header boundaryType)
  refine h.mpr fun p hp => ?_
  have hnone : boundaryType.charset = none := by decide
  rw [hnone] at hp
  cases hp

/-- The encoding of `text/html; charset=utf-8` is `charset`. -/
theorem charset_not_read : ¬ ∀ (request : Request) (c : ContentType),
    request.headers.get? CONTENT_TYPE_HEADER = some c.text → plainPatch.ReadsContentType request c := by
  intro h
  have hsaid := (h _ utf8Type (typedRequest_header utf8Type) plainPatch.noParams 0 [] 0).2
  rw [get_encoding, Except.ok.injEq, Option.some.injEq] at hsaid
  exact absurd (str_inj hsaid) (by decide)

end PatchRequest

end Levin
