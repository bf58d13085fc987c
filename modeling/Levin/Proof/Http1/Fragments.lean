import Levin.Core.Parsers.HttpTools
import Levin.Proof.Http1.Head

/-!
# The fragments of a body

httptools calls `on_body` for each fragment of a body, such as a chunk, and each call
overwrites the fragment before it (`foldl_onBody`). A request's body is the message's
exactly if only the last fragment has anything in it (`body_iff`).
-/

namespace Levin.HttpTools

open Framework Bytes

/-- What httptools tells of a message. -/
structure FedMessage where
  url : Bytes
  headers : List (Bytes × Bytes)
  /-- The body, as it arrives. -/
  fragments : List Bytes
  method : Bytes
  version : Bytes

/-- The message is fed in one chunk. -/
def FedMessage.fed (m : FedMessage) : Fed where
  callbacks := .onUrl m.url :: ((m.headers.map fun h => .onHeader h.1 h.2) ++ m.fragments.map .onBody ++ [.onMessageComplete])
  exc := none
  method := m.method
  version := m.version

/-- One request is returned, with the headers and the body of the message. -/
def Returned (m : FedMessage) (result : Except Exc (Parsed UInt8)) : Prop :=
  ∃ request, result = .ok { data := [], requests := [request], close := false } ∧
    request.headers = createHeadersMap m.headers ∧ request.body = some m.fragments.flatten

theorem foldl_onHeader (headers : List (Bytes × Bytes)) (r : PRequest) :
    (headers.map fun h => Callback.onHeader h.1 h.2).foldl PRequest.call r =
      { r with headers := r.headers ++ headers.map fun h => (lower h.1, h.2) } := by
  induction headers generalizing r with
  | nil => simp
  | cons h headers ih =>
    rw [List.map_cons, List.foldl_cons, ih]
    simp [PRequest.call]

/-- What is left of the fragments is the last of them. -/
theorem foldl_onBody (fragments : List Bytes) (r : PRequest) :
    (fragments.map Callback.onBody).foldl PRequest.call r = { r with body := fragments.getLast?.getD r.body } := by
  induction fragments generalizing r with
  | nil => rfl
  | cons fragment fragments ih =>
    rw [List.map_cons, List.foldl_cons, ih, List.getLast?_cons, Option.getD_some]
    rfl

theorem handleRequest_fed {p : Parser} {data : Bytes} {m : FedMessage} (h : p.feedData data = m.fed) :
    handleRequest data p = .ok {
      data := []
      requests := [.create m.url m.method (some (m.fragments.getLast?.getD []))
        (m.headers.map fun h => (lower h.1, h.2)) (ascii "HTTP/" ++ m.version)]
      close := false } := by
  have hcalls : m.fed.callbacks.foldl PRequest.call {} =
      { headers := m.headers.map fun h => (lower h.1, h.2), path := some m.url,
        body := m.fragments.getLast?.getD [], ready := true } := by
    rw [FedMessage.fed, List.foldl_cons, List.foldl_append, List.foldl_append, foldl_onHeader, foldl_onBody]
    rfl
  simp only [handleRequest, h, hcalls]
  rfl

theorem getLast_eq_flatten {fragments : List Bytes} :
    fragments.getLast?.getD [] = fragments.flatten ↔ ∀ fragment ∈ fragments.dropLast, fragment = [] := by
  rcases List.eq_nil_or_concat fragments with rfl | ⟨before, last, rfl⟩
  · simp
  · rw [List.concat_eq_append, List.getLast?_concat, Option.getD_some, List.dropLast_concat, List.flatten_concat,
      List.self_eq_append_left, List.flatten_eq_nil_iff]

/-- A message is received as it was sent exactly if all fragments of its body but the last are empty. -/
theorem body_iff {p : Parser} {data : Bytes} {m : FedMessage} (h : p.feedData data = m.fed) :
    Returned m (handleRequest data p) ↔ ∀ fragment ∈ m.fragments.dropLast, fragment = [] := by
  rw [handleRequest_fed h, ← getLast_eq_flatten]
  constructor
  · rintro ⟨request, hrequest, -, hbody⟩
    cases hrequest
    exact Option.some.inj hbody
  · intro hbody
    exact ⟨_, rfl, HttpSimple.createHeadersMap_lower m.headers, congrArg some hbody⟩

/-- `POST /` with these fragments. -/
def postFragments (fragments : List Bytes) : FedMessage where
  url := ascii "/"
  headers := [(ascii "Transfer-Encoding", ascii "chunked")]
  fragments := fragments
  method := ascii "POST"
  version := ascii "1.1"

/-- A parser for which every text is that message. -/
def feeding (m : FedMessage) : Parser := { feedData := fun _ => m.fed }

theorem oneFragment_returned :
    Returned (postFragments [ascii "hello"]) (handleRequest [] (feeding (postFragments [ascii "hello"]))) :=
  (body_iff rfl).mpr nofun

/-- Of two chunks the first is lost. -/
theorem twoFragments_not_returned : ¬ ∀ (p : Parser) (data : Bytes) (m : FedMessage), p.feedData data = m.fed →
    Returned m (handleRequest data p) := by
  intro h
  obtain ⟨request, hrequest, -, hbody⟩ := h (feeding (postFragments [ascii "hello ", ascii "world"])) [] _ rfl
  cases hrequest
  exact absurd hbody (by decide)

end Levin.HttpTools
