import Levin.Components.Default
import Levin.Proof.Scope

/-!
# The attributes PatchRequest sets

The path of a request, as it comes from the shortcut or from `_parse_url`
(`pathOf`), and that asking for it changes nothing but the path itself.
-/

namespace Levin

open Framework Bytes

variable {V : Type} [RequestValue V]

theorem Request.get?_connected (request : Request) (transportInfo : Other V) {key : Bytes}
    (h : key ≠ ascii "get_transport_info") : (request.connected transportInfo).scope.get? key = none := by
  rw [connected, ScopedRequest.get?_set, if_neg h]
  rfl

@[simp] theorem Request.connected_request (request : Request) (transportInfo : Other V) :
    (request.connected transportInfo).request = request :=
  ScopedRequest.set_request ..

theorem Request.nodupKeys_connected (request : Request) (transportInfo : Other V) :
    (request.connected transportInfo).NodupKeys :=
  ScopedRequest.NodupKeys.set (r := { request, scope := [] }) List.nodup_nil _ _

namespace PatchRequest

variable (patch : PatchRequest V) {r : ScopedRequest V}

/-- What `_path` returns or raises. -/
def pathOf (request : Request) : Except Exc Bytes :=
  if 63 ∉ request.rawPath then .ok request.rawPath
  else
    match patch.parseUrl request.rawPath with
    | .error e => .error e
    | .ok parsed =>
      match patch.parseQueryParams parsed.query with
      | .error e => .error e
      | .ok _ => .ok parsed.path

/-- With a question mark, the path comes from `parse_url`, if the query can be parsed. -/
theorem pathOf_eq_ok {request : Request} (h : 63 ∈ request.rawPath) {p : Bytes} : patch.pathOf request = .ok p ↔
    ∃ parsed, patch.parseUrl request.rawPath = .ok parsed ∧ (∃ params, patch.parseQueryParams parsed.query = .ok params) ∧
      parsed.path = p := by
  rw [pathOf, if_neg (not_not.mpr h)]
  cases patch.parseUrl request.rawPath with
  | error e => simp
  | ok parsed =>
    cases hparams : patch.parseQueryParams parsed.query with
    | error e => simp [hparams]
    | ok params =>
      simp only [hparams, Except.ok.injEq, exists_eq_left', exists_eq', true_and]

/-- What `_path` sets is set already. -/
theorem run_path {get : Bytes → ScopedRequest V → Except Exc (Option V) × ScopedRequest V}
    (hpath : r.scope.get? (ascii "path") ≠ none) (hparams : r.scope.get? (ascii "query_params") ≠ none) (request : Request) :
    ScopedRequest.run get (patch.path request) r = ((patch.pathOf request).map RouteValue.bytes, r) := by
  unfold path pathOf
  by_cases hq : 63 ∉ request.rawPath
  · rw [if_pos hq, if_pos hq]
    rfl
  · rw [if_neg hq, if_neg hq, parseRawPath]
    cases patch.parseUrl request.rawPath with
    | error e => rfl
    | ok parsed =>
      show ScopedRequest.run get _ (r.set (ascii "path") _) = _
      rw [ScopedRequest.set_of_present hpath]
      cases hquery : patch.parseQueryParams parsed.query with
      | error e =>
        simp only [hquery]
        rfl
      | ok params =>
        simp only [hquery]
        show ScopedRequest.run get _ (r.set (ascii "query_params") _) = _
        rw [ScopedRequest.set_of_present hparams]
        rfl

/-- What `middleware` sets. -/
def slots : Dict Bytes (Slot V) :=
  [(ascii "data", .lazy fun _ => .ret PyValue.none),
    (ascii "path", .lazy patch.path),
    (ascii "query_params", .lazy patch.queryParams),
    (ascii "json", .lazy patch.json),
    (ascii "content_type", .lazy fun request => .ret (((contentType request).map RouteValue.bytes).getD PyValue.none)),
    (ascii "encoding", .lazy fun request => .ret (RouteValue.str (encoding request)))]

theorem patched_eq : patch.patched r = patch.slots.foldl (fun r kv => r.set kv.1 kv.2) r := by
  simp only [patched, slots, List.foldl_cons, List.foldl_nil]

theorem get?_patched {key : Bytes} {slot : Slot V} (h : r.scope.get? key = none) (hslot : (key, slot) ∈ patch.slots) :
    (patch.patched r).scope.get? key = some slot := by
  have hnodup : (patch.slots.map Prod.fst).Nodup :=
    (by decide : [ascii "data", ascii "path", ascii "query_params", ascii "json", ascii "content_type", ascii "encoding"].Nodup)
  rw [patched_eq, ScopedRequest.get?_foldl_set, h, Option.none_or]
  exact Dict.get?_of_mem hnodup hslot

@[simp] theorem patched_request : (patch.patched r).request = r.request := by
  rw [patched_eq, ScopedRequest.foldl_set_request]

theorem settled_contentType (h : r.scope.get? (ascii "content_type") = none) :
    ScopedRequest.Settled r.request (ascii "content_type") (((contentType r.request).map RouteValue.bytes).getD PyValue.none)
      (patch.patched r) :=
  ⟨patched_request patch, .inr ⟨fun request => .ret (((contentType request).map RouteValue.bytes).getD PyValue.none),
    patch.get?_patched h (by simp [slots]), rfl⟩⟩

theorem settled_encoding (h : r.scope.get? (ascii "encoding") = none) :
    ScopedRequest.Settled r.request (ascii "encoding") (RouteValue.str (encoding r.request)) (patch.patched r) :=
  ⟨patched_request patch, .inr ⟨fun request => .ret (RouteValue.str (encoding request)),
    patch.get?_patched h (by simp [slots]), rfl⟩⟩

/-- `request.path`, when it is asked for first. -/
theorem path_ok (hpath : r.scope.get? (ascii "path") = some (.lazy patch.path))
    (hparams : r.scope.get? (ascii "query_params") ≠ none) {p : Bytes} (h : patch.pathOf r.request = .ok p) (depth : Nat) :
    r.path (depth + 1) = (.ok (RouteValue.bytes p),
      { r with scope := r.scope.set (ascii "path") (.value (RouteValue.bytes p)) }) := by
  rw [ScopedRequest.path, ScopedRequest.get_of_lazy hpath, run_path patch (by simp [hpath]) hparams, h]
  rfl

theorem path_fst (hpath : r.scope.get? (ascii "path") = some (.lazy patch.path))
    (hparams : r.scope.get? (ascii "query_params") ≠ none) (depth : Nat) :
    (r.path (depth + 1)).1 = (patch.pathOf r.request).map RouteValue.bytes := by
  cases h : patch.pathOf r.request with
  | ok p =>
    rw [path_ok patch hpath hparams h]
    rfl
  | error e =>
    rw [ScopedRequest.path, ScopedRequest.get_of_lazy hpath, run_path patch (by simp [hpath]) hparams, h]
    rfl

/-! ## What is not of the type `bytes` -/

theorem returns_queryParams (request : Request) :
    (patch.queryParams request).Returns fun v => RequestValue.asBytes v = none := by
  unfold queryParams
  split
  · exact patch.noParams.2
  · unfold parseRawPath
    split
    · exact trivial
    · next parsed hurl =>
      show LazyFunc.Returns _ _
      split
      · exact trivial
      · next params hparams => exact params.2

theorem returns_json (hjson : ∀ text v, patch.jsonLoads text = .ok v → RequestValue.asBytes v = none) (request : Request) :
    (patch.json request).Returns fun v => RequestValue.asBytes v = none := by
  refine LazyFunc.returns_attr fun contentType => ?_
  split
  · split
    · exact trivial
    · refine LazyFunc.returns_attr fun encoding => ?_
      split
      · exact trivial
      · split
        · exact trivial
        · split
          · exact trivial
          · next v hloads => exact hjson _ v hloads
  · exact RequestValue.asBytes_none

end PatchRequest

/-- Values of attributes: `None`, `bytes`, `str`, and other objects by number. -/
inductive AttrValue
  | none
  | bytes (b : Bytes)
  | str (s : Bytes)
  | object (n : Nat)
  deriving DecidableEq

instance : RequestValue AttrValue where
  none := .none
  truthy v := v != .none
  str := .str
  bytes := .bytes
  bytes_inj h := AttrValue.bytes.inj h
  asBytes
    | .bytes b => some b
    | _ => Option.none
  asStr
    | .str s => some s
    | _ => Option.none
  asBytes_bytes _ := rfl
  asBytes_str _ := rfl
  asBytes_none := rfl
  asStr_str _ := rfl

/-- `urllib` of Python 3.7. -/
def urllib37 : Url.Version where
  isLeading _ := false
  isRemoved _ := false
  isScheme scheme rest := scheme == ascii "http" || rest.isEmpty || rest.any fun b => !(48 ≤ b && b ≤ 57)
  usesParams scheme := decide (scheme ∈ [[], ascii "ftp", ascii "hdl", ascii "prospero", ascii "http", ascii "imap",
    ascii "https", ascii "shttp", ascii "rtsp", ascii "rtspu", ascii "sip", ascii "sips", ascii "mms", ascii "sftp",
    ascii "tel"])
  acceptsNetloc netloc := netloc.elem 91 == netloc.elem 93
  leading_mark := rfl
  removed_mark := rfl
  usesParams_nil := by decide
  acceptsNetloc_nil := rfl

/-- Every query gives the same dictionary. -/
def plainPatch : PatchRequest AttrValue where
  jsonLoads _ := .error .ValueError
  parseUrl := urlparse urllib37
  parseQueryParams _ := .ok ⟨.object 0, rfl⟩
  noParams := ⟨.object 1, rfl⟩
  codec _ _ := .error (.other "LookupError")

def getRequest (path : Bytes) : Request := .create path (ascii "GET") none [] (ascii "HTTP/1.1")

end Levin
