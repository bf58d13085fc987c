import Levin.Proof.Components.PatchRequest

/-!
# A query string and the path

A path without a question mark is the raw path as it is; one with a question mark goes
through `urlparse`. Both are the same if and only if what stands in front of the
question mark has nothing in it but a path, and the query can be parsed
(`path_query_iff`).
-/

namespace Levin

open Framework Bytes

variable {V : Type} [RequestValue V]

/-- `request.path`, of a request with this raw path that comes to PatchRequest. -/
def PatchRequest.computed (patch : PatchRequest V) (depth : Nat) (request : Request) (rawPath : Bytes) (transportInfo : Other V) :
    Except Exc V :=
  ((patch.patched ({ request with rawPath }.connected transportInfo)).path depth).1

theorem PatchRequest.computed_eq (patch : PatchRequest V) (depth : Nat) (request : Request) (rawPath : Bytes)
    (transportInfo : Other V) : patch.computed (depth + 1) request rawPath transportInfo =
      (patch.pathOf { request with rawPath }).map RouteValue.bytes := by
  have hpath := patch.get?_patched (Request.get?_connected { request with rawPath } transportInfo (by decide))
    (by simp [slots] : (ascii "path", .lazy patch.path) ∈ patch.slots)
  have hparams := patch.get?_patched (Request.get?_connected { request with rawPath } transportInfo (by decide))
    (by simp [slots] : (ascii "query_params", .lazy patch.queryParams) ∈ patch.slots)
  rw [computed, PatchRequest.path_fst patch hpath (by simp [hparams]), patched_request, Request.connected_request]

/-- The query that is parsed when this comes after the question mark. -/
def queryOf (v : Url.Version) (q : Bytes) : Bytes := (Url.cut 35 (q.filter fun b => !v.isRemoved b)).1

/-- The path with a query string is the path without if and only if the raw path is nothing but a path, and the query can
be parsed. -/
theorem path_query_iff (v : Url.Version) (patch : PatchRequest V) (hparse : patch.parseUrl = urlparse v) (depth : Nat)
    (request : Request) {p q : Bytes} (hp : p.all (· < 128) = true) (hq : q.all (· < 128) = true) (hmark : 63 ∉ p)
    (transportInfo : Other V) :
    patch.computed (depth + 1) request (p ++ 63 :: q) transportInfo = patch.computed (depth + 1) request p transportInfo ↔
      Url.Plain v p q ∧ ∃ params, patch.parseQueryParams (queryOf v q) = .ok params := by
  have hascii : (p ++ 63 :: q).all (· < 128) = true := by
    rw [List.all_append, List.all_cons, hp, hq]
    rfl
  have hshort : patch.pathOf { request with rawPath := p } = .ok p := if_pos hmark
  have hlong := @PatchRequest.pathOf_eq_ok V _ patch { request with rawPath := p ++ 63 :: q } (by simp) p
  have hparsed : ∀ parsed, patch.parseUrl (p ++ 63 :: q) = .ok parsed ↔
      ∃ result, Url.urlparse v (p ++ 63 :: q) = some result ∧ { path := result.path, query := result.query } = parsed := by
    intro parsed
    rw [hparse, urlparse]
    cases Url.urlparse v (p ++ 63 :: q) <;> simp
  have hequal : (patch.pathOf { request with rawPath := p ++ 63 :: q }).map RouteValue.bytes = .ok (RouteValue.bytes p : V) ↔
      patch.pathOf { request with rawPath := p ++ 63 :: q } = .ok p := by
    cases patch.pathOf { request with rawPath := p ++ 63 :: q } with
    | error e => simp [Except.map]
    | ok p' => simpa [Except.map] using ⟨fun h => RouteValue.bytes_inj h, fun h => congrArg RouteValue.bytes h⟩
  rw [patch.computed_eq, patch.computed_eq, hshort]
  refine hequal.trans (hlong.trans ⟨?_, ?_⟩)
  · rintro ⟨parsed, hurl, hparams, hpath⟩
    obtain ⟨result, hresult, rfl⟩ := (hparsed parsed).mp hurl
    have hplain := Url.plain_of_path hmark hresult hpath
    obtain ⟨fragment, hmarked⟩ := Url.urlparse_mark hmark hplain hascii
    obtain rfl := Option.some.inj (hresult.symm.trans hmarked)
    exact ⟨hplain, hparams⟩
  · rintro ⟨hplain, hparams⟩
    obtain ⟨fragment, hmarked⟩ := Url.urlparse_mark hmark hplain hascii
    exact ⟨_, (hparsed _).mpr ⟨_, hmarked, rfl⟩, hparams, rfl⟩

/-- What stands behind a semicolon is a part of the path only if there is no query string. -/
theorem semicolon_lost :
    plainPatch.computed 1 (getRequest []) (ascii "/a;b") ⟨.none, rfl⟩ = .ok (.bytes (ascii "/a;b")) ∧
    plainPatch.computed 1 (getRequest []) (ascii "/a;b" ++ 63 :: ascii "c=d") ⟨.none, rfl⟩ = .ok (.bytes (ascii "/a")) := by
  rw [plainPatch.computed_eq, plainPatch.computed_eq]
  constructor <;> decide

theorem root_kept :
    plainPatch.computed 1 (getRequest []) (ascii "/" ++ 63 :: ascii "a=b") ⟨.none, rfl⟩ =
      plainPatch.computed 1 (getRequest []) (ascii "/") ⟨.none, rfl⟩ := by
  have hplain : Url.Plain urllib37 (ascii "/") (ascii "a=b") :=
    ⟨fun _ _ => rfl, fun _ _ => rfl, by decide, by decide, by decide, by decide⟩
  exact (path_query_iff urllib37 plainPatch rfl 0 (getRequest []) (by decide) (by decide) (by decide) ⟨.none, rfl⟩).mpr
    ⟨hplain, _, rfl⟩

end Levin
