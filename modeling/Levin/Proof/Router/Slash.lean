import Levin.Proof.Router.Resolution
import Mathlib.Data.Bool.AllAny

/-!
# A slash at the end of a path

The two kinds of conditions take a slash at the end of a path off in ways of their
own. For patterns without metacharacters outside their placeholders the same
condition is the first to be met with it and without, and with the same result
(`resolve_slash`).
-/

namespace Levin

open Framework Bytes Regex

/-- A byte that has, or may have, a meaning of its own in an expression. -/
def isMeta (b : UInt8) : Bool := decide (b ∈ ascii ".^$*+?{}[]\\|()")

variable {V H : Type} [RouteValue V] {route : Route V H}

/-- A route without metacharacters outside its placeholders, which have different identifiers for names, and whose pattern
does not end in two slashes. -/
structure Route.Plain (route : Route V H) : Prop where
  literal : ∀ b ∈ literals (tokens route.pattern), isMeta b = false
  slashes : ¬ [47, 47] <:+ route.pattern
  names : route.WellNamed

/-- A pattern without metacharacters can be read. -/
theorem readable_of_literals {ts : List Token} (h : ∀ b ∈ literals ts, isMeta b = false) : Readable ts := by
  intro before b after heq
  have hmeta : b ∉ ascii ".^$*+?{}[]\\|()" :=
    of_decide_eq_false (h b (mem_literals.mpr (heq ▸ List.mem_append_right _ List.mem_cons_self)))
  refine ⟨fun hs => absurd (of_decide_eq_true hs) fun hmem => hmeta ?_, fun hb => absurd (hb ▸ by decide) hmeta⟩
  exact (show ascii ".^$*+?[\\|()" ⊆ ascii ".^$*+?{}[]\\|()" by decide) hmem

theorem mandatory_item (t : Token) : Mandatory 47 t.item := by
  cases t with
  | byte b =>
    rw [Token.item]
    split <;> exact trivial
  | arg name => exact (by decide : isWord 47 = false)

omit [RouteValue V] in
/-- The last item before the slash that is optional does not take a slash. -/
theorem Route.Plain.last_item (h : route.Plain) {p : UInt8 → Bool}
    (hp : ((tokens (bare route.pattern)).map Token.item).getLast? = some (.one p)) : p 47 = false := by
  rw [List.getLast?_map, Option.map_eq_some_iff] at hp
  obtain ⟨t, ht, hitem⟩ := hp
  obtain ⟨ts, hts⟩ := List.getLast?_eq_some_iff.mp ht
  cases t with
  | arg name => cases hitem
  | byte b =>
    have hmem : .byte b ∈ tokens route.pattern := mem_tokens_of_bare (List.mem_of_getLast? ht)
    have hb : b ≠ 47 := by
      rintro rfl
      refine getLast_bare h.slashes ?_
      rw [← render_tokens (bare route.pattern), hts]
      have hrender : render (ts ++ [.byte 47]) = render ts ++ [47] := List.flatMap_append
      rw [hrender, List.getLast?_concat]
    have hdot : b ≠ 46 := by
      rintro rfl
      exact absurd (h.literal 46 (mem_literals.mpr hmem)) (by decide)
    rw [Token.item, if_neg hdot] at hitem
    obtain rfl := RegexItem.one.inj hitem
    exact beq_eq_false_iff_ne.mpr (Ne.symm hb)

omit [RouteValue V] in
/-- The expression of a plain route matches a path with a slash at its end as it does without. -/
theorem fullmatch_slash (h : route.Plain) {path : Bytes} (hpath : path.getLast? ≠ some 47) :
    Regex.fullmatch (patternItems route.pattern) (path ++ [47]) = Regex.fullmatch (patternItems route.pattern) path := by
  have hmandatory : ∀ i ∈ (tokens (bare route.pattern)).map Token.item, Mandatory 47 i := by
    intro i hi
    obtain ⟨t, -, rfl⟩ := List.mem_map.mp hi
    exact mandatory_item t
  rw [fullmatch_eq_head, fullmatch_eq_head, patternItems,
    fullMatches_append hmandatory (fun p hp => h.last_item hp) hpath]

/-- A condition says the same of both. -/
theorem call_slash (h : route.Plain) (method : Bytes) {path : Bytes} (hpath : path.getLast? ≠ some 47) :
    route.condition.call method (.ok (path ++ [47])) = route.condition.call method (.ok path) := by
  by_cases hmethod : route.method = method
  · subst hmethod
    by_cases hb : 123 ∈ route.pattern
    · rw [Route.call_regexp hb, Route.call_regexp hb, fullmatch_slash h hpath]
    · rw [Route.call_equals hb, Route.call_equals hb, bare_append_slash, bare_of_getLast hpath]
  · rw [Route.call_of_ne hmethod, Route.call_of_ne hmethod]

/-- A router of plain routes resolves a path without a slash at its end as it does the path with it. -/
theorem resolve_slash (re : Bytes → Except Exc CompiledRe) (notFoundHandler : H) {routes : List (Route V H)}
    (h : ∀ r ∈ routes, r.Plain) : ∃ router, addRoutes re routes { notFoundHandler } = .ok router ∧
      ∀ method path : Bytes, path.getLast? ≠ some 47 →
        router.resolve method (.ok (path ++ [47])) = router.resolve method (.ok path) := by
  refine ⟨_, addRoutes_eq re (fun r hr => Route.addable_of_readable (h r hr).names (readable_of_literals (h r hr).literal)) _, ?_⟩
  intro method path hpath
  show HttpRouter.resolveFrom notFoundHandler method _ (routes.map fun r => (r.condition, r.handler)) =
    HttpRouter.resolveFrom notFoundHandler method _ (routes.map fun r => (r.condition, r.handler))
  induction routes with
  | nil => rfl
  | cons r routes ih =>
    have ih := ih fun r hr => h r (List.mem_cons_of_mem _ hr)
    rw [List.map_cons, HttpRouter.resolveFrom, HttpRouter.resolveFrom, call_slash (h r List.mem_cons_self) method hpath, ih]

/-- `/test/{user}/` and `/test1`. -/
def slashRoutes : List (Route Bytes Nat) :=
  [{ method := ascii "POST", pattern := ascii "/test/{user}/", handler := 1, metadata := [] },
    { method := ascii "POST", pattern := ascii "/test1", handler := 2, metadata := [] }]

theorem slashRoutes_resolve : ∃ router, addRoutes noOtherRe slashRoutes { notFoundHandler := 0 } = .ok router ∧
    router.resolve (ascii "POST") (.ok (ascii "/test/levin" ++ [47])) =
      router.resolve (ascii "POST") (.ok (ascii "/test/levin")) := by
  have hplain : ∀ r ∈ slashRoutes, r.Plain :=
    List.forall_mem_cons.mpr ⟨⟨List.all_iff_forall_prop.mp (by decide), by decide, by decide⟩,
      List.forall_mem_singleton.mpr ⟨List.all_iff_forall_prop.mp (by decide), by decide, by decide⟩⟩
  obtain ⟨router, hrouter, hresolve⟩ := resolve_slash noOtherRe 0 hplain
  exact ⟨router, hrouter, hresolve (ascii "POST") (ascii "/test/levin") (by decide)⟩

end Levin
