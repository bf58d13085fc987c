import Levin.Proof.Router.Matching

/-!
# Resolving a path

`Route.Accepts` says when a route accepts a path, in terms of its pattern alone.
A router resolves a path as the routes say (`Resolves`) if its literal bytes are read as
such, no pattern with a placeholder ends in two slashes, and no placeholder's name is
taken (`Route.Exact`). A table of one route whose literal bytes have no other meaning
than that of a dot resolves as it says only then (`resolution_exact`).
-/

namespace Levin

open Framework Bytes Regex

variable {V H : Type}

/-- What a route is added with. -/
structure Route (V H : Type) where
  method : Bytes
  pattern : Bytes
  handler : H
  metadata : Dict Bytes V

namespace Route

/-- The names of the placeholders. -/
def names (route : Route V H) : List Bytes := argNames (tokens route.pattern)

/-- A request's method and path, for these values of the placeholders: literal bytes stand for themselves, and a slash
at the end, of either, does not count. -/
def Accepts (route : Route V H) (method path : Bytes) (values : Bytes → Bytes) : Prop :=
  route.method = method ∧ AllWords (tokens route.pattern) values ∧ bare (fill (tokens route.pattern) values) = bare path

/-- The names of the placeholders are different identifiers. -/
def WellNamed (route : Route V H) : Prop := Levin.WellNamed (tokens route.pattern)

/-- A route without placeholders; or one whose literal bytes stand for themselves in an expression, whose pattern does not
end in two slashes, and whose placeholders have names that nothing else in the result has. -/
def Exact (route : Route V H) : Prop :=
  123 ∈ route.pattern →
    (∀ before b after, tokens route.pattern = before ++ .byte b :: after →
      isSpecial b = false ∧ (b = 123 → isRepetition (render after) = false)) ∧
    ¬ [47, 47] <:+ route.pattern ∧
    ∀ name ∈ route.names, name ≠ ascii "pattern" ∧ name ∉ route.metadata.map Prod.fst

instance (route : Route V H) : Decidable route.WellNamed := inferInstanceAs (Decidable (_ ∧ _))

instance (route : Route V H) : Decidable route.Exact := inferInstanceAs (Decidable (_ → _))

end Route

/-- Adding routes, in order. -/
def addRoutes [RouteValue V] (re : Bytes → Except Exc CompiledRe) :
    List (Route V H) → HttpRouter V H → Except Exc (HttpRouter V H)
  | [], router => .ok router
  | route :: routes, router =>
    match router.add re route.method (.bytes route.pattern) route.handler route.metadata with
    | .error e => .error e
    | .ok router => addRoutes re routes router

/-- The handler of the first route that accepts the path, and a result with the values of its placeholders; or the
handler for what is not found, and nothing. -/
def Resolves [RouteValue V] (notFoundHandler : H) (routes : List (Route V H)) (method path : Bytes) (handler : H)
    (result : Dict Bytes V) : Prop :=
  (∃ before route after, routes = before ++ route :: after ∧
    (∀ r ∈ before, ∀ values, ¬ r.Accepts method path values) ∧ handler = route.handler ∧
    ∃ values, route.Accepts method path values ∧
      ∀ name ∈ route.names, result.get? name = some (RouteValue.bytes (values name))) ∨
  ((∀ r ∈ routes, ∀ values, ¬ r.Accepts method path values) ∧ handler = notFoundHandler ∧ result = [])

/-- The routes can be added to an empty router, and it resolves every request as they say. -/
def TableExact [RouteValue V] (re : Bytes → Except Exc CompiledRe) (notFoundHandler : H) (routes : List (Route V H)) : Prop :=
  ∃ router, addRoutes re routes { notFoundHandler } = .ok router ∧
    ∀ method path, ∃ handler result, router.resolve method (.ok path) = .ok (handler, result) ∧
      Resolves notFoundHandler routes method path handler result

/-! ## Patterns and slashes -/

theorem tokens_of_slash {pattern : Bytes} (h : pattern.getLast? = some 47) :
    tokens pattern = tokens (bare pattern) ++ [.byte 47] := by
  have heq := congrArg tokens (eq_bare_append_slash h)
  rwa [tokens_append (by decide)] at heq

theorem tokens_bare (pattern : Bytes) :
    tokens pattern = tokens (bare pattern) ∨ tokens pattern = tokens (bare pattern) ++ [.byte 47] := by
  by_cases h : pattern.getLast? = some 47
  · exact .inr (tokens_of_slash h)
  · exact .inl (by rw [bare_of_getLast h])

theorem mem_tokens_of_bare {t : Token} {pattern : Bytes} (h : t ∈ tokens (bare pattern)) : t ∈ tokens pattern := by
  rcases tokens_bare pattern with htokens | htokens
  · rwa [htokens]
  · rw [htokens]
    exact List.mem_append_left _ h

theorem argNames_tokens_bare (pattern : Bytes) : argNames (tokens (bare pattern)) = argNames (tokens pattern) := by
  rcases tokens_bare pattern with h | h
  · rw [h]
  · rw [h, argNames_append]
    exact (List.append_nil _).symm

theorem fill_append (ts ts' : List Token) (values : Bytes → Bytes) : fill (ts ++ ts') values = fill ts values ++ fill ts' values :=
  List.flatMap_append

/-- A pattern that does not end in a slash has no path that does. -/
theorem getLast_fill {pattern : Bytes} {values : Bytes → Bytes} (hwords : AllWords (tokens pattern) values)
    (h : pattern.getLast? ≠ some 47) : (fill (tokens pattern) values).getLast? ≠ some 47 := by
  rcases List.eq_nil_or_concat (tokens pattern) with hnil | ⟨ts, t, hts⟩
  · rw [hnil]
    simp [fill]
  · rw [List.concat_eq_append] at hts
    have hpattern : pattern = render ts ++ render [t] := by
      rw [← render_tokens pattern, hts]
      exact List.flatMap_append
    rw [hts, fill_append]
    cases t with
    | byte b =>
      have hb : b ≠ 47 := by
        rintro rfl
        refine h ?_
        rw [hpattern]
        exact List.getLast?_concat
      show (fill ts values ++ [b]).getLast? ≠ some 47
      rw [List.getLast?_concat]
      exact fun heq => hb (Option.some.inj heq)
    | arg name =>
      obtain ⟨hne, hw⟩ := hwords name (mem_argNames.mpr (hts ▸ List.mem_append_right _ List.mem_cons_self))
      show (fill ts values ++ (values name ++ [])).getLast? ≠ some 47
      rw [List.append_nil, List.getLast?_append_of_ne_nil _ hne]
      intro heq
      exact absurd (hw 47 (List.mem_of_getLast? heq)) (by decide)

theorem getLast_bare {pattern : Bytes} (h : ¬ [47, 47] <:+ pattern) : (bare pattern).getLast? ≠ some 47 := by
  intro hend
  by_cases hslash : pattern.getLast? = some 47
  · refine h ⟨bare (bare pattern), ?_⟩
    have htwice : pattern = bare (bare pattern) ++ [47] ++ [47] := by
      rw [← eq_bare_append_slash hend]
      exact eq_bare_append_slash hslash
    rw [List.append_assoc] at htwice
    exact htwice.symm
  · rw [bare_of_getLast hslash] at hend
    exact hslash hend

theorem allWords_bare {pattern : Bytes} {values : Bytes → Bytes} :
    AllWords (tokens (bare pattern)) values ↔ AllWords (tokens pattern) values := by
  rw [AllWords, AllWords, argNames_tokens_bare]

/-- Leaving out the slash at the end of a pattern leaves it out of its paths. -/
theorem bare_fill {pattern : Bytes} {values : Bytes → Bytes} (hwords : AllWords (tokens pattern) values) :
    bare (fill (tokens pattern) values) = fill (tokens (bare pattern)) values := by
  by_cases h : pattern.getLast? = some 47
  · rw [tokens_of_slash h, fill_append]
    exact bare_append_slash _
  · rw [bare_of_getLast (getLast_fill hwords h), bare_of_getLast h]

/-! ## Patterns with placeholders -/

section Matching

variable {pattern path : Bytes}

/-- What a pattern's expression describes: its paths, with or without a slash at the end. -/
theorem matches_patternItems {caps : Captures} : Matches (patternItems pattern) caps path ↔
    Matches ((tokens (bare pattern)).map Token.item) caps path ∨
      ∃ m, path = m ++ [47] ∧ Matches ((tokens (bare pattern)).map Token.item) caps m := by
  rw [patternItems, matches_optional]
  constructor
  · rintro (h | ⟨m, b, rfl, hb, h⟩)
    · exact .inl h
    · obtain rfl := beq_iff_eq.mp hb
      exact .inr ⟨m, rfl, h⟩
  · rintro (h | ⟨m, rfl, h⟩)
    · exact .inl h
    · exact .inr ⟨m, 47, rfl, rfl, h⟩

/-- Every path of a pattern matches, up to a slash at its end. -/
theorem fullmatch_of_fill {values : Bytes → Bytes} (hwords : AllWords (tokens pattern) values)
    (h : bare (fill (tokens pattern) values) = bare path) : ∃ caps, Regex.fullmatch (patternItems pattern) path = some caps := by
  rw [bare_fill hwords] at h
  have hmatch := matches_fill (allWords_bare.mpr hwords)
  have hpath : Matches (patternItems pattern) (captures (tokens (bare pattern)) values) path := by
    refine matches_patternItems.mpr ?_
    by_cases hslash : path.getLast? = some 47
    · exact .inr ⟨_, (eq_bare_append_slash hslash).trans (by rw [h]), hmatch⟩
    · rw [bare_of_getLast hslash] at h
      exact .inl (h ▸ hmatch)
  exact fullmatch_of_matches hpath

/-- What matches is a path of the pattern. -/
theorem fill_of_fullmatch (hdots : .byte 46 ∉ tokens pattern) (hnodup : (argNames (tokens pattern)).Nodup)
    (hslashes : ¬ [47, 47] <:+ pattern) {caps : Captures} (h : Regex.fullmatch (patternItems pattern) path = some caps) :
    ∃ values, AllWords (tokens pattern) values ∧ caps = captures (tokens pattern) values ∧
      bare (fill (tokens pattern) values) = bare path := by
  have hdots : .byte 46 ∉ tokens (bare pattern) := fun hmem => hdots (mem_tokens_of_bare hmem)
  have hend := getLast_bare hslashes
  have hfill : ∀ {m : Bytes}, Matches ((tokens (bare pattern)).map Token.item) caps m →
      ∃ values, AllWords (tokens pattern) values ∧ caps = captures (tokens pattern) values ∧
        m = fill (tokens (bare pattern)) values := by
    intro m hm
    obtain ⟨values, hwords, rfl, rfl⟩ := fill_of_matches hdots (argNames_tokens_bare pattern ▸ hnodup) hm
    exact ⟨values, allWords_bare.mp hwords, by rw [captures, captures, argNames_tokens_bare], rfl⟩
  rcases matches_patternItems.mp (matches_of_fullmatch h) with hm | ⟨m, rfl, hm⟩
  · obtain ⟨values, hwords, rfl, rfl⟩ := hfill hm
    refine ⟨values, hwords, rfl, ?_⟩
    rw [bare_fill hwords, bare_of_getLast (getLast_fill (allWords_bare.mpr hwords) hend)]
  · obtain ⟨values, hwords, rfl, rfl⟩ := hfill hm
    exact ⟨values, hwords, rfl, by rw [bare_fill hwords, bare_append_slash]⟩

/-- A pattern without a brace is all literal. -/
theorem tokens_literal (h : 123 ∉ pattern) : tokens pattern = pattern.map .byte := by
  rw [tokens]
  induction pattern with
  | nil => rfl
  | cons b s ih =>
    rw [List.mem_cons, not_or] at h
    obtain ⟨hb, hs⟩ := h
    have hnone : argAt (b :: s) = none := by
      cases ha : argAt (b :: s) with
      | none => rfl
      | some name => exact absurd (argAt_cons ha).1.symm hb
    rw [tokensFrom_zero, hnone]
    exact congrArg (Token.byte b :: ·) (ih hs)

theorem fill_literal (s : Bytes) (values : Bytes → Bytes) : fill (s.map .byte) values = s := by
  induction s with
  | nil => rfl
  | cons b s ih => exact congrArg (b :: ·) ih

theorem argNames_literal (s : Bytes) : argNames (s.map .byte) = [] := by
  induction s with
  | nil => rfl
  | cons b s ih => exact ih

end Matching

/-! ## Conditions of routes -/

section Conditions

variable [RouteValue V] {route : Route V H} {method path : Bytes}

/-- The condition of a route. -/
def Route.condition (route : Route V H) : Condition V :=
  if 123 ∈ route.pattern then .regexp route.method route.pattern (patternRe route.pattern) route.metadata
  else .equals route.method route.pattern route.metadata

omit [RouteValue V] in
theorem Route.condition_method : route.condition.method = route.method := by
  rw [Route.condition]
  split <;> rfl

omit [RouteValue V] in
theorem Route.condition_pattern : route.condition.pattern = route.pattern := by
  rw [Route.condition]
  split <;> rfl

omit [RouteValue V] in
theorem Route.condition_metadata : route.condition.metadata = route.metadata := by
  rw [Route.condition]
  split <;> rfl

/-- A route that can be added: its placeholders have different identifiers for names, and the expression of its pattern
can be read. -/
def Route.Addable (route : Route V H) : Prop :=
  123 ∈ route.pattern → Readable (tokens (bare route.pattern)) ∧ Levin.WellNamed (tokens (bare route.pattern))

omit [RouteValue V] in
theorem Route.Addable.add_eq (h : route.Addable) (re : Bytes → Except Exc CompiledRe) (router : HttpRouter V H) :
    router.add re route.method (.bytes route.pattern) route.handler route.metadata =
      .ok { router with routes := router.routes ++ [(route.condition, route.handler)] } := by
  by_cases hb : 123 ∈ route.pattern
  · obtain ⟨hread, hnames⟩ := h hb
    simp [HttpRouter.add, hb, Condition.ofPattern, patternToRegexp_eq re hread hnames, Except.map, Route.condition]
  · simp [HttpRouter.add, hb, Route.condition]

theorem addRoutes_eq (re : Bytes → Except Exc CompiledRe) {routes : List (Route V H)} (h : ∀ r ∈ routes, r.Addable)
    (router : HttpRouter V H) : addRoutes re routes router =
      .ok { router with routes := router.routes ++ routes.map fun r => (r.condition, r.handler) } := by
  induction routes generalizing router with
  | nil => rw [addRoutes, List.map_nil, List.append_nil]
  | cons r routes ih =>
    rw [addRoutes, (h r List.mem_cons_self).add_eq]
    simp [ih fun r hr => h r (List.mem_cons_of_mem _ hr)]

/-- A condition looks at the method first. -/
theorem Route.call_of_ne (h : route.method ≠ method) (path : Except Exc Bytes) :
    route.condition.call method path = .ok none := by
  unfold Condition.call
  exact if_pos (by rwa [condition_method])

theorem Route.call_regexp (h : 123 ∈ route.pattern) (path : Bytes) : route.condition.call route.method (.ok path) =
    .ok ((Regex.fullmatch (patternItems route.pattern) path).map fun caps =>
      Condition.result (caps.map fun c => (c.1, some c.2)) route.pattern route.metadata) := by
  have hcondition : route.condition = .regexp route.method route.pattern (patternRe route.pattern) route.metadata :=
    if_pos h
  simp [Condition.call, hcondition, Condition.method, patternRe, Option.map_map, Function.comp_def]

theorem Route.call_equals (h : 123 ∉ route.pattern) (path : Bytes) : route.condition.call route.method (.ok path) =
    .ok (if bare route.pattern = bare path then some (Condition.result [] route.pattern route.metadata) else none) := by
  have hcondition : route.condition = .equals route.method route.pattern route.metadata := if_neg h
  simp [Condition.call, hcondition, Condition.method, slashAppend_inj]

/-- What a result has under a name that is not one of the metadata. -/
theorem get?_result_of_not_mem (captured : Dict Bytes (Option Bytes)) (pattern : Bytes) {name : Bytes}
    {metadata : Dict Bytes V} (hmeta : name ∉ metadata.map Prod.fst) :
    (Condition.result captured pattern metadata).get? name =
      if name = ascii "pattern" then some (RouteValue.bytes pattern)
      else (captured.get? name).map fun value => (value.map RouteValue.bytes).getD PyValue.none := by
  have hnone : Dict.get? metadata.reverse name = none := by
    refine Dict.get?_eq_none.mpr fun hmem => hmeta ?_
    rwa [List.map_reverse, List.mem_reverse] at hmem
  rw [Condition.result, Dict.get?_foldl_set, hnone, Option.none_or]
  by_cases hpattern : name = ascii "pattern"
  · rw [if_pos hpattern, hpattern, Dict.get?_set_self]
  · rw [if_neg hpattern, Dict.get?_set_of_ne _ _ hpattern]
    exact Dict.get?_map (fun value : Option Bytes => (value.map RouteValue.bytes).getD PyValue.none) captured name

/-- A captured value is in the result, under a name that nothing else in it has. -/
theorem get?_result {ts : List Token} (values : Bytes → Bytes) {pattern name : Bytes} {metadata : Dict Bytes V}
    (hnodup : (argNames ts).Nodup) (hname : name ∈ argNames ts) (hpattern : name ≠ ascii "pattern")
    (hmeta : name ∉ metadata.map Prod.fst) :
    (Condition.result ((captures ts values).map fun c => (c.1, some c.2)) pattern metadata).get? name =
      some (RouteValue.bytes (values name)) := by
  have hget : Dict.get? ((captures ts values).map fun c => (c.1, some c.2)) name = some (some (values name)) := by
    refine Dict.get?_of_mem ?_ ?_
    · simp only [captures, List.map_map, Function.comp_def, List.map_id_fun', id_eq]
      exact hnodup
    · simp only [captures, List.map_map, Function.comp_def, List.mem_map]
      exact ⟨name, hname, rfl⟩
  rw [get?_result_of_not_mem _ _ hmeta, if_neg hpattern, hget]
  rfl

/-- A repetition stays one, whatever comes after it. -/
theorem isRepetition_append {s : Bytes} (t : Bytes) (h : isRepetition s = true) : isRepetition (s ++ t) = true := by
  obtain ⟨q, r, rfl, -, hall⟩ := exists_of_isRepetition h
  rw [List.append_assoc, List.cons_append]
  exact hall (r ++ t)

theorem readable_bare {pattern : Bytes} (h : Readable (tokens pattern)) : Readable (tokens (bare pattern)) := by
  rcases tokens_bare pattern with htokens | htokens
  · rwa [← htokens]
  · intro before b after heq
    obtain ⟨hspecial, hbrace⟩ := h before b (after ++ [.byte 47]) (by rw [htokens, heq]; simp)
    refine ⟨hspecial, fun hb => ?_⟩
    have hrender : render (after ++ [.byte 47]) = render after ++ [47] := List.flatMap_append
    by_contra hrep
    have happend := isRepetition_append [47] (Bool.not_eq_false _ ▸ hrep)
    rw [← hrender, hbrace hb] at happend
    cases happend

omit [RouteValue V] in
theorem Route.addable_of_readable (hnames : route.WellNamed) (h : Readable (tokens route.pattern)) : route.Addable := by
  refine fun _ => ⟨readable_bare h, ?_⟩
  rw [Levin.WellNamed, argNames_tokens_bare]
  exact hnames

omit [RouteValue V] in
theorem Route.Exact.addable (hnames : route.WellNamed) (h : route.Exact) : route.Addable := by
  intro hb
  refine addable_of_readable hnames (fun before b after heq => ?_) hb
  obtain ⟨hspecial, hbrace⟩ := (h hb).1 before b after heq
  exact ⟨fun hs => absurd hs (by rw [hspecial]; decide), hbrace⟩

omit [RouteValue V] in
theorem Route.Exact.no_dots (h : route.Exact) (hb : 123 ∈ route.pattern) : .byte 46 ∉ tokens route.pattern := by
  intro hmem
  obtain ⟨before, after, heq⟩ := List.append_of_mem hmem
  exact absurd ((h hb).1 before 46 after heq).1 (by decide)

/-- What the condition of a route says of a request: the values of its placeholders if the route accepts it. -/
theorem Route.call_spec (hnames : route.WellNamed) (h : route.Exact) (method path : Bytes) :
    ∃ found, route.condition.call method (.ok path) = .ok found ∧
      (found = none → ∀ values, ¬ route.Accepts method path values) ∧
      ∀ result, found = some result → ∃ values, route.Accepts method path values ∧
        ∀ name ∈ route.names, result.get? name = some (RouteValue.bytes (values name)) := by
  by_cases hmethod : route.method = method
  · subst hmethod
    by_cases hb : 123 ∈ route.pattern
    · refine ⟨_, Route.call_regexp hb path, fun hnone values haccepts => ?_, fun result hsome => ?_⟩
      · obtain ⟨caps, hcaps⟩ := fullmatch_of_fill haccepts.2.1 haccepts.2.2
        rw [hcaps] at hnone
        cases hnone
      · obtain ⟨-, hslashes, htaken⟩ := h hb
        obtain ⟨caps, hcaps, rfl⟩ := Option.map_eq_some_iff.mp hsome
        obtain ⟨values, hwords, rfl, hfill⟩ := fill_of_fullmatch (h.no_dots hb) hnames.1 hslashes hcaps
        refine ⟨values, ⟨rfl, hwords, hfill⟩, fun name hname => ?_⟩
        obtain ⟨hpattern, hmeta⟩ := htaken name hname
        exact get?_result values hnames.1 hname hpattern hmeta
    · have htokens := tokens_literal hb
      have hnone : route.names = [] := by rw [Route.names, htokens, argNames_literal]
      have hfill : ∀ values, fill (tokens route.pattern) values = route.pattern := by
        intro values
        rw [htokens, fill_literal]
      refine ⟨_, Route.call_equals hb path, fun hfound values haccepts => ?_, fun result hsome => ?_⟩
      · rw [← hfill values, if_pos haccepts.2.2] at hfound
        cases hfound
      · refine ⟨fun _ => [], ⟨rfl, ?_, ?_⟩, ?_⟩
        · intro name hname
          rw [show argNames (tokens route.pattern) = [] from hnone] at hname
          exact absurd hname List.not_mem_nil
        · rw [hfill]
          by_contra hne
          rw [if_neg hne] at hsome
          cases hsome
        · rw [hnone]
          exact fun name hname => absurd hname List.not_mem_nil
  · exact ⟨none, Route.call_of_ne hmethod _, fun _ values haccepts => hmethod haccepts.1, fun result h => by cases h⟩

/-- What a result has under a name that something else in it has, whatever is captured. -/
theorem get?_result_taken {name : Bytes} {metadata : Dict Bytes V} (pattern : Bytes)
    (h : ¬ (name ≠ ascii "pattern" ∧ name ∉ metadata.map Prod.fst)) :
    ∃ v, ∀ captured, (Condition.result captured pattern metadata).get? name = some v := by
  have hmem : Dict.get? metadata.reverse name ≠ none ↔ name ∈ metadata.map Prod.fst := by
    rw [Dict.get?_ne_none, List.map_reverse, List.mem_reverse]
  by_cases hmeta : name ∈ metadata.map Prod.fst
  · obtain ⟨v, hv⟩ := Option.ne_none_iff_exists'.mp (hmem.mpr hmeta)
    refine ⟨v, fun captured => ?_⟩
    rw [Condition.result, Dict.get?_foldl_set, hv, Option.some_or]
  · have hpattern : name = ascii "pattern" := by
      by_contra hne
      exact h ⟨hne, hmeta⟩
    exact ⟨RouteValue.bytes pattern, fun captured => by rw [get?_result_of_not_mem _ _ hmeta, if_pos hpattern]⟩

/-- There is a word of one byte that is not a given value. -/
theorem exists_bytes_ne (v : V) : ∃ c, isWord c = true ∧ RouteValue.bytes [c] ≠ v := by
  by_cases ha : RouteValue.bytes [97] = v
  · refine ⟨98, by decide, fun hb => ?_⟩
    exact absurd (RouteValue.bytes_inj (ha.trans hb.symm)) (by decide)
  · exact ⟨97, by decide, ha⟩

end Conditions

/-! ## Tables of routes -/

section Tables

variable [RouteValue V] {routes : List (Route V H)}

/-- The first condition that a request meets is that of the first route that accepts it. -/
theorem resolveFrom_spec (notFoundHandler : H) (hnames : ∀ r ∈ routes, r.WellNamed) (h : ∀ r ∈ routes, r.Exact)
    (method path : Bytes) :
    ∃ handler result, HttpRouter.resolveFrom notFoundHandler method (.ok path)
        (routes.map fun r => (r.condition, r.handler)) = .ok (handler, result) ∧
      Resolves notFoundHandler routes method path handler result := by
  induction routes with
  | nil => exact ⟨_, _, rfl, .inr ⟨fun r hr => absurd hr List.not_mem_nil, rfl, rfl⟩⟩
  | cons r routes ih =>
    obtain ⟨found, hcall, hnone, hsome⟩ :=
      Route.call_spec (hnames r List.mem_cons_self) (h r List.mem_cons_self) method path
    cases found with
    | some result =>
      obtain ⟨values, haccepts, hvalues⟩ := hsome result rfl
      refine ⟨r.handler, result, ?_, .inl ⟨[], r, routes, rfl, ?_, rfl, values, haccepts, hvalues⟩⟩
      · rw [List.map_cons, HttpRouter.resolveFrom, hcall]
      · exact fun r hr => absurd hr List.not_mem_nil
    | none =>
      obtain ⟨handler, result, hresolve, hspec⟩ := ih (fun r hr => hnames r (List.mem_cons_of_mem _ hr))
        fun r hr => h r (List.mem_cons_of_mem _ hr)
      refine ⟨handler, result, ?_, ?_⟩
      · rw [List.map_cons, HttpRouter.resolveFrom, hcall]
        exact hresolve
      · rcases hspec with ⟨before, route, after, rfl, hbefore, hrest⟩ | ⟨hall, hrest⟩
        · refine .inl ⟨r :: before, route, after, rfl, ?_, hrest⟩
          exact List.forall_mem_cons.mpr ⟨hnone rfl, hbefore⟩
        · exact .inr ⟨List.forall_mem_cons.mpr ⟨hnone rfl, hall⟩, hrest⟩

/-- A table of exact routes resolves every request as its routes say. -/
theorem tableExact_of_exact (re : Bytes → Except Exc CompiledRe) (notFoundHandler : H)
    (hnames : ∀ r ∈ routes, r.WellNamed) (h : ∀ r ∈ routes, r.Exact) : TableExact re notFoundHandler routes := by
  refine ⟨_, addRoutes_eq re (fun r hr => (h r hr).addable (hnames r hr)) _, fun method path => ?_⟩
  exact resolveFrom_spec notFoundHandler hnames h method path

end Tables

/-! ## A table of one route -/

section Single

variable [RouteValue V] {route : Route V H}

/-- Leaving out a slash at the end leaves out no other byte. -/
theorem count_bare {b : UInt8} (hb : b ≠ 47) (path : Bytes) : (bare path).count b = path.count b := by
  by_cases h : path.getLast? = some 47
  · have heq := congrArg (List.count b) (eq_bare_append_slash h)
    rw [List.count_append, List.count_singleton, if_neg (by simpa using Ne.symm hb)] at heq
    exact heq.symm
  · rw [bare_of_getLast h]

/-- A byte that no word has comes in a path as often as in the pattern. -/
theorem count_fill {ts : List Token} {values : Bytes → Bytes} (hwords : AllWords ts values) {b : UInt8}
    (hb : isWord b = false) : (fill ts values).count b = ts.count (.byte b) := by
  induction ts with
  | nil => rfl
  | cons t ts ih =>
    cases t with
    | byte c =>
      have hrest := ih hwords
      show (c :: fill ts values).count b = _
      by_cases hc : c = b
      · subst hc
        rw [List.count_cons_self, List.count_cons_self, hrest]
      · rw [List.count_cons_of_ne hc, List.count_cons_of_ne (by simpa using hc), hrest]
    | arg name =>
      have hrest := ih fun n hn => hwords n (List.mem_cons_of_mem _ hn)
      have hnone : (values name).count b = 0 := by
        refine List.count_eq_zero.mpr fun hmem => ?_
        have hword := (hwords name List.mem_cons_self).2 b hmem
        rw [hb] at hword
        cases hword
      show (values name ++ fill ts values).count b = _
      rw [List.count_append, hnone, Nat.zero_add, hrest, List.count_cons_of_ne (by simp)]

theorem length_le_fill {ts : List Token} {values : Bytes → Bytes} (hwords : AllWords ts values) :
    ts.length ≤ (fill ts values).length := by
  induction ts with
  | nil => exact Nat.zero_le _
  | cons t ts ih =>
    cases t with
    | byte c => exact Nat.succ_le_succ (ih hwords)
    | arg name =>
      have hrest := ih fun n hn => hwords n (List.mem_cons_of_mem _ hn)
      have hpos := List.length_pos_iff.mpr (hwords name List.mem_cons_self).1
      show _ ≤ (values name ++ fill ts values).length
      rw [List.length_append, List.length_cons]
      omega

/-- The values are determined by a path in which all of them are single bytes. -/
theorem values_of_fill {ts : List Token} {values : Bytes → Bytes} {c : UInt8} (hwords : AllWords ts values)
    (h : fill ts values = fill ts fun _ => [c]) : ∀ name ∈ argNames ts, values name = [c] := by
  have hlength : ∀ ts : List Token, (fill ts fun _ => [c]).length = ts.length := by
    intro ts
    induction ts with
    | nil => rfl
    | cons t ts ih => cases t <;> exact congrArg (· + 1) ih
  induction ts with
  | nil => exact fun name hname => absurd hname List.not_mem_nil
  | cons t ts ih =>
    cases t with
    | byte b => exact ih hwords (List.cons.inj h).2
    | arg name =>
      have hrest : AllWords ts values := fun n hn => hwords n (List.mem_cons_of_mem _ hn)
      have h : values name ++ fill ts values = [c] ++ fill ts fun _ => [c] := h
      have hpos := List.length_pos_iff.mpr (hwords name List.mem_cons_self).1
      have hle := length_le_fill hrest
      have htotal := congrArg List.length h
      rw [List.length_append, List.length_append, hlength] at htotal
      obtain ⟨hname, htail⟩ := List.append_inj h (by simp at htotal ⊢; omega)
      intro n hn
      rcases List.mem_cons.mp hn with rfl | hn
      · exact hname
      · exact ih hrest htail n hn

/-- What the expression of the route of a table matches, the route accepts, and the result says with which values. -/
theorem accepts_of_tableExact (re : Bytes → Except Exc CompiledRe) {notFoundHandler : H} (haddable : route.Addable)
    (hb : 123 ∈ route.pattern) (h : TableExact re notFoundHandler [route]) {path : Bytes} {caps : Captures}
    (hcaps : Regex.fullmatch (patternItems route.pattern) path = some caps) :
    ∃ values, route.Accepts route.method path values ∧ ∀ name ∈ route.names,
      (Condition.result (caps.map fun c => (c.1, some c.2)) route.pattern route.metadata).get? name =
        some (RouteValue.bytes (values name)) := by
  obtain ⟨router, hrouter, hresolves⟩ := h
  rw [addRoutes_eq re (List.forall_mem_singleton.mpr haddable)] at hrouter
  obtain rfl := Except.ok.inj hrouter
  obtain ⟨handler, result, hresolve, hspec⟩ := hresolves route.method path
  have hcall := Route.call_regexp hb path
  rw [hcaps] at hcall
  simp only [HttpRouter.resolve, List.nil_append, List.map_cons, List.map_nil, HttpRouter.resolveFrom, hcall,
    Option.map_some, Except.ok.injEq, Prod.mk.injEq] at hresolve
  obtain ⟨rfl, rfl⟩ := hresolve
  rcases hspec with ⟨before, r, after, heq, -, -, values, haccepts, hvalues⟩ | ⟨-, -, hnil⟩
  · have hr : r = route := by
      have hmem : r ∈ [route] := heq ▸ List.mem_append_right _ List.mem_cons_self
      exact List.mem_singleton.mp hmem
    subst hr
    exact ⟨values, haccepts, hvalues⟩
  · have hpattern := Dict.get?_foldl_set route.metadata
      (Dict.set (ascii "pattern") (RouteValue.bytes route.pattern) ((caps.map fun c => (c.1, some c.2)).map fun kv =>
        (kv.1, (kv.2.map RouteValue.bytes).getD PyValue.none))) (ascii "pattern")
    rw [Dict.get?_set_self] at hpattern
    have hnone : Dict.get? (Condition.result (caps.map fun c => (c.1, some c.2)) route.pattern route.metadata)
        (ascii "pattern") = none := by rw [hnil]; rfl
    rw [Condition.result, hpattern] at hnone
    cases hm : Dict.get? route.metadata.reverse (ascii "pattern") <;> simp [hm] at hnone

/-- A table that resolves as it says has no dot. -/
theorem no_dots_of_tableExact (re : Bytes → Except Exc CompiledRe) {notFoundHandler : H} (haddable : route.Addable)
    (hb : 123 ∈ route.pattern) (h : TableExact re notFoundHandler [route]) : .byte 46 ∉ tokens route.pattern := by
  intro hdot
  have hdot : .byte 46 ∈ tokens (bare route.pattern) := by
    rcases tokens_bare route.pattern with htokens | htokens
    · rwa [← htokens]
    · rw [htokens] at hdot
      exact (List.mem_append.mp hdot).resolve_right (by simp)
  obtain ⟨before, after, hts⟩ := List.append_of_mem hdot
  -- A request with another byte in the place of the dot.
  have hwords : ∀ ts, AllWords ts fun _ => [97] := fun ts => allWords_singleton ts (by decide)
  have hmatch : Matches ((tokens (bare route.pattern)).map Token.item)
      (captures before (fun _ => [97]) ++ captures after fun _ => [97])
      (fill before (fun _ => [97]) ++ 97 :: fill after fun _ => [97]) := by
    rw [hts, List.map_append]
    exact matches_append.mpr ⟨_, _, _, _, rfl, rfl, matches_fill (hwords before),
      Matches.one (p := (· != LF)) rfl (matches_fill (hwords after))⟩
  obtain ⟨caps, hcaps⟩ := fullmatch_of_matches (matches_patternItems.mpr (.inl hmatch))
  obtain ⟨values, ⟨-, hvalues, hfill⟩, -⟩ := accepts_of_tableExact re haddable hb h hcaps
  have hcount := congrArg (List.count 46) hfill
  rw [bare_fill hvalues, count_fill (allWords_bare.mpr hvalues) (by decide), count_bare (by decide), hts,
    List.count_append, List.count_append, List.count_cons_self, List.count_cons_of_ne (by decide),
    count_fill (hwords before) (by decide), count_fill (hwords after) (by decide)] at hcount
  omega

/-- Nor does its pattern end in two slashes. -/
theorem slashes_of_tableExact (re : Bytes → Except Exc CompiledRe) {notFoundHandler : H} (haddable : route.Addable)
    (hb : 123 ∈ route.pattern) (h : TableExact re notFoundHandler [route]) : ¬ [47, 47] <:+ route.pattern := by
  rintro ⟨front, hpattern⟩
  have hbare : bare route.pattern = front ++ [47] := by
    have htwice : front ++ [47] ++ [47] = route.pattern := by
      rw [← hpattern, List.append_assoc]
      rfl
    rw [← htwice, bare_append_slash]
  have hwords : ∀ ts, AllWords ts fun _ => [97] := fun ts => allWords_singleton ts (by decide)
  -- A request without the slash that is optional.
  obtain ⟨caps, hcaps⟩ := fullmatch_of_matches (matches_patternItems.mpr (.inl (matches_fill (hwords _))))
  obtain ⟨values, ⟨-, hvalues, hfill⟩, -⟩ := accepts_of_tableExact re haddable hb h hcaps
  have hcount := congrArg (List.count 47) hfill
  have hfront : ∀ {values : Bytes → Bytes}, fill (tokens (front ++ [47])) values = fill (tokens front) values ++ [47] := by
    intro values
    rw [tokens_append (by decide), fill_append]
    rfl
  have hvalues' := allWords_bare.mpr hvalues
  rw [hbare] at hvalues'
  rw [bare_fill hvalues, hbare, hfront, hfront, bare_append_slash, List.count_append,
    count_fill (hwords _) (by decide)] at hcount
  have hcount' : (fill (tokens front) values).count 47 = (tokens front).count (.byte 47) := by
    refine count_fill (fun name hname => hvalues' name ?_) (by decide)
    rw [tokens_append (by decide), argNames_append]
    exact List.mem_append_left _ hname
  rw [hcount', List.count_singleton_self] at hcount
  omega

/-- Nor does anything else in the result have the name of a placeholder. -/
theorem names_of_tableExact (re : Bytes → Except Exc CompiledRe) {notFoundHandler : H} (haddable : route.Addable)
    (hb : 123 ∈ route.pattern) (h : TableExact re notFoundHandler [route]) {name : Bytes} (hname : name ∈ route.names) :
    name ≠ ascii "pattern" ∧ name ∉ route.metadata.map Prod.fst := by
  by_contra htaken
  obtain ⟨v, hv⟩ := get?_result_taken route.pattern htaken
  obtain ⟨c, hc, hne⟩ := exists_bytes_ne v
  have hwords := allWords_singleton (tokens route.pattern) hc
  obtain ⟨caps, hcaps⟩ := fullmatch_of_fill hwords rfl
  obtain ⟨values, ⟨-, hvalues, hfill⟩, hresult⟩ := accepts_of_tableExact re haddable hb h hcaps
  rw [bare_fill hvalues, bare_fill hwords] at hfill
  have hvalue := values_of_fill (allWords_bare.mpr hvalues) hfill name (by rwa [argNames_tokens_bare])
  have hget := hresult name hname
  rw [hv, hvalue] at hget
  exact hne (Option.some.inj hget).symm

end Single

/-- A table of exact routes resolves every request as its routes say. A route whose literal bytes have no other meaning
than that of a dot, and make no repetitions, is exact if the table that has only this route does. -/
theorem resolution_exact [RouteValue V] (re : Bytes → Except Exc CompiledRe) (notFoundHandler : H) :
    (∀ routes : List (Route V H), (∀ r ∈ routes, r.WellNamed) → (∀ r ∈ routes, r.Exact) →
      TableExact re notFoundHandler routes) ∧
    ∀ route : Route V H, route.WellNamed → Readable (tokens route.pattern) →
      (TableExact re notFoundHandler [route] ↔ route.Exact) := by
  refine ⟨fun routes hnames hexact => tableExact_of_exact re notFoundHandler hnames hexact,
    fun route hnames hread => ⟨fun h hb => ⟨fun before b after heq => ?_, ?_, ?_⟩, fun h => ?_⟩⟩
  · obtain ⟨hspecial, hbrace⟩ := hread before b after heq
    refine ⟨?_, hbrace⟩
    by_contra hs
    have hdot := hspecial (Bool.not_eq_false _ ▸ hs)
    refine no_dots_of_tableExact re (Route.addable_of_readable hnames hread) hb h ?_
    rw [heq, hdot]
    exact List.mem_append_right _ List.mem_cons_self
  · exact slashes_of_tableExact re (Route.addable_of_readable hnames hread) hb h
  · exact fun name hname => names_of_tableExact re (Route.addable_of_readable hnames hread) hb h hname
  · exact tableExact_of_exact re notFoundHandler (List.forall_mem_singleton.mpr hnames) (List.forall_mem_singleton.mpr h)

instance : RouteValue Bytes where
  none := []
  truthy v := !v.isEmpty
  str v := v
  bytes v := v
  bytes_inj h := h

/-- Nothing else can be compiled. -/
def noOtherRe : Bytes → Except Exc CompiledRe := fun _ => .error reError

def dotRoute : Route Bytes Nat where
  method := ascii "GET"
  pattern := ascii "/v1.0/{user}"
  handler := 1
  metadata := []

/-- `/v1x0/levin` is resolved to the handler of `/v1.0/{user}`. -/
theorem dotRoute_not_exact : dotRoute.WellNamed ∧ ¬ TableExact noOtherRe 0 [dotRoute] :=
  ⟨by decide, fun h => no_dots_of_tableExact noOtherRe (Route.addable_of_readable (by decide) (by decide)) (by decide) h
    (by decide)⟩

/-- Routes with one placeholder, with two, and with none. -/
def threeRoutes : List (Route Bytes Nat) :=
  [{ method := ascii "POST", pattern := ascii "/test/{user}/", handler := 1, metadata := [(ascii "name", ascii "user")] },
    { method := ascii "GET", pattern := ascii "/{a}-{b}", handler := 2, metadata := [] },
    { method := ascii "GET", pattern := ascii "/v1.0", handler := 3, metadata := [] }]

theorem threeRoutes_exact : TableExact noOtherRe 0 threeRoutes ∧ TableExact noOtherRe 0 [threeRoutes[1]] :=
  ⟨(resolution_exact noOtherRe 0).1 threeRoutes (by decide) (by decide),
    ((resolution_exact noOtherRe 0).2 threeRoutes[1] (by decide) (by decide)).mpr (by decide)⟩

end Levin
