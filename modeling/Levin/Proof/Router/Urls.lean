import Levin.Proof.Router.Slash

/-!
# Paths made by `url`

`HttpRouter.url` puts values into a pattern and a condition takes them out of a path.
Where two placeholders are kept apart by a byte that no word has, a path determines its
values (`fill_injective`). `url_inverse_iff` says when the two are inverse: if no
placeholder has a name that `url` or the result has a use for.
-/

namespace Levin

open Framework Bytes Regex

variable {V H : Type}

/-- The literal bytes up to the first placeholder. -/
def leadingLiterals : List Token → Bytes
  | .byte b :: ts => b :: leadingLiterals ts
  | _ => []

/-- Between a placeholder and the next one is a literal byte that no word has. -/
def Separated : List Token → Prop
  | [] => True
  | .byte _ :: ts => Separated ts
  | .arg _ :: ts => (argNames ts = [] ∨ (leadingLiterals ts).any (fun b => !isWord b) = true) ∧ Separated ts

instance decidableSeparated : (ts : List Token) → Decidable (Separated ts)
  | [] => inferInstanceAs (Decidable True)
  | .byte _ :: ts => decidableSeparated ts
  | .arg _ :: ts =>
    have := decidableSeparated ts
    inferInstanceAs (Decidable (_ ∧ Separated ts))

/-- A route with a pattern of ASCII bytes without metacharacters and of placeholders that have different identifiers for
names and are kept apart. -/
structure Route.Linkable (route : Route V H) : Prop where
  literal : ∀ b ∈ literals (tokens route.pattern), b.toNat < 0x80 ∧ isMeta b = false
  separated : Separated (tokens route.pattern)
  names : route.WellNamed

/-! ## Values that a path determines -/

theorem takeWhile_append_of_any {p : UInt8 → Bool} {u : Bytes} (h : u.any (fun b => !p b) = true) (r : Bytes) :
    (u ++ r).takeWhile p = u.takeWhile p := by
  induction u with
  | nil => cases h
  | cons b u ih =>
    by_cases hb : p b = true
    · rw [List.any_cons, hb, Bool.not_true, Bool.false_or] at h
      rw [List.cons_append, List.takeWhile_cons_of_pos hb, List.takeWhile_cons_of_pos hb, ih h]
    · rw [List.cons_append, List.takeWhile_cons_of_neg hb, List.takeWhile_cons_of_neg hb]

theorem exists_fill_leading (ts : List Token) (values : Bytes → Bytes) :
    ∃ r, fill ts values = leadingLiterals ts ++ r := by
  induction ts with
  | nil => exact ⟨[], rfl⟩
  | cons t ts ih =>
    cases t with
    | arg name => exact ⟨_, rfl⟩
    | byte b =>
      obtain ⟨r, hr⟩ := ih
      exact ⟨r, congrArg (b :: ·) hr⟩

/-- A path determines the values of placeholders that are kept apart. -/
theorem fill_injective {ts : List Token} (hsep : Separated ts) {values values' : Bytes → Bytes} (h : AllWords ts values)
    (h' : AllWords ts values') (heq : fill ts values = fill ts values') : ∀ name ∈ argNames ts, values name = values' name := by
  induction ts with
  | nil => exact fun name hname => absurd hname List.not_mem_nil
  | cons t ts ih =>
    cases t with
    | byte b => exact ih hsep h h' (List.cons.inj heq).2
    | arg name =>
      obtain ⟨hnext, hsep⟩ := hsep
      have hname : values name = values' name := by
        have heq : values name ++ fill ts values = values' name ++ fill ts values' := heq
        rcases hnext with hnone | hany
        · -- What follows is literal.
          have hsame : fill ts values = fill ts values' := fill_congr fun n hn => absurd hn (by simp [hnone])
          rw [hsame] at heq
          exact List.append_cancel_right heq
        · -- The words before the byte that no word has are the same.
          obtain ⟨r, hr⟩ := exists_fill_leading ts values
          obtain ⟨r', hr'⟩ := exists_fill_leading ts values'
          have htake := congrArg (List.takeWhile isWord) heq
          rw [hr, hr', List.takeWhile_append_of_pos (h name List.mem_cons_self).2,
            List.takeWhile_append_of_pos (h' name List.mem_cons_self).2, takeWhile_append_of_any hany,
            takeWhile_append_of_any hany] at htake
          exact List.append_cancel_right htake
      have heq : values name ++ fill ts values = values' name ++ fill ts values' := heq
      rw [hname, List.append_cancel_left_eq] at heq
      have hrest := ih hsep (fun n hn => h n (List.mem_cons_of_mem _ hn)) (fun n hn => h' n (List.mem_cons_of_mem _ hn)) heq
      exact List.forall_mem_cons.mpr ⟨hname, hrest⟩

/-- The captures of a path are the values it was made of. -/
theorem fullmatch_fill {pattern : Bytes} (hdots : .byte 46 ∉ tokens pattern) (hnodup : (argNames (tokens pattern)).Nodup)
    (hsep : Separated (tokens pattern)) {values : Bytes → Bytes} (h : AllWords (tokens pattern) values) :
    Regex.fullmatch (patternItems pattern) (fill (tokens pattern) values) = some (captures (tokens pattern) values) := by
  obtain ⟨caps, hcaps⟩ := fullmatch_of_fill h rfl
  have hbare := allWords_bare.mpr h
  -- The pattern, and what matches, end in as many slashes as the path.
  obtain ⟨n, hn⟩ : ∃ n, ∀ values, fill (tokens pattern) values = fill (tokens (bare pattern)) values ++ List.replicate n 47 := by
    rcases tokens_bare pattern with htokens | htokens
    · exact ⟨0, fun values => by rw [htokens]; exact (List.append_nil _).symm⟩
    · exact ⟨1, fun values => by rw [htokens, fill_append]; rfl⟩
  obtain ⟨n', m, hpath, hm⟩ : ∃ n' m, fill (tokens pattern) values = m ++ List.replicate n' 47 ∧
      Matches ((tokens (bare pattern)).map Token.item) caps m := by
    rcases matches_patternItems.mp (matches_of_fullmatch hcaps) with hm | ⟨m, hpath, hm⟩
    · exact ⟨0, _, (List.append_nil _).symm, hm⟩
    · exact ⟨1, m, hpath, hm⟩
  have hdots : .byte 46 ∉ tokens (bare pattern) := fun hmem => hdots (mem_tokens_of_bare hmem)
  obtain ⟨values', hwords', rfl, rfl⟩ := fill_of_matches hdots (argNames_tokens_bare pattern ▸ hnodup) hm
  have hcount := congrArg (List.count 47) ((hn values).symm.trans hpath)
  rw [List.count_append, List.count_append, count_fill hbare (by decide), count_fill hwords' (by decide),
    List.count_replicate_self, List.count_replicate_self] at hcount
  obtain rfl : n = n' := by omega
  rw [← hn values'] at hpath
  have hvalues := fill_injective hsep h (allWords_bare.mp hwords') hpath
  rw [hcaps, captures, captures, argNames_tokens_bare]
  exact congrArg some (List.map_congr_left fun name hname => by rw [hvalues name hname])

/-! ## Formatting -/

/-- What `str.format` makes of a piece. -/
def Token.piece : Token → FormatPiece
  | .byte b => .literal b
  | .arg name => .field name

theorem formatPieces_skip (s t : Bytes) : formatPieces s.length (s ++ t) = formatPieces 0 t := by
  induction s with
  | nil => rfl
  | cons b s ih => exact ih

theorem formatPieces_render {ts : List Token} (hliteral : ∀ b ∈ literals ts, b ≠ 123 ∧ b ≠ 125)
    (hnames : ∀ name ∈ argNames ts, IsWord name ∧ isIdentifier name = true) :
    formatPieces 0 (render ts) = some (ts.map Token.piece) := by
  induction ts with
  | nil => rfl
  | cons t ts ih =>
    cases t with
    | byte b =>
      obtain ⟨hopen, hclose⟩ := hliteral b List.mem_cons_self
      have ih := ih (fun c hc => hliteral c (List.mem_cons_of_mem _ hc)) hnames
      show formatPieces 0 (b :: render ts) = _
      rw [formatPieces, if_neg hopen, if_neg hclose, ih]
      rfl
    | arg name =>
      obtain ⟨hword, hident⟩ := hnames name List.mem_cons_self
      have ih := ih hliteral fun n hn => hnames n (List.mem_cons_of_mem _ hn)
      have hrender : render (.arg name :: ts) = 123 :: (name ++ 125 :: render ts) := by
        show (123 :: (name ++ [125])) ++ render ts = _
        rw [List.cons_append, List.append_assoc]
        rfl
      obtain ⟨htake, hdrop⟩ := span_word (s := 125 :: render ts) hword.2 fun b hb => Option.some.inj hb ▸ rfl
      have hhead : (name ++ 125 :: render ts).head? ≠ some 123 := by
        cases hn : name with
        | nil => exact absurd hn hword.1
        | cons b bs =>
          intro hb
          obtain rfl : b = 123 := Option.some.inj hb
          exact absurd (hword.2 123 (hn ▸ List.mem_cons_self)) (by decide)
      have hskip : formatPieces (name.length + 1) (name ++ 125 :: render ts) = formatPieces 0 (render ts) := by
        have happend : name ++ 125 :: render ts = (name ++ [125]) ++ render ts := by
          rw [List.append_assoc]
          rfl
        rw [happend, ← formatPieces_skip (name ++ [125]) (render ts), List.length_append]
        rfl
      rw [hrender, formatPieces, if_pos rfl]
      simp only [htake, hdrop, if_neg hhead, List.head?_cons, hident, and_self, if_true, hskip, ih]
      rfl

theorem formatWith_piece {ts : List Token} {kwargs : Dict Bytes Bytes} {values : Bytes → Bytes}
    (h : ∀ name ∈ argNames ts, kwargs.get? name = some (values name)) :
    formatWith kwargs (ts.map Token.piece) = .ok (fill ts values) := by
  induction ts with
  | nil => rfl
  | cons t ts ih =>
    cases t with
    | byte b =>
      show (formatWith kwargs (ts.map Token.piece)).map _ = _
      rw [ih h]
      rfl
    | arg name =>
      have ih := ih fun n hn => h n (List.mem_cons_of_mem _ hn)
      have hname := h name List.mem_cons_self
      simp only [List.map_cons, Token.piece, formatWith, hname, ih]
      rfl

/-- The bytes of a pattern that has only such literal bytes and placeholders. -/
theorem forall_mem_render {P : UInt8 → Prop} {ts : List Token} (hliteral : ∀ b ∈ literals ts, P b)
    (hwords : ∀ name ∈ argNames ts, ∀ b ∈ name, P b) (hopen : P 123) (hclose : P 125) : ∀ b ∈ render ts, P b := by
  induction ts with
  | nil => exact fun b hb => absurd hb List.not_mem_nil
  | cons t ts ih =>
    cases t with
    | byte c =>
      exact List.forall_mem_cons.mpr
        ⟨hliteral c List.mem_cons_self, ih (fun b hb => hliteral b (List.mem_cons_of_mem _ hb)) hwords⟩
    | arg name =>
      have ih := ih hliteral fun n hn => hwords n (List.mem_cons_of_mem _ hn)
      intro b hb
      have hb : b ∈ 123 :: name ++ [125] ++ render ts := hb
      simp only [List.cons_append, List.mem_cons, List.mem_append, List.not_mem_nil, or_false] at hb
      rcases hb with rfl | (hb | rfl) | hb
      · exact hopen
      · exact hwords name List.mem_cons_self b hb
      · exact hclose
      · exact ih b hb

section Url

variable [RouteValue V] {route : Route V H}

omit [RouteValue V] in
theorem Route.Linkable.isWord_name (_ : route.Linkable) {name : Bytes} (hname : name ∈ route.names) : IsWord name :=
  isWord_of_arg_mem (mem_argNames.mp hname)

omit [RouteValue V] in
/-- The pattern as `url` formats it: it is text, and has no backslash. -/
theorem Route.Linkable.text (h : route.Linkable) :
    (Text.decodeUtf8 route.pattern).isSome = true ∧ route.pattern.filter (· != 92) = route.pattern := by
  have hall : ∀ b ∈ route.pattern, b.toNat < 0x80 ∧ b ≠ 92 := by
    rw [← render_tokens route.pattern]
    refine forall_mem_render (fun b hb => ⟨(h.literal b hb).1, ?_⟩) (fun name hname b hb => ?_) (by decide) (by decide)
    · rintro rfl
      exact absurd (h.literal 92 hb).2 (by decide)
    · have hword := (h.isWord_name hname).2 b hb
      refine ⟨?_, ?_⟩
      · simp only [Levin.isWord, Bool.or_eq_true, Bool.and_eq_true, beq_iff_eq, decide_eq_true_eq] at hword
        rcases hword with (((rfl | rfl) | ⟨-, hb⟩) | ⟨-, hb⟩) | ⟨-, hb⟩
        · decide
        · decide
        · exact lt_of_le_of_lt (UInt8.le_iff_toNat_le.mp hb) (by decide)
        · exact lt_of_le_of_lt (UInt8.le_iff_toNat_le.mp hb) (by decide)
        · exact lt_of_le_of_lt (UInt8.le_iff_toNat_le.mp hb) (by decide)
      · rintro rfl
        exact absurd hword (by decide)
  refine ⟨?_, List.filter_eq_self.mpr fun b hb => by simpa using (hall b hb).2⟩
  rw [Text.decodeUtf8_ascii fun b hb => (hall b hb).1]
  rfl

/-- The arguments of `url` for these values. -/
def Route.kwargs (route : Route V H) (values : Bytes → Bytes) : Dict Bytes Bytes :=
  route.names.map fun name => (name, values name)

omit [RouteValue V] in
theorem Route.get?_kwargs (h : route.WellNamed) (values : Bytes → Bytes) {name : Bytes} (hname : name ∈ route.names) :
    (route.kwargs values).get? name = some (values name) := by
  refine Dict.get?_of_mem ?_ (List.mem_map.mpr ⟨name, hname, rfl⟩)
  simp only [kwargs, List.map_map, Function.comp_def, List.map_id_fun', id_eq]
  exact h.1

omit [RouteValue V] in
theorem Route.get?_kwargs_eq_none {values : Bytes → Bytes} {name : Bytes} (hname : name ∉ route.names) :
    (route.kwargs values).get? name = none := by
  refine Dict.get?_eq_none.mpr fun hmem => hname ?_
  simpa [kwargs] using hmem

omit [RouteValue V] in
theorem Route.Linkable.format (h : route.Linkable) (format : Bytes → Dict Bytes Bytes → Except Exc Bytes)
    (values : Bytes → Bytes) : strFormat format route.pattern (route.kwargs values) = .ok (fill (tokens route.pattern) values) := by
  have hbraces : ∀ b ∈ literals (tokens route.pattern), b ≠ 123 ∧ b ≠ 125 := by
    intro b hb
    have hmeta := (h.literal b hb).2
    constructor <;> rintro rfl <;> exact absurd hmeta (by decide)
  have hpieces := formatPieces_render hbraces fun name hname => ⟨h.isWord_name hname, h.names.2 name hname⟩
  rw [render_tokens] at hpieces
  rw [strFormat, hpieces]
  exact formatWith_piece fun name hname => Route.get?_kwargs h.names values hname

omit [RouteValue V] in
theorem Route.Linkable.readable (h : route.Linkable) : Readable (tokens route.pattern) :=
  readable_of_literals fun b hb => (h.literal b hb).2

/-- The condition of a route accepts each of its paths, and captures the values it was made of. -/
theorem Route.Linkable.call (h : route.Linkable) {values : Bytes → Bytes} (hwords : AllWords (tokens route.pattern) values) :
    route.condition.call route.method (.ok (fill (tokens route.pattern) values)) =
      .ok (some (Condition.result ((captures (tokens route.pattern) values).map fun c => (c.1, some c.2)) route.pattern
        route.metadata)) := by
  by_cases hb : 123 ∈ route.pattern
  · have hdots : .byte 46 ∉ tokens route.pattern := by
      intro hmem
      exact absurd (h.literal 46 (mem_literals.mpr hmem)).2 (by decide)
    rw [Route.call_regexp hb, fullmatch_fill hdots h.names.1 h.separated hwords]
    rfl
  · have htokens := tokens_literal hb
    rw [Route.call_equals hb, captures, htokens, fill_literal, argNames_literal, if_pos rfl]
    rfl

omit [RouteValue V] in
theorem Route.Linkable.addable (h : route.Linkable) : route.Addable :=
  Route.addable_of_readable h.names h.readable

/-- The values of its placeholders, given to `url` of a router in which the route is the first with its name, come back
from the route's condition, and from the router if no earlier condition is met. -/
def Route.UrlInverse [DecidableEq V] (format : Bytes → Dict Bytes Bytes → Except Exc Bytes) (route : Route V H)
    (condition : Condition V) : Prop :=
  ∀ (notFoundHandler : H) before after values, (∀ r ∈ before, HttpRouter.nameOf r.1 ≠ HttpRouter.nameOf condition) →
    AllWords (tokens route.pattern) values → ∃ path result,
      let router : HttpRouter V H := { notFoundHandler, routes := before ++ (condition, route.handler) :: after }
      router.url format (HttpRouter.nameOf condition) (route.kwargs values) = .ok path ∧
      condition.call route.method (.ok path) = .ok (some result) ∧
      (∀ name ∈ route.names, result.get? name = some (RouteValue.bytes (values name))) ∧
      ((∀ r ∈ before, r.1.call route.method (.ok path) = .ok none) →
        router.resolve route.method (.ok path) = .ok (route.handler, result))

variable [DecidableEq V]

/-- `url` finds the first route with a name. -/
theorem url_first (format : Bytes → Dict Bytes Bytes → Except Exc Bytes) (notFoundHandler : H)
    {before after : List (Condition V × H)} {condition : Condition V} {handler : H}
    (hfirst : ∀ r ∈ before, HttpRouter.nameOf r.1 ≠ HttpRouter.nameOf condition)
    (htext : (Text.decodeUtf8 condition.pattern).isSome = true) {kwargs : Dict Bytes Bytes}
    (hself : kwargs.get? (ascii "self") = none) (hname : kwargs.get? (ascii "name") = none) :
    HttpRouter.url format { notFoundHandler, routes := before ++ (condition, handler) :: after }
      (HttpRouter.nameOf condition) kwargs = strFormat format (condition.pattern.filter (· != 92)) kwargs := by
  have hfind : (before ++ (condition, handler) :: after).find? (fun r => HttpRouter.nameOf r.1 = HttpRouter.nameOf condition) =
      some (condition, handler) := by
    rw [List.find?_append, List.find?_eq_none.mpr fun r hr => by simpa using hfirst r hr, Option.none_or,
      List.find?_cons_of_pos (by simp)]
  unfold HttpRouter.url
  rw [if_neg (by simp [hself, hname]), hfind]
  exact if_pos htext

omit [DecidableEq V] in
/-- The first condition that is met decides. -/
theorem resolveFrom_first (notFoundHandler : H) {method path : Bytes} {before : List (Condition V × H)}
    (hbefore : ∀ r ∈ before, r.1.call method (.ok path) = .ok none) {condition : Condition V} {result : Dict Bytes V}
    (hcall : condition.call method (.ok path) = .ok (some result)) (handler : H) (after : List (Condition V × H)) :
    HttpRouter.resolveFrom notFoundHandler method (.ok path) (before ++ (condition, handler) :: after) =
      .ok (handler, result) := by
  induction before with
  | nil => rw [List.nil_append, HttpRouter.resolveFrom, hcall]
  | cons r before ih =>
    have hr := hbefore r List.mem_cons_self
    rw [List.cons_append, HttpRouter.resolveFrom, hr]
    exact ih fun r hr => hbefore r (List.mem_cons_of_mem _ hr)

/-- Names that nothing else has are enough. -/
theorem Route.Linkable.urlInverse (h : route.Linkable) (format : Bytes → Dict Bytes Bytes → Except Exc Bytes)
    (hnames : ∀ name ∈ route.names, name ≠ ascii "self" ∧ name ≠ ascii "name" ∧ name ≠ ascii "pattern" ∧
      name ∉ route.metadata.map Prod.fst) : route.UrlInverse format route.condition := by
  intro notFoundHandler before after values hfirst hwords
  have hself : (route.kwargs values).get? (ascii "self") = none :=
    Route.get?_kwargs_eq_none fun hmem => (hnames (ascii "self") hmem).1 rfl
  have hname : (route.kwargs values).get? (ascii "name") = none :=
    Route.get?_kwargs_eq_none fun hmem => (hnames (ascii "name") hmem).2.1 rfl
  have hcall := h.call hwords
  refine ⟨_, _, ?_, hcall, fun name hmem => ?_, fun hbefore => ?_⟩
  · rw [url_first format notFoundHandler hfirst (by rw [Route.condition_pattern]; exact h.text.1) hself hname,
      Route.condition_pattern, h.text.2]
    exact h.format format values
  · obtain ⟨-, -, hpattern, hmeta⟩ := hnames name hmem
    exact get?_result values h.names.1 hmem hpattern hmeta
  · exact resolveFrom_first notFoundHandler hbefore hcall _ _

/-- And are needed: `url` takes no argument that is called like a parameter of its own, and in a result the pattern and
the metadata stand before what is captured. -/
theorem Route.Linkable.names_of_urlInverse (h : route.Linkable) {format : Bytes → Dict Bytes Bytes → Except Exc Bytes}
    (hinverse : route.UrlInverse format route.condition) : ∀ name ∈ route.names, name ≠ ascii "self" ∧
      name ≠ ascii "name" ∧ name ≠ ascii "pattern" ∧ name ∉ route.metadata.map Prod.fst := by
  intro name hmem
  have hfirst : ∀ r ∈ ([] : List (Condition V × H)), HttpRouter.nameOf r.1 ≠ HttpRouter.nameOf route.condition :=
    fun r hr => absurd hr List.not_mem_nil
  have hkwargs : ∀ {c}, isWord c = true → (route.kwargs fun _ => [c]).get? (ascii "self") = none ∧
      (route.kwargs fun _ => [c]).get? (ascii "name") = none := by
    intro c hc
    obtain ⟨path, result, hurl, -⟩ := hinverse route.handler [] [] (fun _ => [c]) hfirst (allWords_singleton _ hc)
    by_contra htaken
    have hor : (route.kwargs fun _ => [c]).get? (ascii "self") ≠ none ∨
        (route.kwargs fun _ => [c]).get? (ascii "name") ≠ none := by
      rwa [← not_and_or]
    unfold HttpRouter.url at hurl
    rw [if_pos hor] at hurl
    cases hurl
  have hget : ∀ {c}, (route.kwargs fun _ => [c]).get? name = some [c] :=
    Route.get?_kwargs h.names (fun _ => [_]) hmem
  obtain ⟨hself, hname⟩ := hkwargs (by decide : isWord 97 = true)
  refine ⟨?_, ?_, ?_⟩
  · rintro rfl
    rw [hget] at hself
    cases hself
  · rintro rfl
    rw [hget] at hname
    cases hname
  · by_contra htaken
    obtain ⟨v, hv⟩ := get?_result_taken route.pattern htaken
    obtain ⟨c, hc, hne⟩ := exists_bytes_ne v
    obtain ⟨path, result, hurl, hcall, hresult, -⟩ :=
      hinverse route.handler [] [] (fun _ => [c]) hfirst (allWords_singleton _ hc)
    obtain ⟨hself, hname⟩ := hkwargs hc
    rw [url_first format route.handler hfirst (by rw [Route.condition_pattern]; exact h.text.1) hself hname,
      Route.condition_pattern, h.text.2, h.format format] at hurl
    obtain rfl := Except.ok.inj hurl
    rw [h.call (allWords_singleton _ hc)] at hcall
    obtain rfl := Option.some.inj (Except.ok.inj hcall)
    have hget := hresult name hmem
    rw [hv] at hget
    exact hne (Option.some.inj hget).symm

/-- A route that a router can have; its values come back if and only if no placeholder is called `self` or `name`, as the
parameters of `url` are, or `pattern`, or like metadata. -/
theorem url_inverse_iff (re : Bytes → Except Exc CompiledRe) (format : Bytes → Dict Bytes Bytes → Except Exc Bytes)
    (h : route.Linkable) : ∃ condition,
      (∀ router : HttpRouter V H, router.add re route.method (.bytes route.pattern) route.handler route.metadata =
        .ok { router with routes := router.routes ++ [(condition, route.handler)] }) ∧
      (route.UrlInverse format condition ↔ ∀ name ∈ route.names, name ≠ ascii "self" ∧ name ≠ ascii "name" ∧
        name ≠ ascii "pattern" ∧ name ∉ route.metadata.map Prod.fst) :=
  ⟨route.condition, fun router => h.addable.add_eq re router, fun hinverse => h.names_of_urlInverse hinverse,
    fun hnames => h.urlInverse format hnames⟩

end Url

/-- No other format has a meaning. -/
def noOtherFormat : Bytes → Dict Bytes Bytes → Except Exc Bytes := fun _ _ => .error .ValueError

def userRoute : Route Bytes Nat where
  method := ascii "GET"
  pattern := ascii "/users/{user}"
  handler := 1
  metadata := [(ascii "name", ascii "user")]

theorem userRoute_linkable : userRoute.Linkable where
  literal := List.all_iff_forall_prop.mp (by decide)
  separated := by decide
  names := by decide

/-- A placeholder called like the parameter of `url`. -/
def nameRoute : Route Bytes Nat := { userRoute with pattern := ascii "/users/{name}" }

theorem nameRoute_not_inverse : nameRoute.Linkable ∧
    ∃ condition, HttpRouter.add noOtherRe nameRoute.method (.bytes nameRoute.pattern) nameRoute.handler nameRoute.metadata
        ({ notFoundHandler := 0 } : HttpRouter Bytes Nat) =
      .ok { notFoundHandler := 0, routes := [(condition, nameRoute.handler)] } ∧
      ¬ nameRoute.UrlInverse noOtherFormat condition := by
  have h : nameRoute.Linkable :=
    { literal := List.all_iff_forall_prop.mp (by decide), separated := by decide, names := by decide }
  refine ⟨h, nameRoute.condition, h.addable.add_eq noOtherRe _, fun hinverse => ?_⟩
  exact absurd (h.names_of_urlInverse hinverse (ascii "name") (by decide)).2.1 (by decide)

theorem userRoute_inverse : ∃ condition,
    (∀ router : HttpRouter Bytes Nat, router.add noOtherRe userRoute.method (.bytes userRoute.pattern) userRoute.handler
      userRoute.metadata = .ok { router with routes := router.routes ++ [(condition, userRoute.handler)] }) ∧
    userRoute.UrlInverse noOtherFormat condition := by
  obtain ⟨condition, hadd, hiff⟩ := url_inverse_iff noOtherRe noOtherFormat userRoute_linkable
  exact ⟨condition, hadd, hiff.mpr (by decide)⟩

end Levin
