import Levin.Proof.Router.Urls

/-!
# Patterns of compiled routes

A route can be added with the expression that `pattern_to_regexp` makes of a
template. Its pattern is what `BACK_PATH_ARG` leaves of the text of that expression:
of a group it takes the name, and with the group all that follows up to the last
group before a slash. So the template comes back if no segment of it has two
placeholders (`recovered_iff`).
-/

namespace Levin

open Framework Bytes Regex

/-- No placeholder comes before the next slash. -/
def Alone : List Token → Prop
  | [] => True
  | .byte b :: ts => b = 47 ∨ Alone ts
  | .arg _ :: _ => False

/-- No two placeholders are in the same segment. -/
def OneASegment : List Token → Prop
  | [] => True
  | .byte _ :: ts => OneASegment ts
  | .arg _ :: ts => Alone ts ∧ OneASegment ts

instance decidableAlone : (ts : List Token) → Decidable (Alone ts)
  | [] => inferInstanceAs (Decidable True)
  | .byte b :: ts =>
    have := decidableAlone ts
    inferInstanceAs (Decidable (b = 47 ∨ Alone ts))
  | .arg _ :: _ => inferInstanceAs (Decidable False)

instance decidableOneASegment : (ts : List Token) → Decidable (OneASegment ts)
  | [] => inferInstanceAs (Decidable True)
  | .byte _ :: ts => decidableOneASegment ts
  | .arg _ :: ts =>
    have := decidableOneASegment ts
    inferInstanceAs (Decidable (Alone ts ∧ OneASegment ts))

/-- Two placeholders in a segment. -/
theorem exists_of_not_alone {ts : List Token} (h : ¬ Alone ts) :
    ∃ before name after, ts = before ++ .arg name :: after ∧ .byte 47 ∉ before := by
  induction ts with
  | nil => exact absurd trivial h
  | cons t ts ih =>
    cases t with
    | arg name => exact ⟨[], name, ts, rfl, List.not_mem_nil⟩
    | byte b =>
      obtain ⟨hb, hts⟩ := not_or.mp h
      obtain ⟨before, name, after, rfl, hbefore⟩ := ih hts
      refine ⟨.byte b :: before, name, after, rfl, ?_⟩
      rw [List.mem_cons, not_or]
      exact ⟨fun heq => hb (Token.byte.inj heq).symm, hbefore⟩

/-! ## The text of an expression -/

/-- What is known of the pieces of a template. -/
structure Template (ts : List Token) : Prop where
  literal : ∀ b ∈ literals ts, isMeta b = false
  words : ∀ name, .arg name ∈ ts → IsWord name

namespace Template

variable {ts ts' : List Token}

theorem mono (h : Template ts) (hts : ts' ⊆ ts) : Template ts' where
  literal b hb := h.literal b (mem_literals.mpr (hts (mem_literals.mp hb)))
  words name hname := h.words name (hts hname)

theorem tail {t : Token} (h : Template (t :: ts)) : Template ts := h.mono (List.subset_cons_self t ts)

theorem ne_of_isMeta {b c : UInt8} (h : Template ts) (hb : .byte b ∈ ts) (hc : isMeta c = true) : b ≠ c := by
  rintro rfl
  exact absurd (h.literal b (mem_literals.mpr hb)) (by simp [hc])

end Template

theorem regexText_append (ts ts' : List Token) : regexText (ts ++ ts') = regexText ts ++ regexText ts' :=
  List.flatMap_append

/-- Slashes are literal. -/
theorem slash_notMem_regexText {ts : List Token} (h : Template ts) (hts : .byte 47 ∉ ts) : 47 ∉ regexText ts := by
  induction ts with
  | nil => exact List.not_mem_nil
  | cons t ts ih =>
    rw [List.mem_cons, not_or] at hts
    have ih := ih h.tail hts.2
    cases t with
    | byte b =>
      show 47 ∉ b :: regexText ts
      rw [List.mem_cons, not_or]
      exact ⟨fun hb => hts.1 (by rw [hb]), ih⟩
    | arg name =>
      have hname : 47 ∉ name := fun hmem => absurd ((h.words name List.mem_cons_self).2 47 hmem) (by decide)
      have hopen : 47 ∉ ascii "(?P<" := by decide
      have hclose : 47 ∉ ascii ">[-_a-zA-Z0-9]+)" := by decide
      show 47 ∉ ascii "(?P<" ++ name ++ ascii ">[-_a-zA-Z0-9]+)" ++ regexText ts
      simp only [List.mem_append, not_or]
      exact ⟨⟨⟨hopen, hname⟩, hclose⟩, ih⟩

/-- Where no placeholder is in the rest of a segment, no group is closed in it. -/
theorem close_notMem_segment {ts : List Token} (h : Template ts) (halone : Alone ts) :
    41 ∉ (regexText ts).takeWhile (· != 47) := by
  induction ts with
  | nil => exact List.not_mem_nil
  | cons t ts ih =>
    cases t with
    | arg name => exact absurd halone id
    | byte b =>
      show 41 ∉ (b :: regexText ts).takeWhile (· != 47)
      by_cases hb : b = 47
      · simp [hb]
      · have hclose : b ≠ 41 := h.ne_of_isMeta List.mem_cons_self (by decide)
        simp [hb, hclose.symm, ih h.tail (halone.resolve_left hb)]

/-- How far `[^/]+\)` reaches, from behind the name of a group: up to the last group of the segment. -/
theorem exists_reach {ts : List Token} (h : Template ts) : ∃ ts' w, ts' <:+ ts ∧ (Alone ts ↔ ts' = ts) ∧
    ascii ">[-_a-zA-Z0-9]+)" ++ regexText ts = 62 :: w ++ 41 :: regexText ts' ∧ 47 ∉ w ∧
      41 ∉ (regexText ts').takeWhile (· != 47) := by
  induction hn : ts.length using Nat.strong_induction_on generalizing ts with
  | _ n ih =>
    by_cases halone : Alone ts
    · exact ⟨ts, ascii "[-_a-zA-Z0-9]+", List.suffix_rfl, iff_of_true halone rfl, rfl, by decide, close_notMem_segment h halone⟩
    · obtain ⟨before, name, after, rfl, hbefore⟩ := exists_of_not_alone halone
      have hafter : Template after := h.mono fun t ht => List.mem_append_right _ (List.mem_cons_of_mem _ ht)
      have hname : Template (before ++ [.arg name]) := h.mono fun t ht => by
        simp only [List.mem_append, List.mem_cons, List.not_mem_nil, or_false] at ht ⊢
        exact ht.imp_right .inl
      obtain ⟨ts', w, hsuffix, -, htext, hslash, hclose⟩ := ih after.length (by simp [← hn]; omega) hafter rfl
      have hlen := hsuffix.length_le
      refine ⟨ts', ascii "[-_a-zA-Z0-9]+)" ++ regexText before ++ ascii "(?P<" ++ name ++ 62 :: w, ?_, ?_, ?_, ?_, hclose⟩
      · exact hsuffix.trans ((List.suffix_cons _ _).trans (List.suffix_append _ _))
      · refine iff_of_false halone fun heq => ?_
        have heq := congrArg List.length heq
        simp only [List.length_append, List.length_cons] at heq
        omega
      · have hrest : regexText (.arg name :: after) = ascii "(?P<" ++ name ++ (62 :: w ++ 41 :: regexText ts') := by
          rw [← htext]
          simp [regexText]
        rw [regexText_append, hrest]
        simp [ascii]
      · have hslash' := slash_notMem_regexText hname (by simp [hbefore])
        simp only [regexText_append, List.mem_append, not_or] at hslash'
        have hgroup : 47 ∉ ascii "(?P<" ++ name := by
          have harg := hslash'.2
          simp only [regexText, List.flatMap_cons, List.flatMap_nil, List.append_nil, List.mem_append, not_or] at harg
          simp only [List.mem_append, not_or]
          exact harg.1
        have hclass : 47 ∉ ascii "[-_a-zA-Z0-9]+)" := by decide
        simp only [List.mem_append, List.mem_cons, not_or] at hgroup ⊢
        exact ⟨⟨⟨⟨hclass, hslash'.1⟩, hgroup.1⟩, hgroup.2⟩, by decide, hslash⟩

/-! ## What is left of it -/

/-- A group is replaced by its name, with all that `[^/]+\)` reaches. -/
theorem sub_group {name w rest : Bytes} (hname : IsWord name) (hslash : 47 ∉ w) (hrest : 41 ∉ rest.takeWhile (· != 47)) :
    Regex.sub BACK_PATH_ARG BACK_PATH_REPL (ascii "(?P<" ++ name ++ (62 :: w ++ 41 :: rest)) =
      123 :: name ++ [125] ++ Regex.sub BACK_PATH_ARG BACK_PATH_REPL rest := by
  have hreach : (matchesOf [.plus none (· != 47), .one (· == 41)] (62 :: w ++ 41 :: rest)).head? = some ([], rest) := by
    refine head?_matchesOf_plus rfl (List.cons_ne_nil _ _) (fun b hb => ?_) hrest
    have hne : b ≠ 47 := by
      rintro rfl
      exact (List.mem_cons.mp hb).elim (by decide) hslash
    simpa using hne
  have hmatch : (matchesOf BACK_PATH_ARG (ascii "(?P<" ++ (name ++ (62 :: w ++ 41 :: rest)))).head? =
      some ([(ascii "name", name)], rest) := by
    rw [BACK_PATH_ARG, literalItems, matchesOf_literal]
    exact head?_matchesOf_span hname.1 hname.2 (by simp [isWord]) hreach
  have htext : ascii "(?P<" ++ (name ++ (62 :: w ++ 41 :: rest)) = 40 :: (ascii "?P<" ++ name ++ (62 :: w ++ [41])) ++ rest := by
    simp [ascii]
  rw [htext] at hmatch
  rw [List.append_assoc, htext, sub_of_match hmatch]
  simp [BACK_PATH_REPL, nameGroup, Dict.get?]

theorem sub_byte {b : UInt8} (hb : b ≠ 40) (s : Bytes) :
    Regex.sub BACK_PATH_ARG BACK_PATH_REPL (b :: s) = b :: Regex.sub BACK_PATH_ARG BACK_PATH_REPL s := by
  refine sub_cons ?_
  have hfirst : BACK_PATH_ARG = .one (· == 40) :: BACK_PATH_ARG.tail := rfl
  rw [hfirst, matchesOf]
  simp [Option.filter, hb]

theorem render_append (ts ts' : List Token) : render (ts ++ ts') = render ts ++ render ts' := List.flatMap_append

theorem length_le_render (ts : List Token) : ts.length ≤ (render ts).length := by
  induction ts with
  | nil => exact Nat.le_refl _
  | cons t ts ih =>
    have hsplit : render (t :: ts) = render [t] ++ render ts := render_append [t] ts
    have hone : 1 ≤ (render [t]).length := by
      cases t <;> simp [render]
    rw [hsplit, List.length_append, List.length_cons]
    omega

/-- What is left is no longer than the template. -/
theorem length_sub_le {ts : List Token} (h : Template ts) :
    (Regex.sub BACK_PATH_ARG BACK_PATH_REPL (regexText ts)).length ≤ (render ts).length := by
  induction hn : ts.length using Nat.strong_induction_on generalizing ts with
  | _ n ih =>
    cases ts with
    | nil => exact Nat.le_refl _
    | cons t ts =>
      rw [List.length_cons] at hn
      cases t with
      | byte b =>
        have hrest := ih ts.length (by omega) h.tail rfl
        show (Regex.sub _ _ (b :: regexText ts)).length ≤ (b :: render ts).length
        rw [sub_byte (h.ne_of_isMeta List.mem_cons_self (by decide)), List.length_cons, List.length_cons]
        omega
      | arg name =>
        obtain ⟨ts', w, ⟨u, rfl⟩, -, htext, hslash, hclose⟩ := exists_reach h.tail
        have hrest := ih ts'.length (by simp at hn; omega) (h.tail.mono (List.subset_append_right _ _)) rfl
        have hgroup : regexText (.arg name :: (u ++ ts')) = ascii "(?P<" ++ name ++ (62 :: w ++ 41 :: regexText ts') := by
          rw [← htext]
          simp [regexText]
        rw [hgroup, sub_group (h.words name List.mem_cons_self) hslash hclose]
        show _ ≤ (123 :: name ++ [125] ++ render (u ++ ts')).length
        rw [render_append]
        simp only [List.length_append]
        omega

/-- The template is left if no segment has two placeholders. -/
theorem sub_eq_iff {ts : List Token} (h : Template ts) :
    Regex.sub BACK_PATH_ARG BACK_PATH_REPL (regexText ts) = render ts ↔ OneASegment ts := by
  induction ts with
  | nil => exact iff_of_true rfl trivial
  | cons t ts ih =>
    have ih := ih h.tail
    cases t with
    | byte b =>
      show Regex.sub _ _ (b :: regexText ts) = b :: render ts ↔ OneASegment ts
      rw [sub_byte (h.ne_of_isMeta List.mem_cons_self (by decide)), List.cons.injEq, and_iff_right rfl, ih]
    | arg name =>
      obtain ⟨ts', w, hsuffix, halone, htext, hslash, hclose⟩ := exists_reach h.tail
      have hgroup : regexText (.arg name :: ts) = ascii "(?P<" ++ name ++ (62 :: w ++ 41 :: regexText ts') := by
        rw [← htext]
        simp [regexText]
      have hrender : render (.arg name :: ts) = 123 :: name ++ [125] ++ render ts := rfl
      rw [hgroup, sub_group (h.words name List.mem_cons_self) hslash hclose, hrender, List.append_cancel_left_eq]
      show _ ↔ Alone ts ∧ OneASegment ts
      by_cases hts : ts' = ts
      · rw [hts, ih, and_iff_right (halone.mpr hts)]
      · refine iff_of_false (fun heq => ?_) fun hone => hts (halone.mp hone.1)
        -- What is between is lost.
        obtain ⟨u, rfl⟩ := hsuffix
        have hlen := length_sub_le (h.tail.mono (List.subset_append_right u ts'))
        have hu : 1 ≤ u.length := by
          rcases u with _ | ⟨t, u⟩
          · exact absurd rfl hts
          · simp
        have hrender := length_le_render u
        rw [heq, render_append, List.length_append] at hlen
        omega

/-! ## Both forms of a route -/

/-- The expression of a template. -/
def templateRe (template : Bytes) : CompiledRe where
  pattern := regexText (tokens template)
  fullmatch s := (Regex.fullmatch ((tokens template).map Token.item) s).map fun caps => caps.map fun c => (c.1, some c.2)

theorem patternToRegexp_template (re : Bytes → Except Exc CompiledRe) {template : Bytes} (h : Template (tokens template))
    (hnames : WellNamed (tokens template)) : patternToRegexp re template = .ok (templateRe template) := by
  have hparse : parseFrom 0 (regexText (tokens template) ++ []) = some ((tokens template).map Token.item ++ []) := by
    refine parseFrom_append rfl h.words fun before b after heq => ?_
    have hsubset : after ⊆ tokens template := fun t ht => heq ▸ List.mem_append_right _ (List.mem_cons_of_mem _ ht)
    obtain ⟨hspecial, hbrace⟩ := readable_of_literals h.literal before b after heq
    have hb : b ≠ 123 := h.ne_of_isMeta (heq ▸ List.mem_append_right _ List.mem_cons_self) (by decide)
    refine ⟨hspecial, fun heq' => absurd heq' hb, fun hquestion => ?_⟩
    -- A question mark would be a literal byte.
    cases after with
    | nil => cases hquestion
    | cons t after =>
      cases t with
      | arg name => exact absurd (List.cons.inj hquestion).1 (by decide)
      | byte c => exact (h.mono hsubset).ne_of_isMeta List.mem_cons_self (by decide) (List.cons.inj hquestion).1
  rw [List.append_nil, List.append_nil] at hparse
  rw [patternToRegexp, sub_eq, compile, hparse]
  refine if_pos ⟨?_, ?_⟩
  · rw [groupNames_map]
    exact hnames.1
  · rw [groupNames_map, List.all_eq_true]
    exact hnames.2

section Both

variable {V H : Type} [RouteValue V] [DecidableEq V]

/-- A router builds the same paths, whichever of the two conditions it has. -/
def SameUrls (format : Bytes → Dict Bytes Bytes → Except Exc Bytes) (handler : H) (condition condition' : Condition V) : Prop :=
  ∀ notFoundHandler before after name kwargs,
    HttpRouter.url format { notFoundHandler, routes := before ++ (condition, handler) :: after } name kwargs =
      HttpRouter.url format { notFoundHandler, routes := before ++ (condition', handler) :: after } name kwargs

/-- `url` reads the pattern and the metadata of a condition. -/
theorem sameUrls_of_pattern (format : Bytes → Dict Bytes Bytes → Except Exc Bytes) (handler : H)
    {condition condition' : Condition V} (hpattern : condition.pattern = condition'.pattern)
    (hmeta : condition.metadata = condition'.metadata) : SameUrls format handler condition condition' := by
  intro notFoundHandler before after name kwargs
  have hname : HttpRouter.nameOf condition = HttpRouter.nameOf condition' := by
    rw [HttpRouter.nameOf, hmeta, ← HttpRouter.nameOf]
  unfold HttpRouter.url
  simp only [List.find?_append, List.find?_cons, hname]
  cases before.find? fun route => decide (HttpRouter.nameOf route.1 = name) with
  | some route => rfl
  | none =>
    simp only [Option.none_or]
    by_cases h : HttpRouter.nameOf condition' = name
    · simp only [h, decide_true, hpattern]
    · simp only [h, decide_false]

/-- A template without metacharacters comes back from its expression, and both forms of the route make the same paths, if
and only if no two of its placeholders are in the same segment. -/
theorem recovered_iff (re : Bytes → Except Exc CompiledRe) (format : Bytes → Dict Bytes Bytes → Except Exc Bytes)
    {route : Route V H} (hliteral : ∀ b ∈ literals (tokens route.pattern), isMeta b = false) (hnames : route.WellNamed) :
    ∃ compiled condition condition', patternToRegexp re route.pattern = .ok compiled ∧
      (∀ router : HttpRouter V H, router.add re route.method (.compiled compiled) route.handler route.metadata =
        .ok { router with routes := router.routes ++ [(condition, route.handler)] }) ∧
      (∀ router : HttpRouter V H, router.add re route.method (.bytes route.pattern) route.handler route.metadata =
        .ok { router with routes := router.routes ++ [(condition', route.handler)] }) ∧
      (condition.pattern = route.pattern ∧ SameUrls format route.handler condition condition' ↔
        OneASegment (tokens route.pattern)) := by
  have htemplate : Template (tokens route.pattern) := ⟨hliteral, fun name hmem => isWord_of_arg_mem hmem⟩
  have hadd : route.Addable := Route.addable_of_readable hnames (readable_of_literals hliteral)
  refine ⟨templateRe route.pattern, .regexp route.method
    (Regex.sub BACK_PATH_ARG BACK_PATH_REPL (regexText (tokens route.pattern))) (templateRe route.pattern) route.metadata,
    route.condition, patternToRegexp_template re htemplate hnames, fun router => rfl, fun router => hadd.add_eq re router, ?_⟩
  have hrender := sub_eq_iff htemplate
  rw [render_tokens] at hrender
  rw [← hrender]
  refine and_iff_left_of_imp fun hpattern => ?_
  exact sameUrls_of_pattern format route.handler (hpattern.trans Route.condition_pattern.symm) Route.condition_metadata.symm

end Both

/-- The route of the tests. -/
def itemRoute : Route Bytes Nat := { userRoute with pattern := ascii "/test/{user}/{id}" }

theorem itemRoute_recovered : ∃ compiled condition condition', patternToRegexp noOtherRe itemRoute.pattern = .ok compiled ∧
    (∀ router : HttpRouter Bytes Nat, router.add noOtherRe itemRoute.method (.compiled compiled) itemRoute.handler
      itemRoute.metadata = .ok { router with routes := router.routes ++ [(condition, itemRoute.handler)] }) ∧
    (∀ router : HttpRouter Bytes Nat, router.add noOtherRe itemRoute.method (.bytes itemRoute.pattern) itemRoute.handler
      itemRoute.metadata = .ok { router with routes := router.routes ++ [(condition', itemRoute.handler)] }) ∧
    (condition.pattern = itemRoute.pattern ∧ SameUrls noOtherFormat itemRoute.handler condition condition' ↔
      OneASegment (tokens itemRoute.pattern)) :=
  recovered_iff noOtherRe noOtherFormat (List.all_iff_forall_prop.mp (by decide)) (by decide)

/-- Two placeholders in a segment. -/
def pairRoute : Route Bytes Nat := { userRoute with pattern := ascii "/{user}-{id}" }

theorem pairRoute_not_recovered : (∀ b ∈ literals (tokens pairRoute.pattern), isMeta b = false) ∧ pairRoute.WellNamed ∧
    ∃ compiled condition, patternToRegexp noOtherRe pairRoute.pattern = .ok compiled ∧
      HttpRouter.add noOtherRe pairRoute.method (.compiled compiled) pairRoute.handler pairRoute.metadata
        ({ notFoundHandler := 0 } : HttpRouter Bytes Nat) =
          .ok { notFoundHandler := 0, routes := [(condition, pairRoute.handler)] } ∧
      condition.pattern ≠ pairRoute.pattern := by
  have hliteral : ∀ b ∈ literals (tokens pairRoute.pattern), isMeta b = false := List.all_iff_forall_prop.mp (by decide)
  have htemplate : Template (tokens pairRoute.pattern) := ⟨hliteral, fun name hmem => isWord_of_arg_mem hmem⟩
  refine ⟨hliteral, by decide, templateRe pairRoute.pattern, _, patternToRegexp_template noOtherRe htemplate (by decide), rfl, ?_⟩
  have hrender := (sub_eq_iff htemplate).not.mpr (by decide)
  rwa [render_tokens] at hrender

end Levin
