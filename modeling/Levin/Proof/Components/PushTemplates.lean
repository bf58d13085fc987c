import Levin.Proof.Components.Pushes
import Levin.Proof.Router.Captures
import Mathlib.Data.List.Nodup

/-!
# The push templates of routes

What a route captures is `bytes`, and `str.format` writes `bytes` as their `repr`, with
a `b` and two quotes: the path is longer than the text that was captured
(`length_formatWith`). A template gives the path it should exactly if it has no
placeholders (`template_iff`).
-/

namespace Levin

open Framework Bytes

/-- The names of the placeholders. -/
def placeholders (pieces : List FormatPiece) : List Bytes :=
  pieces.filterMap fun piece =>
    match piece with
    | .field name => some name
    | .literal _ => none

theorem length_bytesRepr (value : Bytes) : value.length < (H2.bytesRepr value).length := by
  have hbyte : ∀ quote b : UInt8, 1 ≤ (H2.reprByte quote b).length := by
    intro quote b
    unfold H2.reprByte
    repeat' split
    all_goals simp [ascii]
  have hbytes : ∀ (quote : UInt8) (value : Bytes), value.length ≤ (value.flatMap (H2.reprByte quote)).length := by
    intro quote value
    induction value with
    | nil => exact Nat.le_refl 0
    | cons b value ih =>
      rw [List.flatMap_cons, List.length_append, List.length_cons]
      have hb := hbyte quote b
      omega
  have hvalue := hbytes (if 39 ∈ value ∧ 34 ∉ value then 34 else 39) value
  simp only [H2.bytesRepr, List.length_append, List.length_cons, List.length_nil]
  omega

/-- Longer values make a longer text, if there is a placeholder. -/
theorem length_formatWith {kwargs kwargs' : Dict Bytes Bytes} {pieces : List FormatPiece} {text text' : Bytes}
    (hlonger : ∀ name ∈ placeholders pieces, ∀ value value', kwargs.get? name = some value →
      kwargs'.get? name = some value' → value.length < value'.length)
    (h : formatWith kwargs pieces = .ok text) (h' : formatWith kwargs' pieces = .ok text') :
    text.length + (placeholders pieces).length ≤ text'.length := by
  induction pieces generalizing text text' with
  | nil =>
    cases h
    cases h'
    exact Nat.le_refl 0
  | cons piece pieces ih =>
    cases piece with
    | literal b =>
      rcases hrest : formatWith kwargs pieces with e | rest
      · simp [formatWith, hrest, Except.map] at h
      rcases hrest' : formatWith kwargs' pieces with e | rest'
      · simp [formatWith, hrest', Except.map] at h'
      have hlength := ih hlonger hrest hrest'
      simp only [formatWith, hrest, hrest', Except.map, Except.ok.injEq] at h h'
      rw [← h, ← h', List.length_cons, List.length_cons]
      simp only [placeholders, List.filterMap_cons] at hlength ⊢
      omega
    | field name =>
      rw [placeholders, List.filterMap_cons, ← placeholders] at hlonger ⊢
      rcases hvalue : kwargs.get? name with _ | value
      · simp [formatWith, hvalue] at h
      rcases hvalue' : kwargs'.get? name with _ | value'
      · simp [formatWith, hvalue'] at h'
      rcases hrest : formatWith kwargs pieces with e | rest
      · simp [formatWith, hvalue, hrest, Except.map] at h
      rcases hrest' : formatWith kwargs' pieces with e | rest'
      · simp [formatWith, hvalue', hrest', Except.map] at h'
      have hlength := ih (fun name hname => hlonger name (List.mem_cons_of_mem _ hname)) hrest hrest'
      have hname := hlonger name List.mem_cons_self value value' hvalue hvalue'
      simp only [formatWith, hvalue, hvalue', hrest, hrest', Except.map, Except.ok.injEq] at h h'
      rw [← h, ← h', List.length_append, List.length_append, List.length_cons]
      omega

/-- A text without placeholders is the same with any values. -/
theorem formatWith_literal {pieces : List FormatPiece} (h : placeholders pieces = []) (kwargs kwargs' : Dict Bytes Bytes) :
    formatWith kwargs pieces = formatWith kwargs' pieces := by
  induction pieces with
  | nil => rfl
  | cons piece pieces ih =>
    cases piece with
    | literal b => rw [formatWith, formatWith, ih h]
    | field name => simp [placeholders] at h

/-- A text is made if there is a value for each placeholder. -/
theorem exists_formatWith {kwargs : Dict Bytes Bytes} {pieces : List FormatPiece}
    (h : ∀ name ∈ placeholders pieces, kwargs.get? name ≠ none) : ∃ text, formatWith kwargs pieces = .ok text := by
  induction pieces with
  | nil => exact ⟨[], rfl⟩
  | cons piece pieces ih =>
    cases piece with
    | literal b =>
      obtain ⟨text, htext⟩ := ih h
      exact ⟨b :: text, by rw [formatWith, htext]; rfl⟩
    | field name =>
      rw [placeholders, List.filterMap_cons, ← placeholders] at h
      obtain ⟨text, htext⟩ := ih fun name hname => h name (List.mem_cons_of_mem _ hname)
      obtain ⟨value, hvalue⟩ := Option.ne_none_iff_exists'.mp (h name List.mem_cons_self)
      exact ⟨value ++ text, by rw [formatWith, hvalue]; simp only [htext]; rfl⟩

variable {V H R : Type} [H2.PushValue V]

/-- The texts that were captured. -/
def capturedTexts (captured : Dict Bytes (Option Bytes)) : Dict Bytes Bytes := captured.map fun kv => (kv.1, kv.2.getD [])

/-- The placeholders are names of captured words, and no other attribute is called so. -/
structure NamesCaptured (pieces : List FormatPiece) (captured : Dict Bytes (Option Bytes)) (metadata : Dict Bytes V) :
    Prop where
  word : ∀ name ∈ placeholders pieces, ∃ word, captured.get? name = some (some word)
  free : ∀ name ∈ placeholders pieces, name ∉ metadata.map Prod.fst ∧ name ≠ ascii "pattern" ∧ name ≠ ascii "path" ∧
    name ≠ ascii "content_type" ∧ name ∉ takenKeys

namespace DefaultApp

variable {captured : Dict Bytes (Option Bytes)} {metadata : Dict Bytes V} {pieces : List FormatPiece}

/-- The application with `Push`. -/
def withPush (app : DefaultApp V H (H2.Response V R)) (formatter : H2.Formatter V) (depth : Nat) :
    DefaultApp V H (H2.Response V R) :=
  { app with finishPush := H2.finish formatter depth }

/-- What the components behind `Push` do with an answer. -/
def finishBehind (app : DefaultApp V H (H2.Response V R)) (answer : Answer V (H2.Response V R)) :
    Answer V (H2.Response V R) :=
  app.finishLogger (app.finishErrorHandle (app.finishTimeLimit answer))

theorem get?_seen_captured (app : DefaultApp V H (H2.Response V R)) (request : Request) (transportInfo : Other V)
    (p pattern : Bytes) (h : NamesCaptured pieces captured metadata) {name : Bytes} (hname : name ∈ placeholders pieces) :
    ∃ word, captured.get? name = some (some word) ∧
      (app.seen request transportInfo p (Condition.result captured pattern metadata)).scope.get? name =
        some (.value (RouteValue.bytes word)) := by
  obtain ⟨word, hword⟩ := h.word name hname
  obtain ⟨hmeta, hpattern, hpath, htype, htaken⟩ := h.free name hname
  refine ⟨word, hword, ?_⟩
  rw [get?_seen, get?_located_of_ne hpath, get?_slots_eq_none hpath htype htaken, get?_found hmeta hword, Option.none_or,
    if_neg hpattern]
  rfl

theorem get?_seen_push (app : DefaultApp V H (H2.Response V R)) (request : Request) (transportInfo : Other V)
    (p pattern : Bytes) (hnodup : (metadata.map Prod.fst).Nodup) {v : V} (hpush : metadata.get? (ascii "push") = some v) :
    (app.seen request transportInfo p (Condition.result captured pattern metadata)).scope.get? (ascii "push") =
      some (.value v) := by
  have hreverse : Dict.get? metadata.reverse (ascii "push") = some v := by
    refine Dict.get?_of_mem ?_ (List.mem_reverse.mpr (Dict.mem_of_get? hpush))
    rwa [List.map_reverse, List.nodup_reverse]
  rw [get?_seen, get?_located_of_ne (by decide), get?_slots_eq_none (by decide) (by decide) (by decide), Option.none_or,
    Condition.result, Dict.get?_foldl_set, hreverse]
  rfl

/-- Of a request that has kept them, the values of the placeholders are the `repr` of what was captured. -/
theorem value_of_kept (app : DefaultApp V H (H2.Response V R)) (formatter : H2.Formatter V) {request : Request}
    {transportInfo : Other V} {p pattern : Bytes} (hnames : NamesCaptured pieces captured metadata) {r : ScopedRequest V}
    (hkeeps : ∀ key ∈ placeholders pieces, r.scope.get? key =
      (app.seen request transportInfo p (Condition.result captured pattern metadata)).scope.get? key)
    {name : Bytes} (hname : name ∈ placeholders pieces) :
    ∃ word, captured.get? name = some (some word) ∧
      Dict.get? (r.scope.map fun kv => (kv.1, formatter.slot kv.2)) name = some (H2.bytesRepr word) := by
  obtain ⟨word, hword, hslot⟩ := app.get?_seen_captured request transportInfo p pattern hnames hname
  refine ⟨word, hword, ?_⟩
  rw [Dict.get?_map, hkeeps name hname, hslot]
  exact congrArg some (formatter.value_bytes word)

end DefaultApp

/-- The text made of each `repr` is the one made of the captured texts if there is no placeholder. -/
theorem formatWith_captured {captured : Dict Bytes (Option Bytes)} {kwargs : Dict Bytes Bytes} {pieces : List FormatPiece}
    {path : Bytes}
    (hvalues : ∀ name ∈ placeholders pieces, ∃ word, captured.get? name = some (some word) ∧
      kwargs.get? name = some (H2.bytesRepr word)) (hformat : formatWith kwargs pieces = .ok path) :
    formatWith (capturedTexts captured) pieces = .ok path ↔ placeholders pieces = [] := by
  constructor
  · intro htext
    have hlonger : ∀ name ∈ placeholders pieces, ∀ value value', (capturedTexts captured).get? name = some value →
        kwargs.get? name = some value' → value.length < value'.length := by
      intro name hname value value' hvalue hvalue'
      obtain ⟨word, hword, hrepr⟩ := hvalues name hname
      rw [capturedTexts, Dict.get?_map fun text : Option Bytes => text.getD [], hword] at hvalue
      rw [hrepr] at hvalue'
      cases hvalue
      cases hvalue'
      exact length_bytesRepr word
    have hlength := length_formatWith hlonger htext hformat
    exact List.length_eq_zero_iff.mp (by omega)
  · intro hnil
    rw [formatWith_literal hnil, hformat]

/-- A request that matches a route with a push template, and no route before it, gets a push whose path is the template
with the captured texts exactly if it has no placeholder. The handler, and the components between it and `Push`, do
anything but to set again what the template is made of. -/
theorem template_iff (app : DefaultApp V H (H2.Response V R)) (formatter : H2.Formatter V) (depth pushDepth : Nat)
    {request : Request} {p : Bytes} (hpath : app.patchRequest.pathOf request = .ok p)
    {before after : List (Condition V × H)} {pattern : Bytes} {compiled : CompiledRe} {metadata : Dict Bytes V} {handler : H}
    (hroutes : app.router.routes = before ++ (.regexp request.method pattern compiled metadata, handler) :: after)
    (hbefore : ∀ x ∈ before, x.1.call request.method (.ok p) = .ok none)
    {captured : Dict Bytes (Option Bytes)} (hmatch : compiled.fullmatch p = some captured)
    (hnodup : (metadata.map Prod.fst).Nodup) {template : Bytes} (hne : template ≠ [])
    (hpush : metadata.get? (ascii "push") = some (RouteValue.str template))
    {pieces : List FormatPiece} (hpieces : formatPieces 0 template = some pieces)
    (hnames : NamesCaptured pieces captured metadata) (transportInfo : Other V)
    (callNext : ScopedRequest V → H → Answer V (H2.Response V R)) (first : H) {response : H2.Response V R}
    {own added : List H2.Push} (hown : response.pushes = H2.PushValue.pushes own) {r : ScopedRequest V}
    (hanswer : app.finishBehind (callNext (app.seen request transportInfo p (Condition.result captured pattern metadata))
      handler) = (.ok response, r)) (hadded : H2.Holds added r)
    (hkeeps : ∀ key, key = ascii "push" ∨ key ∈ placeholders pieces → r.scope.get? key =
      (app.seen request transportInfo p (Condition.result captured pattern metadata)).scope.get? key) :
    ∃ pushes path, ((app.withPush formatter pushDepth).handler (depth + 1) callNext
        (request.connected transportInfo) first).1 =
          .ok { response with pushes := H2.PushValue.pushes (pushes ++ [{ path := path }]) } ∧
      (formatWith (capturedTexts captured) pieces = .ok path ↔ placeholders pieces = []) := by
  have hpath : (app.withPush formatter pushDepth).patchRequest.pathOf request = .ok p := hpath
  have hroutes : (app.withPush formatter pushDepth).router.routes = _ := hroutes
  have hfirst : (app.withPush formatter pushDepth).handler (depth + 1) callNext (request.connected transportInfo) first =
      (app.withPush formatter pushDepth).finish (callNext ((app.withPush formatter pushDepth).seen request transportInfo p
        (Condition.result captured pattern metadata)) handler) :=
    DefaultApp.handler_matched depth callNext first hpath hroutes hbefore hmatch
  have hhandler : (app.withPush formatter pushDepth).handler (depth + 1) callNext (request.connected transportInfo) first =
      H2.finish formatter pushDepth (.ok response, r) := by
    rw [hfirst, ← hanswer]
    rfl
  have hvalues : ∀ name ∈ placeholders pieces, ∃ word, captured.get? name = some (some word) ∧
      Dict.get? (r.scope.map fun kv => (kv.1, formatter.slot kv.2)) name = some (H2.bytesRepr word) :=
    fun _ => app.value_of_kept formatter hnames fun key hkey => hkeeps key (.inr hkey)
  obtain ⟨path, hformat⟩ : ∃ path, formatWith (r.scope.map fun kv => (kv.1, formatter.slot kv.2)) pieces = .ok path := by
    refine exists_formatWith fun name hname => ?_
    obtain ⟨word, -, hvalue⟩ := hvalues name hname
    rw [hvalue]
    exact Option.some_ne_none _
  have hroute : H2.RoutePushes formatter pushDepth r [{ path := path }] := by
    have hslot := hkeeps (ascii "push") (.inl rfl)
    rw [app.get?_seen_push request transportInfo p pattern hnodup hpush] at hslot
    refine ⟨some (RouteValue.str template), r, ScopedRequest.get_of_value hslot, ?_⟩
    rw [if_pos (by rw [Option.any_some, H2.PushValue.truthy_str]; simpa using hne)]
    refine ⟨_, path, rfl, ?_, rfl⟩
    rw [H2.Formatter.format, RequestValue.asStr_str]
    simp only [strFormat, hpieces, hformat]
  refine ⟨if added = [] then own else added, path, ?_, formatWith_captured hvalues hformat⟩
  rw [hhandler]
  exact H2.finish_eq hown hadded hroute

/-- An application with one route, for `/users/{user}`, and this push template. -/
def avatarApp (template : Bytes) : DefaultApp H2.Value Nat (H2.Response H2.Value Nat) where
  patchRequest := {
    jsonLoads := fun _ => .error .ValueError
    parseUrl := urlparse urllib37
    parseQueryParams := fun _ => .ok ⟨.object 0, rfl⟩
    noParams := ⟨.object 0, rfl⟩
    codec := fun _ _ => .error (.other "LookupError") }
  createAddPush := fun _ => ⟨.object 1, rfl⟩
  logger := ⟨.object 2, rfl⟩
  router := {
    notFoundHandler := 0
    routes := [(.regexp (ascii "GET") (ascii "/users/{user}") (patternRe (ascii "/users/{user}"))
      [(ascii "push", .str template)], 1)] }
  getUrl := ⟨.object 3, rfl⟩
  getRoute := ⟨.object 4, rfl⟩
  finishPush := id
  finishLogger := id
  finishErrorHandle := id
  finishTimeLimit := id

/-- A handler that answers without pushes. -/
def answering : ScopedRequest H2.Value → Nat → Answer H2.Value (H2.Response H2.Value Nat) :=
  fun r _ => (.ok { rest := 200, pushes := .pushes [] }, r)

/-- What the handler gets for `/users/levin`. -/
def avatarSeen (template : Bytes) : ScopedRequest H2.Value :=
  (avatarApp template).seen (getRequest (ascii "/users/levin")) ⟨.object 5, rfl⟩ (ascii "/users/levin")
    (Condition.result [(ascii "user", some (ascii "levin"))] (ascii "/users/{user}") [(ascii "push", .str template)])

theorem avatarSeen_holds (template : Bytes) : H2.Holds [] (avatarSeen template) := rfl

theorem user_matched :
    (patternRe (ascii "/users/{user}")).fullmatch (ascii "/users/levin") = some [(ascii "user", some (ascii "levin"))] := by
  decide

/-- The text that is captured for `/users/levin`. -/
def userLevin : Dict Bytes (Option Bytes) := [(ascii "user", some (ascii "levin"))]

/-- What a client that asks for `/users/levin` is sent with the push template. -/
def avatarAnswer (template : Bytes) : Except Exc (H2.Response H2.Value Nat) :=
  (((avatarApp template).withPush H2.valueFormatter 0).handler 1 answering
    ((getRequest (ascii "/users/levin")).connected ⟨.object 5, rfl⟩) 0).1

/-- `/avatars/{user}` -/
def avatarPieces : List FormatPiece := (ascii "/avatars/").map .literal ++ [.field (ascii "user")]

/-- `/style.css`, which has no placeholder, is pushed as it is, and `/avatars/{user}` is not the text that was captured. -/
theorem templates_pushed :
    (∃ pushes, avatarAnswer (ascii "/style.css") =
      .ok { rest := 200, pushes := .pushes (pushes ++ [{ path := ascii "/style.css" }]) }) ∧
    ∃ pushes path, avatarAnswer (ascii "/avatars/{user}") =
        .ok { rest := 200, pushes := .pushes (pushes ++ [{ path := path }]) } ∧
      formatWith (capturedTexts userLevin) avatarPieces ≠ .ok path := by
  have hpushed : ∀ (template : Bytes) (pieces : List FormatPiece), template ≠ [] → formatPieces 0 template = some pieces →
      NamesCaptured pieces userLevin [(ascii "push", H2.Value.str template)] → ∃ pushes path,
        avatarAnswer template = .ok { rest := 200, pushes := .pushes (pushes ++ [{ path := path }]) } ∧
          (formatWith (capturedTexts userLevin) pieces = .ok path ↔ placeholders pieces = []) := by
    intro template pieces hne hpieces hnames
    have hroutes : (avatarApp template).router.routes = [] ++ (.regexp (ascii "GET") (ascii "/users/{user}")
        (patternRe (ascii "/users/{user}")) [(ascii "push", .str template)], 1) :: [] := rfl
    have hnodup : ([(ascii "push", H2.Value.str template)].map Prod.fst).Nodup := List.nodup_singleton _
    have hpush : Dict.get? [(ascii "push", H2.Value.str template)] (ascii "push") = some (RouteValue.str template) := rfl
    exact template_iff (avatarApp template) H2.valueFormatter 0 0 rfl hroutes (fun x hx => absurd hx List.not_mem_nil)
      user_matched hnodup hne hpush hpieces hnames _ answering 0 rfl rfl (avatarSeen_holds template)
      fun _ _ => rfl
  have hstyle : NamesCaptured ((ascii "/style.css").map .literal) userLevin
      [(ascii "push", H2.Value.str (ascii "/style.css"))] :=
    ⟨fun name h => absurd h List.not_mem_nil, fun name h => absurd h List.not_mem_nil⟩
  have havatar : NamesCaptured avatarPieces userLevin [(ascii "push", H2.Value.str (ascii "/avatars/{user}"))] := by
    have hplaceholders : placeholders avatarPieces = [ascii "user"] := rfl
    refine ⟨fun name h => ?_, fun name h => ?_⟩ <;> rw [hplaceholders, List.mem_singleton] at h <;> subst h
    · exact ⟨ascii "levin", rfl⟩
    · decide
  constructor
  · obtain ⟨pushes, path, hanswer, hiff⟩ := hpushed (ascii "/style.css") _ (by decide) rfl hstyle
    cases hiff.mpr rfl
    exact ⟨pushes, hanswer⟩
  · obtain ⟨pushes, path, hanswer, hiff⟩ := hpushed (ascii "/avatars/{user}") avatarPieces (by decide) rfl havatar
    exact ⟨pushes, path, hanswer, fun htext => absurd (hiff.mp htext) (by decide)⟩

/-- The path of the push is `/avatars/b'levin'`. -/
theorem avatar_not_pushed :
    HttpRouter.add noOtherRe (ascii "GET") (.bytes (ascii "/users/{user}")) 1 [(ascii "push", H2.Value.str (ascii "/avatars/{user}"))]
      { notFoundHandler := 0 } = .ok (avatarApp (ascii "/avatars/{user}")).router ∧
    formatPieces 0 (ascii "/avatars/{user}") = some avatarPieces ∧
    (patternRe (ascii "/users/{user}")).fullmatch (ascii "/users/levin") = some userLevin ∧
    ¬ ∃ pushes path, avatarAnswer (ascii "/avatars/{user}") =
        .ok { rest := 200, pushes := .pushes (pushes ++ [{ path := path }]) } ∧
      formatWith (capturedTexts userLevin) avatarPieces = .ok path := by
  have hadd : (⟨ascii "GET", ascii "/users/{user}", 1, [(ascii "push", H2.Value.str (ascii "/avatars/{user}"))]⟩ :
      Route H2.Value Nat).Addable := Route.addable_of_readable (by decide) (by decide)
  refine ⟨?_, rfl, user_matched, ?_⟩
  · rw [hadd.add_eq, Route.condition, if_pos (by decide)]
    rfl
  · rintro ⟨pushes, path, hanswer, htext⟩
    have hroutes : ((avatarApp (ascii "/avatars/{user}")).withPush H2.valueFormatter 0).router.routes =
        [] ++ (.regexp (ascii "GET") (ascii "/users/{user}") (patternRe (ascii "/users/{user}"))
          [(ascii "push", .str (ascii "/avatars/{user}"))], 1) :: [] := rfl
    rw [avatarAnswer, DefaultApp.handler_matched 0 answering 0 rfl hroutes (fun x hx => absurd hx List.not_mem_nil) user_matched] at hanswer
    have hpushes : [({ path := ascii "/avatars/b'levin'" } : H2.Push)] = pushes ++ [{ path := path }] :=
      H2.Value.pushes.inj (congrArg H2.Response.pushes (Except.ok.inj hanswer))
    cases htext
    exact absurd (congrArg List.getLast? hpushes) (by rw [List.getLast?_concat]; decide)

end Levin
