import Levin.Framework.Lines
import Levin.Proof.Router.Resolution

/-!
# The listing of routes

`add` encodes the method of a route, so that `list` compares `bytes` with the method
asked for. A `str` is never equal to them: `list(method=m)` is empty for each `m` that
is not, whatever has been registered (`listFrom_str`). So it lists the routes of `m`
exactly if there are none (`list_iff`).
-/

namespace Levin

open Framework Bytes

variable {V H : Type}

/-- A call of `add`. -/
structure AddCall (V H : Type) where
  method : StrOrBytes
  pattern : Pattern
  handler : H
  metadata : Dict Bytes V

/-- What is done with a router. -/
inductive RouterCall (V H : Type)
  | add (call : AddCall V H)
  | clean

namespace RouterCall

/-- A call of `add` that raises leaves the router as it is. -/
def run (re : Bytes → Except Exc CompiledRe) (router : HttpRouter V H) : RouterCall V H → HttpRouter V H
  | .add call =>
    match router.add re call.method.encoded call.pattern call.handler call.metadata with
    | .ok router => router
    | .error _ => router
  | .clean => router.clean

end RouterCall

/-- The condition that a call of `add` makes. -/
def AddCall.condition (re : Bytes → Except Exc CompiledRe) (call : AddCall V H) : Except Exc (Condition V) :=
  match call.pattern with
  | .bytes pattern =>
    if 123 ∈ pattern then Condition.ofPattern re call.method.encoded call.metadata (.bytes pattern)
    else .ok (.equals call.method.encoded pattern call.metadata)
  | .compiled compiled => Condition.ofPattern re call.method.encoded call.metadata (.compiled compiled)

/-- What a call makes of what is registered: each call of `add` since the last `clean`, with its condition. -/
def register (re : Bytes → Except Exc CompiledRe) (registered : List (AddCall V H × Condition V)) :
    RouterCall V H → List (AddCall V H × Condition V)
  | .add call =>
    match call.condition re with
    | .ok condition => registered ++ [(call, condition)]
    | .error _ => registered
  | .clean => []

/-- What is registered after some calls. -/
def registered (re : Bytes → Except Exc CompiledRe) (calls : List (RouterCall V H)) : List (AddCall V H × Condition V) :=
  calls.foldl (register re) []

/-- The routes of what is registered. -/
def routesOf (registered : List (AddCall V H × Condition V)) : List (Condition V × H) :=
  registered.map fun r => (r.2, r.1.handler)

theorem AddCall.add_eq (re : Bytes → Except Exc CompiledRe) (call : AddCall V H) (router : HttpRouter V H) :
    router.add re call.method.encoded call.pattern call.handler call.metadata =
      (call.condition re).map fun condition => { router with routes := router.routes ++ [(condition, call.handler)] } := by
  rcases hp : call.pattern with pattern | compiled
  · by_cases hb : 123 ∈ pattern <;> simp [HttpRouter.add, AddCall.condition, hp, hb, Except.map]
  · simp [HttpRouter.add, AddCall.condition, hp]

theorem AddCall.condition_method {re : Bytes → Except Exc CompiledRe} {call : AddCall V H} {condition : Condition V}
    (h : call.condition re = .ok condition) : condition.method = call.method.encoded := by
  rcases hp : call.pattern with pattern | compiled
  · by_cases hb : 123 ∈ pattern
    · simp only [AddCall.condition, hp, hb, if_true, Condition.ofPattern] at h
      split at h
      · cases h
        rfl
      · cases h
    · simp only [AddCall.condition, hp, hb, if_false] at h
      cases h
      rfl
  · simp only [AddCall.condition, hp, Condition.ofPattern] at h
    cases h
    rfl

/-- The routes of a router are those registered, under their methods. -/
theorem routes_eq (re : Bytes → Except Exc CompiledRe) (notFoundHandler : H) (calls : List (RouterCall V H)) :
    (calls.foldl (RouterCall.run re) { notFoundHandler }).routes = routesOf (registered re calls) ∧
      ∀ r ∈ registered re calls, r.2.method = r.1.method.encoded := by
  induction calls using List.reverseRecOn with
  | nil => exact ⟨rfl, nofun⟩
  | append_singleton calls call ih =>
    rw [registered, List.foldl_concat, List.foldl_concat]
    cases call with
    | clean => exact ⟨rfl, nofun⟩
    | add call =>
      rw [RouterCall.run, AddCall.add_eq, register, ← registered]
      rcases hcondition : call.condition re with e | condition
      · exact ih
      · simp only [Except.map, ih.1, routesOf, List.map_append]
        refine ⟨rfl, fun r hr => ?_⟩
        rcases List.mem_append.mp hr with hr | hr
        · exact ih.2 r hr
        · rw [List.mem_singleton.mp hr]
          exact AddCall.condition_method hcondition

section Lines

variable {inspect : Inspect H} {code : Bool} {route : Condition V × H} {routes routes' : List (Condition V × H)}
  {lines : List Bytes}

/-- A line has `->` in it. -/
theorem linesOf_ne_nil (h : HttpRouter.linesOf inspect code route = .ok lines) : ∃ l ∈ lines, l ≠ [] := by
  rcases hline : HttpRouter.line inspect route with e | line
  · simp [HttpRouter.linesOf, hline, Except.bind] at h
  have hne : line ≠ [] := by
    rintro rfl
    simp only [HttpRouter.line, Except.bind, Except.map] at hline
    repeat' split at hline
    all_goals simp [ascii] at hline
  rw [HttpRouter.linesOf, hline] at h
  cases code with
  | false =>
    cases h
    exact ⟨line, List.mem_singleton_self line, hne⟩
  | true =>
    rcases hsource : inspect.source route.2 with e | source
    · simp [Except.bind, Except.map, hsource] at h
    · simp only [Except.bind, Except.map, hsource, if_true, Except.ok.injEq] at h
      subst h
      exact ⟨line, List.mem_cons_self, hne⟩

theorem listFrom_cons_eq_ok : HttpRouter.listFrom inspect none code (route :: routes) = .ok lines ↔
    ∃ first rest, HttpRouter.linesOf inspect code route = .ok first ∧
      HttpRouter.listFrom inspect none code routes = .ok rest ∧ lines = first ++ rest := by
  rw [HttpRouter.listFrom, if_neg (by simp)]
  rcases HttpRouter.linesOf inspect code route with e | first
  · simp [Except.bind]
  · rcases HttpRouter.listFrom inspect none code routes with e | rest <;> simp [Except.bind, Except.map, eq_comm]

/-- Fewer routes have fewer lines. -/
theorem listFrom_sublist (hs : routes'.Sublist routes) (h : HttpRouter.listFrom inspect none code routes = .ok lines) :
    ∃ lines', HttpRouter.listFrom inspect none code routes' = .ok lines' ∧ lines'.Sublist lines ∧
      (lines' = lines → routes' = routes) := by
  induction hs generalizing lines with
  | slnil => exact ⟨lines, h, List.Sublist.refl lines, fun _ => rfl⟩
  | cons route _ ih =>
    obtain ⟨first, rest, hfirst, hrest, rfl⟩ := listFrom_cons_eq_ok.mp h
    obtain ⟨lines', hlines', hsub, -⟩ := ih hrest
    refine ⟨lines', hlines', hsub.trans (List.sublist_append_right first rest), fun heq => ?_⟩
    obtain ⟨l, hl, -⟩ := linesOf_ne_nil hfirst
    have hlength := hsub.length_le
    have hpos := List.length_pos_of_mem hl
    rw [heq, List.length_append] at hlength
    omega
  | cons_cons route _ ih =>
    obtain ⟨first, rest, hfirst, hrest, rfl⟩ := listFrom_cons_eq_ok.mp h
    obtain ⟨lines', hlines', hsub, heq⟩ := ih hrest
    refine ⟨first ++ lines', listFrom_cons_eq_ok.mpr ⟨first, lines', hfirst, hlines', rfl⟩,
      (List.Sublist.refl first).append hsub, fun h => ?_⟩
    rw [heq (List.append_cancel_left h)]

theorem listFrom_nonempty (h : HttpRouter.listFrom inspect none code routes = .ok lines) (hne : lines ≠ []) :
    ∃ l ∈ lines, l ≠ [] := by
  cases routes with
  | nil =>
    cases h
    exact absurd rfl hne
  | cons route routes =>
    obtain ⟨first, rest, hfirst, -, rfl⟩ := listFrom_cons_eq_ok.mp h
    obtain ⟨l, hl, hlne⟩ := linesOf_ne_nil hfirst
    exact ⟨l, List.mem_append_left rest hl, hlne⟩

/-- Fewer routes have another text. -/
theorem list_sublist_iff {notFoundHandler : H} {text : Bytes} (hs : routes'.Sublist routes)
    (h : HttpRouter.list inspect none code { notFoundHandler, routes } = .ok text) :
    HttpRouter.list inspect none code { notFoundHandler, routes := routes' } = .ok text ↔ routes' = routes := by
  rcases hlines : HttpRouter.listFrom inspect none code routes with e | lines
  · simp [HttpRouter.list, hlines, Except.map] at h
  obtain ⟨lines', hlines', hsub, heq⟩ := listFrom_sublist hs hlines
  simp only [HttpRouter.list, hlines, hlines', Except.map, Except.ok.injEq] at h ⊢
  rw [← h, join_sublist_inj (by decide) hsub (listFrom_nonempty hlines)]
  refine ⟨heq, fun hroutes => ?_⟩
  rw [hroutes, hlines] at hlines'
  exact Except.ok.inj hlines'.symm

/-- A text with something in it is no method of any route. -/
theorem listFrom_str {m : Bytes} (routes : List (Condition V × H)) :
    HttpRouter.listFrom inspect (some (.str m)) code routes =
      if m = [] then HttpRouter.listFrom inspect none code routes else .ok [] := by
  induction routes with
  | nil => exact (ite_self _).symm
  | cons route routes ih =>
    by_cases hm : m = []
    · rw [if_pos hm] at ih ⊢
      rw [HttpRouter.listFrom, if_neg (by simp [StrOrBytes.encoded, hm]), ih, HttpRouter.listFrom, if_neg (by simp)]
    · rw [if_neg hm] at ih ⊢
      rw [HttpRouter.listFrom, if_pos (by simp [StrOrBytes.encoded, hm]), ih]

end Lines

theorem routesOf_filter_eq {registered : List (AddCall V H × Condition V)} {m : Bytes} :
    routesOf (registered.filter fun r => r.1.method.encoded = m) = routesOf registered ↔
      ∀ r ∈ registered, r.1.method.encoded = m := by
  constructor
  · intro heq
    have hlength := congrArg List.length heq
    rw [routesOf, routesOf, List.length_map, List.length_map] at hlength
    simpa using List.filter_eq_self.mp (List.filter_sublist.eq_of_length hlength)
  · intro h
    rw [List.filter_eq_self.mpr (by simpa using h)]

theorem routesOf_filter_eq_nil {registered : List (AddCall V H × Condition V)} {m : Bytes} :
    [] = routesOf (registered.filter fun r => r.1.method.encoded = m) ↔ ∀ r ∈ registered, r.1.method.encoded ≠ m := by
  rw [eq_comm, routesOf, List.map_eq_nil_iff, List.filter_eq_nil_iff]
  simp

/-- `list(method=m)` of a `str` is what `list()` is of the routes registered for `m` exactly if there are none, or
if `m` is empty and they are all. -/
theorem list_iff (re : Bytes → Except Exc CompiledRe) (inspect : Inspect H) (notFoundHandler : H)
    (calls : List (RouterCall V H)) (m : Bytes) {code : Bool} {text : Bytes}
    (h : (calls.foldl (RouterCall.run re) { notFoundHandler }).list inspect none code = .ok text) :
    (calls.foldl (RouterCall.run re) { notFoundHandler }).list inspect (some (.str m)) code =
        HttpRouter.list inspect none code {
          notFoundHandler, routes := routesOf ((registered re calls).filter fun r => r.1.method.encoded = m) } ↔
      if m = [] then ∀ r ∈ registered re calls, r.1.method.encoded = []
      else ∀ r ∈ registered re calls, r.1.method.encoded ≠ m := by
  have hsub : (routesOf ((registered re calls).filter fun r => r.1.method.encoded = m)).Sublist
      (routesOf (registered re calls)) := List.filter_sublist.map _
  have hroutes := (routes_eq re notFoundHandler calls).1
  have htext : HttpRouter.list inspect none code { notFoundHandler, routes := routesOf (registered re calls) } =
      .ok text := by
    rw [← h, HttpRouter.list, HttpRouter.list, hroutes]
  rw [HttpRouter.list, hroutes, listFrom_str]
  by_cases hm : m = []
  · rw [if_pos hm, if_pos hm, ← HttpRouter.list.eq_1 inspect none code { notFoundHandler, routes := _ }, htext, eq_comm,
      list_sublist_iff hsub htext, routesOf_filter_eq]
    simp only [hm]
  · rw [if_neg hm, if_neg hm]
    rcases hlines : HttpRouter.listFrom inspect none code (routesOf (registered re calls)) with e | lines
    · simp [HttpRouter.list, hlines, Except.map] at htext
    obtain ⟨lines', hlines', -, -⟩ := listFrom_sublist hsub hlines
    have hfiltered : HttpRouter.list inspect none code {
        notFoundHandler, routes := routesOf ((registered re calls).filter fun r => r.1.method.encoded = m) } =
        .ok (join [LF] lines') := by
      rw [HttpRouter.list, hlines']
      rfl
    rw [← routesOf_filter_eq_nil, ← list_sublist_iff (List.nil_sublist _) hfiltered, hfiltered]
    rfl

/-- Handlers called `handler`, each in a line of its own. -/
def oneFile : Inspect Nat where
  name _ := .ok (ascii "handler")
  sourceFile _ := .ok (ascii "views.py")
  firstLine n := .ok n
  source _ := .ok (ascii "async def handler(request):")

/-- `router.get("/users", handler)` -/
def getUsers : RouterCall Bytes Nat :=
  .add { method := .str (ascii "GET"), pattern := .bytes (ascii "/users"), handler := 12, metadata := [] }

/-- `list(method="POST")` -/
theorem getUsers_listed : ∃ text,
    ([getUsers].foldl (RouterCall.run noOtherRe) { notFoundHandler := 0 }).list oneFile none false = .ok text ∧
      (([getUsers].foldl (RouterCall.run noOtherRe) { notFoundHandler := 0 }).list oneFile (some (.str (ascii "POST"))) false =
        HttpRouter.list oneFile none false {
          notFoundHandler := 0
          routes := routesOf ((registered noOtherRe [getUsers]).filter fun r => r.1.method.encoded = ascii "POST") }) :=
  ⟨_, rfl, (list_iff noOtherRe oneFile 0 [getUsers] (ascii "POST") rfl).mpr (by decide)⟩

/-- `list(method="GET")` is empty. -/
theorem getUsers_not_listed : ¬ ∀ (calls : List (RouterCall Bytes Nat)) (m text : Bytes),
    (calls.foldl (RouterCall.run noOtherRe) { notFoundHandler := 0 }).list oneFile none false = .ok text →
      (calls.foldl (RouterCall.run noOtherRe) { notFoundHandler := 0 }).list oneFile (some (.str m)) false =
        HttpRouter.list oneFile none false {
          notFoundHandler := 0, routes := routesOf ((registered noOtherRe calls).filter fun r => r.1.method.encoded = m) } := by
  intro h
  exact absurd (h [getUsers] (ascii "GET") _ rfl) (by decide)

end Levin
