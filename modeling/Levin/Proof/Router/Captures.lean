import Levin.Proof.Components.PatchRequest
import Levin.Proof.Router.Resolution

/-!
# Captured values on their way to the handler

The components in front of the router, and the router, set attributes under keys of
their own, and the first to set a key wins: a captured value reaches the handler if
nothing has its name, or has the same value (`captures_iff`).
-/

namespace Levin

open Framework Bytes

variable {V H R : Type} [RequestValue V]

/-- The keys of attributes that never have a value of the type `bytes`. -/
def takenKeys : List Bytes :=
  [ascii "get_transport_info", ascii "data", ascii "query_params", ascii "json", ascii "encoding", ascii "add_push",
    ascii "logger", ascii "get_url", ascii "get_route"]

/-- A captured word that its name gives in the handler. -/
def Arrives (request : Request) (path pattern name word : Bytes) : Prop :=
  (name = ascii "path" → word = path) ∧
  (name = ascii "content_type" → PatchRequest.contentType request = some word) ∧
  (name = ascii "pattern" → word = pattern) ∧ name ∉ takenKeys

namespace DefaultApp

variable (app : DefaultApp V H R)

/-- The scope when the router begins to resolve. -/
def slots (transportInfo : Other V) : Dict Bytes (Slot V) :=
  [(ascii "get_transport_info", .lazy fun _ => .ret transportInfo.1),
    (ascii "data", .lazy fun _ => .ret PyValue.none),
    (ascii "path", .lazy app.patchRequest.path),
    (ascii "query_params", .lazy app.patchRequest.queryParams),
    (ascii "json", .lazy app.patchRequest.json),
    (ascii "content_type", .lazy fun request =>
      .ret (((PatchRequest.contentType request).map RouteValue.bytes).getD PyValue.none)),
    (ascii "encoding", .lazy fun request => .ret (RouteValue.str (PatchRequest.encoding request))),
    (ascii "add_push", .lazy fun request => .ret (app.createAddPush request).1),
    (ascii "logger", .value app.logger.1),
    (ascii "get_url", .value app.getUrl.1),
    (ascii "get_route", .value app.getRoute.1)]

/-- What the middlewares do with an answer, from the inside to the outside. -/
def finish (answer : Answer V R) : Answer V R :=
  app.finishPush (app.finishLogger (app.finishErrorHandle (app.finishTimeLimit answer)))

theorem slots_nodup (transportInfo : Other V) : ((app.slots transportInfo).map Prod.fst).Nodup :=
  (by decide : [ascii "get_transport_info", ascii "data", ascii "path", ascii "query_params", ascii "json",
    ascii "content_type", ascii "encoding", ascii "add_push", ascii "logger", ascii "get_url", ascii "get_route"].Nodup)

theorem handler_eq (depth : Nat) (callNext : ScopedRequest V → H → Answer V R) (request : Request) (transportInfo : Other V)
    (first : H) : app.handler depth callNext (request.connected transportInfo) first =
      app.finish (HttpRouter.passOn callNext
        (HttpRouter.resolveRequestFrom depth app.router.notFoundHandler app.router.routes
          { request, scope := app.slots transportInfo })) := by
  have hset : (app.slots transportInfo).foldl (fun r kv => ScopedRequest.set kv.1 kv.2 r) { request, scope := [] } =
      { request, scope := app.slots transportInfo } := ScopedRequest.foldl_set_of_nodup (app.slots_nodup transportInfo)
  rw [← hset]
  simp only [slots, List.foldl_cons, List.foldl_nil, finish, handler, createHandler, List.foldr_cons, List.foldr_nil,
    PatchRequest.middleware, PatchRequest.patched, pushMiddleware, loggerMiddleware, errorHandleMiddleware,
    timeLimitMiddleware, HttpRouter.middleware, Request.connected]

theorem get?_slots {transportInfo : Other V} {key : Bytes} {slot : Slot V} (h : (key, slot) ∈ app.slots transportInfo) :
    (app.slots transportInfo).get? key = some slot :=
  Dict.get?_of_mem (app.slots_nodup transportInfo) h

theorem mem_keys {transportInfo : Other V} {key : Bytes} : (app.slots transportInfo).get? key ≠ none ↔
    key = ascii "path" ∨ key = ascii "content_type" ∨ key ∈ takenKeys := by
  have hperm : ((app.slots transportInfo).map Prod.fst).Perm (ascii "path" :: ascii "content_type" :: takenKeys) :=
    (by decide : List.Perm [ascii "get_transport_info", ascii "data", ascii "path", ascii "query_params", ascii "json",
      ascii "content_type", ascii "encoding", ascii "add_push", ascii "logger", ascii "get_url", ascii "get_route"]
      (ascii "path" :: ascii "content_type" :: takenKeys))
  rw [Dict.get?_ne_none, hperm.mem_iff, List.mem_cons, List.mem_cons]

/-- What is under the taken keys does not give a value of the type `bytes`, if `json_loads` does not. -/
theorem gives_other (hjson : ∀ text v, app.patchRequest.jsonLoads text = .ok v → RequestValue.asBytes v = none)
    (request : Request) (transportInfo : Other V) : ∀ kv ∈ app.slots transportInfo, kv.1 ∈ takenKeys →
      kv.2.Gives (fun v => RequestValue.asBytes v = none) request := by
  simp only [slots, List.forall_mem_cons]
  exact ⟨fun _ => transportInfo.2, fun _ => RequestValue.asBytes_none, fun h => absurd h (by decide),
    fun _ => app.patchRequest.returns_queryParams request, fun _ => app.patchRequest.returns_json hjson request,
    fun h => absurd h (by decide), fun _ => RequestValue.asBytes_str _, fun _ => (app.createAddPush request).2,
    fun _ => app.logger.2, fun _ => app.getUrl.2, fun _ => app.getRoute.2, fun kv h => absurd h List.not_mem_nil⟩

end DefaultApp

/-! ## Resolving -/

section Resolving

variable {r r' : ScopedRequest V} {depth : Nat} {p : Bytes}

theorem Condition.callRequest_eq (condition : Condition V) (hpath : r.path depth = (.ok (RouteValue.bytes p), r'))
    (hrequest : r'.request = r.request) :
    condition.callRequest depth r = (condition.call r.request.method (.ok p), if condition.method = r.request.method then r' else r) := by
  unfold callRequest
  by_cases hmethod : condition.method = r.request.method
  · rw [if_neg (not_not.mpr hmethod), hpath, if_pos hmethod]
    simp only [RequestValue.asBytes_bytes, hrequest]
  · have hnone : condition.call r.request.method (.ok p) = .ok none := by
      unfold call
      exact if_pos hmethod
    rw [if_pos hmethod, if_neg hmethod, hnone]

/-- The first condition that is met decides, and the path has been asked for. -/
theorem resolveRequestFrom_first (notFoundHandler : H) (hpath' : r'.path depth = (.ok (RouteValue.bytes p), r'))
    {condition : Condition V} (hmethod : condition.method = r'.request.method) {found : Dict Bytes V}
    (hcall : condition.call r'.request.method (.ok p) = .ok (some found)) (handler : H) (after : List (Condition V × H))
    {before : List (Condition V × H)} (hbefore : ∀ x ∈ before, x.1.call r'.request.method (.ok p) = .ok none)
    (hpath : r.path depth = (.ok (RouteValue.bytes p), r')) (hrequest : r'.request = r.request) :
    HttpRouter.resolveRequestFrom depth notFoundHandler (before ++ (condition, handler) :: after) r =
      (.ok (handler, found), r') := by
  induction before generalizing r with
  | nil =>
    rw [List.nil_append, HttpRouter.resolveRequestFrom, Condition.callRequest_eq condition hpath hrequest, ← hrequest, hcall,
      if_pos hmethod]
  | cons x before ih =>
    have hrest : ∀ y ∈ before, y.1.call r'.request.method (.ok p) = .ok none :=
      fun y hy => hbefore y (List.mem_cons_of_mem _ hy)
    rw [List.cons_append, HttpRouter.resolveRequestFrom, Condition.callRequest_eq x.1 hpath hrequest, ← hrequest,
      hbefore x List.mem_cons_self]
    by_cases hx : x.1.method = r'.request.method
    · rw [if_pos hx]
      exact ih hrest hpath' rfl
    · rw [if_neg hx]
      exact ih hrest hpath hrequest

end Resolving

/-! ## What the handler sees -/

namespace DefaultApp

variable (app : DefaultApp V H R)

/-- The request when its path has been asked for. -/
def located (request : Request) (transportInfo : Other V) (p : Bytes) : ScopedRequest V :=
  { request, scope := (app.slots transportInfo).set (ascii "path") (.value (RouteValue.bytes p)) }

/-- The request as the handler gets it. -/
def seen (request : Request) (transportInfo : Other V) (p : Bytes) (found : Dict Bytes V) : ScopedRequest V :=
  HttpRouter.setFound found (app.located request transportInfo p)

variable {app} {request : Request} {transportInfo : Other V} {p : Bytes}

omit [RequestValue V] in
theorem setFound_eq (found : Dict Bytes V) (r : ScopedRequest V) : HttpRouter.setFound found r =
    (found.map fun kv => (kv.1, Slot.value kv.2)).foldl (fun r kv => r.set kv.1 kv.2) r := by
  rw [List.foldl_map]
  rfl

theorem get?_seen (found : Dict Bytes V) (item : Bytes) : (app.seen request transportInfo p found).scope.get? item =
    ((app.located request transportInfo p).scope.get? item).or ((found.get? item).map .value) := by
  rw [seen, setFound_eq, ScopedRequest.get?_foldl_set, Dict.get?_map]

theorem seen_request (found : Dict Bytes V) : (app.seen request transportInfo p found).request = request := by
  rw [seen, setFound_eq, ScopedRequest.foldl_set_request]
  rfl

theorem get?_located_path : (app.located request transportInfo p).scope.get? (ascii "path") = some (.value (RouteValue.bytes p)) :=
  Dict.get?_set_self ..

theorem get?_located_of_ne {item : Bytes} (h : item ≠ ascii "path") :
    (app.located request transportInfo p).scope.get? item = (app.slots transportInfo).get? item :=
  Dict.get?_set_of_ne _ _ h

theorem get?_slots_eq_none {item : Bytes} (hpath : item ≠ ascii "path") (htype : item ≠ ascii "content_type")
    (htaken : item ∉ takenKeys) : (app.slots transportInfo).get? item = none := by
  by_contra hsome
  rcases app.mem_keys.mp hsome with h | h | h
  · exact hpath h
  · exact htype h
  · exact htaken h

theorem get?_slots_contentType : (app.slots transportInfo).get? (ascii "content_type") = some (.lazy fun request =>
    .ret (((PatchRequest.contentType request).map RouteValue.bytes).getD PyValue.none)) :=
  app.get?_slots (by simp [slots])

/-- The router hands the request on to the handler of the first route whose condition is met. -/
theorem handler_first (depth : Nat) (callNext : ScopedRequest V → H → Answer V R) (first : H)
    (hpath : app.patchRequest.pathOf request = .ok p) {before after : List (Condition V × H)} {condition : Condition V}
    {handler : H} (hroutes : app.router.routes = before ++ (condition, handler) :: after)
    (hmethod : condition.method = request.method)
    (hbefore : ∀ x ∈ before, x.1.call request.method (.ok p) = .ok none) {found : Dict Bytes V}
    (hcall : condition.call request.method (.ok p) = .ok (some found)) :
    app.handler (depth + 1) callNext (request.connected transportInfo) first =
      app.finish (callNext (app.seen request transportInfo p found) handler) := by
  have hslot : (app.slots transportInfo).get? (ascii "path") = some (.lazy app.patchRequest.path) :=
    app.get?_slots (by simp [slots])
  have hparams : (app.slots transportInfo).get? (ascii "query_params") = some (.lazy app.patchRequest.queryParams) :=
    app.get?_slots (by simp [slots])
  have hask := app.patchRequest.path_ok (r := { request, scope := app.slots transportInfo }) hslot (by simp [hparams]) hpath depth
  have hagain : (app.located request transportInfo p).path (depth + 1) =
      (.ok (RouteValue.bytes p), app.located request transportInfo p) := by
    rw [ScopedRequest.path, ScopedRequest.get_of_value get?_located_path]
  rw [handler_eq, hroutes]
  rw [resolveRequestFrom_first app.router.notFoundHandler hagain hmethod hcall handler after hbefore hask rfl]
  rfl

/-- So it does if the condition is a pattern that the path matches. -/
theorem handler_matched (depth : Nat) (callNext : ScopedRequest V → H → Answer V R) (first : H)
    (hpath : app.patchRequest.pathOf request = .ok p) {before after : List (Condition V × H)} {pattern : Bytes}
    {compiled : CompiledRe} {metadata : Dict Bytes V} {handler : H}
    (hroutes : app.router.routes = before ++ (.regexp request.method pattern compiled metadata, handler) :: after)
    (hbefore : ∀ x ∈ before, x.1.call request.method (.ok p) = .ok none)
    {captured : Dict Bytes (Option Bytes)} (hmatch : compiled.fullmatch p = some captured) :
    app.handler (depth + 1) callNext (request.connected transportInfo) first =
      app.finish (callNext (app.seen request transportInfo p (Condition.result captured pattern metadata)) handler) := by
  have hcall : (Condition.regexp request.method pattern compiled metadata).call request.method (.ok p) =
      .ok (some (Condition.result captured pattern metadata)) := by
    simp [Condition.call, Condition.method, hmatch]
  exact app.handler_first depth callNext first hpath hroutes rfl hbefore hcall

section Captured

variable {captured : Dict Bytes (Option Bytes)} {pattern name word : Bytes} {metadata : Dict Bytes V}

/-- What the router sets for a captured word. -/
theorem get?_found (hmeta : name ∉ metadata.map Prod.fst) (hcaptured : captured.get? name = some (some word)) :
    (Condition.result captured pattern metadata).get? name =
      some (RouteValue.bytes (if name = ascii "pattern" then pattern else word)) := by
  rw [get?_result_of_not_mem _ _ hmeta, hcaptured]
  split <;> rfl

/-- A word that arrives is the value of a settled attribute. -/
theorem settled_of_arrives (hmeta : name ∉ metadata.map Prod.fst) (hcaptured : captured.get? name = some (some word))
    (h : Arrives request p pattern name word) :
    ScopedRequest.Settled request name (RouteValue.bytes word)
      (app.seen request transportInfo p (Condition.result captured pattern metadata)) := by
  obtain ⟨hpath, htype, hpattern, htaken⟩ := h
  refine ⟨seen_request _, ?_⟩
  rw [get?_seen]
  by_cases hp : name = ascii "path"
  · rw [hp, get?_located_path, hpath hp]
    exact .inl rfl
  · rw [get?_located_of_ne hp]
    by_cases ht : name = ascii "content_type"
    · rw [ht, get?_slots_contentType, Option.some_or]
      refine .inr ⟨_, rfl, ?_⟩
      rw [htype ht]
      rfl
    · rw [get?_slots_eq_none hp ht htaken, get?_found hmeta hcaptured, Option.none_or]
      by_cases hn : name = ascii "pattern"
      · rw [if_pos hn, hpattern hn]
        exact .inl rfl
      · rw [if_neg hn]
        exact .inl rfl

/-- A word that its name gives arrives. -/
theorem arrives_of_get (hjson : ∀ text v, app.patchRequest.jsonLoads text = .ok v → RequestValue.asBytes v = none)
    (hmeta : name ∉ metadata.map Prod.fst) (hcaptured : captured.get? name = some (some word)) {depth : Nat}
    (h : ((app.seen request transportInfo p (Condition.result captured pattern metadata)).get (depth + 1) name).1 =
      .ok (some (RouteValue.bytes word))) : Arrives request p pattern name word := by
  have hseen : (app.seen request transportInfo p (Condition.result captured pattern metadata)).scope.get? name = _ :=
    get?_seen _ name
  refine ⟨?_, ?_, ?_, ?_⟩
  · rintro rfl
    rw [get?_located_path, Option.some_or] at hseen
    rw [ScopedRequest.get_of_value hseen] at h
    exact (RouteValue.bytes_inj (Option.some.inj (Except.ok.inj h))).symm
  · rintro rfl
    rw [get?_located_of_ne (by decide), get?_slots_contentType, Option.some_or] at hseen
    rw [ScopedRequest.get_of_settled ⟨seen_request _, .inr ⟨_, hseen, rfl⟩⟩] at h
    have heq := Option.some.inj (Except.ok.inj h)
    cases htype : PatchRequest.contentType request with
    | none =>
      rw [htype] at heq
      have hbytes := congrArg RequestValue.asBytes heq
      rw [RequestValue.asBytes_bytes] at hbytes
      exact absurd (RequestValue.asBytes_none.symm.trans hbytes) (by simp)
    | some contentType =>
      rw [htype] at heq
      exact congrArg some (RouteValue.bytes_inj heq)
  · rintro rfl
    rw [get?_located_of_ne (by decide), get?_slots_eq_none (by decide) (by decide) (by decide), Option.none_or,
      get?_found hmeta hcaptured, if_pos rfl] at hseen
    rw [ScopedRequest.get_of_value hseen] at h
    exact (RouteValue.bytes_inj (Option.some.inj (Except.ok.inj h))).symm
  · intro htaken
    have hpath : name ≠ ascii "path" := by
      rintro rfl
      exact absurd htaken (by decide)
    obtain ⟨slot, hslot⟩ := Option.ne_none_iff_exists'.mp (app.mem_keys.mpr (.inr (.inr htaken)) :
      (app.slots transportInfo).get? name ≠ none)
    rw [get?_located_of_ne hpath, hslot, Option.some_or] at hseen
    have hgives := app.gives_other hjson request transportInfo (name, slot) (Dict.mem_of_get? hslot) htaken
    have hbytes := ScopedRequest.get_gives hseen (by rwa [seen_request]) h
    exact absurd (hbytes.symm.trans (RequestValue.asBytes_bytes word)) (by simp)

end Captured

end DefaultApp

/-- A request that meets the condition of a route, and of none before it, gets to the route's handler. What was captured
is there under its name, whatever the handler asks for before, if and only if each captured word arrives. -/
theorem captures_iff (app : DefaultApp V H R)
    (hjson : ∀ text v, app.patchRequest.jsonLoads text = .ok v → RequestValue.asBytes v = none) (depth : Nat)
    {request : Request} {p : Bytes} (hpath : app.patchRequest.pathOf request = .ok p)
    {before after : List (Condition V × H)} {pattern : Bytes} {compiled : CompiledRe} {metadata : Dict Bytes V} {handler : H}
    (hroutes : app.router.routes = before ++ (.regexp request.method pattern compiled metadata, handler) :: after)
    (hbefore : ∀ x ∈ before, x.1.call request.method (.ok p) = .ok none)
    {captured : Dict Bytes (Option Bytes)} (hmatch : compiled.fullmatch p = some captured)
    (hmeta : ∀ name ∈ metadata.map Prod.fst, captured.get? name = none) (transportInfo : Other V) :
    ∃ seen : ScopedRequest V,
      (∀ callNext first, app.handler (depth + 1) callNext (request.connected transportInfo) first =
        app.finish (callNext seen handler)) ∧
      ((∀ name word, captured.get? name = some (some word) → ∀ items,
          ((seen.gets (depth + 1) items).get (depth + 1) name).1 = .ok (some (RouteValue.bytes word))) ↔
        ∀ name word, captured.get? name = some (some word) → Arrives request p pattern name word) := by
  have hfree : ∀ {name word}, captured.get? name = some (some word) → name ∉ metadata.map Prod.fst := by
    intro name word hcaptured hmem
    rw [hmeta name hmem] at hcaptured
    cases hcaptured
  refine ⟨app.seen request transportInfo p (Condition.result captured pattern metadata), fun callNext first => ?_,
    fun h name word hcaptured => ?_, fun h name word hcaptured items => ?_⟩
  · exact app.handler_matched depth callNext first hpath hroutes hbefore hmatch
  · exact DefaultApp.arrives_of_get hjson (hfree hcaptured) hcaptured (h name word hcaptured [])
  · exact ScopedRequest.get_gets_of_settled
      (DefaultApp.settled_of_arrives (hfree hcaptured) hcaptured (h name word hcaptured)) _ _ items

/-- An application with one route for GET requests. -/
def oneRouteApp (pattern : Bytes) : DefaultApp AttrValue Nat Nat where
  patchRequest := plainPatch
  createAddPush := fun _ => ⟨.object 2, rfl⟩
  logger := ⟨.object 3, rfl⟩
  router := { notFoundHandler := 0, routes := [(.regexp (ascii "GET") pattern (patternRe pattern) [], 1)] }
  getUrl := ⟨.object 4, rfl⟩
  getRoute := ⟨.object 5, rfl⟩
  finishPush := id
  finishLogger := id
  finishErrorHandle := id
  finishTimeLimit := id

/-- `/files/{data}`: the handler gets `None` for the word that was captured. -/
theorem data_not_arriving :
    HttpRouter.add noOtherRe (ascii "GET") (.bytes (ascii "/files/{data}")) 1 [] { notFoundHandler := 0 } =
      .ok (oneRouteApp (ascii "/files/{data}")).router ∧
    (patternRe (ascii "/files/{data}")).fullmatch (ascii "/files/levin") = some [(ascii "data", some (ascii "levin"))] ∧
    ∃ seen : ScopedRequest AttrValue,
      (∀ callNext first, (oneRouteApp (ascii "/files/{data}")).handler 1 callNext
          ((getRequest (ascii "/files/levin")).connected ⟨.object 6, rfl⟩) first =
        (oneRouteApp (ascii "/files/{data}")).finish (callNext seen 1)) ∧
      (seen.get 1 (ascii "data")).1 = .ok (some .none) := by
  have hadd : (⟨ascii "GET", ascii "/files/{data}", 1, []⟩ : Route AttrValue Nat).Addable :=
    Route.addable_of_readable (by decide) (by decide)
  have hmatch : (patternRe (ascii "/files/{data}")).fullmatch (ascii "/files/levin") =
      some [(ascii "data", some (ascii "levin"))] := by decide
  have hroutes : (oneRouteApp (ascii "/files/{data}")).router.routes = [] ++
      (.regexp (ascii "GET") (ascii "/files/{data}") (patternRe (ascii "/files/{data}")) [], 1) :: [] := rfl
  refine ⟨?_, hmatch, _, fun callNext first => DefaultApp.handler_matched 0 callNext first rfl hroutes
    (fun x hx => absurd hx List.not_mem_nil) hmatch, ?_⟩
  · rw [hadd.add_eq, Route.condition, if_pos (by decide)]
    rfl
  · refine ScopedRequest.get_of_settled (v := AttrValue.none)
      ⟨DefaultApp.seen_request _, .inr ⟨fun _ => .ret .none, ?_, rfl⟩⟩ 0
    rw [DefaultApp.get?_seen, DefaultApp.get?_located_of_ne (by decide),
      (oneRouteApp (ascii "/files/{data}")).get?_slots (List.mem_cons_of_mem _ List.mem_cons_self), Option.some_or]
    rfl

theorem user_arriving : ∃ seen : ScopedRequest AttrValue,
    (∀ callNext first, (oneRouteApp (ascii "/users/{user}")).handler 1 callNext
        ((getRequest (ascii "/users/levin")).connected ⟨.object 6, rfl⟩) first =
      (oneRouteApp (ascii "/users/{user}")).finish (callNext seen 1)) ∧
    ∀ items, ((seen.gets 1 items).get 1 (ascii "user")).1 = .ok (some (.bytes (ascii "levin"))) := by
  have hroutes : (oneRouteApp (ascii "/users/{user}")).router.routes = [] ++
      (.regexp (ascii "GET") (ascii "/users/{user}") (patternRe (ascii "/users/{user}")) [], 1) :: [] := rfl
  have hpath : (oneRouteApp (ascii "/users/{user}")).patchRequest.pathOf (getRequest (ascii "/users/levin")) =
      .ok (ascii "/users/levin") := rfl
  have hmatch : (patternRe (ascii "/users/{user}")).fullmatch (ascii "/users/levin") =
      some [(ascii "user", some (ascii "levin"))] := by decide
  obtain ⟨seen, hhandler, hiff⟩ := captures_iff (oneRouteApp (ascii "/users/{user}")) (fun _ _ h => by cases h) 0 hpath
    hroutes (fun x hx => absurd hx List.not_mem_nil) hmatch (fun name hname => absurd hname List.not_mem_nil)
    ⟨.object 6, rfl⟩
  refine ⟨seen, hhandler, hiff.mpr (fun name word hget => ?_) (ascii "user") (ascii "levin") rfl⟩
  obtain rfl : name = ascii "user" := congrArg Prod.fst (List.mem_singleton.mp (Dict.mem_of_get? hget))
  exact ⟨fun h => absurd h (by decide), fun h => absurd h (by decide), fun h => absurd h (by decide), by decide⟩

end Levin
