import Levin.Components.Wrappers
import Mathlib.Data.List.Nodup

/-!
# The arguments a handler is called with

A handler asks for the request by a parameter of that name, and for values of its
scope by annotations. `InjectFromScope` passes the values by keyword and
`AddRequest` the request by position, where they see the handler's own signature;
but what `SyncToAsync` has wrapped is called with the request alone. So each
parameter gets what it asks for exactly if the way the handler is called
fits its parameters (`arguments_delivered_iff`).
-/

namespace Levin

open Framework

variable {V : Type}

/-! ## The scope -/

/-- What `request.get(item)` returns. -/
def World.value (w : World V) (item : String) : Option V := (w.get? item).1

/-- Asking for a value changes none. -/
theorem World.value_get? (w : World V) (a b : String) : (w.get? a).2.value b = w.value b := by
  show ((w.scope.get? a).2.get? b).1 = (w.scope.get? b).1
  cases ha : Dict.get? w.scope a with
  | none => simp only [Scope.get?, ha]
  | some attr =>
    cases attr with
    | value v => simp only [Scope.get?, ha]
    | lazy f =>
      have hset : (w.scope.get? a).2 = Dict.set a (.value (f ())) w.scope := by simp only [Scope.get?, ha]
      rw [hset]
      by_cases hab : b = a
      · subst hab
        simp only [Scope.get?, Dict.get?_set_self, ha]
      · simp only [Scope.get?, Dict.get?_set_of_ne _ _ hab]
        split <;> rfl

/-- Two states of a request on its way: the same request, with the same values. -/
structure World.Same (w w' : World V) : Prop where
  request : w'.request = w.request
  object : w'.object = w.object
  value (item : String) : w'.value item = w.value item

namespace World.Same

variable {w w' w'' : World V}

theorem refl (w : World V) : Same w w := ⟨rfl, rfl, fun _ => rfl⟩

theorem trans (h : Same w w') (h' : Same w' w'') : Same w w'' :=
  ⟨h'.request.trans h.request, h'.object.trans h.object, fun item => (h'.value item).trans (h.value item)⟩

theorem get? (w : World V) (item : String) : Same w (w.get? item).2 := ⟨rfl, rfl, w.value_get? item⟩

end World.Same

namespace Components

variable [PyValue V]

/-! ## Keyword arguments from the scope -/

/-- What a parameter asks for. -/
def want (w : World V) (p : Param V String) : V :=
  match p.annotation with
  | none => w.object
  | some name => (w.value name).getD PyValue.none

theorem want_same {w w' : World V} (h : w.Same w') : want w' = want w := by
  funext p
  simp only [want, h.object, h.value]

/-- The values that the annotated parameters ask for, by keyword. -/
def asked (w : World V) (params : Signature V String) : Dict String V :=
  (params.filter fun p => p.annotation.isSome).map fun p => (p.name, want w p)

theorem injections_eq (params : Signature V String) (kwargs : Dict String V) (w : World V) :
    (injections params kwargs w).1 = (asked w params).foldl (fun d kv => d.set kv.1 kv.2) kwargs ∧
      w.Same (injections params kwargs w).2 := by
  induction params generalizing kwargs w with
  | nil => exact ⟨rfl, .refl w⟩
  | cons p params ih =>
    cases ha : p.annotation with
    | none =>
      have hasked : asked w (p :: params) = asked w params := by simp [asked, ha]
      rw [hasked]
      simp only [injections, ha]
      exact ih kwargs w
    | some name =>
      obtain ⟨hget, hsame⟩ := ih (kwargs.set p.name ((w.get? name).1.getD PyValue.none)) (w.get? name).2
      have hasked : asked w (p :: params) = (p.name, (w.value name).getD PyValue.none) :: asked w params := by
        simp [asked, want, ha]
      have hlater : asked (w.get? name).2 params = asked w params := by
        simp only [asked, want_same (World.Same.get? w name)]
      simp only [injections, ha]
      refine ⟨?_, (World.Same.get? w name).trans hsame⟩
      rw [hget, hlater, hasked]
      rfl

theorem asked_nodup {params : Signature V String} (h : (params.map Param.name).Nodup) (w : World V) :
    ((asked w params).map Prod.fst).Nodup := by
  have hnames : (asked w params).map Prod.fst = (params.filter fun p => p.annotation.isSome).map Param.name := by
    simp [asked, Function.comp_def]
  rw [hnames]
  exact (List.filter_sublist.map _).nodup h

/-- `InjectFromScope` passes just these. -/
theorem injections_nil {params : Signature V String} (h : (params.map Param.name).Nodup) (w : World V) :
    (injections params [] w).1 = asked w params := by
  rw [(injections_eq params [] w).1]
  exact Dict.ofItems_of_nodup (asked_nodup h w)

theorem mem_asked {params : Signature V String} {w : World V} {kv : String × V} :
    kv ∈ asked w params ↔ ∃ p ∈ params, p.annotation ≠ none ∧ (p.name, want w p) = kv := by
  simp only [asked, List.mem_map, List.mem_filter, Option.isSome_iff_ne_none, and_assoc]

theorem get?_asked {params : Signature V String} (h : (params.map Param.name).Nodup) (w : World V)
    {p : Param V String} (hp : p ∈ params) :
    Dict.get? (asked w params) p.name = if p.annotation = none then none else some (want w p) := by
  split
  · rename_i ha
    refine Dict.get?_eq_none.mpr fun hmem => ?_
    obtain ⟨kv, hkv, hname⟩ := List.mem_map.mp hmem
    obtain ⟨q, hq, hqa, rfl⟩ := mem_asked.mp hkv
    exact hqa (List.inj_on_of_nodup_map h hq hp hname ▸ ha)
  · rename_i ha
    exact Dict.get?_of_mem (asked_nodup h w) (mem_asked.mpr ⟨p, hp, ha, rfl⟩)

/-! ## Three ways to call a handler -/

/-- `SyncToAsync` wraps the handler. -/
def InExecutor (w : World V) (handler : Callable V) : Prop :=
  handler.isCoroutineFunction = false ∧ (w.value "process").any PyValue.truthy = false

instance (w : World V) (handler : Callable V) : Decidable (InExecutor w handler) :=
  inferInstanceAs (Decidable (_ ∧ _))

theorem syncToAsyncCondition_eq (w : World V) (handler : Callable V) :
    (syncToAsyncCondition w handler).1 = decide (InExecutor w handler) ∧ w.Same (syncToAsyncCondition w handler).2 := by
  unfold syncToAsyncCondition
  split
  · rename_i h
    exact ⟨by simp [InExecutor, h], .refl w⟩
  · rename_i h
    refine ⟨?_, World.Same.get? w _⟩
    have hprocess : (w.get? "process").1 = w.value "process" := rfl
    simp [InExecutor, h, hprocess]

/-- A handler that takes no named arguments is called without any. -/
theorem inject_nothing {params : Signature V String} (handler : Callable V) (w : World V)
    (next : World V → Callable V → Called V × World V) (hs : handler.signature = .ok params)
    (hp : ∀ p ∈ params, p.annotation = none) : ∃ w', w.Same w' ∧
      injectFromScope w handler next = next w' handler := by
  have hnone : (injections params [] w).1 = [] := by
    have hfilter : params.filter (fun p => p.annotation.isSome) = [] := by
      simpa [List.filter_eq_nil_iff] using hp
    rw [(injections_eq params [] w).1, asked, hfilter]
    rfl
  refine ⟨_, (injections_eq params [] w).2, ?_⟩
  simp only [injectFromScope, hs, hnone]
  rfl

/-- What runs in the executor is called with the request alone. -/
theorem deliver_inExecutor {w : World V} (handler : Callable V) (h : InExecutor w handler) :
    (deliver w handler).1 = handler.call [w.object] [] := by
  obtain ⟨happlies, hsame⟩ := syncToAsyncCondition_eq w handler
  rw [decide_eq_true h] at happlies
  show (syncToAsync w handler fun w handler => injectFromScope w handler fun w handler => addRequest w handler callNext).1 = _
  simp only [syncToAsync, executor, happlies, if_true]
  obtain ⟨w', hsame', hinject⟩ := inject_nothing (executorCall handler) (syncToAsyncCondition w handler).2
    (fun w handler => addRequest w handler callNext) rfl (by simp)
  rw [hinject]
  show (handler.call [w'.object] []) = _
  rw [hsame'.object, hsame.object]

/-- What `AddRequest` passes by position. -/
def requestFirst (w : World V) (params : Signature V String) : List V :=
  if "request" ∈ params.map Param.name then [w.object] else []

omit [PyValue V] in
theorem addRequest_of_signature {params : Signature V String} (handler : Callable V) {w : World V}
    (hs : handler.signature = .ok params) :
    (addRequest w handler callNext).1 = (handler.call (requestFirst w params) []).await handler.isCoroutineFunction := by
  simp only [addRequest, hs, requestFirst]
  split <;> rfl

omit [PyValue V] in
theorem functoolsPartial_signature {handler : Callable V} {params params' : Signature V String} {kwargs : Dict String V}
    (hsig : handler.signature = .ok params) (h : params.ofPartial [] kwargs = some params') :
    (functoolsPartial handler [] kwargs).signature = .ok params' := by
  simp only [functoolsPartial, hsig, h]

omit [PyValue V] in
theorem functoolsPartial_refused {handler : Callable V} {params : Signature V String} {kwargs : Dict String V}
    (hsig : handler.signature = .ok params) (h : params.ofPartial [] kwargs = none) :
    (functoolsPartial handler [] kwargs).signature = .error .ValueError := by
  simp only [functoolsPartial, hsig, h]

/-- What sees a function's own signature passes it the values it asks for by keyword, and the request
by position; a value for a positional-only parameter makes a partial without a signature. -/
theorem inject_function (w : World V) (f : HandlerFunction V) :
    (injectFromScope w f.callable fun w handler => addRequest w handler callNext).1 =
      if f.params.accepts [] (asked w f.params) then
        (f.callable.call (requestFirst w f.params) (asked w f.params)).await f.isAsync
      else .raise .ValueError := by
  have hkwargs := injections_nil f.names_nodup w
  have hobject := (injections_eq f.params [] w).2.object
  have hinject : injectFromScope w f.callable (fun w handler => addRequest w handler callNext) =
      addRequest (injections f.params [] w).2
        (if (asked w f.params).isEmpty then f.callable else functoolsPartial f.callable [] (asked w f.params)) callNext := by
    rw [← hkwargs]
    rfl
  have hfirst : requestFirst (injections f.params [] w).2 f.params = requestFirst w f.params := by
    simp only [requestFirst, hobject]
  rw [hinject]
  by_cases hempty : asked w f.params = []
  · rw [hempty]
    have haccepts : f.params.accepts [] ([] : Dict String V) = true := by simp [Signature.accepts]
    simp only [List.isEmpty_nil, if_true, haccepts]
    rw [addRequest_of_signature f.callable rfl, hfirst]
    rfl
  · rw [if_neg (by simpa using hempty)]
    have hsig : f.callable.signature = .ok f.params := rfl
    split
    · rename_i haccepts
      have hparams : ∃ params, f.params.ofPartial [] (asked w f.params) = some params := by
        simp only [Signature.ofPartial, haccepts, if_true]
        exact ⟨_, rfl⟩
      obtain ⟨params, hparams⟩ := hparams
      have hnames := Signature.ofPartial_names f.single hparams "request"
      rw [addRequest_of_signature _ (functoolsPartial_signature hsig hparams)]
      have hsame : requestFirst (injections f.params [] w).2 params = requestFirst w f.params := by
        simp only [requestFirst, hnames, hobject]
      rw [hsame]
      show (f.callable.call ([] ++ requestFirst w f.params) (asked w f.params)).await f.isAsync = _
      rw [List.nil_append]
    · rename_i haccepts
      have hparams : f.params.ofPartial [] (asked w f.params) = none := by
        simp only [Signature.ofPartial, if_neg haccepts]
      simp only [addRequest, functoolsPartial_refused hsig hparams]

/-- Any other handler reaches `InjectFromScope` as it is. -/
theorem deliver_plain {w : World V} (handler : Callable V) (h : ¬ InExecutor w handler) : ∃ w', w.Same w' ∧
    deliver w handler = injectFromScope w' handler fun w handler => addRequest w handler callNext := by
  obtain ⟨happlies, hsame⟩ := syncToAsyncCondition_eq w handler
  rw [decide_eq_false h] at happlies
  refine ⟨_, hsame, ?_⟩
  show (syncToAsync w handler fun w handler => injectFromScope w handler fun w handler => addRequest w handler callNext) = _
  simp only [syncToAsync, executor, happlies]
  rfl

/-! ## What fits -/

/-- The parameters that ask for values can be passed by keyword, and the request comes first: it goes to the
first parameter that takes a positional argument. -/
def Fits (f : HandlerFunction V) : Prop :=
  (∀ p ∈ f.params, p.annotation ≠ none → p.takesKeyword = true) ∧
    ∀ p ∈ f.params, p.name = "request" → p.annotation = none ∧ f.params.positionals.head? = some p

variable {w : World V} {f : HandlerFunction V}

omit [PyValue V] in
theorem eq_of_name {p q : Param V String} (hp : p ∈ f.params) (hq : q ∈ f.params) (h : p.name = q.name) : p = q :=
  List.inj_on_of_nodup_map f.names_nodup hp hq h

theorem accepts_asked : f.params.accepts [] (asked w f.params) = true ↔
    ∀ p ∈ f.params, p.annotation ≠ none → p.takesKeyword = true := by
  rw [Signature.accepts_iff f.single]
  constructor
  · rintro ⟨-, h⟩ p hp ha
    obtain ⟨⟨q, hq, hname, htakes⟩, -⟩ := h _ (mem_asked.mpr ⟨p, hp, ha, rfl⟩)
    rwa [eq_of_name hq hp hname] at htakes
  · intro h
    refine ⟨Nat.zero_le _, fun kv hkv => ?_⟩
    obtain ⟨p, hp, ha, rfl⟩ := mem_asked.mp hkv
    exact ⟨⟨p, hp, rfl, h p hp ha⟩, fun q hq => nomatch hq⟩

/-- The value of a parameter that asks for one by keyword. -/
theorem get?_asked_or (hdeclared : ∀ p ∈ f.params, p.annotation = none → p.name = "request") {p : Param V String}
    (hp : p ∈ f.params) (hname : p.name ≠ "request") (d : Option V) :
    (Dict.get? (asked w f.params) p.name).or d = some (want w p) := by
  have ha : p.annotation ≠ none := fun ha => hname (hdeclared p hp ha)
  rw [get?_asked f.names_nodup w hp, if_neg ha, Option.some_or]

/-- A handler that fits is called with what its parameters ask for. -/
theorem bind_of_fits (hf : Fits f) (hdeclared : ∀ p ∈ f.params, p.annotation = none → p.name = "request") :
    f.params.bind (requestFirst w f.params) (asked w f.params) = some (f.params.map (want w)) := by
  rw [Signature.bind_eq_some_iff]
  unfold requestFirst
  split
  · rename_i hrequest
    obtain ⟨r, hr, hname⟩ := List.mem_map.mp hrequest
    obtain ⟨hra, hhead⟩ := hf.2 r hr hname
    refine ⟨(Signature.accepts_first f.single).mpr ⟨r, hr, hhead, fun kv hkv => ?_⟩, fun q hq => ?_⟩
    · obtain ⟨p, hp, ha, rfl⟩ := mem_asked.mp hkv
      -- The one parameter that is bound by position asks for no value.
      exact ⟨⟨p, hp, rfl, hf.1 p hp ha⟩, fun heq => ha (eq_of_name hp hr heq.symm ▸ hra)⟩
    · rw [Signature.argument?_first hhead]
      split
      · rename_i heq
        obtain rfl := eq_of_name hq hr heq
        simp only [want, hra]
      · rename_i hne
        exact get?_asked_or hdeclared hq (hname ▸ hne) _
  · rename_i hrequest
    refine ⟨accepts_asked.mpr hf.1, fun q hq => ?_⟩
    rw [Signature.argument?_keywords]
    exact get?_asked_or hdeclared hq (fun hname => hrequest (List.mem_map.mpr ⟨q, hq, hname⟩)) _

/-- One that does not is not called at all. -/
theorem bind_of_not_fits (hf : ¬ Fits f) (hdeclared : ∀ p ∈ f.params, p.annotation = none → p.name = "request")
    (haccepts : f.params.accepts [] (asked w f.params) = true) :
    f.params.bind (requestFirst w f.params) (asked w f.params) = none := by
  have hnot : f.params.accepts (requestFirst w f.params) (asked w f.params) ≠ true := by
    intro hok
    apply hf
    refine ⟨accepts_asked.mp haccepts, fun r hr hname => ?_⟩
    have hrequest : requestFirst w f.params = [w.object] := if_pos (List.mem_map.mpr ⟨r, hr, hname⟩)
    rw [hrequest, Signature.accepts_first f.single] at hok
    obtain ⟨p, hp, hhead, hkeys⟩ := hok
    -- The request goes to the first parameter there is, which must not ask for a value too.
    have hpa : p.annotation = none := by
      refine Classical.not_not.mp fun ha => ?_
      exact (hkeys _ (mem_asked.mpr ⟨p, hp, ha, rfl⟩)).2 rfl
    obtain rfl := eq_of_name hp hr ((hdeclared p hp hpa).trans hname.symm)
    exact ⟨hpa, hhead⟩
  exact if_neg hnot

/-- The first parameter that takes a positional argument asks for the request, and the others have what
they ask for as their defaults. -/
def RequestAlone (w : World V) (f : HandlerFunction V) : Prop :=
  ∃ p, f.params.positionals.head? = some p ∧ want w p = w.object ∧
    ∀ q ∈ f.params, q ≠ p → q.default = some (want w q)

theorem bind_request_iff : f.params.bind [w.object] [] = some (f.params.map (want w)) ↔ RequestAlone w f := by
  rw [Signature.bind_eq_some_iff, Signature.accepts_first f.single]
  constructor
  · rintro ⟨⟨p, hp, hhead, -⟩, harguments⟩
    refine ⟨p, hhead, ?_, fun q hq hne => ?_⟩
    · have harg := harguments p hp
      rw [Signature.argument?_first hhead, if_pos rfl] at harg
      exact (Option.some.inj harg).symm
    · have harg := harguments q hq
      rw [Signature.argument?_first hhead, if_neg fun h => hne (eq_of_name hq hp h)] at harg
      exact harg
  · rintro ⟨p, hhead, hrequest, hdefault⟩
    have hp := (List.mem_filter.mp (List.mem_of_mem_head? hhead)).1
    refine ⟨⟨p, hp, hhead, fun kv hkv => absurd hkv List.not_mem_nil⟩, fun q hq => ?_⟩
    rw [Signature.argument?_first hhead]
    split
    · rename_i heq
      rw [eq_of_name hq hp heq, hrequest]
    · rename_i hne
      exact hdefault q hq fun h => hne (h ▸ rfl)

/-! ## What a handler is called with -/

/-- Each parameter is named `request`, or asks for a value. -/
def AsDeclared (f : HandlerFunction V) : Prop := ∀ p ∈ f.params, p.annotation = none ↔ p.name = "request"

instance (f : HandlerFunction V) : Decidable (AsDeclared f) :=
  inferInstanceAs (Decidable (∀ p ∈ f.params, _ ↔ _))

omit [PyValue V] in
@[simp] theorem await_calls (isCoroutine : Bool) (out : Called V) : (out.await isCoroutine).calls = out.calls := by
  unfold Called.await
  split
  · rfl
  · split <;> rfl

omit [PyValue V] in
/-- The one call that is made of the arguments, if they can be bound. -/
theorem calls_eq (args : List V) (kwargs : Dict String V) :
    (f.callable.call args kwargs).calls = (f.params.bind args kwargs).toList := by
  simp only [HandlerFunction.callable]
  split <;> simp_all [Called.raise]

/-- What `InjectFromScope` and `AddRequest` make of a handler that fits. -/
theorem inject_fits (hdeclared : ∀ p ∈ f.params, p.annotation = none → p.name = "request") (hf : Fits f) :
    (injectFromScope w f.callable fun w handler => addRequest w handler callNext).1 =
      Called.await f.isAsync { calls := [f.params.map (want w)], result := f.body (f.params.map (want w)) } := by
  rw [inject_function, if_pos (accepts_asked.mpr hf.1)]
  simp only [HandlerFunction.callable, bind_of_fits hf hdeclared]

/-- Of one that does not: it cannot be called so. -/
theorem inject_misfits (hdeclared : ∀ p ∈ f.params, p.annotation = none → p.name = "request") (hf : ¬ Fits f)
    (hname : ∀ p ∈ f.params, p.annotation ≠ none → p.takesKeyword = true) :
    (injectFromScope w f.callable fun w handler => addRequest w handler callNext).1 = .raise .TypeError := by
  have haccepts := accepts_asked (w := w).mpr hname
  rw [inject_function, if_pos haccepts]
  simp only [HandlerFunction.callable, bind_of_not_fits hf hdeclared haccepts]
  cases f.isAsync <;> rfl

/-- Of one with a positional-only parameter that asks for a value: its partial has no signature. -/
theorem inject_unsigned (hname : ¬ ∀ p ∈ f.params, p.annotation ≠ none → p.takesKeyword = true) :
    (injectFromScope w f.callable fun w handler => addRequest w handler callNext).1 = .raise .ValueError := by
  rw [inject_function, if_neg (mt accepts_asked.mp hname)]

/-- A handler is called once, with what its parameters ask for, exactly if it runs in the executor and asks for
the request alone, or does not and its parameters fit the way it is called. -/
theorem arguments_delivered_iff (hd : AsDeclared f) (w : World V) :
    (deliver w f.callable).1.calls = [f.params.map (want w)] ↔
      if InExecutor w f.callable then RequestAlone w f else Fits f := by
  split
  · rename_i hin
    rw [deliver_inExecutor f.callable hin, calls_eq, ← bind_request_iff]
    exact Option.toList_eq_singleton_iff
  · rename_i hout
    obtain ⟨w', hsame, hdeliver⟩ := deliver_plain f.callable hout
    have hdeclared : ∀ p ∈ f.params, p.annotation = none → p.name = "request" := fun p hp => (hd p hp).mp
    rw [hdeliver, ← want_same hsame]
    constructor
    · intro hcalls
      by_contra hf
      by_cases hname : ∀ p ∈ f.params, p.annotation ≠ none → p.takesKeyword = true
      · rw [inject_misfits hdeclared hf hname] at hcalls
        exact nomatch hcalls
      · rw [inject_unsigned hname] at hcalls
        exact nomatch hcalls
    · intro hf
      rw [inject_fits hdeclared hf, await_calls]

/-- A few values. -/
inductive Value
  | none
  | request
  | text (s : String)
  deriving DecidableEq, Repr

instance : PyValue Value where
  none := .none
  truthy
    | .none | .text "" => false
    | .request | .text _ => true

/-- A handler that returns the first of its arguments. -/
def returnsFirst (params : Signature Value String) (isAsync : Bool) (names_nodup : (params.map Param.name).Nodup)
    (single : ∀ p ∈ params, p.Single) : HandlerFunction Value where
  params := params
  names_nodup := names_nodup
  single := single
  isAsync := isAsync
  body values := .ok (values.headD .none)

/-- A request for `/new/levin/`, once routed: the user of its path, and the logger. -/
def routed : World Value where
  request := .create (Bytes.ascii "/new/levin/") (Bytes.ascii "GET") (some []) [] (Bytes.ascii "HTTP/1.1")
  object := .request
  scope := [("logger", .value (.text "levin.components.logger")), ("user", .lazy fun _ => .text "levin")]

/-- `async def user(request, user: Inject("user"))` -/
def requestAndUser : HandlerFunction Value :=
  returnsFirst [{ name := "request" }, { name := "user", annotation := some "user" }] true (by decide)
    (by simp [Param.Single])

theorem requestAndUser_delivered :
    (deliver routed requestAndUser.callable).1.calls = [[.request, .text "levin"]] := by
  have hfits : Fits requestAndUser := by
    refine ⟨by decide, fun p hp hname => ?_⟩
    rcases List.mem_cons.mp hp with rfl | hp
    · exact ⟨rfl, rfl⟩
    · rw [List.mem_singleton.mp hp] at hname
      exact absurd hname (by decide)
  have hplain : ¬ InExecutor routed requestAndUser.callable := by decide
  exact (arguments_delivered_iff (by decide) routed).mpr (by rwa [if_neg hplain])

/-- A handler of one parameter, `user: Inject("user")`. -/
def user (isAsync : Bool) : HandlerFunction Value :=
  returnsFirst [{ name := "user", annotation := some "user" }] isAsync (by decide) (by simp [Param.Single])

/-- `def user(user: Inject("user"))` -/
def syncUser : HandlerFunction Value := user false

/-- It gets the request in the place of the user. -/
theorem syncUser_not_delivered : AsDeclared syncUser ∧ (deliver routed syncUser.callable).1.calls = [[.request]] ∧
    (deliver routed syncUser.callable).1.calls ≠ [syncUser.params.map (want routed)] := by
  have hcalls : (deliver routed syncUser.callable).1.calls = [[.request]] := rfl
  refine ⟨by decide, hcalls, ?_⟩
  rw [hcalls]
  decide

end Components

end Levin
