import Levin.Proof.Components.Arguments
import Levin.Proof.Profile.Restoring

/-!
# Profiled handlers

`ProfileHandler` puts the wrapper of `SimpleProfile.trace` in the place of a handler
it profiles, and the components after it read the wrapper's signature. A handler
that runs in the executor gets the same arguments as ever; any other loses what its
signature asks for, and is called without arguments. And whatever the profile raises
comes in the place of the handler's result: `add_target` before it, the profile
function in it, `stop` and the callback after it (`transparent_iff`).
-/

namespace Levin.Components

open Framework

variable {V : Type} {w w' : World V} {f : HandlerFunction V} {t : Tracing V}

/-! ## How a profiled function ends -/

/-- `add_target` does not raise. -/
def Tracing.Starts (t : Tracing V) : Prop :=
  ∃ code, t.code = some code ∧ t.getsource code.filename code.firstlineno ≠ none

/-- The profiler of a request, when its handler is called. -/
def Tracing.started (t : Tracing V) (w : World V) : SimpleProfile.Interpreter :=
  SimpleProfile.trace
    { profiler := (SimpleProfile.addTarget t.getsource t.code (t.simpleProfile (w.value "depth"))).2, profile := t.profile }

/-- What `stop` raises: there is no snapshot to take. -/
def Tracing.stopError (t : Tracing V) : Option Exc :=
  match t.withMemory, t.snapshot with
  | true, .error e => some e
  | _, _ => none

/-- What comes in the place of the function's own end, if `stop` raises or the profile function does. -/
def Tracing.interruption (t : Tracing V) (s : SimpleProfile.Interpreter) : Option (Except Exc V) :=
  match t.stopError with
  | some e => some (.error e)
  | none =>
    match (SimpleProfile.traceAll t.getsource t.events s.profiler).1 with
    | .error e => some (t.interrupted e)
    | .ok () => none

theorem Tracing.starts_cases (t : Tracing V) (p : SimpleProfile) :
    (¬ t.Starts ∧ ∃ e, (SimpleProfile.addTarget t.getsource t.code p).1 = .error e) ∨
      (t.Starts ∧ (SimpleProfile.addTarget t.getsource t.code p).1 = .ok ()) :=
  SimpleProfile.addTarget_cases t.getsource
    { func := t.code, events := [], leaves := none, result := .ok (), snapshot := t.snapshot } p

theorem Tracing.run_eq (t : Tracing V) (w : World V) (result : Except Exc V) :
    t.run (t.started w) result = (t.interruption (t.started w)).getD result := by
  have hadd := SimpleProfile.sameRun_addTarget t.getsource t.code (t.simpleProfile (w.value "depth"))
  have htraced := SimpleProfile.sameRun_traceAll t.getsource t.events (t.started w).profiler
  -- `stop` finds the flag and `_trace_mem` as the profiler was made with.
  have hflag : (SimpleProfile.traceAll t.getsource t.events (t.started w).profiler).2.stopFlag = false :=
    htraced.stopFlag.trans hadd.stopFlag
  have hmem : (SimpleProfile.traceAll t.getsource t.events (t.started w).profiler).2.traceMem = t.withMemory :=
    htraced.traceMem.trans hadd.traceMem
  have hrun : ∀ result : Except Exc Unit, (SimpleProfile._run t.getsource
      { func := t.code, events := t.events, leaves := t.leaves, result, snapshot := t.snapshot } (t.started w)).1 =
        (t.stopError.map .error).getD result := by
    intro result
    simp only [SimpleProfile._run, SimpleProfile.stop, SimpleProfile.runFunc, SimpleProfile.startTrace, hflag, hmem,
      Tracing.stopError]
    cases t.withMemory <;> cases t.snapshot <;> rfl
  simp only [Tracing.run, hrun, Tracing.interruption]
  cases t.stopError with
  | some e => rfl
  | none =>
    -- `_run` ends as the function has.
    cases (SimpleProfile.traceAll t.getsource t.events (t.started w).profiler).1 with
    | error e => cases h : t.interrupted e <;> simp [h, Except.map]
    | ok => cases result <;> rfl

/-- `await` of what a call ends with. -/
def awaited (isCoroutine : Bool) (result : Except Exc V) : Except Exc V :=
  (Called.await isCoroutine { calls := [], result }).result

theorem await_result (isCoroutine : Bool) (out : Called V) :
    (out.await isCoroutine).result = awaited isCoroutine out.result := by
  obtain ⟨calls, result⟩ := out
  cases isCoroutine <;> cases result <;> rfl

/-- What comes in the place of what the handler ends with, if anything of the profile raises. -/
def Tracing.replaced (t : Tracing V) (s : SimpleProfile.Interpreter) (isCoroutine : Bool) : Option (Except Exc V) :=
  match t.callback with
  | .error e => some (.error e)
  | .ok () => (t.interruption s).map (awaited isCoroutine)

/-- The call of a wrapped handler, once it has been awaited and the callback is over. -/
theorem traced_call (t : Tracing V) (w : World V) (handler : Callable V) (args : List V) (kwargs : Dict String V)
    (isCoroutine : Bool) :
    finished t.callback (((trace t (t.started w) handler).call args kwargs).await isCoroutine) =
      { calls := (handler.call args kwargs).calls
        result := (t.replaced (t.started w) isCoroutine).getD (awaited isCoroutine (handler.call args kwargs).result) } := by
  have hcalls : ((trace t (t.started w) handler).call args kwargs).calls = (handler.call args kwargs).calls := rfl
  have hresult : ((trace t (t.started w) handler).call args kwargs).result =
      (t.interruption (t.started w)).getD (handler.call args kwargs).result := t.run_eq w _
  have hawait := await_result isCoroutine ((trace t (t.started w) handler).call args kwargs)
  have hawaitCalls := await_calls isCoroutine ((trace t (t.started w) handler).call args kwargs)
  generalize ((trace t (t.started w) handler).call args kwargs).await isCoroutine = out at hawait hawaitCalls
  obtain ⟨calls, result⟩ := out
  obtain rfl : calls = _ := hawaitCalls.trans hcalls
  obtain rfl : result = _ := hawait
  rw [hresult, Tracing.replaced]
  cases t.callback with
  | error e => rfl
  | ok => cases t.interruption (t.started w) <;> rfl

variable [PyValue V]

/-! ## What the wrapper of a profile is called with -/

/-- In the executor, the request as ever. -/
theorem deliver_trace_inExecutor (s : SimpleProfile.Interpreter) (h : InExecutor w f.callable) :
    (deliver w (trace t s f.callable)).1 = ((trace t s f.callable).call [w.object] []).await true :=
  deliver_inExecutor (trace t s f.callable) h

/-- Anywhere else, nothing. -/
theorem deliver_trace_plain (s : SimpleProfile.Interpreter) (h : ¬ InExecutor w f.callable) :
    (deliver w (trace t s f.callable)).1 = ((trace t s f.callable).call [] []).await f.isAsync := by
  obtain ⟨w₁, -, hdeliver⟩ := deliver_plain (trace t s f.callable) h
  obtain ⟨w₂, -, hinject⟩ := inject_nothing (trace t s f.callable) w₁
    (fun w handler => addRequest w handler callNext) rfl (by simp)
  rw [hdeliver, hinject, addRequest_of_signature (trace t s f.callable) rfl]
  have hnone : requestFirst w₂ [{ name := "args", kind := .varPositional }, { name := "kwargs", kind := .varKeyword }] =
      ([] : List V) := if_neg (by simp)
  rw [hnone]
  rfl

/-! ## Both branches of the middleware -/

/-- From `SyncToAsync` on, a request keeps its values. -/
theorem deliver_same (w : World V) (handler : Callable V) : w.Same (deliver w handler).2 := by
  have hadd : ∀ (w : World V) (handler : Callable V), (addRequest w handler callNext).2 = w := by
    intro w handler
    unfold addRequest
    split <;> rfl
  have hinject : ∀ (w : World V) (handler : Callable V),
      w.Same (injectFromScope w handler fun w handler => addRequest w handler callNext).2 := by
    intro w handler
    unfold injectFromScope
    split
    · exact .refl w
    · rename_i params _
      simp only [hadd]
      exact (injections_eq params [] w).2
  exact (syncToAsyncCondition_eq w handler).2.trans (hinject _ _)

/-- A handler whose source can be read is called with its profile; another one is not called. -/
theorem handle_profiled (meets : Option V → Nat → Except Exc Bool) (time : Nat) (h : Profiled w) (handler : Callable V) :
    (t.Starts ∧ ∃ w₁, w.Same w₁ ∧
        (handle t meets time w handler).1 = finished t.callback (deliver w₁ (trace t (t.started w) handler)).1) ∨
      (¬ t.Starts ∧ ∃ e, (SimpleProfile.addTarget t.getsource t.code (t.simpleProfile (w.value "depth"))).1 = .error e ∧
        (handle t meets time w handler).1 = .raise e) := by
  have hhandle : (handle t meets time w handler).1 = (runWithProfile t w handler deliver).1 := by
    show (profileHandler t meets time w handler deliver).1 = _
    simp only [profileHandler, if_pos h]
  have hlocked : w.Same { w with locked := true, targets := w.targets.erase (requestHash w.request) } :=
    ⟨rfl, rfl, fun _ => rfl⟩
  have hdepth : (World.get? "depth" { w with locked := true, targets := w.targets.erase (requestHash w.request) }).1 =
      w.value "depth" := rfl
  rw [hhandle]
  rcases t.starts_cases (t.simpleProfile (w.value "depth")) with ⟨hstarts, e, herror⟩ | ⟨hstarts, hok⟩
  · obtain ⟨p, hadd⟩ : ∃ p, SimpleProfile.addTarget t.getsource t.code (t.simpleProfile (w.value "depth")) = (.error e, p) :=
      ⟨_, Prod.ext herror rfl⟩
    refine .inr ⟨hstarts, e, herror, ?_⟩
    simp only [runWithProfile, hdepth, hadd]
  · obtain ⟨p, hadd⟩ : ∃ p, SimpleProfile.addTarget t.getsource t.code (t.simpleProfile (w.value "depth")) = (.ok (), p) :=
      ⟨_, Prod.ext hok rfl⟩
    refine .inl ⟨hstarts, _, hlocked.trans (World.Same.get? _ "depth"), ?_⟩
    simp only [runWithProfile, Tracing.started, hdepth, hadd]

/-- What `middleware` raises at the end of a request that is not profiled: what the profile condition does, or that there is
no logger. -/
def unprofiledError (meets : Option V → Nat → Except Exc Bool) (time : Nat) (w : World V) : Option Exc :=
  match meets (w.value "profile_condition") time with
  | .error e => some e
  | .ok met => if met && (w.value "logger").isNone then some .AttributeError else none

theorem handle_unprofiled (meets : Option V → Nat → Except Exc Bool) (time : Nat) (h : ¬ Profiled w) (handler : Callable V) :
    (handle t meets time w handler).1 =
      { (deliver w handler).1 with
        result := ((unprofiledError meets time w).map .error).getD (deliver w handler).1.result } := by
  show (profileHandler t meets time w handler deliver).1 = _
  have hsame := deliver_same w handler
  have hcondition : ((deliver w handler).2.get? "profile_condition").1 = w.value "profile_condition" := hsame.value _
  have hlogger : (((deliver w handler).2.get? "profile_condition").2.get? "logger").1 = w.value "logger" :=
    (hsame.trans (World.Same.get? _ "profile_condition")).value _
  simp only [profileHandler, if_neg h, hcondition, hlogger, unprofiledError]
  rcases meets (w.value "profile_condition") time with e | _ | _
  · rfl
  · rfl
  · cases w.value "logger" <;> rfl

/-! ## Where profiling is seen -/

/-- What a handler raises that cannot be called so: its arguments do not fit, or its partial has no signature. -/
def refusal (f : HandlerFunction V) : Exc :=
  if ∀ p ∈ f.params, p.annotation ≠ none → p.takesKeyword = true then .TypeError else .ValueError

/-- Not profiled and not in the executor, a handler that does not fit is not called. -/
theorem inject_refused (hdeclared : ∀ p ∈ f.params, p.annotation = none → p.name = "request") (hf : ¬ Fits f) :
    (injectFromScope w f.callable fun w handler => addRequest w handler callNext).1 = .raise (refusal f) := by
  unfold refusal
  split
  · next hname => exact inject_misfits hdeclared hf hname
  · next hname => exact inject_unsigned hname

/-- The handler of a request that is not profiled cannot be called. -/
def Uncalled (w : World V) (f : HandlerFunction V) : Prop :=
  if InExecutor w f.callable then f.params.bind [w.object] [] = none else ¬ Fits f

/-- A handler that ends with `r` under its profile ends as one that ends with `r'` without: what replaces the end is the
same, if anything does. -/
def EndsAlike (replaced : Option (Except Exc V)) (raised : Option Exc) (r r' : Except Exc V) : Prop :=
  replaced.getD r = (raised.map .error).getD r'

omit [PyValue V] in
theorem calls_nil : (f.callable.call [] []).calls = [] ↔ ∃ p ∈ f.params, p.default = none := by
  rw [calls_eq, Option.toList_eq_nil_iff, Signature.bind_nil f.single, Signature.mapM_eq_none]

omit [PyValue V] in
/-- A call without arguments gives each parameter what it asks for if that is its default. -/
theorem calls_wanted {values : Param V String → V} :
    (f.callable.call [] []).calls = [f.params.map values] ↔ ∀ p ∈ f.params, p.default = some (values p) := by
  rw [calls_eq, Option.toList_eq_singleton_iff, Signature.bind_nil f.single, Signature.mapM_eq_some_map]

omit [PyValue V] in
theorem result_of_calls {args : List V} {kwargs : Dict String V} {values : List V}
    (h : (f.callable.call args kwargs).calls = [values]) : (f.callable.call args kwargs).result = f.body values := by
  rw [calls_eq, Option.toList_eq_singleton_iff] at h
  simp only [HandlerFunction.callable, h]

omit [PyValue V] in
theorem result_of_uncalled {args : List V} {kwargs : Dict String V} (h : f.params.bind args kwargs = none) :
    (f.callable.call args kwargs).result = .error .TypeError := by
  simp only [HandlerFunction.callable, h]
  rfl

/-- The three ways in which a request that is not profiled meets its handler. -/
theorem deliver_cases (hdeclared : ∀ p ∈ f.params, p.annotation = none → p.name = "request") (hsame : w.Same w') :
    (InExecutor w f.callable ∧ (deliver w' f.callable).1 = f.callable.call [w.object] []) ∨
      (¬ InExecutor w f.callable ∧ Fits f ∧ (deliver w' f.callable).1 =
        Called.await f.isAsync { calls := [f.params.map (want w)], result := f.body (f.params.map (want w)) }) ∨
      (¬ InExecutor w f.callable ∧ ¬ Fits f ∧ (deliver w' f.callable).1 = .raise (refusal f)) := by
  have hexec : InExecutor w' f.callable ↔ InExecutor w f.callable := by simp only [InExecutor, hsame.value]
  by_cases hin : InExecutor w f.callable
  · exact .inl ⟨hin, by rw [deliver_inExecutor f.callable (hexec.mpr hin), hsame.object]⟩
  · obtain ⟨w₂, hsame₂, hdeliver⟩ := deliver_plain f.callable (mt hexec.mp hin)
    have hwant : want w₂ = want w := want_same (hsame.trans hsame₂)
    by_cases hf : Fits f
    · exact .inr (.inl ⟨hin, hf, by rw [hdeliver, inject_fits hdeclared hf, hwant]⟩)
    · exact .inr (.inr ⟨hin, hf, by rw [hdeliver, inject_refused hdeclared hf]⟩)

/-- The handler is called with the same arguments under its profile as without, and ends alike: in the executor; or outside,
if what it asks for are its defaults; or if it cannot be called either way. -/
def CalledAlike (t : Tracing V) (raised : Option Exc) (w : World V) (f : HandlerFunction V) : Prop :=
  (InExecutor w f.callable ∧ EndsAlike (t.replaced (t.started w) true) raised (f.callable.call [w.object] []).result
    (f.callable.call [w.object] []).result) ∨
  (¬ InExecutor w f.callable ∧ Fits f ∧ (∀ p ∈ f.params, p.default = some (want w p)) ∧
    EndsAlike (t.replaced (t.started w) f.isAsync) raised (awaited f.isAsync (f.body (f.params.map (want w))))
      (awaited f.isAsync (f.body (f.params.map (want w))))) ∨
  (¬ InExecutor w f.callable ∧ ¬ Fits f ∧ (∃ p ∈ f.params, p.default = none) ∧
    EndsAlike (t.replaced (t.started w) f.isAsync) raised (.error .TypeError) (.error (refusal f)))

omit [PyValue V] in
theorem called_eq_iff {out : Called V} {calls : List (List V)} {result : Except Exc V} :
    ({ calls, result } : Called V) = out ↔ calls = out.calls ∧ result = out.result := by
  cases out
  simp

/-- A profiled request whose handler's source can be read. -/
theorem started_alike_iff (hdeclared : ∀ p ∈ f.params, p.annotation = none → p.name = "request") (hsame : w.Same w')
    (raised : Option Exc) {w₁ : World V} (hsame₁ : w.Same w₁) :
    finished t.callback (deliver w₁ (trace t (t.started w) f.callable)).1 =
        { (deliver w' f.callable).1 with result := (raised.map .error).getD (deliver w' f.callable).1.result } ↔
      CalledAlike t raised w f := by
  have hexec : InExecutor w₁ f.callable ↔ InExecutor w f.callable := by simp only [InExecutor, hsame₁.value]
  unfold CalledAlike
  rcases deliver_cases hdeclared hsame with ⟨hin, hdeliver⟩ | ⟨hin, hf, hdeliver⟩ | ⟨hin, hf, hdeliver⟩
  · rw [deliver_trace_inExecutor _ (hexec.mpr hin), hsame₁.object, traced_call, hdeliver, called_eq_iff]
    simp only [hin, true_and, not_true, false_and, or_false]
    exact Iff.rfl
  · have hcalls : (f.callable.call [] []).calls = [f.params.map (want w)] ↔ ∀ p ∈ f.params, p.default = some (want w p) :=
      calls_wanted
    rw [deliver_trace_plain _ (mt hexec.mp hin), traced_call, hdeliver, called_eq_iff]
    simp only [hin, hf, true_and, not_true, not_false_eq_true, false_and, or_false, false_or, await_calls, await_result]
    rw [hcalls]
    refine and_congr_right fun hdefault => ?_
    rw [result_of_calls (hcalls.mpr hdefault)]
    exact Iff.rfl
  · rw [deliver_trace_plain _ (mt hexec.mp hin), traced_call, hdeliver, called_eq_iff]
    simp only [hin, hf, true_and, not_false_eq_true, false_and, false_or]
    have hcalls : (f.callable.call [] []).calls = (Called.raise (V := V) (refusal f)).calls ↔
        ∃ p ∈ f.params, p.default = none := calls_nil
    rw [hcalls]
    refine and_congr_right fun hdefault => ?_
    have hbind : f.params.bind [] [] = none := by
      rw [← calls_nil, calls_eq] at hdefault
      exact Option.toList_eq_nil_iff.mp hdefault
    have hresult : awaited f.isAsync (f.callable.call [] []).result = .error .TypeError := by
      rw [result_of_uncalled hbind]
      cases f.isAsync <;> rfl
    rw [hresult]
    exact Iff.rfl

theorem addTarget_raises {getsource : GetSource} {code : Option CodeAlias} {p : SimpleProfile} {e : Exc}
    (h : (SimpleProfile.addTarget getsource code p).1 = .error e) : e ≠ .TypeError ∧ e ≠ .ValueError := by
  unfold SimpleProfile.addTarget SimpleProfile.appendTarget SimpleProfile.saveFunction SimpleProfile.osError at h
  split at h
  · cases h
    simp
  · split at h
    · cases h
      simp
    · cases h

/-- A profiled request whose handler's source cannot be read. -/
theorem raised_alike_iff (hdeclared : ∀ p ∈ f.params, p.annotation = none → p.name = "request") (hsame : w.Same w')
    (raised : Option Exc) {e : Exc} (he : e ≠ .TypeError ∧ e ≠ .ValueError) :
    Called.raise e =
        { (deliver w' f.callable).1 with result := (raised.map .error).getD (deliver w' f.callable).1.result } ↔
      Uncalled w f ∧ raised = some e := by
  have hended : ∀ {e'}, e' = .TypeError ∨ e' = .ValueError →
      (Except.error e = (raised.map .error).getD (.error e' : Except Exc V) ↔ raised = some e) := by
    rintro e' he'
    cases raised with
    | none =>
      refine iff_of_false (fun h => ?_) nofun
      obtain rfl := Except.error.inj h
      exact he'.elim he.1 he.2
    | some e'' => simp [eq_comm]
  have hrefusal : refusal f = .TypeError ∨ refusal f = .ValueError := by
    unfold refusal
    split
    · exact .inl rfl
    · exact .inr rfl
  unfold Called.raise Uncalled
  rw [called_eq_iff]
  rcases deliver_cases hdeclared hsame with ⟨hin, hdeliver⟩ | ⟨hin, hf, hdeliver⟩ | ⟨hin, hf, hdeliver⟩
  · rw [hdeliver, if_pos hin, eq_comm, calls_eq, Option.toList_eq_nil_iff]
    refine and_congr_right fun hbind => ?_
    rw [result_of_uncalled hbind]
    exact hended (.inl rfl)
  · rw [hdeliver, if_neg hin, await_calls]
    exact iff_of_false (fun h => nomatch h.1) fun h => h.1 hf
  · rw [hdeliver, if_neg hin]
    simp only [hf, not_false_eq_true, true_and]
    exact (and_iff_right rfl).trans (hended hrefusal)

/-- The profiled request and the other one have the same calls and the same result exactly if the source of the handler can be
read and it is called alike; or what `add_target` raises is what the end of the other request raises, whose handler
cannot be called. -/
theorem transparent_iff (hdeclared : ∀ p ∈ f.params, p.name = "request" ∨ p.annotation ≠ none) (t t' : Tracing V)
    (meets : Option V → Nat → Except Exc Bool) (time time' : Nat) (hsame : w.Same w') (hprofiled : Profiled w)
    (hunprofiled : ¬ Profiled w') :
    (handle t meets time w f.callable).1 = (handle t' meets time' w' f.callable).1 ↔
      (t.Starts ∧ CalledAlike t (unprofiledError meets time' w') w f) ∨
        (Uncalled w f ∧ ∃ e, unprofiledError meets time' w' = some e ∧
          (SimpleProfile.addTarget t.getsource t.code (t.simpleProfile (w.value "depth"))).1 = .error e) := by
  have hdeclared : ∀ p ∈ f.params, p.annotation = none → p.name = "request" :=
    fun p hp ha => (hdeclared p hp).resolve_right (not_not_intro ha)
  rw [handle_unprofiled meets time' hunprofiled]
  rcases handle_profiled meets time hprofiled f.callable (t := t) with ⟨hstarts, w₁, hsame₁, hhandle⟩ |
    ⟨hstarts, e, herror, hhandle⟩
  · rw [hhandle, started_alike_iff hdeclared hsame _ hsame₁]
    have hok : ∀ e, (SimpleProfile.addTarget t.getsource t.code (t.simpleProfile (w.value "depth"))).1 ≠ .error e := by
      intro e he
      rcases t.starts_cases (t.simpleProfile (w.value "depth")) with ⟨hnot, -⟩ | ⟨-, hok⟩
      · exact hnot hstarts
      · rw [he] at hok
        cases hok
    simp only [hstarts, hok, true_and, and_false, exists_false, or_false]
  · rw [hhandle, raised_alike_iff hdeclared hsame _ (addTarget_raises herror)]
    simp only [hstarts, herror, false_and, false_or, Except.error.injEq, exists_eq_right']

/-- The request, when it is to be profiled. -/
def targeted : World Value := { routed with targets := [requestHash routed.request] }

/-- `def qwert(request)` -/
def syncRequest : HandlerFunction Value :=
  returnsFirst [{ name := "request" }] false (by decide) (by simp [Param.Single])

/-- The code of a handler at the top of a file. -/
def handlerCode : CodeAlias := ⟨SimpleProfile.literal "run.py", 1, SimpleProfile.literal "handler"⟩

/-- A frame of the handler, in the wrapper of its profile. -/
def handlerFrame : List ProfileFrame :=
  [⟨handlerCode, 2⟩, ⟨⟨SimpleProfile.literal "profile.py", 179, SimpleProfile.literal "_run"⟩, 182⟩]

/-- The handler calls a function of C, and returns. -/
def oneCall : Tracing Value where
  getsource _ _ := some (SimpleProfile.literal "def handler(request):")
  code := some handlerCode
  events := [⟨.cCall, handlerFrame, 10⟩, ⟨.cReturn, handlerFrame, 12⟩, ⟨.ret, handlerFrame, 13⟩]

theorem syncRequest_transparent : (handle oneCall (fun _ _ => .ok true) 2 targeted syncRequest.callable).1 =
    (handle oneCall (fun _ _ => .ok true) 1 routed syncRequest.callable).1 := by
  have hsame : targeted.Same routed := ⟨rfl, rfl, fun _ => rfl⟩
  have h := transparent_iff (f := syncRequest) (by decide) oneCall oneCall (fun _ _ => .ok true) 2 1 hsame (by decide)
    (by decide)
  exact h.mpr (.inl ⟨⟨handlerCode, rfl, by simp [oneCall]⟩, .inl ⟨by decide, rfl⟩⟩)

/-- `async def _user(user: Inject("user"))` -/
def asyncUser : HandlerFunction Value := user true

/-- Profiled, it is not called; otherwise it is, with the user. -/
theorem asyncUser_not_transparent : AsDeclared asyncUser ∧ Profiled targeted ∧ ¬ Profiled routed ∧
    (handle oneCall (fun _ _ => .ok true) 2 targeted asyncUser.callable).1.calls = [] ∧
    (handle oneCall (fun _ _ => .ok true) 1 routed asyncUser.callable).1.calls = [[.text "levin"]] :=
  ⟨by decide, by decide, by decide, rfl, rfl⟩

end Levin.Components
