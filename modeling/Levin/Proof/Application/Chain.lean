import Levin.Core.Application
import Levin.Framework.Chain
import Mathlib.Data.List.Basic

/-!
# The chain of middlewares

`Application.start` takes the disabled components out of the list and folds the
middlewares of the others into a handler. `start_chain` says what that handler does on
a request: the events of a run of the chain of the enabled components
(`Framework/Chain.lean`), for middlewares that do anything with their `call_next`.
-/

namespace Levin.Application

open Framework

variable {V M ρ η α : Type} [PyObject V]

/-! ## What `start` leaves -/

section Start

variable {object : Nat → Component V M} {cs : List Nat}

theorem startLoop_eq (h : ∀ c ∈ cs, (object c).enabled = true → (object c).start = .ok ()) :
    startLoop object cs = ((cs.filter fun c => (object c).enabled).map .start,
      .ok (cs.filter fun c => ! (object c).enabled)) := by
  induction cs with
  | nil => rfl
  | cons c cs ih =>
    have ih := ih fun d hd => h d (List.mem_cons_of_mem _ hd)
    by_cases hc : (object c).enabled = true
    · have hstart : (object c)._start = .ok () := by rw [Component._start, if_pos hc, h c List.mem_cons_self hc]
      simp [startLoop, hstart, hc, ih]
    · have hstart : (object c)._start = .error Component.DisableComponentError := by rw [Component._start, if_neg hc]
      simp [startLoop, hstart, hc, ih, Except.map]

/-- Removing, one by one, those that do not meet `p` leaves those that do. -/
theorem foldl_erase_filter (p : Nat → Bool) (cs : List Nat) :
    (cs.filter fun c => ! p c).foldl List.erase cs = cs.filter p := by
  rw [← List.diff_eq_foldl]
  induction cs with
  | nil => rfl
  | cons c cs ih =>
    by_cases hc : p c = true
    · have hmem : c ∉ cs.filter fun c => ! p c := by simp [hc]
      rw [List.filter_cons_of_neg (by simp [hc]), List.filter_cons_of_pos hc, List.cons_diff_of_not_mem hmem, ih]
    · rw [List.filter_cons_of_pos (by simp [hc]), List.filter_cons_of_neg hc, List.diff_cons, List.erase_cons_head, ih]

/-- `start`, of an application that has not started, if no component's own `start` raises. -/
theorem start_eq (callNext : ρ → η → α) {app : Application V ρ η α} (happ : app.started = false)
    (h : ∀ c ∈ app.components, (app.object c).enabled = true → (app.object c).start = .ok ()) :
    app.start callNext =
      ({ app with
          started := true
          log := app.log ++ (app.components.filter fun c => (app.object c).enabled).map .start
          components := app.components.filter fun c => (app.object c).enabled
          handler := some fun request => createHandler callNext
            ((app.components.filter fun c => (app.object c).enabled).map fun c => (app.object c).middleware)
            request app.defaultHandler }, .ok ()) := by
  simp only [start, happ, startLoop_eq h, foldl_erase_filter]
  rfl

end Start

/-! ## What the handler does -/

/-- What is called while a request goes through the chain. -/
inductive Visit (V ρ : Type)
  | middleware (component : Nat) (request : ρ) (handler : Callable V)
  | handler (handler : Callable V)

/-- What a middleware does with a request and a handler. It may catch what `call_next` raises: that is part of
what has been called. -/
abbrev Body (V ρ : Type) := ρ → Callable V → Program ρ (Callable V) (Called V × ρ)

/-- A middleware that does what `body` says, and records that it is called. -/
def record (c : Nat) (body : Body V ρ) : Middleware ρ (Callable V) (List (Visit V ρ) × (Called V × ρ)) :=
  fun request handler next =>
    let rest := (body request handler).run next
    (.middleware c request handler :: rest.1, rest.2)

/-- `_call_next`, which calls the handler. -/
def recordedCallNext (request : ρ) (handler : Callable V) : List (Visit V ρ) × (Called V × ρ) :=
  ([.handler handler], callNext request handler)

/-- The components, with middlewares that record that they are called. -/
def recording (object : Nat → Component V (Body V ρ)) (c : Nat) :
    Component V (Middleware ρ (Callable V) (List (Visit V ρ) × (Called V × ρ))) :=
  { object c with middleware := (object c).middleware.map (record c) }

/-- The enabled components that have a middleware, in the order of the list. -/
def links (object : Nat → Component V (Body V ρ)) (components : List Nat) : List (Nat × Body V ρ) :=
  (components.filter fun c => (object c).enabled).filterMap fun c => (object c).middleware.map fun body => (c, body)

/-- The innermost step: the handler is called without arguments. -/
def Innermost (request : ρ) (handler : Callable V) (es : List (Visit V ρ)) (a : Called V × ρ) : Prop :=
  es = [.handler handler] ∧ a = ((handler.call [] []).await handler.isCoroutineFunction, request)

/-- The runs of a chain of middlewares with this innermost step. -/
abbrev ChainRuns (inner : ρ → Callable V → List (Visit V ρ) → Called V × ρ → Prop) :
    List (Nat × Body V ρ) → ρ → Callable V → List (Visit V ρ) → Called V × ρ → Prop :=
  Chain.Runs (fun link => .middleware link.1) (fun link => link.2) inner

section Handler

variable {object : Nat → Component V (Body V ρ)} {request : ρ} {handler : Callable V} {es : List (Visit V ρ)}
  {a : Called V × ρ}

omit [PyObject V] in
/-- A fold of middlewares runs as their chain. -/
theorem createHandler_runs (is : List (Nat × Body V ρ)) :
    createHandler recordedCallNext (is.map fun link => some (record link.1 link.2)) request handler = (es, a) ↔
      ChainRuns Innermost is request handler es a := by
  refine (Chain.runs_iff
    (f := fun is : List (Nat × Body V ρ) => createHandler recordedCallNext (is.map fun link => some (record link.1 link.2)))
    (fun request handler es a => ?_) fun link is request handler => rfl).symm
  show Innermost request handler es a ↔ ([.handler handler], callNext request handler) = (es, a)
  constructor
  · rintro ⟨rfl, rfl⟩
    rfl
  · intro h
    obtain ⟨rfl, rfl⟩ := Prod.mk.inj h
    exact ⟨rfl, rfl⟩

/-- Components without a middleware are not part of the chain. -/
theorem createHandler_recording (cs : List Nat) :
    createHandler recordedCallNext (cs.map fun c => (recording object c).middleware) =
      createHandler recordedCallNext ((cs.filterMap fun c => (object c).middleware.map fun body => (c, body)).map
        fun link => some (record link.1 link.2)) := by
  induction cs with
  | nil => rfl
  | cons c cs ih =>
    rw [List.map_cons, List.filterMap_cons]
    cases hm : (object c).middleware with
    | none =>
      have hnone : (recording object c).middleware = none := by simp [recording, hm]
      rw [hnone]
      exact ih
    | some body =>
      have hsome : (recording object c).middleware = some (record c body) := by simp [recording, hm]
      rw [hsome]
      simp only [Option.map_some, List.map_cons, createHandler, List.foldr_cons] at ih ⊢
      rw [ih]

/-- Only enabled components have links. -/
theorem enabled_of_mem_links {components : List Nat} {link : Nat × Body V ρ} (h : link ∈ links object components) :
    link.1 ∈ components ∧ (object link.1).enabled = true := by
  obtain ⟨c, hc, hlink⟩ := List.mem_filterMap.mp h
  obtain ⟨body, -, rfl⟩ := Option.map_eq_some_iff.mp hlink
  exact List.mem_filter.mp hc

end Handler

/-- After `start` the components are the enabled ones, and their own `start` has been called, once for each place
in the list. The handler runs the chain of their middlewares; what it calls is the last handler passed on, or a
middleware of an enabled component; and what comes after a middleware that does not call `call_next` is hidden. -/
theorem start_chain (object : Nat → Component V (Body V ρ)) (components : List Nat) (handler : Callable V)
    (hstart : ∀ c ∈ components, (object c).enabled = true → (object c).start = .ok ()) :
    let started := (start recordedCallNext { object := recording object, components, defaultHandler := handler }).1
    started.components = components.filter (fun c => (object c).enabled) ∧
      started.log = (components.filter fun c => (object c).enabled).map .start ∧
      ∃ run, started.handler = some run ∧ ∀ request,
        (∀ es a, run request = (es, a) ↔ ChainRuns Innermost (links object components) request handler es a) ∧
        (∀ c r h, .middleware c r h ∈ (run request).1 → c ∈ components ∧ (object c).enabled = true) ∧
        ∀ before link after, links object components = before ++ link :: after →
          (∀ r h, ∃ a, link.2 r h = .done a) →
          ChainRuns (fun _ _ _ _ => False) (before ++ [link]) request handler (run request).1 (run request).2 := by
  intro started
  have heq : start recordedCallNext { object := recording object, components, defaultHandler := handler } = _ :=
    start_eq recordedCallNext rfl hstart
  refine ⟨congrArg (fun out => out.1.components) heq, congrArg (fun out => out.1.log) heq, _,
    congrArg (fun out => out.1.handler) heq, fun request => ?_⟩
  have hruns : ∀ es a, createHandler recordedCallNext
      ((components.filter fun c => (object c).enabled).map fun c => (recording object c).middleware) request handler =
        (es, a) ↔ ChainRuns Innermost (links object components) request handler es a := by
    intro es a
    rw [createHandler_recording]
    exact createHandler_runs (links object components)
  refine ⟨hruns, fun c r h hmem => ?_, fun before link after hlinks hdone => ?_⟩
  · have hrun := (hruns _ _).mp rfl
    have hall := hrun.forall_mem (P := fun e => ∀ c r h, e = Visit.middleware c r h → c ∈ components ∧
      (object c).enabled = true) ?_ ?_
    · exact hall _ hmem c r h rfl
    · rintro link hlink r h c' r' h' heq
      obtain ⟨rfl, -, -⟩ := Visit.middleware.inj heq
      exact enabled_of_mem_links hlink
    · rintro r h es a ⟨rfl, -⟩ e he c' r' h' rfl
      cases List.mem_singleton.mp he
  · have hrun := (hruns _ _).mp rfl
    rw [hlinks, ChainRuns, Chain.runs_hide hdone] at hrun
    exact hrun

/-! ## An application with three components -/

/-- Values of attributes. -/
inductive Object
  | none
  | bool (b : Bool)
  | number (n : Nat)
  | str (s : String)
  | boundMethod (name : String)
  deriving DecidableEq, Repr

instance : PyObject Object where
  none := .none
  truthy
    | .none => false
    | .bool b => b
    | .number n => n ≠ 0
    | .str s => s ≠ ""
    | .boundMethod _ => true
  bool := .bool
  str := .str
  ismethod
    | .boundMethod _ => true
    | _ => false
  boundMethod := .boundMethod
  ismethod_boundMethod _ := rfl

/-- A class with the attributes of `Component`. -/
def plainClass : ComponentClass Object where
  own := [("name", .value (.str "plain"))]
  inherits := List.forall_mem_singleton.mpr ⟨rfl, rfl⟩
  enable := ⟨.bool true, rfl⟩

/-- The first passes everything on, the second is disabled, and the others call nothing. -/
def threeComponents : Nat → Component Object (Body Object Bytes)
  | 0 => { cls := plainClass, name := "first", middleware := some fun request handler => .next request handler .done }
  | 1 => { cls := plainClass, name := "second", attrs := [("enable", .bool false)], start := .error .ValueError }
  | _ => { cls := plainClass, name := "third",
           middleware := some fun request _ => .done ({ calls := [], result := .ok .none }, request) }

theorem threeComponents_chain :
    let started := (start recordedCallNext { object := recording threeComponents, components := [0, 1, 2],
                                             defaultHandler := { signature := .ok [], isCoroutineFunction := true,
                                                                 call := fun _ _ => .raise .TypeError } }).1
    started.components = [0, 2] ∧ started.log = [.start 0, .start 2] :=
  have h := start_chain threeComponents [0, 1, 2] _ (by decide)
  ⟨h.1, h.2.1⟩

end Levin.Application
