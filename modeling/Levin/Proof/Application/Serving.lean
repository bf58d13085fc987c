import Levin.Proof.Application.Configure
import Levin.Proof.Application.Lifecycle

/-!
# An application that serves

Whatever is done to an application, and however often it is started and stopped (by
each of the servers that share it), its handler is made by the first `start()` that is
called, of the components it has then (`built`), or never: where a component's `start`
raises there is no handler, and no later `start()` makes one. So all connections that
its servers make after that have this handler, and the components whose own `start` is
called are those of then (`serving_spec`).
-/

namespace Levin.Application

open Framework

variable {V M ρ η α : Type} [PyObject V]

/-- What is done to an application, by those who configure it and by the servers it is given to. -/
inductive Operation (V : Type)
  | add (component : Except Exc Nat) (position : Option Int) (init : Except Exc Unit)
  | configure (call : ConfigureCall V)
  | lifecycle (call : LifecycleCall)
  /-- `handle_connection` of a server: the connection gets `self._app.handler`. -/
  | connect

/-- An application, and the handlers that its servers have given to connections. -/
structure Serving (V ρ η α : Type) [PyObject V] where
  app : Application V ρ η α
  connections : List (Option (ρ → α)) := []

namespace Serving

/-- The state after an operation, which may have raised. -/
def after (callNext : ρ → η → α) (s : Serving V ρ η α) : Operation V → Serving V ρ η α
  | .add component position init => { s with app := (s.app.add component position init).1 }
  | .configure call => { s with app := s.app.afterConfigure call }
  | .lifecycle call => { s with app := afterCall callNext s.app call }
  | .connect => { s with connections := s.connections ++ [s.app.handler] }

def afterAll (callNext : ρ → η → α) (s : Serving V ρ η α) (ops : List (Operation V)) : Serving V ρ η α :=
  ops.foldl (after callNext) s

end Serving

/-- The calls of the components' own `start`. -/
def starts (log : List LifecycleEvent) : List LifecycleEvent :=
  log.filter fun e =>
    match e with
    | .start _ => true
    | .stop _ => false

/-- How often a server has made a connection. -/
def connects (ops : List (Operation V)) : Nat :=
  ops.countP fun op =>
    match op with
    | .connect => true
    | _ => false

omit [PyObject V] in
theorem connects_append (ops ops' : List (Operation V)) : connects (ops ++ ops') = connects ops + connects ops' :=
  List.countP_append

/-- What the first `start()` makes the handler: the chain of the components it does not remove, or none if one raises. -/
def built (callNext : ρ → η → α) (app : Application V ρ η α) : Option (ρ → α) :=
  (startLoop app.object app.components).2.toOption.map fun toRemove => fun request =>
    createHandler callNext ((toRemove.foldl List.erase app.components).map fun c => (app.object c).middleware) request
      app.defaultHandler

/-- The components that `start()` comes to: those up to the first that raises. -/
def reached (object : Nat → Component V M) : List Nat → List Nat
  | [] => []
  | c :: cs =>
    match (object c)._start with
    | .ok () => c :: reached object cs
    | .error e => if e = Component.DisableComponentError then c :: reached object cs else [c]

theorem startLoop_log (object : Nat → Component V M) (cs : List Nat) :
    (startLoop object cs).1 = ((reached object cs).filter fun c => (object c).enabled).map .start := by
  induction cs with
  | nil => rfl
  | cons c cs ih =>
    simp only [startLoop, reached]
    rcases (object c)._start with e | u
    · by_cases he : e = Component.DisableComponentError <;> by_cases hc : (object c).enabled = true <;> simp [he, hc, ih]
    · by_cases hc : (object c).enabled = true <;> simp [hc, ih]

/-- There is no handler exactly if a component's `start` has raised, other than to disable it. -/
theorem built_eq_none {callNext : ρ → η → α} {app : Application V ρ η α} : built callNext app = none ↔
    ∃ c ∈ app.components, ∃ e, (app.object c)._start = .error e ∧ e ≠ Component.DisableComponentError := by
  have hloop : ∀ cs : List Nat, (∃ e, (startLoop app.object cs).2 = .error e) ↔
      ∃ c ∈ cs, ∃ e, (app.object c)._start = .error e ∧ e ≠ Component.DisableComponentError := by
    intro cs
    induction cs with
    | nil => simp [startLoop]
    | cons c cs ih =>
      rw [List.exists_mem_cons_iff, ← ih]
      simp only [startLoop]
      rcases (app.object c)._start with e | u
      · by_cases he : e = Component.DisableComponentError
        · rcases (startLoop app.object cs).2 with e' | toRemove <;> simp [he, Except.map]
        · simp [he]
      · simp
  rw [← hloop, built, Option.map_eq_none_iff]
  rcases (startLoop app.object app.components).2 with e | toRemove <;> simp [Except.toOption]

/-! ## What operations leave as it is -/

/-- The first `start()`. -/
theorem start_first (callNext : ρ → η → α) {app : Application V ρ η α} (h : app.started = false)
    (hhandler : app.handler = none) :
    (app.start callNext).1.started = true ∧ (app.start callNext).1.handler = built callNext app ∧
      (app.start callNext).1.log = app.log ++ ((reached app.object app.components).filter fun c =>
        (app.object c).enabled).map .start := by
  rw [← startLoop_log]
  simp only [start, h, Bool.false_eq_true, if_false, built]
  rcases (startLoop app.object app.components).2 with e | toRemove
  · exact ⟨rfl, hhandler, rfl⟩
  · exact ⟨rfl, rfl, rfl⟩

/-- Applications that have been started alike. -/
structure Alike (app app' : Application V ρ η α) : Prop where
  started : app'.started = app.started
  handler : app'.handler = app.handler
  starts : starts app'.log = starts app.log

theorem Alike.refl (app : Application V ρ η α) : Alike app app := ⟨rfl, rfl, rfl⟩

theorem Alike.trans {app app' app'' : Application V ρ η α} (h : Alike app app') (h' : Alike app' app'') : Alike app app'' :=
  ⟨h'.started.trans h.started, h'.handler.trans h.handler, h'.starts.trans h.starts⟩

theorem alike_add (component : Except Exc Nat) (position : Option Int) (init : Except Exc Unit)
    (app : Application V ρ η α) : Alike app (app.add component position init).1 := by
  rcases component with e | c <;> exact ⟨rfl, rfl, rfl⟩

theorem alike_configure (config : Dict String (Dict String V)) (app : Application V ρ η α) :
    Alike app (app.configure config).1 := by
  induction config generalizing app with
  | nil => exact .refl app
  | cons kv config ih =>
    simp only [Application.configure]
    split
    · exact .refl app
    · rename_i c _
      have hobject : Alike app (app.configureObject c kv.2) := ⟨rfl, rfl, rfl⟩
      exact hobject.trans (ih _)

theorem alike_afterConfigure (call : ConfigureCall V) (app : Application V ρ η α) : Alike app (app.afterConfigure call) := by
  cases call with
  | application config => exact alike_configure config app
  | component c kwargs => exact ⟨rfl, rfl, rfl⟩

theorem starts_stopLoop (object : Nat → Component V M) (cs : List Nat) : starts (stopLoop object cs).1 = [] := by
  induction cs with
  | nil => rfl
  | cons c cs ih =>
    simp only [stopLoop]
    split
    · exact ih
    · rfl

theorem alike_stop (app : Application V ρ η α) : Alike app app.stop.1 := by
  unfold stop
  split
  · exact ⟨rfl, rfl, by rw [starts, List.filter_append, ← starts, ← starts, starts_stopLoop, List.append_nil]⟩
  · exact .refl app

namespace Serving

variable {callNext : ρ → η → α} {s s' : Serving V ρ η α} {ops before after : List (Operation V)} {op : Operation V}

/-- The servers go on with the handler there is. -/
structure Goes (s : Serving V ρ η α) (ops : List (Operation V)) (s' : Serving V ρ η α) : Prop where
  alike : Alike s.app s'.app
  connections : s'.connections = s.connections ++ List.replicate (connects ops) s.app.handler

theorem after_goes (h : s.app.started = true ∨ op ≠ .lifecycle .start) : Goes s [op] (s.after callNext op) := by
  cases op with
  | add component position init => exact ⟨alike_add _ _ _ _, by simp [connects, Serving.after]⟩
  | configure call => exact ⟨alike_afterConfigure _ _, by simp [connects, Serving.after]⟩
  | connect => exact ⟨.refl _, by simp [connects, Serving.after]⟩
  | lifecycle call =>
    refine ⟨?_, by simp [connects, Serving.after]⟩
    cases call with
    | start =>
      have hs := h.resolve_right fun h => h rfl
      have hsame : s.app.start callNext = (s.app, .ok ()) := by rw [Application.start, if_pos hs]
      simp only [Serving.after, afterCall, hsame]
      exact .refl _
    | stop => exact alike_stop s.app

/-- No operation but the first `start()` changes the handler. -/
theorem afterAll_goes (h : s.app.started = true ∨ .lifecycle .start ∉ ops) : Goes s ops (s.afterAll callNext ops) := by
  induction ops generalizing s with
  | nil => exact ⟨.refl _, by simp [connects, afterAll]⟩
  | cons op ops ih =>
    have hop : s.app.started = true ∨ op ≠ .lifecycle .start := h.imp id fun h he => h (by simp [he])
    have hgoes : Goes s [op] (s.after callNext op) := after_goes hop
    obtain ⟨halike, hconnections⟩ := hgoes
    obtain ⟨halike', hconnections'⟩ := ih (s := s.after callNext op)
      (h.imp (halike.started.trans ·) fun h he => h (List.mem_cons_of_mem _ he))
    refine ⟨halike.trans halike', ?_⟩
    rw [afterAll, List.foldl_cons, ← afterAll, hconnections', hconnections, halike.handler, List.append_assoc,
      List.replicate_append_replicate, ← connects_append, List.singleton_append]

theorem afterAll_append (ops ops' : List (Operation V)) :
    s.afterAll callNext (ops ++ ops') = (s.afterAll callNext ops).afterAll callNext ops' :=
  List.foldl_append ..

end Serving

/-- Every sequence of operations on a new application: before the first `start()` connections get no handler; from then
on they get the one it has built of the components at that time, if none of them has raised, and that `start()` was the
only one to call the components' own. One that raises leaves the application without a handler for good. -/
theorem serving_spec (callNext : ρ → η → α) (object : Nat → Component V (Middleware ρ η α)) (components : List Nat)
    (handler : η) (ops : List (Operation V)) :
    let created : Serving V ρ η α := { app := { object, components, defaultHandler := handler } }
    (.lifecycle .start ∉ ops → (created.afterAll callNext ops).app.handler = none ∧
      starts (created.afterAll callNext ops).app.log = [] ∧
      (created.afterAll callNext ops).connections = List.replicate (connects ops) none) ∧
    ∀ before after, ops = before ++ .lifecycle .start :: after → .lifecycle .start ∉ before →
      let app := (created.afterAll callNext before).app
      (created.afterAll callNext ops).app.handler = built callNext app ∧
      starts (created.afterAll callNext ops).app.log =
        ((reached app.object app.components).filter fun c => (app.object c).enabled).map .start ∧
      (created.afterAll callNext ops).connections =
        List.replicate (connects before) none ++ List.replicate (connects after) (built callNext app) ∧
      (built callNext app = none ↔
        ∃ c ∈ app.components, ∃ e, (app.object c)._start = .error e ∧ e ≠ Component.DisableComponentError) := by
  intro created
  refine ⟨fun hno => ?_, ?_⟩
  · have hgoes : created.Goes ops (created.afterAll callNext ops) := Serving.afterAll_goes (.inr hno)
    obtain ⟨halike, hconnections⟩ := hgoes
    exact ⟨halike.handler, halike.starts, hconnections⟩
  · rintro before after rfl hno
    have hgoes : created.Goes before (created.afterAll callNext before) := Serving.afterAll_goes (.inr hno)
    obtain ⟨halike, hconnections⟩ := hgoes
    rw [Serving.afterAll_append]
    generalize created.afterAll callNext before = s at halike hconnections
    obtain ⟨hstarted, hbuilt, hlog⟩ := start_first callNext halike.started halike.handler
    have hlater : (s.after callNext (.lifecycle .start)).Goes after
        ((s.after callNext (.lifecycle .start)).afterAll callNext after) := Serving.afterAll_goes (.inl hstarted)
    obtain ⟨halike', hconnections'⟩ := hlater
    refine ⟨halike'.handler.trans hbuilt, ?_, ?_, built_eq_none⟩
    · have hfirst : starts (s.app.start callNext).1.log = ((reached s.app.object s.app.components).filter fun c =>
          (s.app.object c).enabled).map .start := by
        rw [hlog, starts, List.filter_append, ← starts, halike.starts, List.filter_eq_self.mpr]
        · rfl
        · intro e he
          obtain ⟨c, -, rfl⟩ := List.mem_map.mp he
          rfl
      exact halike'.starts.trans hfirst
    · have hsame : (s.after callNext (.lifecycle .start)).connections = s.connections := rfl
      have happ : (s.after callNext (.lifecycle .start)).app.handler = built callNext s.app := hbuilt
      rw [Serving.afterAll, List.foldl_cons, ← Serving.afterAll, hconnections', hsame, happ, hconnections]
      rfl

end Levin.Application
