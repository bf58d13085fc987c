import Levin.Core.Component

/-!
# The application (`levin/core/app.py`)

An application holds references to its components: two of them may be the same
object. `log` records each call of a component's own `start` or `stop`.
-/

namespace Levin

open Framework

inductive LifecycleEvent
  | start (component : Nat)
  | stop (component : Nat)
  deriving DecidableEq, Repr

structure Application (V ρ η α : Type) [PyObject V] where
  /-- The objects that the references stand for. -/
  object : Nat → Component V (Middleware ρ η α)
  /-- `_components` -/
  components : List Nat
  /-- `_handler` -/
  defaultHandler : η
  handler : Option (ρ → α) := none
  /-- `__start` -/
  started : Bool := false
  log : List LifecycleEvent := []

namespace Application

variable {V M ρ η α : Type} [PyObject V]

/-- `list.insert(index, x)` -/
def insert {β : Type} (index : Int) (x : β) (xs : List β) : List β :=
  let i := if index < 0 then index + xs.length else index
  xs.insertIdx (min i.toNat xs.length) x

/-- `add(component, position)`, of a component, or of what `create_component_from` makes or raises, whose `init`
returns or raises. -/
def add (component : Except Exc Nat) (position : Option Int) (init : Except Exc Unit) (app : Application V ρ η α) :
    Application V ρ η α × Except Exc Unit :=
  match component with
  | .error e => (app, .error e)
  | .ok c =>
    -- `position or len(self._components)`
    let index := (position.filter (· ≠ 0)).getD app.components.length
    ({ app with components := insert index c app.components }, init)

/-- The loop of `start` over the components: the calls of their own `start`, and the components to remove or the
exception that ends it. -/
def startLoop (object : Nat → Component V M) : List Nat → List LifecycleEvent × Except Exc (List Nat)
  | [] => ([], .ok [])
  | c :: cs =>
    let called := if (object c).enabled then [.start c] else []
    match (object c)._start with
    | .ok () => (called ++ (startLoop object cs).1, (startLoop object cs).2)
    | .error e =>
      if e = Component.DisableComponentError then
        (called ++ (startLoop object cs).1, (startLoop object cs).2.map fun toRemove => c :: toRemove)
      else (called, .error e)

/-- `start()`, with the function `_call_next` of the innermost step. -/
def start (callNext : ρ → η → α) (app : Application V ρ η α) : Application V ρ η α × Except Exc Unit :=
  if app.started then (app, .ok ())
  else
    let called := (startLoop app.object app.components).1
    match (startLoop app.object app.components).2 with
    | .error e => ({ app with started := true, log := app.log ++ called }, .error e)
    | .ok toRemove =>
      let components := toRemove.foldl List.erase app.components
      let chain := createHandler callNext (components.map fun c => (app.object c).middleware)
      ({ app with
          started := true, log := app.log ++ called, components := components
          handler := some fun request => chain request app.defaultHandler }, .ok ())

/-- The loop of `stop`. -/
def stopLoop (object : Nat → Component V M) : List Nat → List LifecycleEvent × Except Exc Unit
  | [] => ([], .ok ())
  | c :: cs =>
    match (object c).stop with
    | .ok () => (.stop c :: (stopLoop object cs).1, (stopLoop object cs).2)
    | .error e => ([.stop c], .error e)

/-- `stop()` -/
def stop (app : Application V ρ η α) : Application V ρ η α × Except Exc Unit :=
  if app.started then
    ({ app with log := app.log ++ (stopLoop app.object app.components).1 }, (stopLoop app.object app.components).2)
  else (app, .ok ())

/-- `get_component(name)` -/
def getComponent? (app : Application V ρ η α) (name : String) : Option Nat :=
  app.components.find? fun c => (app.object c).name = name

/-- `component.configure(**kwargs)` of one of the objects. -/
def configureObject (c : Nat) (kwargs : Dict String V) (app : Application V ρ η α) : Application V ρ η α :=
  { app with object := Function.update app.object c ((app.object c).configure kwargs) }

/-- `configure(config)` -/
def configure : Dict String (Dict String V) → Application V ρ η α → Application V ρ η α × Except Exc Unit
  | [], app => (app, .ok ())
  | (name, kwargs) :: config, app =>
    match app.getComponent? name with
    | none => (app, .error .ValueError)
    | some c => configure config (app.configureObject c kwargs)

end Application

end Levin
