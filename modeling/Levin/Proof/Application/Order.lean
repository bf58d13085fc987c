import Levin.Framework.Run
import Levin.Proof.Application.Chain

/-!
# The order of components

`add` puts a component at `position or len(self._components)`: at position 0 it comes
last. So the components are in the order of the calls and their positions, after each
of them, exactly if what is added at position 0 finds nothing but itself in the list
(`order_iff`). The middlewares of the handler that `start` makes are in the order of
the list (`start_order`).
-/

namespace Levin.Application

open Framework

variable {V M ρ η α : Type} [PyObject V]

/-- A call of `add`: the component, or what making one raises, and what its `init` does. -/
structure Added where
  component : Except Exc Nat
  position : Option Int := none
  init : Except Exc Unit := .ok ()

/-- The list that a call should leave. -/
def placed (components : List Nat) (call : Added) : List Nat :=
  match call.component, call.position with
  | .error _, _ => components
  | .ok c, none => components ++ [c]
  | .ok c, some p => components.insertIdx p.toNat c

/-- The list that some calls should leave, of an application without components. -/
def listed (calls : List Added) : List Nat := calls.foldl placed []

/-- An application after some calls. -/
def addAll (app : Application V ρ η α) (calls : List Added) : Application V ρ η α :=
  calls.foldl (fun app call => (app.add call.component call.position call.init).1) app

/-- Each position is one of the list it is for, or its end. -/
def InRange (app : Application V ρ η α) (calls : List Added) : Prop :=
  ∀ before call after, calls = before ++ call :: after →
    ∀ p : Int, call.position = some p → 0 ≤ p ∧ p ≤ (app.addAll before).components.length

/-- What is added at position 0 finds nothing but itself in the list. -/
def OnlySelfAtZero (calls : List Added) : Prop :=
  ∀ before call after, calls = before ++ call :: after → call.position = some 0 →
    ∀ c, call.component = .ok c → ∀ d ∈ listed before, d = c

/-! ## What `add` does -/

section Add

variable {app : Application V ρ η α} {calls : List Added} {call : Added}

theorem insert_of_le {p : Int} {c : Nat} {cs : List Nat} (h₀ : 0 ≤ p) (h : p ≤ cs.length) :
    insert p c cs = cs.insertIdx p.toNat c := by
  have hp : ¬ p < 0 := by omega
  have hmin : min p.toNat cs.length = p.toNat := by omega
  simp only [insert, if_neg hp, hmin]

theorem insert_length (c : Nat) (cs : List Nat) : insert cs.length c cs = cs ++ [c] := by
  rw [insert_of_le (by omega) (Int.le_refl _), Int.toNat_natCast, List.insertIdx_length_self]

/-- A call puts its component where it should, but for position 0: there it puts it last. -/
theorem add_components (h : ∀ p : Int, call.position = some p → 0 ≤ p ∧ p ≤ app.components.length) :
    (app.add call.component call.position call.init).1.components =
      if call.position = some 0 then placed app.components { call with position := none }
      else placed app.components call := by
  obtain ⟨component, position, init⟩ := call
  cases component with
  | error e => exact (ite_self _).symm
  | ok c =>
    cases position with
    | none => exact insert_length c app.components
    | some p =>
      by_cases hp : p = 0
      · subst hp
        exact insert_length c app.components
      · have hp' : some p ≠ some 0 := fun heq => hp (Option.some.inj heq)
        obtain ⟨h₀, hlength⟩ := h p rfl
        rw [if_neg hp']
        simp [add, placed, Option.filter, hp, insert_of_le h₀ hlength]

theorem addAll_concat : app.addAll (calls ++ [call]) =
    ((app.addAll calls).add call.component call.position call.init).1 := List.foldl_concat ..

theorem listed_concat : listed (calls ++ [call]) = placed (listed calls) call := List.foldl_concat ..

/-- Nothing but the list changes. -/
theorem addAll_eq (app : Application V ρ η α) (calls : List Added) :
    app.addAll calls = { app with components := (app.addAll calls).components } := by
  induction calls using List.reverseRecOn with
  | nil => rfl
  | append_singleton calls call ih =>
    rw [addAll_concat, ih]
    rcases hcomponent : call.component with e | c <;> simp [add]

theorem inRange_concat (calls : List Added) (call : Added) : InRange app (calls ++ [call]) ↔
    InRange app calls ∧ ∀ p, call.position = some p → 0 ≤ p ∧ p ≤ (app.addAll calls).components.length :=
  forall_split_concat

theorem onlySelfAtZero_concat (calls : List Added) (call : Added) : OnlySelfAtZero (calls ++ [call]) ↔ OnlySelfAtZero calls ∧
    (call.position = some 0 → ∀ c, call.component = .ok c → ∀ d ∈ listed calls, d = c) :=
  forall_split_concat

/-- In front and behind is the same place of a list exactly if it has nothing else. -/
theorem append_eq_cons_iff {c : Nat} {cs : List Nat} : cs ++ [c] = c :: cs ↔ ∀ d ∈ cs, d = c := by
  induction cs with
  | nil => simp
  | cons d cs ih =>
    rw [List.cons_append, List.cons.injEq, List.forall_mem_cons]
    constructor
    · rintro ⟨rfl, h⟩
      exact ⟨rfl, ih.mp h⟩
    · rintro ⟨rfl, h⟩
      exact ⟨rfl, ih.mpr h⟩

/-- One more call leaves the list it should exactly if it is not at position 0, or finds only itself. -/
theorem components_concat_iff (h : InRange app (calls ++ [call])) (hcalls : (app.addAll calls).components = listed calls) :
    (app.addAll (calls ++ [call])).components = listed (calls ++ [call]) ↔
      (call.position = some 0 → ∀ c, call.component = .ok c → ∀ d ∈ listed calls, d = c) := by
  rw [addAll_concat, add_components ((inRange_concat _ _).mp h).2, listed_concat, hcalls]
  by_cases hp : call.position = some 0
  · rw [if_pos hp]
    rcases hcomponent : call.component with e | c
    · simp [placed, hcomponent]
    · simp [placed, hcomponent, hp, append_eq_cons_iff]
  · simp [hp]

theorem components_iff (h : InRange app calls) (happ : app.components = []) :
    (∀ done, done <+: calls → (app.addAll done).components = listed done) ↔ OnlySelfAtZero calls := by
  induction calls using List.reverseRecOn with
  | nil =>
    refine ⟨fun _ before call after heq => by simp at heq, fun _ done hdone => ?_⟩
    rw [List.prefix_nil.mp hdone]
    exact happ
  | append_singleton calls call ih =>
    have ih := ih ((inRange_concat _ _).mp h).1
    rw [onlySelfAtZero_concat, ← ih]
    constructor
    · intro hall
      have hbefore : ∀ done, done <+: calls → (app.addAll done).components = listed done :=
        fun done hdone => hall done (hdone.trans (List.prefix_append calls [call]))
      exact ⟨hbefore, (components_concat_iff h (hbefore calls (List.prefix_refl _))).mp (hall _ (List.prefix_refl _))⟩
    · rintro ⟨hbefore, hcall⟩ done hdone
      rcases List.prefix_concat_iff.mp hdone with rfl | hdone
      · exact (components_concat_iff h (hbefore calls (List.prefix_refl _))).mpr hcall
      · exact hbefore done hdone

end Add

/-! ## What `start` makes of the list -/

section Start

/-- The components that start, of those with a middleware, in order. -/
def startedLinks (object : Nat → Component V (Body V ρ)) (components : List Nat) : List (Nat × Body V ρ) :=
  (components.filter fun c => (object c)._start.isOk).filterMap fun c => (object c).middleware.map fun body => (c, body)

theorem startLoop_ok {object : Nat → Component V M} {cs toRemove : List Nat}
    (h : (startLoop object cs).2 = .ok toRemove) : toRemove = cs.filter fun c => ! (object c)._start.isOk := by
  induction cs generalizing toRemove with
  | nil => exact (Except.ok.inj h).symm
  | cons c cs ih =>
    rw [startLoop] at h
    rcases hstart : (object c)._start with e | u
    · simp only [hstart] at h
      split at h
      · rcases hrest : (startLoop object cs).2 with e' | rest
        · simp [hrest, Except.map] at h
        · rw [hrest] at h
          rw [List.filter_cons_of_pos (by simp [hstart, Except.isOk, Except.toBool]), ← ih hrest]
          exact (Except.ok.inj h).symm
      · cases h
    · rw [hstart] at h
      rw [List.filter_cons_of_neg (by simp [hstart, Except.isOk, Except.toBool])]
      exact ih h

/-- A handler that `start` makes runs the middlewares of the components that start, in the order of the list. -/
theorem start_order {object : Nat → Component V (Body V ρ)}
    {app : Application V ρ (Callable V) (List (Visit V ρ) × (Called V × ρ))} (hobject : app.object = recording object)
    (happ : app.started = false) (h : (app.start recordedCallNext).2 = .ok ()) :
    ∃ run, (app.start recordedCallNext).1.handler = some run ∧ ∀ request es a, run request = (es, a) ↔
      ChainRuns Innermost (startedLinks object app.components) request app.defaultHandler es a := by
  rw [start, if_neg (by simp [happ])] at h ⊢
  rcases hloop : (startLoop app.object app.components).2 with e | toRemove
  · simp [hloop] at h
  refine ⟨_, rfl, fun request es a => ?_⟩
  rw [startLoop_ok hloop, foldl_erase_filter, hobject, createHandler_recording]
  exact createHandler_runs (startedLinks object app.components)

end Start

/-! ## The order -/

/-- The components are these, and the middlewares of the handler that `start` makes are in their order. -/
def Ordered (object : Nat → Component V (Body V ρ))
    (app : Application V ρ (Callable V) (List (Visit V ρ) × (Called V × ρ))) (components : List Nat) : Prop :=
  app.components = components ∧ ((app.start recordedCallNext).2 = .ok () →
    ∃ run, (app.start recordedCallNext).1.handler = some run ∧ ∀ request es a, run request = (es, a) ↔
      ChainRuns Innermost (startedLinks object components) request app.defaultHandler es a)

/-- An application without components. -/
def empty (object : Nat → Component V (Body V ρ)) (handler : Callable V) :
    Application V ρ (Callable V) (List (Visit V ρ) × (Called V × ρ)) where
  object := recording object
  components := []
  defaultHandler := handler

/-- After each call the components are ordered as the calls say, and so are the middlewares, exactly if what is added
at position 0 finds nothing but itself. -/
theorem order_iff (object : Nat → Component V (Body V ρ)) (handler : Callable V) {calls : List Added}
    (h : InRange (empty object handler) calls) :
    (∀ done, done <+: calls → Ordered object ((empty object handler).addAll done) (listed done)) ↔
      OnlySelfAtZero calls := by
  rw [← components_iff h rfl]
  refine ⟨fun hall done hdone => (hall done hdone).1, fun hall done hdone => ⟨hall done hdone, fun hstart => ?_⟩⟩
  have heq := addAll_eq (empty object handler) done
  rw [← hall done hdone]
  exact start_order (by rw [heq]; rfl) (by rw [heq]; rfl) hstart

/-- A handler that returns. -/
def returning : Callable Object where
  signature := .ok []
  isCoroutineFunction := true
  call _ _ := { calls := [], result := .ok .none }

/-- A component, one behind it, and one between them. -/
def threeAdded : List Added :=
  [{ component := .ok 0 }, { component := .ok 2 }, { component := .ok 1, position := some 1 }]

theorem threeAdded_ordered : Ordered threeComponents ((empty threeComponents returning).addAll threeAdded) [0, 1, 2] := by
  have hrange : InRange (empty threeComponents returning) threeAdded := by
    refine (inRange_concat [_, _] _).mpr ⟨(inRange_concat [_] _).mpr ⟨(inRange_concat [] _).mpr ⟨?_, nofun⟩, nofun⟩, ?_⟩
    · exact fun before call after heq => absurd heq (by simp)
    · rintro p ⟨⟩
      decide
  have honly : OnlySelfAtZero threeAdded := by
    refine (onlySelfAtZero_concat [_, _] _).mpr
      ⟨(onlySelfAtZero_concat [_] _).mpr ⟨(onlySelfAtZero_concat [] _).mpr ⟨?_, nofun⟩, nofun⟩, nofun⟩
    exact fun before call after heq => absurd heq (by simp)
  exact (order_iff threeComponents returning hrange).mpr honly threeAdded (List.prefix_refl _)

/-- What is added at position 0 comes last. -/
theorem atZero_not_ordered : ¬ ∀ calls : List Added, InRange (empty threeComponents returning) calls →
    Ordered threeComponents ((empty threeComponents returning).addAll calls) (listed calls) := by
  intro h
  have hrange : InRange (empty threeComponents returning)
      [{ component := .ok 0 }, { component := .ok 1, position := some 0 }] := by
    refine (inRange_concat [_] _).mpr ⟨(inRange_concat [] _).mpr ⟨?_, nofun⟩, ?_⟩
    · exact fun before call after heq => absurd heq (by simp)
    · rintro p ⟨⟩
      decide
  exact absurd (h _ hrange).1 (by decide)

end Levin.Application
