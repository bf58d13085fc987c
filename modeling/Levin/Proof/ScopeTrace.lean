import Levin.Framework.Descent
import Levin.Proof.Scope
import Mathlib.SetTheory.Ordinal.Family

/-!
# The scope of a request, with a trace

`Traced` is a request with a log of what has happened to its scope, and the
attributes that are being computed. Its operations are those of `ScopedRequest`
(`get_target`). A sequence of calls that never asks for an attribute while it is
being computed, and in which nothing raises, comes to an end: the functions that
wait in the scope to be called can only be replaced by smaller ones
(`run_terminates`).
-/

namespace Levin

open Framework

variable {V : Type}

/-- What happens to a scope. -/
inductive ScopeEvent (V : Type)
  /-- `set` is called. -/
  | set (key : Bytes) (slot : Slot V)
  /-- The function of an attribute is called. -/
  | started (key : Bytes) (func : Request → LazyFunc V)
  /-- It is called, but has not returned from a call before. -/
  | cycle (key : Bytes)
  | returned (key : Bytes) (v : V)
  | raised (e : Exc)
  /-- `get` returns `out`; the scope was `before` when it was called, and is `after` now. -/
  | got (key : Bytes) (out : Option V) (before after : Dict Bytes (Slot V))

/-- Neither a cycle nor an exception. -/
def ScopeEvent.clean : ScopeEvent V → Bool
  | .cycle _ | .raised _ => false
  | _ => true

structure Traced (V : Type) where
  target : ScopedRequest V
  /-- The attributes that are being computed, the innermost first. -/
  running : List Bytes := []
  log : List (ScopeEvent V) := []

namespace Traced

def add (e : ScopeEvent V) (t : Traced V) : Traced V := { t with log := t.log ++ [e] }

def set (key : Bytes) (slot : Slot V) (t : Traced V) : Traced V :=
  { t with target := t.target.set key slot }.add (.set key slot)

/-- The function of the attribute `key` is called. -/
def start (key : Bytes) (func : Request → LazyFunc V) (t : Traced V) : Traced V :=
  let t' := if t.running.contains key then t.add (.cycle key) else t
  { t' with running := key :: t.running }.add (.started key func)

/-- `ScopedRequest.run` -/
def run (get : Bytes → Traced V → Except Exc (Option V) × Traced V) :
    LazyFunc V → Traced V → Except Exc V × Traced V
  | .ret v, t => (.ok v, t)
  | .raise e, t => (.error e, t.add (.raised e))
  | .get item next, t =>
    match get item t with
    | (.ok v, t) => run get (next v) t
    | (.error e, t) => (.error e, t)
  | .set key value next, t => run get next (t.set key (.value value))
  | .setLazy key func next, t => run get next (t.set key (.lazy func))

/-- The function of `item` has returned `v`, in the state `t'`, to the `get` that called it in the state `t`. -/
def finish (item : Bytes) (t : Traced V) (v : V) (t' : Traced V) : Traced V :=
  let target := { t'.target with scope := t'.target.scope.set item (.value v) }
  ({ target, running := t.running, log := t'.log ++ [.returned item v] } : Traced V).add
    (.got item (some v) t.target.scope target.scope)

/-- `ScopedRequest.store` -/
def store (item : Bytes) (t : Traced V) : Except Exc V × Traced V → Except Exc (Option V) × Traced V
  | (.ok v, t') => (.ok (some v), finish item t v t')
  | (.error e, t') => (.error e, t')

/-- What is in the scope is returned. -/
def hit (item : Bytes) (out : Option V) (t : Traced V) : Traced V :=
  t.add (.got item out t.target.scope t.target.scope)

/-- `ScopedRequest.get` -/
def get : Nat → Bytes → Traced V → Except Exc (Option V) × Traced V
  | depth, item, t =>
    match t.target.scope.get? item with
    | none => (.ok none, t.hit item none)
    | some (.value v) => (.ok (some v), t.hit item (some v))
    | some (.lazy func) =>
      match depth with
      | 0 => (.error recursionError, t)
      | depth + 1 => store item t (run (get depth) (func t.target.request) (t.start item func))

/-- A sequence of calls on a new request. What it calls next may depend on what it has got. -/
def calls (depth : Nat) (prog : LazyFunc V) (request : Request) : Except Exc V × Traced V :=
  run (get depth) prog { target := { request, scope := [] } }

variable {t t' : Traced V} {item key : Bytes} {depth : Nat}

@[simp] theorem add_target (e : ScopeEvent V) (t : Traced V) : (t.add e).target = t.target := rfl

@[simp] theorem add_running (e : ScopeEvent V) (t : Traced V) : (t.add e).running = t.running := rfl

@[simp] theorem add_log (e : ScopeEvent V) (t : Traced V) : (t.add e).log = t.log ++ [e] := rfl

@[simp] theorem start_target (key : Bytes) (func : Request → LazyFunc V) (t : Traced V) :
    (t.start key func).target = t.target := by
  unfold start
  dsimp only
  split <;> rfl

@[simp] theorem start_running (key : Bytes) (func : Request → LazyFunc V) (t : Traced V) :
    (t.start key func).running = key :: t.running := rfl

theorem start_log_of_not_mem {key : Bytes} (h : key ∉ t.running) (func : Request → LazyFunc V) :
    (t.start key func).log = t.log ++ [.started key func] := by
  simp [start, h]

theorem cycle_mem_start {key : Bytes} (h : key ∈ t.running) (func : Request → LazyFunc V) :
    .cycle key ∈ (t.start key func).log := by
  simp [start, h]

/-- Nothing, or a value, is in the scope. -/
theorem get_of_hit {out : Option V} (h : t.target.scope.get? item = out.map .value) :
    t.get depth item = (.ok out, t.hit item out) := by
  unfold get
  cases out <;> rw [h] <;> rfl

theorem get_of_lazy_zero {func : Request → LazyFunc V} (h : t.target.scope.get? item = some (.lazy func)) :
    t.get 0 item = (.error recursionError, t) := by
  unfold get
  rw [h]

theorem get_of_lazy {func : Request → LazyFunc V} (h : t.target.scope.get? item = some (.lazy func)) :
    t.get (depth + 1) item = store item t (run (get depth) (func t.target.request) (t.start item func)) := by
  rw [get, h]

theorem slot_cases (slot : Option (Slot V)) :
    (∃ out : Option V, slot = out.map .value) ∨ ∃ func, slot = some (.lazy func) := by
  rcases slot with _ | ⟨v⟩ | ⟨func⟩
  · exact .inl ⟨none, rfl⟩
  · exact .inl ⟨some v, rfl⟩
  · exact .inr ⟨func, rfl⟩

/-- A `get` finds nothing or a value, or calls a function with one level less to spare. -/
theorem get_induct {P : Nat → Bytes → Traced V → Prop}
    (hhit : ∀ depth item (out : Option V) t, t.target.scope.get? item = out.map .value → P depth item t)
    (hzero : ∀ item func t, t.target.scope.get? item = some (.lazy func) → P 0 item t)
    (hsucc : ∀ depth item func t, t.target.scope.get? item = some (.lazy func) → (∀ item t, P depth item t) →
      P (depth + 1) item t) (depth : Nat) (item : Bytes) (t : Traced V) : P depth item t := by
  induction depth generalizing item t with
  | zero =>
    rcases slot_cases (t.target.scope.get? item) with ⟨out, h⟩ | ⟨func, h⟩
    · exact hhit 0 item out t h
    · exact hzero item func t h
  | succ depth ih =>
    rcases slot_cases (t.target.scope.get? item) with ⟨out, h⟩ | ⟨func, h⟩
    · exact hhit _ item out t h
    · exact hsucc depth item func t h ih

/-! ## Without the trace -/

/-- What comes of a traced operation, without its trace. -/
def forget {α : Type} (out : Except Exc α × Traced V) : Except Exc α × ScopedRequest V := (out.1, out.2.target)

theorem run_target {getT : Bytes → Traced V → Except Exc (Option V) × Traced V}
    {get : Bytes → ScopedRequest V → Except Exc (Option V) × ScopedRequest V}
    (h : ∀ item t, forget (getT item t) = get item t.target) (func : LazyFunc V) :
    ∀ t, forget (run getT func t) = ScopedRequest.run get func t.target := by
  induction func with
  | ret v => exact fun t => rfl
  | raise e => exact fun t => rfl
  | get item next ih =>
    intro t
    rw [run, ScopedRequest.run, ← h item t]
    rcases getT item t with ⟨e | v, t'⟩
    · rfl
    · exact ih v t'
  | set key value next ih => exact fun t => ih (t.set key (.value value))
  | setLazy key func next _ ih => exact fun t => ih (t.set key (.lazy func))

/-- The trace changes nothing. -/
theorem get_target (depth : Nat) (item : Bytes) (t : Traced V) :
    forget (t.get depth item) = t.target.get depth item := by
  induction depth, item, t using get_induct with
  | hhit depth item out t h =>
    rw [get_of_hit h]
    cases out
    · exact (ScopedRequest.get_of_none h).symm
    · exact (ScopedRequest.get_of_value h).symm
  | hzero item func t h => rw [get_of_lazy_zero h, ScopedRequest.get_of_lazy_zero h, forget]
  | hsucc depth item func t h ih =>
    have hrun := run_target ih (func t.target.request) (t.start item func)
    rw [start_target] at hrun
    rw [get_of_lazy h, ScopedRequest.get_of_lazy h, ← hrun]
    rcases run (get depth) (func t.target.request) (t.start item func) with ⟨e | v, t'⟩ <;> rfl

/-! ## The log grows -/

theorem add_grows (e : ScopeEvent V) (t : Traced V) : t.log <+: (t.add e).log := List.prefix_append _ _

theorem start_grows (key : Bytes) (func : Request → LazyFunc V) (t : Traced V) : t.log <+: (t.start key func).log := by
  unfold start
  dsimp only
  split
  · exact (add_grows _ t).trans (add_grows _ _)
  · exact add_grows _ _

theorem finish_grows (item : Bytes) (t : Traced V) (v : V) (t' : Traced V) : t'.log <+: (finish item t v t').log :=
  (List.prefix_append _ _).trans (List.prefix_append _ _)

theorem run_grows {get : Bytes → Traced V → Except Exc (Option V) × Traced V}
    (h : ∀ item t, t.log <+: (get item t).2.log) (func : LazyFunc V) : ∀ t, t.log <+: (run get func t).2.log := by
  induction func with
  | ret v => exact fun t => List.prefix_refl _
  | raise e => exact add_grows _
  | get item next ih =>
    intro t
    have hget := h item t
    rw [run]
    rcases hout : get item t with ⟨e | v, t'⟩ <;> rw [hout] at hget
    · exact hget
    · exact hget.trans (ih v t')
  | set key value next ih => exact fun t => (List.prefix_append _ _).trans (ih (t.set key (.value value)))
  | setLazy key func next _ ih => exact fun t => (List.prefix_append _ _).trans (ih (t.set key (.lazy func)))

theorem get_grows (depth : Nat) (item : Bytes) (t : Traced V) : t.log <+: (t.get depth item).2.log := by
  induction depth, item, t using get_induct with
  | hhit depth item out t h => exact get_of_hit h ▸ add_grows _ t
  | hzero item func t h => exact get_of_lazy_zero h ▸ List.prefix_refl _
  | hsucc depth item func t h ih =>
    have hrun := run_grows ih (func t.target.request) (t.start item func)
    rw [get_of_lazy h]
    rcases hout : run (get depth) (func t.target.request) (t.start item func) with ⟨e | v, t'⟩ <;> rw [hout] at hrun
    · exact (start_grows item func t).trans hrun
    · exact ((start_grows item func t).trans hrun).trans (finish_grows item t v t')

/-! ## What a call keeps that returns -/

section Keeps

variable {I : Traced V → Prop}

theorem run_ok_keeps {get : Bytes → Traced V → Except Exc (Option V) × Traced V}
    (hset : ∀ key slot t, I t → I (t.set key slot))
    (hget : ∀ item t out t', I t → get item t = (.ok out, t') → I t') (func : LazyFunc V) :
    ∀ t v t', I t → run get func t = (.ok v, t') → I t' := by
  induction func with
  | ret v =>
    intro t v' t' h hrun
    obtain ⟨-, rfl⟩ := Prod.mk.inj hrun
    exact h
  | raise e => exact fun t v t' h hrun => by cases hrun
  | get item next ih =>
    intro t v t' h hrun
    rw [run] at hrun
    rcases hout : get item t with ⟨e | out, t₁⟩ <;> rw [hout] at hrun
    · cases hrun
    · exact ih out t₁ v t' (hget item t out t₁ h hout) hrun
  | set key value next ih => exact fun t v t' h hrun => ih _ v t' (hset key _ t h) hrun
  | setLazy key func next _ ih => exact fun t v t' h hrun => ih _ v t' (hset key _ t h) hrun

/-- What `set`, an attribute that is in the scope and one that has been computed keep. -/
theorem get_ok_keeps (hset : ∀ key slot t, I t → I (t.set key slot))
    (hhit : ∀ item (out : Option V) t, I t → t.target.scope.get? item = out.map .value → I (t.hit item out))
    (hfinish : ∀ depth item func t v t', I t → t.target.scope.get? item = some (.lazy func) →
      run (get depth) (func t.target.request) (t.start item func) = (.ok v, t') →
      (I (t.start item func) → I t') → I (finish item t v t')) (depth : Nat) (item : Bytes) (t : Traced V) :
    ∀ out t', I t → t.get depth item = (.ok out, t') → I t' := by
  induction depth, item, t using get_induct with
  | hhit depth item out t hslot =>
    intro out' t' h hget
    rw [get_of_hit hslot] at hget
    obtain ⟨-, rfl⟩ := Prod.mk.inj hget
    exact hhit item out t h hslot
  | hzero item func t hslot =>
    intro out t' h hget
    rw [get_of_lazy_zero hslot] at hget
    cases hget
  | hsucc depth item func t hslot ih =>
    intro out t' h hget
    rw [get_of_lazy hslot] at hget
    rcases hrun : run (get depth) (func t.target.request) (t.start item func) with ⟨e | v, t₁⟩ <;> rw [hrun] at hget
    · cases hget
    · obtain ⟨-, rfl⟩ := Prod.mk.inj hget
      exact hfinish depth item func t v t₁ h hslot hrun fun hstart => run_ok_keeps hset ih _ _ _ _ hstart hrun

end Keeps

/-- A call that returns leaves the attributes that are being computed as they are. -/
theorem get_running {out : Option V} (h : t.get depth item = (.ok out, t')) : t'.running = t.running :=
  @get_ok_keeps V (fun t' => t'.running = t.running) (fun _ _ _ h => h) (fun _ _ _ h _ => h)
    (fun _ _ _ _ _ _ h _ _ _ => h) depth item t out t' rfl h

theorem run_running {func : LazyFunc V} {v : V} (h : run (get depth) func t = (.ok v, t')) : t'.running = t.running :=
  @run_ok_keeps V (fun t' => t'.running = t.running) (get depth) (fun _ _ _ h => h)
    (fun _ _ _ _ h hget => (get_running hget).trans h) func t v t' rfl h

end Traced

/-! ## Enough depth -/

/-- The size of a function: larger than that of what it does next, and of the functions it sets. -/
noncomputable def LazyFunc.rank : LazyFunc V → Ordinal.{0}
  | .ret _ | .raise _ => 0
  | .get _ next => ⨆ v, (next v).rank + 1
  | .set _ _ next => next.rank + 1
  | .setLazy _ func next => max (⨆ r, (func r).rank + 1) (next.rank + 1)

theorem LazyFunc.rank_get (item : Bytes) (next : Option V → LazyFunc V) (v : Option V) :
    (next v).rank < (LazyFunc.get item next).rank :=
  Ordinal.lt_iSup_add_one (fun v => (next v).rank) v

theorem LazyFunc.rank_set (key : Bytes) (value : V) (next : LazyFunc V) : next.rank < (LazyFunc.set key value next).rank :=
  lt_add_one _

theorem LazyFunc.rank_setLazy (key : Bytes) (func : Request → LazyFunc V) (next : LazyFunc V) :
    next.rank < (LazyFunc.setLazy key func next).rank :=
  lt_of_lt_of_le (lt_add_one _) (le_max_right _ _)

theorem LazyFunc.rank_func (key : Bytes) (func : Request → LazyFunc V) (next : LazyFunc V) (r : Request) :
    (func r).rank < (LazyFunc.setLazy key func next).rank :=
  lt_of_lt_of_le (Ordinal.lt_iSup_add_one (fun r => (func r).rank) r) (le_max_left _ _)

namespace Traced

variable {t t' : Traced V} {item key : Bytes} {depth : Nat}

/-- From some depth on, there is neither a cycle nor an exception but `RecursionError`. -/
def CleanFrom (func : LazyFunc V) (t : Traced V) : Prop :=
  ∃ N, ∀ depth ≥ N, ∀ e ∈ (run (get depth) func t).2.log, e.clean = true

/-- The functions that may still be called are among those in `P`, with their sizes. -/
def Covers (P : Multiset (Bytes × Ordinal.{0})) (t : Traced V) : Prop :=
  ∀ key func, t.target.scope.get? key = some (.lazy func) → key ∉ t.running → (key, (func t.target.request).rank) ∈ P

/-- The work left: the function at hand, and those that may still be called. -/
noncomputable def work (func : LazyFunc V) (P : Multiset (Bytes × Ordinal.{0})) : Multiset Ordinal.{0} :=
  func.rank ::ₘ P.map Prod.snd

/-- The function returns, whatever the depth from some on, and has made the work less. -/
def Terminates (func : LazyFunc V) (t : Traced V) (P : Multiset (Bytes × Ordinal.{0})) : Prop :=
  ∃ N v t' P', (∀ depth ≥ N, run (get depth) func t = (.ok v, t')) ∧ Covers P' t' ∧
    Multiset.IsDershowitzMannaLT (P'.map Prod.snd) (work func P)

theorem Covers.of_eq {P : Multiset (Bytes × Ordinal.{0})} (h : Covers P t) (htarget : t'.target = t.target)
    (hrunning : t'.running = t.running) : Covers P t' := by
  intro key func hslot hkey
  rw [htarget] at hslot ⊢
  exact h key func hslot (hrunning ▸ hkey)

/-- Setting a value adds nothing to what may be called. -/
theorem Covers.set {P : Multiset (Bytes × Ordinal.{0})} (h : Covers P t) (key : Bytes) (v : V) :
    Covers P (t.set key (.value v)) := by
  intro item func hslot hitem
  have hslot : (t.target.set key (.value v)).scope.get? item = some (.lazy func) := hslot
  rw [ScopedRequest.get?_set] at hslot
  have hold : t.target.scope.get? item = some (.lazy func) := by
    rcases Option.or_eq_some_iff.mp hslot with h | ⟨-, h⟩
    · exact h
    · split at h <;> cases h
  simpa [Traced.set] using h item func hold hitem

theorem Covers.setLazy {P : Multiset (Bytes × Ordinal.{0})} (h : Covers P t) (key : Bytes)
    (func : Request → LazyFunc V) : Covers ((key, (func t.target.request).rank) ::ₘ P) (t.set key (.lazy func)) := by
  intro item func' hslot hitem
  have hslot : (t.target.set key (.lazy func)).scope.get? item = some (.lazy func') := hslot
  rw [ScopedRequest.get?_set] at hslot
  rw [Multiset.mem_cons]
  rcases Option.or_eq_some_iff.mp hslot with hold | ⟨-, hnew⟩
  · exact .inr (by simpa [Traced.set] using h item func' hold hitem)
  · split at hnew
    · rename_i heq
      cases hnew
      exact .inl (by simp [Traced.set, heq])
    · cases hnew

/-- The function of `item` is called, and may not be called meanwhile. -/
theorem Covers.start {P : Multiset (Bytes × Ordinal.{0})} (h : Covers P t) (func : Request → LazyFunc V) :
    Covers (P.erase (item, (func t.target.request).rank)) (t.start item func) := by
  intro key func' hslot hkey
  rw [start_running, List.mem_cons, not_or] at hkey
  rw [start_target] at hslot ⊢
  exact (Multiset.mem_erase_of_ne fun heq => hkey.1 (Prod.mk.inj heq).1).mpr (h key func' hslot hkey.2)

/-- Once `item` has been computed, its function is not called again. -/
theorem Covers.finish {P : Multiset (Bytes × Ordinal.{0})} {v : V} (h : Covers P t')
    (hrunning : t'.running = item :: t.running) : Covers P (finish item t v t') := by
  intro key func hslot hkey
  have hslot : Dict.get? (Dict.set item (.value v) t'.target.scope) key = some (.lazy func) := hslot
  by_cases hitem : key = item
  · subst hitem
    rw [Dict.get?_set_self] at hslot
    cases hslot
  · rw [Dict.get?_set_of_ne _ _ hitem] at hslot
    refine h key func hslot ?_
    rw [hrunning, List.mem_cons, not_or]
    exact ⟨hitem, hkey⟩

/-- A function that goes on as another one does, with less work. -/
theorem Terminates.of_next {func func' : LazyFunc V} {P P' : Multiset (Bytes × Ordinal.{0})} (N : Nat)
    (h : Terminates func' t' P')
    (hrun : ∀ depth ≥ N, run (get depth) func t = run (get depth) func' t')
    (hless : Multiset.IsDershowitzMannaLT (work func' P') (work func P)) : Terminates func t P := by
  obtain ⟨N', v, t'', P'', hreturns, hcovers, hwork⟩ := h
  refine ⟨max N N', v, t'', P'', fun depth hdepth => ?_, hcovers, hwork.trans hless⟩
  rw [hrun depth (le_of_max_le_left hdepth), hreturns depth (le_of_max_le_right hdepth)]

theorem CleanFrom.of_next {func func' : LazyFunc V} (N : Nat) (h : CleanFrom func t)
    (hrun : ∀ depth ≥ N, run (get depth) func t = run (get depth) func' t') : CleanFrom func' t' := by
  obtain ⟨N', hclean⟩ := h
  refine ⟨max N N', fun depth hdepth => ?_⟩
  rw [← hrun depth (le_of_max_le_left hdepth)]
  exact hclean depth (le_of_max_le_right hdepth)

/-- What a function asks for is in the log of the function. -/
theorem get_grows_run (depth : Nat) (item : Bytes) (next : Option V → LazyFunc V) (t : Traced V) :
    (t.get depth item).2.log <+: (run (get depth) (.get item next) t).2.log := by
  rw [run]
  rcases t.get depth item with ⟨e | v, t'⟩
  · exact List.prefix_refl _
  · exact run_grows (get_grows depth) (next v) t'

theorem run_grows_get {func : Request → LazyFunc V} (h : t.target.scope.get? item = some (.lazy func)) (depth : Nat) :
    (run (get depth) (func t.target.request) (t.start item func)).2.log <+: (t.get (depth + 1) item).2.log := by
  rw [get_of_lazy h]
  rcases run (get depth) (func t.target.request) (t.start item func) with ⟨e | v, t'⟩
  · exact List.prefix_refl _
  · exact finish_grows item t v t'

/-- In a clean run no function is called that is being called. -/
theorem CleanFrom.not_running {next : Option V → LazyFunc V} {func : Request → LazyFunc V}
    (h : CleanFrom (.get item next) t) (hslot : t.target.scope.get? item = some (.lazy func)) : item ∉ t.running := by
  obtain ⟨N, hclean⟩ := h
  intro hrunning
  have hgrows := (run_grows (get_grows N) (func t.target.request) (t.start item func)).trans
    ((run_grows_get hslot N).trans (get_grows_run (N + 1) item next t))
  exact absurd (hclean (N + 1) (Nat.le_succ N) _ (hgrows.subset (cycle_mem_start hrunning func))) Bool.false_ne_true

theorem CleanFrom.start {next : Option V → LazyFunc V} {func : Request → LazyFunc V}
    (h : CleanFrom (.get item next) t) (hslot : t.target.scope.get? item = some (.lazy func)) :
    CleanFrom (func t.target.request) (t.start item func) := by
  obtain ⟨N, hclean⟩ := h
  refine ⟨N, fun depth hdepth e he => hclean (depth + 1) (Nat.le_succ_of_le hdepth) e ?_⟩
  exact ((run_grows_get hslot depth).trans (get_grows_run (depth + 1) item next t)).subset he

theorem not_cleanFrom_raise (e : Exc) (t : Traced V) : ¬ CleanFrom (.raise e) t := by
  rintro ⟨N, hclean⟩
  exact absurd (hclean N (Nat.le_refl N) (.raised e) (by simp [run])) Bool.false_ne_true

/-- The function of `item` is part of the work left: it is called with the others. -/
theorem work_erase {P : Multiset (Bytes × Ordinal.{0})} {func : LazyFunc V} (h : (item, func.rank) ∈ P) :
    work func (P.erase (item, func.rank)) = P.map Prod.snd := by
  rw [← congrArg (Multiset.map Prod.snd) (Multiset.cons_erase h), Multiset.map_cons, work]

theorem run_get_of_hit {next : Option V → LazyFunc V} {out : Option V}
    (h : t.target.scope.get? item = out.map .value) :
    run (get depth) (.get item next) t = run (get depth) (next out) (t.hit item out) := by
  rw [run, get_of_hit h]

theorem run_get_of_lazy {next : Option V → LazyFunc V} {func : Request → LazyFunc V} {v : V}
    (h : t.target.scope.get? item = some (.lazy func))
    (hreturns : run (get depth) (func t.target.request) (t.start item func) = (.ok v, t')) :
    run (get (depth + 1)) (.get item next) t = run (get (depth + 1)) (next (some v)) (finish item t v t') := by
  rw [run, get_of_lazy h, hreturns]
  rfl

/-- A function that is clean from some depth on returns from some depth on: by induction on the work
left, which each call takes away or makes smaller. -/
theorem run_terminates (func : LazyFunc V) (t : Traced V) (P : Multiset (Bytes × Ordinal.{0})) (hcovers : Covers P t)
    (hclean : CleanFrom func t) : Terminates func t P := by
  induction hwork : work func P using work_induction generalizing func t P with | step W ih
  subst hwork
  cases func with
  | ret v => exact ⟨0, v, t, P, fun _ _ => rfl, hcovers, less_cons _ _⟩
  | raise e => exact absurd hclean (not_cleanFrom_raise e t)
  | set key value next =>
    have hless : Multiset.IsDershowitzMannaLT (work next P) (work (.set key value next) P) :=
      cons_less (LazyFunc.rank_set key value next) _
    have hnext := ih _ hless next (t.set key (.value value)) P (hcovers.set key value)
      (hclean.of_next 0 fun _ _ => rfl) rfl
    exact hnext.of_next 0 (fun _ _ => rfl) hless
  | setLazy key func next =>
    have hless : Multiset.IsDershowitzMannaLT (work next ((key, (func t.target.request).rank) ::ₘ P))
        (work (.setLazy key func next) P) := by
      rw [work, Multiset.map_cons]
      exact cons_cons_less (LazyFunc.rank_setLazy key func next) (LazyFunc.rank_func key func next _) _
    have hnext := ih _ hless next (t.set key (.lazy func)) _ (hcovers.setLazy key func)
      (hclean.of_next 0 fun _ _ => rfl) rfl
    exact hnext.of_next 0 (fun _ _ => rfl) hless
  | get item next =>
    rcases slot_cases (t.target.scope.get? item) with ⟨out, hslot⟩ | ⟨func, hslot⟩
    · have hrun : ∀ depth ≥ 0, run (get depth) (.get item next) t = run (get depth) (next out) (t.hit item out) :=
        fun depth _ => run_get_of_hit hslot
      have hless : Multiset.IsDershowitzMannaLT (work (next out) P) (work (.get item next) P) :=
        cons_less (LazyFunc.rank_get item next out) _
      have hnext := ih _ hless (next out) (t.hit item out) P (hcovers.of_eq rfl rfl) (hclean.of_next 0 hrun) rfl
      exact hnext.of_next 0 hrun hless
    · -- First the function of the item returns, then what is done with what it returns.
      have htake := work_erase (hcovers item func hslot (hclean.not_running hslot))
      have hless : Multiset.IsDershowitzMannaLT
          (work (func t.target.request) (P.erase (item, (func t.target.request).rank))) (work (.get item next) P) := by
        rw [htake]
        exact less_cons _ _
      obtain ⟨N, v, t₁, P₁, hreturns, hcovers₁, hless₁⟩ := ih _ hless (func t.target.request) (t.start item func) _
        (hcovers.start func) (hclean.start hslot) rfl
      rw [htake] at hless₁
      have hrun : ∀ depth ≥ N + 1,
          run (get depth) (.get item next) t = run (get depth) (next (some v)) (finish item t v t₁) := by
        intro depth hdepth
        obtain ⟨d, rfl⟩ := Nat.exists_eq_add_of_le' (Nat.le_trans (Nat.le_add_left 1 N) hdepth)
        exact run_get_of_lazy hslot (hreturns d (Nat.le_of_add_le_add_right hdepth))
      have hrunning := run_running (hreturns N (Nat.le_refl N))
      have hless₂ : Multiset.IsDershowitzMannaLT (work (next (some v)) P₁) (work (.get item next) P) :=
        cons_less_cons (LazyFunc.rank_get item next (some v)) hless₁
      have hnext := ih _ hless₂ (next (some v)) (finish item t v t₁) P₁ (hcovers₁.finish hrunning)
        (hclean.of_next (N + 1) hrun) rfl
      exact hnext.of_next (N + 1) hrun hless₂

end Traced

end Levin
