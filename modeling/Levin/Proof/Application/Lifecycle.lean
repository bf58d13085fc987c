import Levin.Proof.Application.Chain
import Mathlib.Data.List.Nodup

/-!
# The lifecycle of components

`Application.stop` leaves the flag that `start` looks at as it is: what has been
stopped once is stopped again by every later `stop`, and started by no later
`start` (`stopsAfterStart`, `afterCalls_log`). `lifecycle_iff` says for which
sequences of calls each component is started and stopped in turn.
-/

namespace Levin.Application

open Framework

variable {V ρ η α : Type} [PyObject V]

/-- A call of an application's `start()` or `stop()`, or of a component's own. -/
inductive LifecycleCall
  | start
  | stop
  deriving DecidableEq, Repr

/-- The application after a call. -/
def afterCall (callNext : ρ → η → α) (app : Application V ρ η α) : LifecycleCall → Application V ρ η α
  | .start => (app.start callNext).1
  | .stop => app.stop.1

def afterCalls (callNext : ρ → η → α) (app : Application V ρ η α) (calls : List LifecycleCall) : Application V ρ η α :=
  calls.foldl (afterCall callNext) app

theorem afterCalls_snoc (callNext : ρ → η → α) (app : Application V ρ η α) (calls : List LifecycleCall)
    (call : LifecycleCall) :
    afterCalls callNext app (calls ++ [call]) = afterCall callNext (afterCalls callNext app calls) call := by
  simp only [afterCalls, List.foldl_append, List.foldl_cons, List.foldl_nil]

/-- What a component sees of a log: the calls of its own `start` and `stop`. -/
def own (c : Nat) (log : List LifecycleEvent) : List LifecycleCall :=
  log.filterMap fun e =>
    match e with
    | .start d => if d = c then some .start else none
    | .stop d => if d = c then some .stop else none

/-- Start and stop in turn, beginning with start. -/
def Alternating : List LifecycleCall → Prop
  | [] => True
  | [.start] => True
  | .start :: .stop :: calls => Alternating calls
  | _ => False

/-- The enabled components of a list. -/
def enabledOf (object : Nat → Component V (Middleware ρ η α)) (components : List Nat) : List Nat :=
  components.filter fun c => (object c).enabled

/-- Each enabled component has seen its start and stop in turn, and was running after each `start()` that came
after a `stop()`. -/
def Lifecycle (callNext : ρ → η → α) (app : Application V ρ η α) (calls : List LifecycleCall) : Prop :=
  ∀ c ∈ enabledOf app.object app.components,
    Alternating (own c (afterCalls callNext app calls).log) ∧
      ∀ before after, calls = before ++ .start :: after → .stop ∈ before →
        (own c (afterCalls callNext app (before ++ [.start])).log).getLast? = some .start

/-! ## How often the components have been stopped -/

/-- How often `stop()` was called after the first `start()`; `none` if there was no `start()`. -/
def stopsAfterStart : List LifecycleCall → Option Nat :=
  List.foldl (fun stops call =>
    match call, stops with
    | .start, none => some 0
    | .start, some k => some k
    | .stop, stops => stops.map (· + 1)) none

theorem stopsAfterStart_start (calls : List LifecycleCall) :
    stopsAfterStart (calls ++ [.start]) = some ((stopsAfterStart calls).getD 0) := by
  simp only [stopsAfterStart, List.foldl_append, List.foldl_cons, List.foldl_nil]
  split <;> simp_all

theorem stopsAfterStart_stop (calls : List LifecycleCall) :
    stopsAfterStart (calls ++ [.stop]) = (stopsAfterStart calls).map (· + 1) := by
  simp only [stopsAfterStart, List.foldl_append, List.foldl_cons, List.foldl_nil]

theorem stopsAfterStart_eq_none {calls : List LifecycleCall} :
    stopsAfterStart calls = none ↔ .start ∉ calls := by
  induction calls using List.reverseRecOn with
  | nil => simp [stopsAfterStart]
  | append_singleton calls call ih =>
    cases call with
    | start => simp [stopsAfterStart_start]
    | stop => simp [stopsAfterStart_stop, ih]

theorem stop_after_start_snoc (calls : List LifecycleCall) (call : LifecycleCall) :
    [.start, .stop].Sublist (calls ++ [call]) ↔
      [.start, .stop].Sublist calls ∨ call = .stop ∧ .start ∈ calls := by
  rw [List.sublist_append_iff]
  constructor
  · rintro ⟨front, last, heq, hfront, hlast⟩
    rcases List.sublist_singleton.mp hlast with rfl | rfl
    · rw [List.append_nil] at heq
      exact .inl (heq ▸ hfront)
    · have heq : [LifecycleCall.start] ++ [.stop] = front ++ [call] := heq
      obtain ⟨rfl, hcall⟩ := List.append_inj' heq rfl
      exact .inr ⟨(List.singleton_inj.mp hcall).symm, List.singleton_sublist.mp hfront⟩
  · rintro (h | ⟨rfl, h⟩)
    · exact ⟨_, [], (List.append_nil _).symm, h, List.nil_sublist _⟩
    · exact ⟨[.start], [.stop], rfl, List.singleton_sublist.mpr h, List.Sublist.refl _⟩

/-- There was a `stop()` after a `start()`. -/
theorem stopsAfterStart_pos {calls : List LifecycleCall} :
    (∃ k, stopsAfterStart calls = some (k + 1)) ↔ [.start, .stop].Sublist calls := by
  induction calls using List.reverseRecOn with
  | nil => simp [stopsAfterStart]
  | append_singleton calls call ih =>
    rw [stop_after_start_snoc, ← ih]
    cases call with
    | start =>
      rw [stopsAfterStart_start]
      cases stopsAfterStart calls <;> simp
    | stop =>
      have hnone : stopsAfterStart calls = none ↔ .start ∉ calls := stopsAfterStart_eq_none
      rw [stopsAfterStart_stop]
      cases h : stopsAfterStart calls with
      | none => simp_all
      | some k => simp_all

/-! ## The log -/

section Log

variable (callNext : ρ → η → α) {object : Nat → Component V (Middleware ρ η α)} {components : List Nat} (handler : η)

theorem stopLoop_eq {cs : List Nat} (h : ∀ c ∈ cs, (object c).stop = .ok ()) :
    stopLoop object cs = (cs.map .stop, .ok ()) := by
  induction cs with
  | nil => rfl
  | cons c cs ih =>
    simp [stopLoop, h c List.mem_cons_self, ih fun d hd => h d (List.mem_cons_of_mem _ hd)]

/-- What the calls have left of an application: as it was created, up to the first `start()`; from then on, a start
of each enabled component and all their stops, as often as they have been stopped. -/
def LeftBy (object : Nat → Component V (Middleware ρ η α)) (components : List Nat) (app : Application V ρ η α) :
    Option Nat → Prop
  | none => app.started = false ∧ app.components = components ∧ app.log = []
  | some k => app.started = true ∧ app.components = enabledOf object components ∧
      app.log = (enabledOf object components).map .start ++
        (List.replicate k ((enabledOf object components).map .stop)).flatten

theorem afterCalls_left (hstart : ∀ c ∈ components, (object c).enabled = true → (object c).start = .ok ())
    (hstop : ∀ c ∈ components, (object c).enabled = true → (object c).stop = .ok ()) (calls : List LifecycleCall) :
    let created : Application V ρ η α := { object, components, defaultHandler := handler }
    let app := afterCalls callNext created calls
    app.object = object ∧ LeftBy object components app (stopsAfterStart calls) := by
  intro created
  induction calls using List.reverseRecOn with
  | nil => exact ⟨rfl, rfl, rfl, rfl⟩
  | append_singleton calls call ih =>
    obtain ⟨hobject, hleft⟩ := ih
    rw [afterCalls_snoc]
    generalize afterCalls callNext created calls = app at hobject hleft ⊢
    cases call with
    | start =>
      rw [stopsAfterStart_start]
      cases hk : stopsAfterStart calls with
      | none =>
        obtain ⟨hst, hcs, hlog⟩ := hk ▸ hleft
        have heq := start_eq callNext hst (by rw [hobject, hcs]; exact hstart)
        rw [hobject, hcs, hlog] at heq
        rw [afterCall, heq]
        exact ⟨rfl, rfl, rfl, by simp [enabledOf]⟩
      | some k =>
        obtain ⟨hst, hcs, hlog⟩ := hk ▸ hleft
        have heq : app.start callNext = (app, .ok ()) := by rw [Application.start, if_pos hst]
        simp only [afterCall, heq]
        exact ⟨hobject, hst, hcs, hlog⟩
    | stop =>
      rw [stopsAfterStart_stop]
      cases hk : stopsAfterStart calls with
      | none =>
        obtain ⟨hst, hcs, hlog⟩ := hk ▸ hleft
        have heq : app.stop = (app, .ok ()) := by rw [Application.stop, if_neg (by simp [hst])]
        simp only [afterCall, heq]
        exact ⟨hobject, hst, hcs, hlog⟩
      | some k =>
        obtain ⟨hst, hcs, hlog⟩ := hk ▸ hleft
        have hstops : stopLoop object (enabledOf object components) =
            ((enabledOf object components).map .stop, .ok ()) := by
          refine stopLoop_eq fun c hc => ?_
          exact hstop c (List.mem_filter.mp hc).1 (List.mem_filter.mp hc).2
        simp only [afterCall, Application.stop, if_pos hst, hobject, hcs, hstops]
        refine ⟨trivial, hst, rfl, ?_⟩
        rw [hlog, List.append_assoc, List.replicate_succ', List.flatten_append, List.flatten_singleton]

end Log

/-! ## What a component sees of it -/

theorem own_append (c : Nat) (log log' : List LifecycleEvent) : own c (log ++ log') = own c log ++ own c log' :=
  List.filterMap_append

theorem own_starts (c : Nat) (cs : List Nat) : own c (cs.map .start) = List.replicate (cs.count c) .start := by
  induction cs with
  | nil => rfl
  | cons d cs ih =>
    by_cases h : d = c
    · simp [own, h, List.replicate_succ] at ih ⊢
      exact ih
    · simp [own, h] at ih ⊢
      exact ih

theorem own_stops (c : Nat) (cs : List Nat) : own c (cs.map .stop) = List.replicate (cs.count c) .stop := by
  induction cs with
  | nil => rfl
  | cons d cs ih =>
    by_cases h : d = c
    · simp [own, h, List.replicate_succ] at ih ⊢
      exact ih
    · simp [own, h] at ih ⊢
      exact ih

theorem own_log (c : Nat) (cs : List Nat) (k : Nat) :
    own c (cs.map .start ++ (List.replicate k (cs.map .stop)).flatten) =
      List.replicate (cs.count c) .start ++ List.replicate (k * cs.count c) .stop := by
  rw [own_append, own_starts]
  congr 1
  induction k with
  | zero => simp [own]
  | succ k ih =>
    rw [List.replicate_succ', List.flatten_append, List.flatten_singleton, own_append, ih, own_stops,
      List.replicate_append_replicate, Nat.succ_mul]

theorem alternating_iff {m n : Nat} (hm : 0 < m) :
    Alternating (List.replicate m .start ++ List.replicate n .stop) ↔ m = 1 ∧ n ≤ 1 := by
  match m, n with
  | 1, 0 => simp [Alternating]
  | 1, 1 => simp [Alternating]
  | 1, n + 2 => simp [Alternating, List.replicate_succ]
  | m + 2, n => simp [Alternating, List.replicate_succ]

/-! ## The sequences of calls that keep to the lifecycle -/

section Lifecycle

variable (callNext : ρ → η → α) {object : Nat → Component V (Middleware ρ η α)} {components : List Nat} (handler : η)

/-- What a component has seen: as many starts as it has places in the list of the enabled ones, and as many stops
as that for each time the components were stopped. -/
def seen (object : Nat → Component V (Middleware ρ η α)) (components : List Nat) (c : Nat) :
    Option Nat → List LifecycleCall
  | none => []
  | some k => List.replicate ((enabledOf object components).count c) .start ++
      List.replicate (k * (enabledOf object components).count c) .stop

theorem own_afterCalls (hstart : ∀ c ∈ components, (object c).enabled = true → (object c).start = .ok ())
    (hstop : ∀ c ∈ components, (object c).enabled = true → (object c).stop = .ok ()) (calls : List LifecycleCall)
    (c : Nat) : own c (afterCalls callNext { object, components, defaultHandler := handler } calls).log =
      seen object components c (stopsAfterStart calls) := by
  have hleft := (afterCalls_left callNext handler hstart hstop calls).2
  cases hk : stopsAfterStart calls with
  | none =>
    rw [hk] at hleft
    rw [hleft.2.2]
    rfl
  | some k =>
    rw [hk] at hleft
    rw [hleft.2.2, own_log]
    rfl

/-- After a `start()` the last thing a component has seen is its start if nothing was stopped before. -/
theorem getLast_seen_start {c : Nat} (hc : c ∈ enabledOf object components) (calls : List LifecycleCall) :
    (seen object components c (stopsAfterStart (calls ++ [.start]))).getLast? = some .start ↔
      ¬ [LifecycleCall.start, .stop].Sublist calls := by
  have hm : 0 < (enabledOf object components).count c := List.count_pos_iff.mpr hc
  rw [← stopsAfterStart_pos, stopsAfterStart_start, seen]
  generalize (enabledOf object components).count c = m at hm
  have hstarted : (List.replicate m LifecycleCall.start).getLast? = some .start := by
    rw [List.getLast?_replicate, if_neg (by omega)]
  rcases stopsAfterStart calls with _ | _ | k
  · simp [hstarted]
  · simp [hstarted]
  · have hpos : 0 < (k + 1) * m := Nat.mul_pos (by omega) hm
    have hlast : (List.replicate ((k + 1) * m) LifecycleCall.stop).getLast? = some .stop := by
      rw [List.getLast?_replicate, if_neg (by omega)]
    simp [List.getLast?_append, hlast]

/-- What a component has seen alternates if it is listed once and was stopped at most once. -/
theorem alternating_seen {c : Nat} (hc : c ∈ enabledOf object components) (k : Nat) :
    Alternating (seen object components c (some k)) ↔ (enabledOf object components).count c = 1 ∧ k ≤ 1 := by
  rw [seen, alternating_iff (List.count_pos_iff.mpr hc)]
  constructor
  · rintro ⟨hone, hk⟩
    rw [hone, Nat.mul_one] at hk
    exact ⟨hone, hk⟩
  · rintro ⟨hone, hk⟩
    rw [hone, Nat.mul_one]
    exact ⟨rfl, hk⟩

/-- No call comes after a `stop()` that follows a `start()`: then the components were stopped at most once. -/
theorem stops_le_one {calls : List LifecycleCall} (h : ¬ [LifecycleCall.start, .stop].Sublist calls.dropLast) {k : Nat}
    (hk : stopsAfterStart calls = some k) : k ≤ 1 := by
  rcases List.eq_nil_or_concat calls with rfl | ⟨init, call, rfl⟩
  · simp [stopsAfterStart] at hk
  rw [List.concat_eq_append] at h hk
  rw [List.dropLast_concat, ← stopsAfterStart_pos] at h
  cases call with
  | start =>
    rw [stopsAfterStart_start] at hk
    rcases hinit : stopsAfterStart init with _ | _ | n
    · simp [hinit] at hk
      omega
    · simp [hinit] at hk
      omega
    · exact absurd ⟨n, hinit⟩ h
  | stop =>
    rw [stopsAfterStart_stop] at hk
    rcases hinit : stopsAfterStart init with _ | _ | n
    · simp [hinit] at hk
    · simp [hinit] at hk
      omega
    · exact absurd ⟨n, hinit⟩ h

/-- The components are started and stopped in turn, and are running after each `start()`, exactly if none is enabled,
nothing is started, or no component is listed twice and no call comes after a `stop()` that follows a `start()`. -/
theorem lifecycle_iff (hstart : ∀ c ∈ components, (object c).enabled = true → (object c).start = .ok ())
    (hstop : ∀ c ∈ components, (object c).enabled = true → (object c).stop = .ok ()) (calls : List LifecycleCall) :
    Lifecycle callNext { object, components, defaultHandler := handler } calls ↔
      enabledOf object components = [] ∨ .start ∉ calls ∨
        ((enabledOf object components).Nodup ∧ ¬ [LifecycleCall.start, .stop].Sublist calls.dropLast) := by
  have hown := own_afterCalls callNext handler hstart hstop
  simp only [Lifecycle, hown]
  constructor
  · intro h
    by_cases hnone : enabledOf object components = []
    · exact .inl hnone
    by_cases hstarted : .start ∉ calls
    · exact .inr (.inl hstarted)
    obtain ⟨k, hk⟩ := Option.ne_none_iff_exists'.mp (mt stopsAfterStart_eq_none.mp hstarted)
    obtain ⟨c, hc⟩ := List.exists_mem_of_ne_nil _ hnone
    have halt : ∀ c ∈ enabledOf object components, (enabledOf object components).count c = 1 ∧ k ≤ 1 := by
      intro c hc
      exact (alternating_seen hc k).mp (hk ▸ (h c hc).1)
    refine .inr (.inr ⟨List.nodup_iff_count_eq_one.mpr fun c hc => (halt c hc).1, fun hsub => ?_⟩)
    rcases List.eq_nil_or_concat calls with rfl | ⟨init, call, rfl⟩
    · exact hstarted List.not_mem_nil
    rw [List.concat_eq_append] at h hk hsub
    rw [List.dropLast_concat] at hsub
    cases call with
    | start =>
      have hrunning := (h c hc).2 init [] rfl (hsub.subset (by simp))
      exact (getLast_seen_start hc init).mp hrunning hsub
    | stop =>
      obtain ⟨n, hn⟩ := stopsAfterStart_pos.mpr hsub
      rw [stopsAfterStart_stop, hn, Option.map_some] at hk
      have hk := Option.some.inj hk
      have hle := (halt c hc).2
      omega
  · rintro (hnone | hstarted | ⟨hnodup, hsub⟩) c hc
    · rw [hnone] at hc
      exact absurd hc List.not_mem_nil
    · rw [stopsAfterStart_eq_none.mpr hstarted]
      refine ⟨trivial, fun before after heq => ?_⟩
      exact absurd (heq ▸ List.mem_append_right _ List.mem_cons_self) hstarted
    · refine ⟨?_, fun before after heq _ => ?_⟩
      · cases hk : stopsAfterStart calls with
        | none => trivial
        | some k => exact (alternating_seen hc k).mpr ⟨List.nodup_iff_count_eq_one.mp hnodup c hc, stops_le_one hsub hk⟩
      · refine (getLast_seen_start hc before).mpr fun hbefore => hsub (hbefore.trans ?_)
        rw [heq, List.dropLast_append_of_ne_nil (List.cons_ne_nil _ _)]
        exact List.sublist_append_left _ _

end Lifecycle

/-- One component, whose start and stop succeed. -/
def oneComponent : Application Object Unit Unit Unit where
  object _ := { cls := plainClass, name := "plain" }
  components := [0]
  defaultHandler := ()

/-- Started and stopped by two servers, it is stopped twice. -/
theorem shared_not_lifecycle : ¬ Lifecycle (fun _ _ => ()) oneComponent [.start, .start, .stop, .stop] := by
  intro h
  have hone := (h 0 (by decide)).1
  have hown : own 0 (afterCalls (fun _ _ => ()) oneComponent [.start, .start, .stop, .stop]).log =
      [.start, .stop, .stop] := rfl
  rw [hown] at hone
  exact hone

theorem oneComponent_lifecycle : Lifecycle (fun _ _ => ()) oneComponent [.stop, .start, .start, .stop] :=
  (lifecycle_iff (fun _ _ => ()) () (by decide) (by decide) _).mpr (.inr (.inr ⟨by decide, by decide⟩))

end Levin.Application
