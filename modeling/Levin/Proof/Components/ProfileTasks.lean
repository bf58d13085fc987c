import Levin.Components.ProfileTasks
import Mathlib.Data.List.Count

/-!
# Interleaved requests in `ProfileHandler`

A request looks for its hash, finds the lock free, takes it and removes the hash
in one step, so that nothing comes between (`step_cases`). Hence nobody ever
waits for the lock, and only its holder is profiled (`Exclusive`); each profiled
run takes away one of the hashes that requests before it have left (`Counted`).
-/

namespace Levin.ProfileTasks

open Framework

variable {s s' : ProfileTasks} {e : Event} {i : Nat} {hash : Bytes}

@[simp] theorem setStage_stage (stage : Option Stage) :
    (s.setStage i stage).stage = Function.update s.stage i stage := rfl

@[simp] theorem setStage_targets (stage : Option Stage) : (s.setStage i stage).targets = s.targets := rfl

@[simp] theorem setStage_log (stage : Option Stage) : (s.setStage i stage).log = s.log := rfl

@[simp] theorem add_stage (entry : Entry) : (s.add entry).stage = s.stage := rfl

@[simp] theorem add_targets (entry : Entry) : (s.add entry).targets = s.targets := rfl

@[simp] theorem add_log (entry : Entry) : (s.add entry).log = s.log ++ [entry] := rfl

/-! ## Who holds the lock -/

/-- Nobody waits for the lock, and only one request is profiled: the holder of the lock. -/
structure Exclusive (s : ProfileTasks) : Prop where
  waiters : s.lock.waiters = []
  waiting (i : Nat) : s.stage i ≠ some .waiting
  locked {i : Nat} (h : s.stage i = some .profiled) : s.lock.locked = true
  one {i j : Nat} (hi : s.stage i = some .profiled) (hj : s.stage j = some .profiled) : i = j

/-- The state once the request `i` is profiled. -/
def start (i : Nat) (hash : Bytes) (s : ProfileTasks) : ProfileTasks :=
  ({ s with lock := { locked := true }, targets := s.targets.erase hash }.setStage i (some .profiled)).add
    (.started hash)

theorem enter_start (hw : s.lock.waiters = []) (hmem : hash ∈ s.targets) (hl : s.lock.locked = false) :
    s.enter i hash = s.start i hash := by
  have hcontains := List.contains_iff_mem.mpr hmem
  rw [enter, if_pos ⟨hcontains, hl⟩, Lock.acquire_of_free hl hw]
  exact if_pos hcontains

/-- What a step can do where nobody waits for the lock. -/
theorem step_cases (h : Exclusive s) (hs : Step s e s') :
    (∃ i hash, e = .enter i hash ∧ s.stage i = none ∧ hash ∈ s.targets ∧ s.lock.locked = false ∧ s' = s.start i hash) ∨
    (∃ i hash, e = .enter i hash ∧ s.stage i = none ∧ s' = s.setStage i (some .plain)) ∨
    (∃ i, e = .release i ∧ s.stage i = some .profiled ∧ s' = s.release i) ∨
    ∃ i hash condition, e = .finish i hash condition ∧ s.stage i = some .plain ∧ s' = s.finish i hash condition := by
  cases e with
  | enter i hash =>
    obtain ⟨hi, hs⟩ := Option.ite_none_right_eq_some.mp hs
    obtain rfl := Option.some.inj hs
    by_cases hp : s.targets.contains hash ∧ s.lock.locked = false
    · have hmem := List.contains_iff_mem.mp hp.1
      exact .inl ⟨i, hash, rfl, hi, hmem, hp.2, enter_start h.waiters hmem hp.2⟩
    · exact .inr (.inl ⟨i, hash, rfl, hi, if_neg hp⟩)
  | wake i hash => exact absurd (Option.ite_none_right_eq_some.mp hs).1 (h.waiting i)
  | release i =>
    obtain ⟨hi, hs⟩ := Option.ite_none_right_eq_some.mp hs
    exact .inr (.inr (.inl ⟨i, rfl, hi, (Option.some.inj hs).symm⟩))
  | finish i hash condition =>
    obtain ⟨hi, hs⟩ := Option.ite_none_right_eq_some.mp hs
    exact .inr (.inr (.inr ⟨i, hash, condition, rfl, hi, (Option.some.inj hs).symm⟩))

/-- A request comes to a stage in which it is not profiled, and keeps the lock as it is. -/
theorem Exclusive.setStage (h : Exclusive s) {stage : Option Stage} (hw : stage ≠ some .waiting)
    (hp : stage ≠ some .profiled) : Exclusive (s.setStage i stage) := by
  have hother : ∀ {j}, (s.setStage i stage).stage j = some .profiled → s.stage j = some .profiled := by
    intro j hj
    rw [setStage_stage, Function.update_apply] at hj
    split at hj
    · exact absurd hj hp
    · exact hj
  refine ⟨h.waiters, fun j => ?_, fun hj => h.locked (hother hj), fun hj hk => h.one (hother hj) (hother hk)⟩
  rw [setStage_stage, Function.update_apply]
  split
  · exact hw
  · exact h.waiting j

theorem Exclusive.start (h : Exclusive s) (hl : s.lock.locked = false) : Exclusive (s.start i hash) := by
  have hnone : ∀ j, s.stage j ≠ some .profiled := fun j hj => by simp [h.locked hj] at hl
  have honly : ∀ {j}, (s.start i hash).stage j = some .profiled → j = i := by
    intro j hj
    by_contra hne
    exact hnone j (by simpa [ProfileTasks.start, hne] using hj)
  refine ⟨rfl, fun j => ?_, fun _ => rfl, fun hj hk => (honly hj).trans (honly hk).symm⟩
  by_cases hj : j = i
  · simp [ProfileTasks.start, hj]
  · simpa [ProfileTasks.start, hj] using h.waiting j

theorem Exclusive.release (h : Exclusive s) (hi : s.stage i = some .profiled) : Exclusive (s.release i) := by
  have hnone : ∀ j, (s.release i).stage j ≠ some .profiled := by
    intro j hj
    by_cases hji : j = i
    · simp [ProfileTasks.release, hji] at hj
    · exact hji (h.one (by simpa [ProfileTasks.release, hji] using hj) hi)
  refine ⟨h.waiters, fun j => ?_, fun hj => absurd hj (hnone _), fun hj => absurd hj (hnone _)⟩
  by_cases hji : j = i
  · simp [ProfileTasks.release, hji]
  · simpa [ProfileTasks.release, hji] using h.waiting j

theorem Exclusive.step (h : Exclusive s) (hs : Step s e s') : Exclusive s' := by
  obtain ⟨i, hash, -, -, -, hl, rfl⟩ | ⟨i, hash, -, -, rfl⟩ | ⟨i, -, hi, rfl⟩ | ⟨i, hash, condition, -, -, rfl⟩ :=
    step_cases h hs
  · exact h.start hl
  · exact h.setStage (by simp) (by simp)
  · exact h.release hi
  · have hdone : Exclusive (s.setStage i none) := h.setStage (by simp) (by simp)
    cases condition with
    | unmet => exact hdone
    | raises => exact hdone
    | met logs => exact ⟨hdone.waiters, hdone.waiting, hdone.locked, hdone.one⟩

/-! ## What is in the log -/

/-- The hashes in `targets` are of requests that have met the condition and have not been paid back
with a profiled run. -/
structure Counted (s : ProfileTasks) : Prop where
  targets (hash : Bytes) : s.log.count (.started hash) + s.targets.count hash ≤ s.log.count (.met hash)
  earlier {log : List Entry} (h : log <+: s.log) (hash : Bytes) : log.count (.started hash) ≤ log.count (.met hash)
  waits : .waits ∉ s.log
  valueError (hash : Bytes) : .valueError hash ∉ s.log

theorem Counted.of_eq (h : Counted s) (ht : s'.targets = s.targets) (hl : s'.log = s.log) : Counted s' where
  targets hash := by rw [ht, hl]; exact h.targets hash
  earlier hlog := h.earlier (hl ▸ hlog)
  waits := by rw [hl]; exact h.waits
  valueError hash := by rw [hl]; exact h.valueError hash

/-- One entry more. -/
theorem Counted.snoc {entry : Entry} (h : Counted s) (hlog : s'.log = s.log ++ [entry])
    (ht : ∀ hash, s'.log.count (.started hash) + s'.targets.count hash ≤ s'.log.count (.met hash))
    (hw : entry ≠ .waits) (hv : ∀ hash, entry ≠ .valueError hash) : Counted s' where
  targets := ht
  earlier {log} hl hash := by
    rw [hlog, List.prefix_concat_iff, ← hlog] at hl
    rcases hl with rfl | hl
    · exact Nat.le_trans (Nat.le_add_right _ _) (ht hash)
    · exact h.earlier hl hash
  waits := by simpa [hlog, h.waits] using hw.symm
  valueError hash := by simpa [hlog, h.valueError] using (hv hash).symm

theorem Counted.start (h : Counted s) (hmem : hash ∈ s.targets) : Counted (s.start i hash) := by
  refine h.snoc rfl (fun other => ?_) (by simp) (by simp)
  have hle := h.targets other
  simp only [ProfileTasks.start, add_log, setStage_log, add_targets, setStage_targets, List.count_append]
  by_cases hother : other = hash
  · subst hother
    have hpos := List.count_pos_iff.mpr hmem
    rw [List.count_erase_self]
    simp
    omega
  · rw [List.count_erase_of_ne hother]
    simpa [Ne.symm hother] using hle

theorem Counted.finish (h : Counted s) (condition : Condition) : Counted (s.finish i hash condition) := by
  cases condition with
  | unmet => exact h.of_eq rfl rfl
  | raises => exact h.of_eq rfl rfl
  | met logs =>
    refine h.snoc rfl (fun other => ?_) (by simp) (by simp)
    have hle := h.targets other
    simp only [ProfileTasks.finish, add_log, setStage_log, add_targets, setStage_targets, List.count_append]
    cases logs <;> by_cases hother : hash = other <;> simp [List.count_append, hother] <;> omega

theorem Counted.step (hx : Exclusive s) (h : Counted s) (hs : Step s e s') : Counted s' := by
  obtain ⟨i, hash, -, -, hmem, -, rfl⟩ | ⟨i, hash, -, -, rfl⟩ | ⟨i, -, -, rfl⟩ | ⟨i, hash, condition, -, -, rfl⟩ :=
    step_cases hx hs
  · exact h.start hmem
  · exact h.of_eq rfl rfl
  · exact h.of_eq rfl rfl
  · exact h.finish condition

/-! ## Every interleaving -/

structure Safe (s : ProfileTasks) : Prop where
  /-- `_targets.remove` never raises. -/
  valueError (hash : Bytes) : .valueError hash ∉ s.log
  /-- At most one request is profiled. -/
  one {i j : Nat} (hi : s.stage i = some .profiled) (hj : s.stage j = some .profiled) : i = j
  /-- No request waits for the lock, or ever has. -/
  waits : .waits ∉ s.log ∧ ∀ i, s.stage i ≠ some .waiting
  /-- At any time, no more profiled runs have started than requests have met the condition before. -/
  started {log : List Entry} (h : log <+: s.log) (hash : Bytes) : log.count (.started hash) ≤ log.count (.met hash)

variable {es : List Event}

theorem exclusive_new : Exclusive {} := ⟨rfl, nofun, nofun, nofun⟩

theorem counted_new : Counted {} where
  targets _ := Nat.le_refl _
  earlier h _ := by
    obtain rfl := List.prefix_nil.mp h
    exact Nat.le_refl _
  waits := nofun
  valueError _ := nofun

theorem run_exclusive (h : Run Step {} es s) : Exclusive s :=
  h.invariant exclusive_new fun _ _ _ => Exclusive.step

/-- However the requests interleave, `ProfileHandler` is safe. -/
theorem run_safe (h : Run Step {} es s) : Safe s := by
  have hx := run_exclusive h
  have hc : Counted s := by
    induction h with
    | nil => exact counted_new
    | snoc h hs ih => exact Counted.step (run_exclusive h) (ih (run_exclusive h)) hs
  exact ⟨hc.valueError, hx.one, ⟨hc.waits, hx.waiting⟩, hc.earlier⟩

/-- A request has met the condition; two more come, and one of them is profiled. -/
def threeRequests (hash : Bytes) : List Event :=
  [.enter 0 hash, .finish 0 hash (.met true), .enter 1 hash, .enter 2 hash]

theorem threeRequests_safe : ∃ s, Run Step {} (threeRequests (Bytes.ascii "/qwert/GET")) s ∧ Safe s ∧
    s.log = [.met (Bytes.ascii "/qwert/GET"), .started (Bytes.ascii "/qwert/GET")] :=
  have h : ∃ s, (threeRequests (Bytes.ascii "/qwert/GET")).foldlM step {} = some s ∧
      s.log = [.met (Bytes.ascii "/qwert/GET"), .started (Bytes.ascii "/qwert/GET")] := ⟨_, rfl, rfl⟩
  let ⟨s, hs, hlog⟩ := h
  have hrun : Run Step {} (threeRequests (Bytes.ascii "/qwert/GET")) s := .of_foldlM hs
  ⟨s, hrun, run_safe hrun, hlog⟩

/-! ## One request alone -/

variable {V : Type}

/-- The `ProfileHandler` that a request finds. -/
def ofWorld (w : World V) : ProfileTasks := { targets := w.targets, lock := { locked := w.locked } }

/-- The end of a request that is not profiled. -/
theorem profileHandler_finish {t : Components.Tracing V} {meets : Option V → Nat → Except Exc Bool} {time : Nat} {w : World V}
    {handler : Callable V} {callNext : World V → Callable V → Called V × World V} (hp : ¬ Components.Profiled w) :
    ∃ hash condition, ∀ s : ProfileTasks, s.targets = (callNext w handler).2.targets →
      (s.finish i hash condition).targets = (Components.profileHandler t meets time w handler callNext).2.targets ∧
        (Components.profileHandler t meets time w handler callNext).2.locked = (callNext w handler).2.locked := by
  simp only [Components.profileHandler, if_neg hp]
  split
  · exact ⟨[], .raises, fun s hs => ⟨hs, rfl⟩⟩
  · exact ⟨[], .unmet, fun s hs => ⟨hs, rfl⟩⟩
  · split
    · exact ⟨[], .met false, fun s hs => ⟨hs, rfl⟩⟩
    · exact ⟨_, .met true, fun s hs => ⟨congrArg (· ++ _) hs, rfl⟩⟩

/-- What `middleware` does to `_targets` and to the lock for one request is what a run does in which it
enters and leaves. -/
theorem profileHandler_run (t : Components.Tracing V) (meets : Option V → Nat → Except Exc Bool) (time : Nat) (w : World V)
    (handler : Callable V) {callNext : World V → Callable V → Called V × World V}
    (hkeeps : ∀ w handler, (callNext w handler).2.targets = w.targets ∧ (callNext w handler).2.locked = w.locked) :
    ∃ es s, Run Step (ofWorld w) es s ∧
      s.targets = (Components.profileHandler t meets time w handler callNext).2.targets ∧
      s.lock.locked = (Components.profileHandler t meets time w handler callNext).2.locked := by
  have henter : Step (ofWorld w) (.enter 0 (Components.requestHash w.request))
      ((ofWorld w).enter 0 (Components.requestHash w.request)) := rfl
  by_cases hp : Components.Profiled w
  · rw [enter_start rfl hp.1 hp.2] at henter
    refine ⟨[.enter 0 _, .release 0], _, .snoc (.single henter) rfl, ?_⟩
    rw [Components.profileHandler, if_pos hp]
    simp only [Components.runWithProfile]
    split
    · exact ⟨rfl, rfl⟩
    · next profiler _ =>
      obtain ⟨ht, -⟩ := hkeeps (World.get? "depth"
        { w with locked := true, targets := w.targets.erase (Components.requestHash w.request) }).2
        (Components.trace t (SimpleProfile.trace { profiler, profile := t.profile }) handler)
      exact ⟨ht.symm, rfl⟩
  · have hplain : (ofWorld w).enter 0 (Components.requestHash w.request) = (ofWorld w).setStage 0 (some .plain) :=
      if_neg fun hcontains => hp ⟨List.contains_iff_mem.mp hcontains.1, hcontains.2⟩
    obtain ⟨ht, hl⟩ := hkeeps w handler
    obtain ⟨hash, condition, hfinish⟩ := profileHandler_finish (i := 0) hp
    rw [hplain] at henter
    obtain ⟨htargets, hlocked⟩ := hfinish ((ofWorld w).setStage 0 (some .plain)) ht.symm
    refine ⟨[.enter 0 _, .finish 0 hash condition], _, .snoc (.single henter) rfl, htargets, ?_⟩
    rw [hlocked, hl]
    cases condition <;> rfl

end Levin.ProfileTasks
