import Levin.Proof.Profile.Closing

/-!
# How calls are counted

The event that records a call does not count it: each recorded call counts one less than
the events that were attributed to its key (`counts_traceAll`), so that the count is never
right (`ncalls_iff`).
-/

namespace Levin.SimpleProfile

open Framework

variable {getsource : GetSource} {p : SimpleProfile} {frame : ProfileFrame} {depth time : Nat} {e : TraceEvent}
  {keys : List LineKey}

/-! ## Where an event is recorded -/

/-- The key that a call, of a Python function or of a C function, is attributed to. -/
def attributedTo? (getsource : GetSource) (e : TraceEvent) (p : SimpleProfile) : Option LineKey :=
  if e.event.isCall then (located getsource e p).1.map fun place => frameKey place.1 place.2 else none

/-- The keys that the calls among some events are attributed to, until the profile function raises. -/
def attributions (getsource : GetSource) : List TraceEvent → SimpleProfile → List LineKey
  | [], _ => []
  | e :: es, p =>
    (attributedTo? getsource e p).toList ++
      match _trace getsource e p with
      | (.error _, _) => []
      | (.ok (), p) => attributions getsource es p

/-! ## The count of a call -/

/-- Each call counts one less than there are events of its key, and there is a call for each event. -/
structure Counts (keys : List LineKey) (p : SimpleProfile) : Prop where
  distinct : DistinctCalls p
  count : ∀ call ∈ p.calls, keys.count (lineKey call) = call.ncalls + 1
  recorded : ∀ k ∈ keys, k ∈ p.calls.map lineKey

namespace Counts

theorem congr {q : SimpleProfile} (h : Counts keys p) (hcalls : q.calls = p.calls) : Counts keys q where
  distinct := by
    rw [DistinctCalls, hcalls]
    exact h.distinct
  count := by
    rw [hcalls]
    exact h.count
  recorded := by
    rw [hcalls]
    exact h.recorded

theorem traceCall (h : Counts keys p) (frame : ProfileFrame) (depth time : Nat) :
    Counts (keys ++ [frameKey frame depth]) (traceCall frame depth time p) where
  distinct := distinct_traceCall frame depth time h.distinct
  count call hcall := by
    rw [List.count_append]
    rcases mem_traceCall h.distinct hcall with ⟨hcall, hkey⟩ | ⟨old, hold, hkey, rfl⟩ | ⟨hnew, rfl⟩
    · rw [h.count call hcall, List.count_singleton, if_neg (by simpa using Ne.symm hkey)]
    · have hcount := h.count old hold
      rw [hkey] at hcount
      rw [show lineKey { old with ncalls := old.ncalls + 1 } = frameKey frame depth from hkey, hcount,
        List.count_singleton_self]
    · have hkey : lineKey (createCallFrom frame depth time) = frameKey frame depth := rfl
      have hzero : keys.count (frameKey frame depth) = 0 := List.count_eq_zero.mpr fun hmem => hnew (h.recorded _ hmem)
      rw [hkey, hzero, List.count_singleton_self]
      rfl
  recorded k hk := by
    rcases List.mem_append.mp hk with hk | hk
    · exact hasCall_traceCall (h.recorded k hk)
    · rw [List.mem_singleton.mp hk]
      exact hasCall_traceCall_self frame depth time p

theorem traceReturn (h : Counts keys p) (frame : ProfileFrame) (depth time : Nat) :
    Counts keys (traceReturn frame depth time p).2 where
  distinct := by
    rw [DistinctCalls, keys_traceReturn]
    exact h.distinct
  count call hcall := by
    rcases mem_traceReturn h.distinct hcall with ⟨hcall, -⟩ | ⟨old, hold, -, rfl⟩
    · exact h.count call hcall
    · exact h.count old hold
  recorded k hk := hasCall_traceReturn.mpr (h.recorded k hk)

theorem trace (getsource : GetSource) (h : Counts keys p) (e : TraceEvent) :
    Counts (keys ++ (attributedTo? getsource e p).toList) (_trace getsource e p).2 := by
  have hlooked := h.congr (located_saved getsource e p).calls
  rw [trace_located]
  unfold attributedTo?
  generalize located getsource e p = r at hlooked ⊢
  obtain ⟨_ | ⟨frame, depth⟩, q⟩ := r
  · cases e.event.isCall <;> simpa using hlooked
  · cases e.event.isCall with
    | true => exact hlooked.traceCall frame depth e.time
    | false =>
      have hreturn := hlooked.traceReturn frame depth e.time
      simpa using hreturn

end Counts

theorem counts_traceAll (h : Counts keys p) (es : List TraceEvent) :
    Counts (keys ++ attributions getsource es p) (traceAll getsource es p).2 := by
  induction es generalizing keys p with
  | nil => simpa [attributions, traceAll] using h
  | cons e es ih =>
    have hstep := h.trace getsource e
    rw [attributions, traceAll]
    generalize _trace getsource e p = r at hstep ⊢
    obtain ⟨_ | _, q⟩ := r
    · simpa using hstep
    · rw [← List.append_assoc]
      exact ih hstep

theorem counts_of_calls_nil (getsource : GetSource) (h : p.calls = []) (es : List TraceEvent) :
    Counts (attributions getsource es p) (traceAll getsource es p).2 := by
  have hfirst : Counts [] p := by
    refine ⟨?_, fun call hcall => ?_, fun k hk => absurd hk List.not_mem_nil⟩
    · rw [DistinctCalls, h]
      exact List.nodup_nil
    · rw [h] at hcall
      cases hcall
  exact counts_traceAll hfirst es

/-- Each recorded call has as many calls as there were events attributed to its line, file and depth. -/
def Counted (getsource : GetSource) (es : List TraceEvent) (p : SimpleProfile) : Prop :=
  ∀ call ∈ (traceAll getsource es p).2.calls, call.ncalls = (attributions getsource es p).count (lineKey call)

/-- A profiler that has recorded nothing yet counts the calls of a sequence of events right only if none is attributed to
a line. -/
theorem ncalls_iff (h : p.calls = []) (es : List TraceEvent) : Counted getsource es p ↔ attributions getsource es p = [] := by
  have hcounts := counts_of_calls_nil getsource h es
  constructor
  · intro hright
    refine List.eq_nil_iff_forall_not_mem.mpr fun k hk => ?_
    obtain ⟨call, hcall, -⟩ := List.mem_map.mp (hcounts.recorded k hk)
    have hcount := hcounts.count call hcall
    rw [← hright call hcall] at hcount
    exact Nat.succ_ne_self _ hcount.symm
  · intro hnone call hcall
    have hcount := hcounts.count call hcall
    rw [hnone] at hcount
    cases hcount

/-- A target that calls nothing. -/
theorem ncalls_of_idle : Counted Samples.source
    [⟨.call, [⟨Samples.f, 1⟩, Samples.caller, Samples.wrap], 10⟩, ⟨.ret, [⟨Samples.f, 2⟩, Samples.caller, Samples.wrap], 11⟩]
    (withTarget Samples.source 2 false Samples.f) :=
  (ncalls_iff rfl _).mpr (by decide)

/-- Two lines are called once each, and have no calls. -/
theorem ncalls_short :
    TargetRun [] Samples.caller Samples.wrap Samples.f Samples.events ∧
      ¬ Counted Samples.source Samples.events (withTarget Samples.source 2 false Samples.f) := by
  refine ⟨Samples.targetRun_events, ?_⟩
  unfold Counted
  decide

end Levin.SimpleProfile
