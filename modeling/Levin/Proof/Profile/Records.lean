import Levin.Utils.Profile

/-!
# What the profile function records

Whatever it is called with, `_trace` may append a target function, and then record the
beginning or the end of a call, or nothing (`_trace_state`); the frame and the depth it
does so for are those of the event (`trace_located`). So no two calls have the same line,
file and depth (`distinct_trace`), and the source of every target function is there, if
it can be read (`sourced_trace`).
-/

namespace Levin.SimpleProfile

open Framework

variable {getsource : GetSource} {p q : SimpleProfile} {frame : ProfileFrame} {below : List ProfileFrame} {code : CodeAlias}
  {depth time : Nat}

/-! ## What a step can do -/

/-- The list of targets may have got one more. -/
def Saved (getsource : GetSource) (p q : SimpleProfile) : Prop := q = p ∨ ∃ code, q = (appendTarget getsource code p).2

/-- A call may have begun or ended. -/
def Recorded (time : Nat) (p q : SimpleProfile) : Prop :=
  q = p ∨ ∃ frame depth, q = traceCall frame depth time p ∨ q = (traceReturn frame depth time p).2

theorem saveFrame_saved (getsource : GetSource) (frame : ProfileFrame) (below : List ProfileFrame) (p : SimpleProfile) :
    Saved getsource p (saveFrame getsource frame below p).2 := by
  unfold saveFrame
  split
  · exact .inl rfl
  · cases below with
    | nil => exact .inl rfl
    | cons back rest =>
      show Saved getsource p (if back.code ∈ p.targetFunc then appendTarget getsource frame.code p else (.ok (), p)).2
      split
      · exact .inr ⟨frame.code, rfl⟩
      · exact .inl rfl

theorem currentDepth_snd (getsource : GetSource) (frame : ProfileFrame) (below : List ProfileFrame) (p : SimpleProfile) :
    (currentDepth getsource frame below p).2 = (saveFrame getsource frame below p).2 := by
  unfold currentDepth
  split <;> next heq => rw [heq]

/-- The frame and the depth that an event is recorded for, if it is, and the profiler once the targets have been looked
at. -/
def located (getsource : GetSource) (e : TraceEvent) (p : SimpleProfile) : Option (ProfileFrame × Nat) × SimpleProfile :=
  match eventFrame e.event e.frame with
  | [] => (none, p)
  | frame :: below =>
    match currentDepth getsource frame below p with
    | (.ok (some depth), p) => (some (frame, depth), p)
    | (.ok none, p) => (none, p)
    | (.error _, p) => (none, p)

theorem trace_located (getsource : GetSource) (e : TraceEvent) (p : SimpleProfile) :
    (_trace getsource e p).2 =
      match located getsource e p with
      | (none, q) => q
      | (some (frame, depth), q) =>
        if e.event.isCall then traceCall frame depth e.time q else (traceReturn frame depth e.time q).2 := by
  unfold _trace located
  by_cases hnil : e.frame = []
  · rw [if_pos hnil, hnil]
    cases e.event <;> rfl
  · rw [if_neg hnil]
    cases eventFrame e.event e.frame with
    | nil => rfl
    | cons frame below =>
      rcases hdepth : currentDepth getsource frame below p with ⟨_ | _ | depth, q⟩
      · simp only [hdepth]
      · simp only [hdepth]
      · simp only [hdepth]
        split <;> rfl

theorem located_snd (getsource : GetSource) (e : TraceEvent) (p : SimpleProfile) :
    (located getsource e p).2 = p ∨
      ∃ frame below, (located getsource e p).2 = (saveFrame getsource frame below p).2 := by
  unfold located
  split
  · exact .inl rfl
  · next frame below _ =>
    refine .inr ⟨frame, below, ?_⟩
    rw [← currentDepth_snd]
    split <;> next heq => rw [heq]

theorem located_saved (getsource : GetSource) (e : TraceEvent) (p : SimpleProfile) :
    Saved getsource p (located getsource e p).2 := by
  rcases located_snd getsource e p with heq | ⟨frame, below, heq⟩
  · exact .inl heq
  · rw [heq]
    exact saveFrame_saved getsource frame below p

/-- All that a call of the profile function can do. -/
theorem _trace_state (getsource : GetSource) (e : TraceEvent) (p : SimpleProfile) :
    ∃ q, Saved getsource p q ∧ Recorded e.time q (_trace getsource e p).2 := by
  refine ⟨(located getsource e p).2, located_saved getsource e p, ?_⟩
  rw [trace_located]
  generalize located getsource e p = r
  obtain ⟨_ | ⟨frame, depth⟩, q⟩ := r
  · exact .inl rfl
  · refine .inr ⟨frame, depth, ?_⟩
    dsimp only
    split
    · exact .inl rfl
    · exact .inr rfl

/-- What appending, and recording calls, keeps, the profile function keeps. -/
theorem _trace_keeps {I : SimpleProfile → Prop} (happend : ∀ code p, I p → I (appendTarget getsource code p).2)
    (hcall : ∀ frame depth time p, I p → I (traceCall frame depth time p))
    (hreturn : ∀ frame depth time p, I p → I (traceReturn frame depth time p).2) (e : TraceEvent) (h : I p) :
    I (_trace getsource e p).2 := by
  obtain ⟨q, hsaved, hrecorded⟩ := _trace_state getsource e p
  have hq : I q := by
    rcases hsaved with rfl | ⟨code, rfl⟩
    · exact h
    · exact happend code p h
  rcases hrecorded with heq | ⟨frame, depth, heq | heq⟩
  · rwa [heq]
  · rw [heq]
    exact hcall frame depth e.time q hq
  · rw [heq]
    exact hreturn frame depth e.time q hq

theorem traceAll_keeps {I : SimpleProfile → Prop} (h : ∀ e p, I p → I (_trace getsource e p).2) (es : List TraceEvent)
    (hp : I p) : I (traceAll getsource es p).2 := by
  induction es generalizing p with
  | nil => exact hp
  | cons e es ih =>
    have he := h e p hp
    unfold traceAll
    split
    · next heq => rwa [heq] at he
    · next heq =>
      rw [heq] at he
      exact ih he

/-! ## Appending a target -/

/-- The new target is there, whether its source can be read or not. -/
theorem appendTarget_eq (getsource : GetSource) (code : CodeAlias) (p : SimpleProfile) :
    (appendTarget getsource code p).2 =
      { p with
        targetFunc := p.targetFunc ++ [code]
        functionsCode := match getsource code.filename code.firstlineno with
          | none => p.functionsCode
          | some text => p.functionsCode.set (code.filename, code.firstlineno) text } := by
  unfold appendTarget saveFunction
  dsimp only
  cases getsource code.filename code.firstlineno with
  | none => rfl
  | some text => rfl

theorem Saved.calls {q : SimpleProfile} (h : Saved getsource p q) : q.calls = p.calls := by
  rcases h with rfl | ⟨code, rfl⟩
  · rfl
  · rw [appendTarget_eq]

/-- The sources that are there are those that can be read, and of each target function it is there, if it can. -/
structure Sourced (getsource : GetSource) (p : SimpleProfile) : Prop where
  saved : ∀ code ∈ p.targetFunc, ∀ text, getsource code.filename code.firstlineno = some text →
    p.functionsCode.get? (code.filename, code.firstlineno) = some text
  read : ∀ filename lineno text, p.functionsCode.get? (filename, lineno) = some text → getsource filename lineno = some text

/-- What is there for a target function is its source. -/
theorem Sourced.get? (h : Sourced getsource p) (hcode : code ∈ p.targetFunc) :
    p.functionsCode.get? (code.filename, code.firstlineno) = getsource code.filename code.firstlineno := by
  cases hsource : getsource code.filename code.firstlineno with
  | some text => exact h.saved code hcode text hsource
  | none =>
    cases hget : p.functionsCode.get? (code.filename, code.firstlineno) with
    | none => rfl
    | some text =>
      rw [h.read code.filename code.firstlineno text hget] at hsource
      cases hsource

/-- It depends on the target functions and the sources alone. -/
theorem Sourced.congr (h : Sourced getsource p) (heq : q.targetFunc = p.targetFunc ∧ q.functionsCode = p.functionsCode) :
    Sourced getsource q where
  saved := by
    rw [heq.1, heq.2]
    exact h.saved
  read := by
    rw [heq.2]
    exact h.read

theorem sourced_appendTarget (code : CodeAlias) (h : Sourced getsource p) :
    Sourced getsource (appendTarget getsource code p).2 := by
  rw [appendTarget_eq]
  constructor
  · intro code' hcode' text htext
    by_cases hkey : (code'.filename, code'.firstlineno) = (code.filename, code.firstlineno)
    · obtain ⟨hfilename, hfirstlineno⟩ := Prod.mk.inj hkey
      rw [hfilename, hfirstlineno] at htext ⊢
      simp only [htext, Dict.get?_set_self]
    · have hmem : code' ∈ p.targetFunc := by
        rcases List.mem_append.mp hcode' with hmem | hmem
        · exact hmem
        · rw [List.mem_singleton.mp hmem] at hkey
          exact absurd rfl hkey
      have hold := h.saved code' hmem text htext
      split
      · exact hold
      · rwa [Dict.get?_set_of_ne _ _ hkey]
  · intro filename lineno text hget
    dsimp only at hget
    split at hget
    · exact h.read filename lineno text hget
    · next text' htext' =>
      by_cases hkey : (filename, lineno) = (code.filename, code.firstlineno)
      · obtain ⟨rfl, rfl⟩ := Prod.mk.inj hkey
        rw [Dict.get?_set_self] at hget
        rw [htext', hget]
      · rw [Dict.get?_set_of_ne _ _ hkey] at hget
        exact h.read filename lineno text hget

/-! ## Recording calls -/

/-- The key of the calls from a frame at some depth. -/
def frameKey (frame : ProfileFrame) (depth : Nat) : LineKey := (frame.lineno, frame.code.filename, depth)

theorem isTheSameCall_iff {call : CallResult} : isTheSameCall frame depth call = true ↔ lineKey call = frameKey frame depth := by
  simp only [isTheSameCall, Bool.and_eq_true, decide_eq_true_eq, lineKey, frameKey, Prod.mk.injEq]
  constructor
  · rintro ⟨⟨rfl, hfilename⟩, hlineno⟩
    exact ⟨hlineno.symm, hfilename.symm, rfl⟩
  · rintro ⟨hlineno, hfilename, rfl⟩
    exact ⟨⟨rfl, hfilename.symm⟩, hlineno.symm⟩

theorem getTheSameCall?_eq_none :
    p.getTheSameCall? frame depth = none ↔ frameKey frame depth ∉ p.calls.map lineKey := by
  rw [getTheSameCall?, List.find?_eq_none, List.mem_map]
  constructor
  · rintro h ⟨call, hcall, hkey⟩
    exact h call hcall (isTheSameCall_iff.mpr hkey)
  · intro h call hcall hsame
    exact h ⟨call, hcall, isTheSameCall_iff.mp hsame⟩

theorem mem_of_getTheSameCall? {call : CallResult} (h : p.getTheSameCall? frame depth = some call) :
    frameKey frame depth ∈ p.calls.map lineKey := by
  by_contra hmem
  rw [getTheSameCall?_eq_none.mpr hmem] at h
  cases h

/-- A change that leaves something of each call as it is, such as its key. -/
theorem map_changeCall {β : Type} {get : CallResult → β} {change : CallResult → CallResult}
    (hchange : ∀ call, get (change call) = get call) (calls : List CallResult) :
    (changeCall frame depth change calls).map get = calls.map get := by
  induction calls with
  | nil => rfl
  | cons call calls ih =>
    rw [changeCall]
    split
    · rw [List.map_cons, List.map_cons, hchange]
    · rw [List.map_cons, List.map_cons, ih]

/-- Of distinct calls, the one that is changed, and the others. -/
theorem mem_changeCall {change : CallResult → CallResult} {calls : List CallResult} {call : CallResult}
    (hdistinct : (calls.map lineKey).Nodup) (h : call ∈ changeCall frame depth change calls) :
    (call ∈ calls ∧ lineKey call ≠ frameKey frame depth) ∨
      ∃ old ∈ calls, lineKey old = frameKey frame depth ∧ call = change old := by
  induction calls with
  | nil => cases h
  | cons first calls ih =>
    obtain ⟨hfirst, hdistinct⟩ := List.nodup_cons.mp hdistinct
    rw [changeCall] at h
    split at h
    · next hsame =>
      rw [isTheSameCall_iff] at hsame
      rcases List.mem_cons.mp h with rfl | h
      · exact .inr ⟨first, List.mem_cons_self, hsame, rfl⟩
      · refine .inl ⟨List.mem_cons_of_mem _ h, fun hkey => hfirst ?_⟩
        rw [hsame, ← hkey]
        exact List.mem_map_of_mem h
    · next hother =>
      rw [isTheSameCall_iff] at hother
      rcases List.mem_cons.mp h with rfl | h
      · exact .inl ⟨List.mem_cons_self, hother⟩
      · rcases ih hdistinct h with ⟨h, hkey⟩ | ⟨old, hold, hkey, rfl⟩
        · exact .inl ⟨List.mem_cons_of_mem _ h, hkey⟩
        · exact .inr ⟨old, List.mem_cons_of_mem _ hold, hkey, rfl⟩

/-- No two calls have the same key. -/
def DistinctCalls (p : SimpleProfile) : Prop := (p.calls.map lineKey).Nodup

/-- What the beginning of a call does to the calls: the one that is the same is counted, or a new one is recorded. -/
theorem mem_traceCall {call : CallResult} (hdistinct : DistinctCalls p) (h : call ∈ (traceCall frame depth time p).calls) :
    (call ∈ p.calls ∧ lineKey call ≠ frameKey frame depth) ∨
      (∃ old ∈ p.calls, lineKey old = frameKey frame depth ∧ call = { old with ncalls := old.ncalls + 1 }) ∨
      frameKey frame depth ∉ p.calls.map lineKey ∧ call = createCallFrom frame depth time := by
  unfold traceCall at h
  split at h
  · next hnone =>
    rw [getTheSameCall?_eq_none] at hnone
    rcases List.mem_append.mp h with h | h
    · refine .inl ⟨h, fun hkey => hnone ?_⟩
      rw [← hkey]
      exact List.mem_map_of_mem h
    · exact .inr (.inr ⟨hnone, List.mem_singleton.mp h⟩)
  · rcases mem_changeCall hdistinct h with h | ⟨old, hold, hkey, rfl⟩
    · exact .inl h
    · exact .inr (.inl ⟨old, hold, hkey, rfl⟩)

/-- What the end of a call does: it is set in the one that is the same. -/
theorem mem_traceReturn {call : CallResult} (hdistinct : DistinctCalls p)
    (h : call ∈ (traceReturn frame depth time p).2.calls) :
    (call ∈ p.calls ∧ lineKey call ≠ frameKey frame depth) ∨
      ∃ old ∈ p.calls, lineKey old = frameKey frame depth ∧ call = { old with end_ := time } := by
  unfold traceReturn at h
  split at h
  · next hnone =>
    refine .inl ⟨h, fun hkey => getTheSameCall?_eq_none.mp hnone ?_⟩
    rw [← hkey]
    exact List.mem_map_of_mem h
  · exact mem_changeCall hdistinct h

theorem keys_traceCall (frame : ProfileFrame) (depth time : Nat) (p : SimpleProfile) :
    (traceCall frame depth time p).calls.map lineKey =
      if frameKey frame depth ∈ p.calls.map lineKey then p.calls.map lineKey
      else p.calls.map lineKey ++ [frameKey frame depth] := by
  unfold traceCall
  split
  · next hnone =>
    rw [if_neg (getTheSameCall?_eq_none.mp hnone), List.map_append]
    rfl
  · next hsome =>
    rw [if_pos (mem_of_getTheSameCall? hsome), map_changeCall]
    exact fun _ => rfl

theorem keys_traceReturn (frame : ProfileFrame) (depth time : Nat) (p : SimpleProfile) :
    (traceReturn frame depth time p).2.calls.map lineKey = p.calls.map lineKey := by
  unfold traceReturn
  split
  · rfl
  · rw [map_changeCall]
    exact fun _ => rfl

theorem distinct_traceCall (frame : ProfileFrame) (depth time : Nat) (h : DistinctCalls p) :
    DistinctCalls (traceCall frame depth time p) := by
  rw [DistinctCalls, keys_traceCall]
  split
  · exact h
  · next hmem => exact List.nodup_append.mpr ⟨h, List.nodup_singleton _, fun a ha b hb heq => by
      rw [heq, List.mem_singleton.mp hb] at ha
      exact hmem ha⟩

/-- Distinct calls stay distinct. -/
theorem distinct_trace (e : TraceEvent) (h : DistinctCalls p) : DistinctCalls (_trace getsource e p).2 := by
  refine _trace_keeps (fun code p h => ?_) (fun frame depth time p h => distinct_traceCall frame depth time h)
    (fun frame depth time p h => ?_) e h
  · rw [appendTarget_eq]
    exact h
  · rwa [DistinctCalls, keys_traceReturn]

theorem targets_traceCall (frame : ProfileFrame) (depth time : Nat) (p : SimpleProfile) :
    (traceCall frame depth time p).targetFunc = p.targetFunc ∧
      (traceCall frame depth time p).functionsCode = p.functionsCode := by
  unfold traceCall
  split <;> exact ⟨rfl, rfl⟩

theorem targets_traceReturn (frame : ProfileFrame) (depth time : Nat) (p : SimpleProfile) :
    (traceReturn frame depth time p).2.targetFunc = p.targetFunc ∧
      (traceReturn frame depth time p).2.functionsCode = p.functionsCode := by
  unfold traceReturn
  split <;> exact ⟨rfl, rfl⟩

theorem sourced_trace (e : TraceEvent) (h : Sourced getsource p) : Sourced getsource (_trace getsource e p).2 := by
  refine _trace_keeps (fun code p h => sourced_appendTarget code h) (fun frame depth time p h => ?_)
    (fun frame depth time p h => ?_) e h
  · exact h.congr (targets_traceCall frame depth time p)
  · exact h.congr (targets_traceReturn frame depth time p)

/-! ## What stays as it is -/

/-- What was set when the profiler was made, or belongs to a run. -/
structure SameRun (p q : SimpleProfile) : Prop where
  depth : q.depth = p.depth
  traceMem : q.traceMem = p.traceMem
  origTrace : q.origTrace = p.origTrace
  traceMemSnapshot : q.traceMemSnapshot = p.traceMemSnapshot
  stopFlag : q.stopFlag = p.stopFlag

theorem SameRun.refl (p : SimpleProfile) : SameRun p p := ⟨rfl, rfl, rfl, rfl, rfl⟩

theorem sameRun_appendTarget {p₀ : SimpleProfile} (code : CodeAlias) (h : SameRun p₀ p) :
    SameRun p₀ (appendTarget getsource code p).2 := by
  rw [appendTarget_eq]
  exact ⟨h.depth, h.traceMem, h.origTrace, h.traceMemSnapshot, h.stopFlag⟩

theorem sameRun_traceCall {p₀ : SimpleProfile} (frame : ProfileFrame) (depth time : Nat) (h : SameRun p₀ p) :
    SameRun p₀ (traceCall frame depth time p) := by
  unfold traceCall
  split <;> exact ⟨h.depth, h.traceMem, h.origTrace, h.traceMemSnapshot, h.stopFlag⟩

theorem sameRun_traceReturn {p₀ : SimpleProfile} (frame : ProfileFrame) (depth time : Nat) (h : SameRun p₀ p) :
    SameRun p₀ (traceReturn frame depth time p).2 := by
  unfold traceReturn
  split <;> exact ⟨h.depth, h.traceMem, h.origTrace, h.traceMemSnapshot, h.stopFlag⟩

theorem sameRun_trace {p₀ : SimpleProfile} (e : TraceEvent) (h : SameRun p₀ p) : SameRun p₀ (_trace getsource e p).2 :=
  _trace_keeps (fun code _ h => sameRun_appendTarget code h) (fun frame depth time _ h => sameRun_traceCall frame depth time h)
    (fun frame depth time _ h => sameRun_traceReturn frame depth time h) e h

theorem sameRun_traceAll (getsource : GetSource) (es : List TraceEvent) (p : SimpleProfile) :
    SameRun p (traceAll getsource es p).2 :=
  traceAll_keeps (fun e _ h => sameRun_trace e h) es (SameRun.refl p)

/-- What is left after a run is what `stop` leaves, whatever the run gives. -/
theorem _run_snd (getsource : GetSource) (r : ProfiledRun) (s : Interpreter) :
    (_run getsource r s).2 = (stop r.snapshot (runFunc getsource r (startTrace s))).2 := by
  unfold _run
  split <;> next heq => rw [heq]

end Levin.SimpleProfile
