import Levin.Proof.Profile.Lines

/-!
# What `get_lines` returns

`get_lines` raises if the source of a target function could not be read, and if a line
of one is met, memory is to be traced, and no snapshot has been taken, as when the
wrapped handler was never called. Otherwise it returns the recorded calls and the lines
of the target functions, each once and in order, and returns them again when it is
called again (`lists_iff`).
-/

namespace Levin.SimpleProfile

open Framework

variable {getsource : GetSource} {p : SimpleProfile} {k : LineKey} {call : CallResult}

/-- What a profiler can become: targets are added, functions are wrapped, `_trace` is called with anything, it is
stopped, and its lines are asked for. -/
inductive Reachable (getsource : GetSource) : SimpleProfile → Prop
  | init (depth : Nat) (traceMem : Bool) : Reachable getsource { depth, traceMem }
  | addTarget {p : SimpleProfile} (func : Option CodeAlias) (h : Reachable getsource p) :
      Reachable getsource (SimpleProfile.addTarget getsource func p).2
  | wrap {p : SimpleProfile} (profile : Option ProfileFunction) (h : Reachable getsource p) :
      Reachable getsource (SimpleProfile.trace { profiler := p, profile }).profiler
  | trace {p : SimpleProfile} (e : TraceEvent) (h : Reachable getsource p) : Reachable getsource (_trace getsource e p).2
  | stop {p : SimpleProfile} (snapshot : Except Exc Snapshot) (profile : Option ProfileFunction)
      (h : Reachable getsource p) : Reachable getsource (SimpleProfile.stop snapshot { profiler := p, profile }).2.profiler
  | getLines {p : SimpleProfile} (h : Reachable getsource p) : Reachable getsource p.getLines.2

/-- The key of a line of a target function that is not blank, and not the first. -/
def IsSourceLine (getsource : GetSource) (p : SimpleProfile) (k : LineKey) : Prop :=
  ∃ d code text i line, p.targetFunc[d]? = some code ∧ getsource code.filename code.firstlineno = some text ∧
    (Text.splitlines text)[i + 1]? = some line ∧ Text.isBlank line = false ∧
    k = (i + 1 + code.firstlineno, code.filename, d + 1)

/-- The recorded calls, and the lines of the target functions. -/
structure IsListing (getsource : GetSource) (p : SimpleProfile) (lines : List CallResult) : Prop where
  increasing : lines.Pairwise fun a b => sortKey a < sortKey b
  recorded : ∀ call ∈ p.calls, ∃! line, line ∈ lines ∧ lineKey line = lineKey call
  unchanged : ∀ call ∈ p.calls, ∀ line ∈ lines, lineKey line = lineKey call → line = { call with mem := line.mem }
  source : ∀ k, IsSourceLine getsource p k → ∃! line, line ∈ lines ∧ lineKey line = k
  only : ∀ line ∈ lines, (∃ call ∈ p.calls, lineKey line = lineKey call) ∨ IsSourceLine getsource p (lineKey line)

/-- `get_lines` returns them, and returns them again. -/
def Lists (getsource : GetSource) (p : SimpleProfile) : Prop :=
  ∃ lines, p.getLines.1 = .ok lines ∧ IsListing getsource p lines ∧ p.getLines.2.getLines.1 = .ok lines

/-! ## The dictionary of lines -/

/-- The recorded calls, by their keys. -/
def recordedLines (p : SimpleProfile) : Dict LineKey CallResult := p.calls.map fun call => (lineKey call, call)

/-- What `get_lines` makes of them. -/
def foundLines (p : SimpleProfile) : Except Exc Unit × Dict LineKey CallResult :=
  targetLines p 1 p.targetFunc (recordedLines p)

theorem keyed_recordedLines (h : DistinctCalls p) : Keyed lineKey (recordedLines p) := Keyed.ofValues h

theorem keyed_foundLines (h : DistinctCalls p) : Keyed lineKey (foundLines p).2 :=
  targetLines_keyed p 1 p.targetFunc (keyed_recordedLines h)

theorem getLines_eq (h : DistinctCalls p) :
    p.getLines = ((foundLines p).1.map fun () => sortBy sortKey ((foundLines p).2.map Prod.snd),
      { p with calls := p.calls.map fun call => ((foundLines p).2.get? (lineKey call)).getD call }) := by
  have hitems : Dict.ofItems (p.calls.map fun call => (lineKey call, call)) = recordedLines p :=
    Dict.ofItems_of_nodup (keyed_recordedLines h).nodup
  unfold getLines foundLines
  rw [hitems]
  rfl

theorem get?_recordedLines (h : DistinctCalls p) (hcall : call ∈ p.calls) :
    (recordedLines p).get? (lineKey call) = some call :=
  (keyed_recordedLines h).mem_iff.mp (List.mem_map_of_mem hcall)

theorem mem_of_get?_recordedLines (h : (recordedLines p).get? k = some call) : call ∈ p.calls ∧ lineKey call = k := by
  obtain ⟨call', hcall', heq⟩ := List.mem_map.mp (Dict.mem_of_get? h)
  cases heq
  exact ⟨hcall', rfl⟩

theorem get?_recordedLines_none (hk : k ∉ p.calls.map lineKey) : (recordedLines p).get? k = none := by
  cases hget : (recordedLines p).get? k with
  | none => rfl
  | some call =>
    obtain ⟨hcall, rfl⟩ := mem_of_get?_recordedLines hget
    exact absurd (List.mem_map_of_mem hcall) hk

/-- The calls are changed in place, and keep their keys. -/
theorem keys_getLines (h : DistinctCalls p) : p.getLines.2.calls.map lineKey = p.calls.map lineKey := by
  rw [getLines_eq h, List.map_map]
  refine List.map_congr_left fun call _ => ?_
  show lineKey (((foundLines p).2.get? (lineKey call)).getD call) = lineKey call
  cases hget : (foundLines p).2.get? (lineKey call) with
  | none => rfl
  | some line => exact (keyed_foundLines h).key_of_get? hget

/-! ## Invariants -/

theorem stop_keeps (snapshot : Except Exc Snapshot) (s : Interpreter) :
    (stop snapshot s).2.profiler.calls = s.profiler.calls ∧
      (stop snapshot s).2.profiler.targetFunc = s.profiler.targetFunc ∧
      (stop snapshot s).2.profiler.functionsCode = s.profiler.functionsCode := by
  unfold stop
  split
  · exact ⟨rfl, rfl, rfl⟩
  · dsimp only
    split
    · split <;> exact ⟨rfl, rfl, rfl⟩
    · exact ⟨rfl, rfl, rfl⟩

/-- Whatever is done with a profiler, its calls are distinct, and the sources there are are those of its targets. -/
theorem Reachable.inv (h : Reachable getsource p) : DistinctCalls p ∧ Sourced getsource p := by
  induction h with
  | init depth traceMem => exact ⟨List.nodup_nil, fun _ hcode => absurd hcode List.not_mem_nil, fun _ _ _ hget => nomatch hget⟩
  | @addTarget p func _ ih =>
    cases func with
    | none => exact ih
    | some code =>
      refine ⟨?_, sourced_appendTarget code ih.2⟩
      show DistinctCalls (appendTarget getsource code p).2
      rw [appendTarget_eq]
      exact ih.1
  | wrap profile _ ih => exact ⟨ih.1, ih.2.congr ⟨rfl, rfl⟩⟩
  | trace e _ ih => exact ⟨distinct_trace e ih.1, sourced_trace e ih.2⟩
  | @stop p snapshot profile _ ih =>
    obtain ⟨hcalls, htargets⟩ := stop_keeps snapshot { profiler := p, profile }
    rw [DistinctCalls, hcalls]
    exact ⟨ih.1, ih.2.congr htargets⟩
  | @getLines p _ ih =>
    refine ⟨?_, ih.2.congr ⟨rfl, rfl⟩⟩
    rw [DistinctCalls, keys_getLines ih.1]
    exact ih.1

theorem reachable_traceAll (es : List TraceEvent) (h : Reachable getsource p) : Reachable getsource (traceAll getsource es p).2 :=
  traceAll_keeps (fun e _ h => h.trace e) es h

/-- So is the profiler of a run, however the run ends. -/
theorem reachable_run {s : Interpreter} (r : ProfiledRun) (h : Reachable getsource s.profiler) :
    Reachable getsource (run getsource r s).2.profiler := by
  have hadded := h.addTarget r.func
  unfold run
  split
  · next heq => rwa [heq] at hadded
  · next profiler heq =>
    rw [heq] at hadded
    rw [_run_snd]
    exact (reachable_traceAll r.events (hadded.wrap s.profile)).stop r.snapshot r.leaves

/-! ## The lines, in order -/

/-- The place of a key in the order. -/
theorem sortKey_inj {a b : CallResult} (h : sortKey a = sortKey b) : lineKey a = lineKey b := by
  simp only [sortKey, EmbeddingLike.apply_eq_iff_eq, Prod.mk.injEq] at h
  obtain ⟨hfilename, hdepth, hlineno⟩ := h
  rw [lineKey, lineKey, hfilename, hdepth, hlineno]

theorem nodup_sortKey {values : List CallResult} (h : (values.map lineKey).Nodup) : (values.map sortKey).Nodup :=
  List.Nodup.map_on (fun _ ha _ hb heq => List.inj_on_of_nodup_map h ha hb (sortKey_inj heq)) h.of_map

/-- What is under a key is the one line of it. -/
theorem existsUnique_line (h : DistinctCalls p) {line : CallResult} (hget : (foundLines p).2.get? k = some line) :
    ∃! line, line ∈ sortBy sortKey ((foundLines p).2.map Prod.snd) ∧ lineKey line = k := by
  refine ⟨line, ⟨?_, (keyed_foundLines h).key_of_get? hget⟩, ?_⟩
  · rw [mem_sortBy, (keyed_foundLines h).mem_values, (keyed_foundLines h).key_of_get? hget, hget]
  · rintro other ⟨hother, rfl⟩
    rw [mem_sortBy, (keyed_foundLines h).mem_values, hget] at hother
    exact (Option.some.inj hother).symm

theorem targetLine_iff (h : Sourced getsource p) : TargetLine p 1 p.targetFunc k ↔ IsSourceLine getsource p k := by
  constructor
  · rintro ⟨d, code, text, hcode, htext, i, line, hline, hblank, rfl⟩
    rw [h.get? (List.mem_of_getElem? hcode)] at htext
    rw [List.getElem?_tail] at hline
    refine ⟨d, code, text, i, line, hcode, htext, hline, hblank, ?_⟩
    rw [Nat.add_comm 1 i, Nat.add_comm 1 d]
  · rintro ⟨d, code, text, i, line, hcode, htext, hline, hblank, rfl⟩
    rw [← h.get? (List.mem_of_getElem? hcode)] at htext
    rw [← List.getElem?_tail] at hline
    refine ⟨d, code, text, hcode, htext, i, line, hline, hblank, ?_⟩
    rw [Nat.add_comm 1 i, Nat.add_comm 1 d]

/-- The lines of the target functions are filled in. -/
def Filled (getsource : GetSource) (p : SimpleProfile) : Prop :=
  Updated (IsSourceLine getsource p) (fun k => p.fill (firstlinenoOf 1 p.targetFunc k) k) (recordedLines p) (foundLines p).2

theorem Filled.get? (hfilled : Filled getsource p) (h : DistinctCalls p) (hcall : call ∈ p.calls) :
    ∃ mem, (foundLines p).2.get? (lineKey call) = some { call with mem } := by
  by_cases hk : IsSourceLine getsource p (lineKey call)
  · rw [hfilled.changed _ hk, get?_recordedLines h hcall]
    exact ⟨_, rfl⟩
  · rw [hfilled.same _ hk, get?_recordedLines h hcall]
    exact ⟨call.mem, rfl⟩

theorem isListing (h : DistinctCalls p) (hfilled : Filled getsource p) :
    IsListing getsource p (sortBy sortKey ((foundLines p).2.map Prod.snd)) where
  increasing := sortBy_strict (nodup_sortKey (keyed_foundLines h).nodup_values)
  recorded call hcall := by
    obtain ⟨mem, hget⟩ := hfilled.get? h hcall
    exact existsUnique_line h hget
  unchanged call hcall line hline hkey := by
    obtain ⟨mem, hget⟩ := hfilled.get? h hcall
    rw [mem_sortBy, (keyed_foundLines h).mem_values, hkey, hget] at hline
    cases hline
    rfl
  source k hk := existsUnique_line h (hfilled.changed k hk)
  only line hline := by
    rw [mem_sortBy, (keyed_foundLines h).mem_values] at hline
    by_cases hk : IsSourceLine getsource p (lineKey line)
    · exact .inr hk
    · rw [hfilled.same _ hk] at hline
      exact .inl ⟨line, (mem_of_get?_recordedLines hline).1, rfl⟩

/-! ## Again -/

/-- The calls are now what was found for them. -/
theorem get?_recordedLines_getLines (h : DistinctCalls p) (hfilled : Filled getsource p) (k : LineKey) :
    (recordedLines p.getLines.2).get? k = (foundLines p).2.get? k ∨
      (recordedLines p.getLines.2).get? k = (recordedLines p).get? k := by
  have hdistinct : DistinctCalls p.getLines.2 := by
    rw [DistinctCalls, keys_getLines h]
    exact h
  by_cases hk : k ∈ p.calls.map lineKey
  · obtain ⟨call, hcall, rfl⟩ := List.mem_map.mp hk
    obtain ⟨mem, hget⟩ := hfilled.get? h hcall
    have hmem : { call with mem } ∈ p.getLines.2.calls := by
      rw [getLines_eq h]
      refine List.mem_map.mpr ⟨call, hcall, ?_⟩
      rw [hget]
      rfl
    left
    rw [hget]
    exact get?_recordedLines hdistinct hmem
  · right
    rw [get?_recordedLines_none hk]
    refine get?_recordedLines_none ?_
    rwa [keys_getLines h]

/-- The second time the lines are the same. -/
theorem getLines_getLines (h : DistinctCalls p) (hfilled : Filled getsource p)
    (hagain : Filled getsource p.getLines.2) :
    sortBy sortKey ((foundLines p.getLines.2).2.map Prod.snd) = sortBy sortKey ((foundLines p).2.map Prod.snd) := by
  have hdistinct : DistinctCalls p.getLines.2 := by
    rw [DistinctCalls, keys_getLines h]
    exact h
  have hget := Updated.again hfilled hagain (fun k => fill_fill p _ k) (get?_recordedLines_getLines h hfilled)
  refine sortBy_perm ((keyed_foundLines hdistinct).perm (keyed_foundLines h) hget) ?_
  exact nodup_sortKey (keyed_foundLines hdistinct).nodup_values

/-- The sources can be read, and there is a memory to read, or no line to read it for. -/
structure Listable (getsource : GetSource) (p : SimpleProfile) : Prop where
  source : ∀ code ∈ p.targetFunc, getsource code.filename code.firstlineno ≠ none
  memory : p.traceMem = true → p.traceMemSnapshot = none → ∀ k, ¬ IsSourceLine getsource p k

theorem memory?_eq_none : p.memory? = none ↔ p.traceMem = true ∧ p.traceMemSnapshot = none := by
  unfold memory?
  cases p.traceMem <;> simp

theorem filled (h : DistinctCalls p) (hsourced : Sourced getsource p) (hlist : Listable getsource p) :
    (foundLines p).1 = .ok () ∧ Filled getsource p := by
  have hsource : ∀ code ∈ p.targetFunc, p.functionsCode.get? (code.filename, code.firstlineno) ≠ none := by
    intro code hcode
    rw [hsourced.get? hcode]
    exact hlist.source code hcode
  have hmemory : p.memory? = none → ∀ k, ¬ TargetLine p 1 p.targetFunc k := by
    intro hnone k
    obtain ⟨htrace, hsnapshot⟩ := memory?_eq_none.mp hnone
    rw [targetLine_iff hsourced]
    exact hlist.memory htrace hsnapshot k
  obtain ⟨hok, hupdated⟩ := targetLines_updated (keyed_recordedLines h) hsource hmemory
  exact ⟨hok, hupdated.congr (fun _ => targetLine_iff hsourced) fun _ _ _ => rfl⟩

theorem listable_of_ok (hsourced : Sourced getsource p) (hok : (foundLines p).1 = .ok ()) : Listable getsource p := by
  obtain ⟨hsource, hmemory⟩ := targetLines_ok hok
  constructor
  · intro code hcode
    rw [← hsourced.get? hcode]
    exact hsource code hcode
  · intro htrace hsnapshot k
    rw [← targetLine_iff hsourced]
    exact hmemory (memory?_eq_none.mpr ⟨htrace, hsnapshot⟩) k

/-- `get_lines` returns the lines, now and again, exactly if they can be filled in. -/
theorem lists_iff (h : Reachable getsource p) : Lists getsource p ↔ Listable getsource p := by
  obtain ⟨hdistinct, hsourced⟩ := h.inv
  constructor
  · rintro ⟨lines, hlines, -, -⟩
    refine listable_of_ok hsourced ?_
    rw [getLines_eq hdistinct] at hlines
    cases hfound : (foundLines p).1 with
    | ok => rfl
    | error e =>
      rw [hfound] at hlines
      cases hlines
  · intro hlist
    obtain ⟨hdistinct', hsourced'⟩ := h.getLines.inv
    obtain ⟨hok, hfilled⟩ := filled hdistinct hsourced hlist
    obtain ⟨hok', hfilled'⟩ := filled hdistinct' hsourced' ⟨hlist.source, hlist.memory⟩
    refine ⟨sortBy sortKey ((foundLines p).2.map Prod.snd), ?_, isListing hdistinct hfilled, ?_⟩
    · rw [getLines_eq hdistinct, hok]
      rfl
    · rw [getLines_eq hdistinct', hok', ← getLines_getLines hdistinct hfilled hfilled']
      rfl

/-- A handler of two lines. -/
def handlerCode : CodeAlias where
  filename := "app.py".toList.map Char.toNat
  firstlineno := 10
  name := "handler".toList.map Char.toNat

def handlerSource : GetSource := fun _ _ => some ("def handler():\n    pass\n".toList.map Char.toNat)

/-- With `memory`, before the handler has been called. -/
theorem not_lists_before_run :
    Reachable handlerSource (addTarget handlerSource (some handlerCode) { traceMem := true }).2 ∧
      ¬ Lists handlerSource (addTarget handlerSource (some handlerCode) { traceMem := true }).2 := by
  refine ⟨.addTarget _ (.init 1 true), ?_⟩
  rintro ⟨lines, hlines, -, -⟩
  have herror : (addTarget handlerSource (some handlerCode) { traceMem := true }).2.getLines.1 = .error .AttributeError := rfl
  rw [herror] at hlines
  cases hlines

/-- The call of a C function at line 11, without `memory`. -/
def handlerCall : TraceEvent where
  event := .cCall
  frame := [{ code := handlerCode, lineno := 11 }]
  time := 5

theorem lists_after_call :
    Lists handlerSource (_trace handlerSource handlerCall (addTarget handlerSource (some handlerCode) {}).2).2 :=
  (lists_iff (.trace handlerCall (.addTarget (some handlerCode) (.init 1 false)))).mpr
    { source := fun _ _ => Option.some_ne_none _
      memory := fun htrace => absurd htrace (by decide) }

end Levin.SimpleProfile
