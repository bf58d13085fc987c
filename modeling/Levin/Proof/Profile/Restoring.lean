import Levin.Proof.Profile.Records

/-!
# The profile function after a run

`stop` puts back the profile function that was there, but only once: when it has, its
flag stays set, and after each later run the interpreter is left with what the function
leaves, which is `_trace` (`run_profile`). So the profile function is restored after
each run exactly if no run gets as far as its function when another one has ended,
unless the function itself leaves what was there (`restored_iff`).
-/

namespace Levin.SimpleProfile

open Framework

/-- What happens to the interpreter: somebody sets a profile function, or a function is run under the profiler. -/
inductive InterpreterEvent
  | setprofile (f : Option ProfileFunction)
  | run (run : ProfiledRun)

def InterpreterEvent.step (getsource : GetSource) (s : Interpreter) : InterpreterEvent → Interpreter
  | setprofile f => { s with profile := f }
  | run r => (SimpleProfile.run getsource r s).2

/-- The interpreter after some events. -/
def after (getsource : GetSource) (s : Interpreter) (es : List InterpreterEvent) : Interpreter :=
  es.foldl (InterpreterEvent.step getsource) s

namespace ProfiledRun

/-- `add_target` does not raise. -/
def Starts (getsource : GetSource) (r : ProfiledRun) : Prop :=
  ∃ code, r.func = some code ∧ getsource code.filename code.firstlineno ≠ none

/-- The run gets to the end of `stop`; with `memory` there is a snapshot to take. -/
def Ends (getsource : GetSource) (memory : Bool) (r : ProfiledRun) : Prop :=
  Starts getsource r ∧ (memory = true → ∃ snapshot, r.snapshot = .ok snapshot)

end ProfiledRun

variable {getsource : GetSource} {s : Interpreter} {r : ProfiledRun}

/-! ## One run -/

theorem addTarget_cases (getsource : GetSource) (r : ProfiledRun) (p : SimpleProfile) :
    (¬ r.Starts getsource ∧ ∃ e, (addTarget getsource r.func p).1 = .error e) ∨
      (r.Starts getsource ∧ (addTarget getsource r.func p).1 = .ok ()) := by
  unfold addTarget
  cases hfunc : r.func with
  | none =>
    refine .inl ⟨?_, .AttributeError, rfl⟩
    rintro ⟨code, hcode, -⟩
    rw [hfunc] at hcode
    cases hcode
  | some code =>
    cases hsource : getsource code.filename code.firstlineno with
    | none =>
      refine .inl ⟨?_, osError, ?_⟩
      · rintro ⟨code', hcode', hne⟩
        rw [hfunc] at hcode'
        cases hcode'
        exact hne hsource
      · simp [appendTarget, saveFunction, hsource]
    | some text =>
      refine .inr ⟨⟨code, hfunc, by simp [hsource]⟩, ?_⟩
      simp [appendTarget, saveFunction, hsource]

theorem sameRun_addTarget (getsource : GetSource) (func : Option CodeAlias) (p : SimpleProfile) :
    SameRun p (addTarget getsource func p).2 := by
  unfold addTarget
  split
  · exact SameRun.refl p
  · exact sameRun_appendTarget _ (SameRun.refl p)

/-- A run that does not start changes neither the interpreter nor the flag. -/
theorem run_of_not_starts (h : ¬ r.Starts getsource) : (run getsource r s).2.profile = s.profile ∧
    SameRun s.profiler (run getsource r s).2.profiler := by
  have hsame := sameRun_addTarget getsource r.func s.profiler
  rcases addTarget_cases getsource r s.profiler with ⟨-, e, herror⟩ | ⟨hstarts, -⟩
  · unfold run
    split
    · next heq =>
      rw [heq] at hsame
      exact ⟨rfl, hsame⟩
    · next heq =>
      rw [heq] at herror
      cases herror
  · exact absurd hstarts h

/-- `stop` puts back what was there, if its flag is not set, and sets the flag. -/
theorem stop_state (snapshot : Except Exc Snapshot) (s : Interpreter) :
    (stop snapshot s).2.profile = (if s.profiler.stopFlag then s.profile else s.profiler.origTrace) ∧
      (stop snapshot s).2.profiler.traceMem = s.profiler.traceMem ∧
      ((stop snapshot s).2.profiler.stopFlag = true ↔
        s.profiler.stopFlag = true ∨ (s.profiler.traceMem = true → ∃ taken, snapshot = .ok taken)) := by
  unfold stop
  cases hflag : s.profiler.stopFlag with
  | true => simp [hflag]
  | false =>
    cases hmem : s.profiler.traceMem with
    | false => simp [hmem]
    | true =>
      cases snapshot with
      | error e => simp [hmem, hflag]
      | ok taken => simp [hmem]

/-- What a run that starts leaves. -/
theorem run_of_starts (h : r.Starts getsource) :
    (run getsource r s).2.profile = (if s.profiler.stopFlag then r.leaves else s.profile) ∧
      (run getsource r s).2.profiler.traceMem = s.profiler.traceMem ∧
      ((run getsource r s).2.profiler.stopFlag = true ↔
        s.profiler.stopFlag = true ∨ (s.profiler.traceMem = true → ∃ taken, r.snapshot = .ok taken)) := by
  rcases addTarget_cases getsource r s.profiler with ⟨hnot, -⟩ | ⟨-, hok⟩
  · exact absurd h hnot
  obtain ⟨p, hp⟩ : ∃ p, addTarget getsource r.func s.profiler = (.ok (), p) := ⟨_, Prod.ext hok rfl⟩
  have hadd : SameRun s.profiler p := by
    have hsame := sameRun_addTarget getsource r.func s.profiler
    rwa [hp] at hsame
  have htraced := sameRun_traceAll getsource r.events { p with origTrace := s.profile }
  have hrun : (run getsource r s).2 = (stop r.snapshot
      { profiler := (traceAll getsource r.events { p with origTrace := s.profile }).2, profile := r.leaves }).2 := by
    simp only [run, hp]
    exact _run_snd getsource r _
  generalize (traceAll getsource r.events { p with origTrace := s.profile }).2 = q at htraced hrun
  have hstop := stop_state r.snapshot { profiler := q, profile := r.leaves }
  have hflag : q.stopFlag = s.profiler.stopFlag := htraced.stopFlag.trans hadd.stopFlag
  have hmem : q.traceMem = s.profiler.traceMem := htraced.traceMem.trans hadd.traceMem
  have horig : q.origTrace = s.profile := htraced.origTrace
  rw [← hrun] at hstop
  simpa only [hflag, hmem, horig] using hstop

/-! ## Runs one after another -/

/-- A profiler that has just been made, and an interpreter. -/
def fresh (depth : Nat) (memory : Bool) (profile : Option ProfileFunction) : Interpreter where
  profiler := { depth, traceMem := memory }
  profile := profile

/-- The flag is set when a run has ended. -/
theorem stopFlag_after (getsource : GetSource) (depth : Nat) (memory : Bool) (profile : Option ProfileFunction)
    (es : List InterpreterEvent) :
    (after getsource (fresh depth memory profile) es).profiler.traceMem = memory ∧
      ((after getsource (fresh depth memory profile) es).profiler.stopFlag = true ↔
        ∃ r, .run r ∈ es ∧ r.Ends getsource memory) := by
  induction es using List.reverseRecOn with
  | nil => simp [after, fresh]
  | append_singleton es e ih =>
    obtain ⟨hmem, hflag⟩ := ih
    rw [after, List.foldl_concat, ← after]
    cases e with
    | setprofile f =>
      refine ⟨hmem, hflag.trans ?_⟩
      simp
    | run r =>
      by_cases hstarts : r.Starts getsource
      · obtain ⟨-, hmem', hflag'⟩ := run_of_starts (s := after getsource (fresh depth memory profile) es) hstarts
        refine ⟨hmem'.trans hmem, hflag'.trans ?_⟩
        rw [hflag, hmem]
        constructor
        · rintro (⟨r', hr', hends⟩ | hsnapshot)
          · exact ⟨r', List.mem_append_left _ hr', hends⟩
          · exact ⟨r, List.mem_append_right _ (List.mem_singleton_self _), hstarts, hsnapshot⟩
        · rintro ⟨r', hr', hends⟩
          rcases List.mem_append.mp hr' with hr' | hr'
          · exact .inl ⟨r', hr', hends⟩
          · cases List.mem_singleton.mp hr'
            exact .inr hends.2
      · obtain ⟨-, hsame⟩ := run_of_not_starts (s := after getsource (fresh depth memory profile) es) hstarts
        refine ⟨hsame.traceMem.trans hmem, ?_⟩
        show (run getsource r _).2.profiler.stopFlag = true ↔ _
        rw [hsame.stopFlag, hflag]
        constructor
        · rintro ⟨r', hr', hends⟩
          exact ⟨r', List.mem_append_left _ hr', hends⟩
        · rintro ⟨r', hr', hends⟩
          rcases List.mem_append.mp hr' with hr' | hr'
          · exact ⟨r', hr', hends⟩
          · cases List.mem_singleton.mp hr'
            exact absurd hends.1 hstarts

/-- A run restores the profile function exactly if it does not start, or no run has ended, or its function leaves what
was there. -/
theorem run_profile (getsource : GetSource) (r : ProfiledRun) (s : Interpreter) :
    (run getsource r s).2.profile = s.profile ↔
      (r.Starts getsource → s.profiler.stopFlag = true → r.leaves = s.profile) := by
  by_cases hstarts : r.Starts getsource
  · rw [(run_of_starts hstarts).1]
    cases s.profiler.stopFlag <;> simp [hstarts]
  · exact iff_of_true (run_of_not_starts hstarts).1 fun h => absurd h hstarts

/-- The profile function is restored after each run exactly if each run that starts when another one has ended leaves,
with its function, what was there before. -/
theorem restored_iff (getsource : GetSource) (depth : Nat) (memory : Bool) (profile : Option ProfileFunction)
    (es : List InterpreterEvent) :
    (∀ before r later, es = before ++ .run r :: later →
      (run getsource r (after getsource (fresh depth memory profile) before)).2.profile =
        (after getsource (fresh depth memory profile) before).profile) ↔
      ∀ before r later, es = before ++ .run r :: later → r.Starts getsource →
        (∃ earlier, .run earlier ∈ before ∧ earlier.Ends getsource memory) →
          r.leaves = (after getsource (fresh depth memory profile) before).profile := by
  have hrun : ∀ before r, (run getsource r (after getsource (fresh depth memory profile) before)).2.profile =
      (after getsource (fresh depth memory profile) before).profile ↔
        (r.Starts getsource → (∃ earlier, .run earlier ∈ before ∧ earlier.Ends getsource memory) →
          r.leaves = (after getsource (fresh depth memory profile) before).profile) := by
    intro before r
    rw [run_profile, (stopFlag_after getsource depth memory profile before).2]
  exact ⟨fun h before r later heq => (hrun before r).mp (h before r later heq),
    fun h before r later heq => (hrun before r).mpr (h before r later heq)⟩

/-- A run of a function of one line that calls nothing. -/
def plainRun : ProfiledRun where
  func := some { filename := [], firstlineno := 1, name := [] }
  events := []
  leaves := some .trace
  result := .ok ()
  snapshot := .error .ValueError

/-- After a second run `_trace` stays installed. -/
theorem second_not_restored : ¬ ∀ (getsource : GetSource) (es : List InterpreterEvent) (before later : List InterpreterEvent)
    (r : ProfiledRun), es = before ++ .run r :: later →
      (run getsource r (after getsource (fresh 1 false none) before)).2.profile =
        (after getsource (fresh 1 false none) before).profile := by
  intro h
  exact absurd (h (fun _ _ => some []) [.run plainRun, .run plainRun] [.run plainRun] [] plainRun rfl) (by decide)

end Levin.SimpleProfile
