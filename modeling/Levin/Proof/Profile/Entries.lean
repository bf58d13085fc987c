import Levin.Proof.Profile.Counting

/-!
# The depths of calls

The list of targets does not grow beyond the depth of the profiler, and a call is
recorded at the place of its function in the list. Of a function that is there more than
once the depth is counted in frames, from the first that calls itself, wherever the
function stands in the list: another function may be at that place (`Misplaced`). The
calls are where they should be exactly if no event is recorded so (`placed_iff`), which
holds of every run at a depth up to 2 (`throughout_of_le_two`).
-/

namespace Levin.SimpleProfile

open Framework

variable {getsource : GetSource} {p q : SimpleProfile} {frame : ProfileFrame} {below : List ProfileFrame}
  {T T' : List CodeAlias} {d n lineno : Nat} {filename : Text} {e : TraceEvent} {es : List TraceEvent}

/-! ## Entries of the list -/

/-- Entry `d` of the list, from 1, is a function that begins at this line of this file. -/
def IsEntry (T : List CodeAlias) (d : Nat) (filename : Text) (firstlineno : Nat) : Prop :=
  ∃ i code, d = i + 1 ∧ T[i]? = some code ∧ code.filename = filename ∧ code.firstlineno = firstlineno

/-- What has been appended makes no difference to the entries there were. -/
theorem isEntry_of_extends (h : T <+: T') (hd : d ≤ T.length) :
    IsEntry T' d filename lineno ↔ IsEntry T d filename lineno := by
  obtain ⟨new, rfl⟩ := h
  constructor
  · rintro ⟨i, code, rfl, hcode, hrest⟩
    rw [List.getElem?_append_left hd] at hcode
    exact ⟨i, code, rfl, hcode, hrest⟩
  · rintro ⟨i, code, rfl, hcode, hrest⟩
    exact ⟨i, code, rfl, by rwa [List.getElem?_append_left hd], hrest⟩

theorem isEntry_idxOf {code : CodeAlias} (h : code ∈ T) : IsEntry T (T.idxOf code + 1) code.filename code.firstlineno :=
  ⟨T.idxOf code, code, rfl, List.getElem?_idxOf h, rfl, rfl⟩

theorem IsEntry.le_length (h : IsEntry T d filename lineno) : d ≤ T.length := by
  obtain ⟨i, code, rfl, hcode, -⟩ := h
  exact (List.getElem?_eq_some_iff.mp hcode).1

/-- Each call was recorded in the entry of its depth. -/
def Placed (p : SimpleProfile) : Prop := ∀ call ∈ p.calls, IsEntry p.targetFunc call.depth call.filename call.callerLineno

/-- The depth of each call is that of an entry. -/
def InRange (p : SimpleProfile) : Prop := ∀ call ∈ p.calls, call.depth ≤ p.targetFunc.length

/-! ## Frames of one function -/

/-- The `n` frames below have the function of the frame, and the next one has another. -/
def Recursion (frame : ProfileFrame) (below : List ProfileFrame) (n : Nat) : Prop :=
  ∃ same other rest, below = same ++ other :: rest ∧ same.length = n ∧ (∀ b ∈ same, b.code = frame.code) ∧
    other.code ≠ frame.code

theorem recursionDepth_eq_some : recursionDepth frame below = some n ↔ Recursion frame below n := by
  induction below generalizing frame n with
  | nil =>
    constructor
    · intro h
      cases h
    · rintro ⟨same, other, rest, heq, -⟩
      exact absurd heq.symm (List.append_ne_nil_of_right_ne_nil same (List.cons_ne_nil other rest))
  | cons back below ih =>
    rw [recursionDepth]
    by_cases hback : frame.code = back.code
    · rw [if_pos hback, Option.map_eq_some_iff]
      constructor
      · rintro ⟨m, hm, rfl⟩
        obtain ⟨same, other, rest, rfl, rfl, hsame, hother⟩ := ih.mp hm
        refine ⟨back :: same, other, rest, rfl, rfl, ?_, by rwa [hback]⟩
        intro b hb
        rcases List.mem_cons.mp hb with rfl | hb
        · exact hback.symm
        · rw [hback]
          exact hsame b hb
      · rintro ⟨same, other, rest, heq, rfl, hsame, hother⟩
        cases same with
        | nil =>
          cases heq
          exact absurd hback.symm hother
        | cons first same =>
          cases heq
          refine ⟨same.length, ih.mpr ⟨same, other, rest, rfl, rfl, ?_, by rwa [← hback]⟩, rfl⟩
          intro b hb
          rw [← hback]
          exact hsame b (List.mem_cons_of_mem _ hb)
    · rw [if_neg hback]
      constructor
      · intro h
        cases h
        exact ⟨[], back, below, rfl, rfl, fun b hb => absurd hb List.not_mem_nil, Ne.symm hback⟩
      · rintro ⟨same, other, rest, heq, rfl, hsame, hother⟩
        cases same with
        | nil => rfl
        | cons first same =>
          cases heq
          exact absurd (hsame back List.mem_cons_self).symm hback

/-- A frame that is called by its own function. -/
theorem Recursion.exists_back (h : Recursion frame below n) (hn : 0 < n) :
    ∃ back rest, below = back :: rest ∧ back.code = frame.code := by
  obtain ⟨same, other, rest, rfl, rfl, hsame, -⟩ := h
  cases same with
  | nil => cases hn
  | cons back same => exact ⟨back, same ++ other :: rest, rfl, hsame back List.mem_cons_self⟩

theorem depthAtRecursion_eq_some {limit : Nat} :
    depthAtRecursion frame below limit = .ok (some d) ↔ Recursion frame below d ∧ 0 < d ∧ d < limit := by
  unfold depthAtRecursion
  rw [← recursionDepth_eq_some]
  cases recursionDepth frame below with
  | none => simp
  | some depth =>
    dsimp only
    split
    · next hnone =>
      constructor
      · intro h
        cases h
      · rintro ⟨hd, hpos, hlt⟩
        cases hd
        omega
    · next hsome =>
      constructor
      · intro h
        cases h
        exact ⟨rfl, by omega, by omega⟩
      · rintro ⟨hd, -, -⟩
        cases hd
        rfl

/-- The depth that is found: the place of a function that is there once, or a number of frames. -/
theorem depthOf_eq_some : depthOf T frame below = .ok (some d) ↔
    (T.count frame.code = 1 ∧ d = T.idxOf frame.code + 1) ∨
      (Recursion frame below d ∧ 0 < d ∧ d < T.count frame.code) := by
  unfold depthOf
  by_cases hmem : frame.code ∈ T
  · have hpos : 0 < T.count frame.code := List.count_pos_iff.mpr hmem
    rw [if_neg (not_not.mpr hmem)]
    split
    · next hcount =>
      rw [depthAtRecursion_eq_some]
      exact ⟨.inr, fun h => h.resolve_left fun ⟨hone, _⟩ => by omega⟩
    · next hcount =>
      constructor
      · intro h
        cases h
        exact .inl ⟨by omega, rfl⟩
      · rintro (⟨-, rfl⟩ | ⟨-, hpos', hlt⟩)
        · rfl
        · omega
  · rw [if_pos hmem]
    have hzero : T.count frame.code = 0 := List.count_eq_zero.mpr hmem
    constructor
    · intro h
      cases h
    · rintro (⟨hone, -⟩ | ⟨-, -, hlt⟩)
      · omega
      · omega

/-- The depth that is found is that of an entry. -/
theorem le_length_of_depthOf (h : depthOf T frame below = .ok (some d)) : d ≤ T.length := by
  rcases depthOf_eq_some.mp h with ⟨hone, rfl⟩ | ⟨-, -, hlt⟩
  · exact List.idxOf_lt_length_iff.mpr (List.count_pos_iff.mp (by omega))
  · exact (Nat.le_of_lt hlt).trans List.count_le_length

/-! ## Looking at the targets -/

/-- A frame and a depth are found if the targets could be looked at, and the function has a depth. -/
theorem located_eq_some : located getsource e p = (some (frame, d), q) ↔
    ∃ below, eventFrame e.event e.frame = frame :: below ∧ saveFrame getsource frame below p = (.ok (), q) ∧
      depthOf q.targetFunc frame below = .ok (some d) := by
  unfold located currentDepth
  cases eventFrame e.event e.frame with
  | nil => simp
  | cons first below =>
    constructor
    · intro h
      rcases hsave : saveFrame getsource first below p with ⟨exc | _, r⟩
      · simp only [hsave] at h
        cases h
      · rcases hdepth : depthOf r.targetFunc first below with exc | _ | depth
        · simp only [hsave, hdepth] at h
          cases h
        · simp only [hsave, hdepth] at h
          cases h
        · simp only [hsave, hdepth] at h
          cases h
          exact ⟨below, rfl, hsave, hdepth⟩
    · rintro ⟨_, hframe, hsave, hdepth⟩
      cases hframe
      simp only [hsave, hdepth]

/-! ## Misplaced calls -/

/-- A frame that is called by its own function, `n` times over, has its calls recorded at depth `n`, at which the list has
another function: the list has more than `n` entries of its function, with the one that is added if it is not full. -/
structure Misplaced (getsource : GetSource) (p : SimpleProfile) (frame : ProfileFrame) (below : List ProfileFrame)
    (n : Nat) : Prop where
  recursion : Recursion frame below n
  pos : 0 < n
  lt : n < p.targetFunc.count frame.code + if p.targetFunc.length = p.depth then 0 else 1
  source : p.targetFunc.length ≠ p.depth → getsource frame.code.filename frame.code.firstlineno ≠ none
  unrecorded : frameKey frame n ∉ p.calls.map lineKey
  other : ¬ IsEntry p.targetFunc n frame.code.filename frame.code.firstlineno

/-- A call whose frame is recorded where another function is. -/
def Misplaces (getsource : GetSource) (p : SimpleProfile) (e : TraceEvent) : Prop :=
  e.event.isCall = true ∧ ∃ frame below n, eventFrame e.event e.frame = frame :: below ∧ Misplaced getsource p frame below n

/-- The targets, of a frame that is called by its own function. -/
theorem saveFrame_self {back : ProfileFrame} (getsource : GetSource) (below : List ProfileFrame) (p : SimpleProfile)
    (hback : back.code = frame.code) :
    saveFrame getsource frame (back :: below) p =
      if p.targetFunc.length = p.depth then (.ok (), p)
      else if frame.code ∈ p.targetFunc then appendTarget getsource frame.code p else (.ok (), p) := by
  simp only [saveFrame, hback]

theorem saveFrame_self_ok {back : ProfileFrame} (hback : back.code = frame.code) (hmem : frame.code ∈ p.targetFunc) :
    (∃ q, saveFrame getsource frame (back :: below) p = (.ok (), q)) ↔
      (p.targetFunc.length ≠ p.depth → getsource frame.code.filename frame.code.firstlineno ≠ none) := by
  rw [saveFrame_self getsource below p hback]
  by_cases hfull : p.targetFunc.length = p.depth
  · simp [hfull]
  · cases hsource : getsource frame.code.filename frame.code.firstlineno with
    | none => simp [hfull, hmem, appendTarget, saveFunction, hsource]
    | some text => simp [hfull, hmem, appendTarget, saveFunction, hsource]

theorem targets_saveFrame_self {back : ProfileFrame} (getsource : GetSource) (below : List ProfileFrame) (p : SimpleProfile)
    (hback : back.code = frame.code) :
    (saveFrame getsource frame (back :: below) p).2.targetFunc =
      targetsAfter p.depth frame.code frame.code p.targetFunc := by
  rw [saveFrame_self getsource below p hback]
  unfold targetsAfter
  by_cases hfull : p.targetFunc.length = p.depth
  · simp [hfull]
  · by_cases hmem : frame.code ∈ p.targetFunc
    · simp [hfull, hmem, appendTarget_eq]
    · simp [hfull, hmem]

theorem count_targetsAfter_self {depth : Nat} {code : CodeAlias} (h : code ∈ T) :
    (targetsAfter depth code code T).count code = T.count code + if T.length = depth then 0 else 1 := by
  unfold targetsAfter
  by_cases hfull : T.length = depth
  · simp [hfull]
  · simp [hfull, h]

theorem misplaced_iff : Misplaced getsource p frame below n ↔
    ∃ q, saveFrame getsource frame below p = (.ok (), q) ∧ depthOf q.targetFunc frame below = .ok (some n) ∧
      frameKey frame n ∉ q.calls.map lineKey ∧
      ¬ IsEntry q.targetFunc n frame.code.filename frame.code.firstlineno := by
  obtain ⟨hextends, -, hcalls, -⟩ := saveFrame_grows getsource frame below p
  constructor
  · intro h
    obtain ⟨back, rest, rfl, hback⟩ := h.recursion.exists_back h.pos
    have hlt := h.lt
    have hcount : n ≤ p.targetFunc.count frame.code := by
      split at hlt <;> omega
    have hmem : frame.code ∈ p.targetFunc := List.count_pos_iff.mp (Nat.lt_of_lt_of_le h.pos hcount)
    obtain ⟨q, hsave⟩ := (saveFrame_self_ok hback hmem).mpr h.source
    have htargets := targets_saveFrame_self getsource rest p hback
    rw [hsave] at hextends hcalls htargets
    refine ⟨q, hsave, depthOf_eq_some.mpr (.inr ⟨h.recursion, h.pos, ?_⟩), ?_, ?_⟩
    · rw [htargets, count_targetsAfter_self hmem]
      exact hlt
    · rw [hcalls]
      exact h.unrecorded
    · rw [isEntry_of_extends hextends (hcount.trans List.count_le_length)]
      exact h.other
  · rintro ⟨q, hsave, hdepth, hkey, hother⟩
    rw [hsave] at hextends hcalls
    rcases depthOf_eq_some.mp hdepth with ⟨hone, rfl⟩ | ⟨hrecursion, hpos, hlt⟩
    · exact absurd (isEntry_idxOf (List.count_pos_iff.mp (by omega))) hother
    · obtain ⟨back, rest, rfl, hback⟩ := hrecursion.exists_back hpos
      have htargets := targets_saveFrame_self getsource rest p hback
      rw [hsave] at htargets
      have hmem : frame.code ∈ p.targetFunc := by
        by_contra hmem
        rw [htargets, targetsAfter, if_neg fun h => hmem h.2, List.count_eq_zero.mpr hmem] at hlt
        cases hlt
      rw [htargets, count_targetsAfter_self hmem] at hlt
      refine ⟨hrecursion, hpos, hlt, (saveFrame_self_ok hback hmem).mp ⟨q, hsave⟩, ?_, ?_⟩
      · rw [← hcalls]
        exact hkey
      · intro hentry
        exact hother ((isEntry_of_extends hextends hentry.le_length).mpr hentry)

theorem misplaces_iff : Misplaces getsource p e ↔ e.event.isCall = true ∧ ∃ frame n q,
    located getsource e p = (some (frame, n), q) ∧ frameKey frame n ∉ q.calls.map lineKey ∧
      ¬ IsEntry q.targetFunc n frame.code.filename frame.code.firstlineno := by
  unfold Misplaces
  refine and_congr_right fun _ => ?_
  constructor
  · rintro ⟨frame, below, n, hframe, h⟩
    obtain ⟨q, hsave, hdepth, hrest⟩ := misplaced_iff.mp h
    exact ⟨frame, n, q, located_eq_some.mpr ⟨below, hframe, hsave, hdepth⟩, hrest⟩
  · rintro ⟨frame, n, q, hlocated, hrest⟩
    obtain ⟨below, hframe, hsave, hdepth⟩ := located_eq_some.mp hlocated
    exact ⟨frame, below, n, hframe, misplaced_iff.mpr ⟨q, hsave, hdepth, hrest⟩⟩

/-! ## One event -/

/-- What a call says of where it was recorded. -/
def placeOf (call : CallResult) : Nat × Text × Nat := (call.depth, call.filename, call.callerLineno)

theorem placed_iff_places : Placed p ↔ ∀ x ∈ p.calls.map placeOf, IsEntry p.targetFunc x.1 x.2.1 x.2.2 := by
  rw [List.forall_mem_map]
  exact Iff.rfl

theorem inRange_iff_places : InRange p ↔ ∀ x ∈ p.calls.map placeOf, x.1 ≤ p.targetFunc.length := by
  rw [List.forall_mem_map]
  exact Iff.rfl

theorem places_traceCall (frame : ProfileFrame) (depth time : Nat) (p : SimpleProfile) :
    (traceCall frame depth time p).calls.map placeOf =
      p.calls.map placeOf ++
        if frameKey frame depth ∈ p.calls.map lineKey then [] else [(depth, frame.code.filename, frame.code.firstlineno)] := by
  unfold traceCall
  split
  · next hnone =>
    rw [if_neg (getTheSameCall?_eq_none.mp hnone), List.map_append]
    rfl
  · next hsome =>
    rw [if_pos (mem_of_getTheSameCall? hsome), List.append_nil, map_changeCall]
    exact fun _ => rfl

theorem places_traceReturn (frame : ProfileFrame) (depth time : Nat) (p : SimpleProfile) :
    (traceReturn frame depth time p).2.calls.map placeOf = p.calls.map placeOf := by
  unfold traceReturn
  split
  · rfl
  · rw [map_changeCall]
    exact fun _ => rfl

/-- Where calls were recorded after an event: the new one is where the frame is. -/
theorem places_trace (getsource : GetSource) (e : TraceEvent) (p : SimpleProfile) :
    (_trace getsource e p).2.calls.map placeOf = p.calls.map placeOf ++
      match (located getsource e p).1 with
      | none => []
      | some (frame, d) =>
        if e.event.isCall = true ∧ frameKey frame d ∉ p.calls.map lineKey then
          [(d, frame.code.filename, frame.code.firstlineno)]
        else [] := by
  obtain ⟨-, -, hcalls, -⟩ := located_grows getsource e p
  rw [trace_located, ← hcalls]
  generalize located getsource e p = r
  obtain ⟨_ | ⟨frame, d⟩, q⟩ := r
  · exact (List.append_nil _).symm
  · dsimp only
    cases hcall : e.event.isCall with
    | true =>
      rw [if_pos rfl, places_traceCall]
      by_cases hkey : frameKey frame d ∈ q.calls.map lineKey
      · simp [hkey]
      · simp [hkey]
    | false =>
      rw [if_neg Bool.false_ne_true, places_traceReturn]
      simp

theorem inRange_trace (getsource : GetSource) (e : TraceEvent) (h : InRange p) : InRange (_trace getsource e p).2 := by
  obtain ⟨hextends, -, -, -⟩ := located_grows getsource e p
  rw [inRange_iff_places] at h ⊢
  rw [places_trace, (targets_trace getsource e p).1]
  intro x hx
  rcases List.mem_append.mp hx with hx | hx
  · exact (h x hx).trans hextends.length_le
  · rcases hlocated : located getsource e p with ⟨_ | ⟨frame, d⟩, q⟩
    · rw [hlocated] at hx
      cases hx
    · obtain ⟨below, -, -, hdepth⟩ := located_eq_some.mp hlocated
      rw [hlocated] at hx
      dsimp only at hx
      split at hx
      · rw [List.mem_singleton.mp hx]
        exact le_length_of_depthOf hdepth
      · cases hx

/-- A call that is not in the entry of its depth never is. -/
theorem placed_of_trace (hrange : InRange p) (h : Placed (_trace getsource e p).2) : Placed p := by
  obtain ⟨hextends, -, -, -⟩ := located_grows getsource e p
  rw [placed_iff_places, places_trace, (targets_trace getsource e p).1] at h
  rw [placed_iff_places]
  rw [inRange_iff_places] at hrange
  intro x hx
  exact (isEntry_of_extends hextends (hrange x hx)).mp (h x (List.mem_append_left _ hx))

theorem placed_trace_iff (getsource : GetSource) (e : TraceEvent) (h : Placed p) : Placed (_trace getsource e p).2 ↔ ¬ Misplaces getsource p e := by
  obtain ⟨hextends, -, hcalls, -⟩ := located_grows getsource e p
  have hold : ∀ x ∈ p.calls.map placeOf, IsEntry (located getsource e p).2.targetFunc x.1 x.2.1 x.2.2 := by
    intro x hx
    have hentry := placed_iff_places.mp h x hx
    exact (isEntry_of_extends hextends hentry.le_length).mpr hentry
  rw [placed_iff_places, places_trace, (targets_trace getsource e p).1, List.forall_mem_append, and_iff_right hold, misplaces_iff]
  rcases hlocated : located getsource e p with ⟨_ | ⟨frame, d⟩, q⟩
  · refine iff_of_true (fun x hx => absurd hx List.not_mem_nil) ?_
    rintro ⟨-, frame, n, r, hsome, -⟩
    cases hsome
  · rw [hlocated] at hcalls
    constructor
    · rintro hnew ⟨hcall, frame', n, r, hsome, hkey, hother⟩
      cases hsome
      rw [hcalls] at hkey
      refine hother (hnew (d, frame.code.filename, frame.code.firstlineno) ?_)
      dsimp only
      rw [if_pos ⟨hcall, hkey⟩]
      exact List.mem_singleton_self _
    · intro hnot x hx
      dsimp only at hx
      split at hx
      · next hrecords =>
        rw [List.mem_singleton.mp hx]
        by_contra hother
        refine hnot ⟨hrecords.1, frame, d, q, rfl, ?_, hother⟩
        rw [hcalls]
        exact hrecords.2
      · cases hx

/-! ## Whole runs -/

theorem placed_traceAll_iff (hrange : InRange p) (h : Placed p) (es : List TraceEvent) :
    Placed (traceAll getsource es p).2 ↔
      Throughout (Traces getsource) p (fun _ p e => ¬ Misplaces getsource p e) es := by
  induction es generalizing p with
  | nil => exact iff_of_true h Run.throughout_nil
  | cons e es ih =>
    have hstep := placed_trace_iff getsource e h
    have hcons : Throughout (Traces getsource) p (fun _ p e => ¬ Misplaces getsource p e) (e :: es) ↔
        ¬ Misplaces getsource p e ∧ ∀ s, Traces getsource p e s →
          Throughout (Traces getsource) s (fun _ p e => ¬ Misplaces getsource p e) es := Run.throughout_cons
    have hrange' := inRange_trace getsource e hrange
    rw [hcons, ← hstep, traceAll]
    rcases htrace : _trace getsource e p with ⟨exc | _, q⟩
    · refine ⟨fun hq => ⟨hq, fun s hs => ?_⟩, And.left⟩
      rw [Traces, htrace] at hs
      cases hs
    · rw [htrace] at hrange'
      constructor
      · intro hall
        -- What is misplaced stays so to the end.
        have hq : Placed q := by
          by_contra hq
          refine (traceAll_keeps (I := fun r => InRange r ∧ ¬ Placed r) (fun e r hr => ?_) es ⟨hrange', hq⟩).2 hall
          exact ⟨inRange_trace getsource e hr.1, fun hplaced => hr.2 (placed_of_trace hr.1 hplaced)⟩
        refine ⟨hq, fun s hs => ?_⟩
        rw [Traces, htrace] at hs
        cases hs
        exact (ih hrange' hq).mp hall
      · rintro ⟨hq, hrest⟩
        exact (ih hrange' hq).mpr (hrest q htrace)

/-- What the list of targets is like while one target is profiled. -/
structure OneTarget (func : CodeAlias) (depth : Nat) (p : SimpleProfile) : Prop where
  first : [func] <+: p.targetFunc
  length : p.targetFunc.length ≤ depth
  depth : p.depth = depth

theorem oneTarget_trace {func : CodeAlias} {depth : Nat} (getsource : GetSource) (e : TraceEvent) (h : OneTarget func depth p) :
    OneTarget func depth (_trace getsource e p).2 := by
  obtain ⟨hextends, hdepth, -, hlength⟩ := located_grows getsource e p
  obtain ⟨htargets, hdepth'⟩ := targets_trace getsource e p
  constructor
  · rw [htargets]
    exact h.first.trans hextends
  · rw [htargets, ← h.depth]
    refine hlength ?_
    rw [h.depth]
    exact h.length
  · rw [hdepth', hdepth, h.depth]

theorem oneTarget_withTarget {depth : Nat} (hdepth : 1 ≤ depth) (getsource : GetSource) (traceMem : Bool)
    (func : CodeAlias) : OneTarget func depth (withTarget getsource depth traceMem func) := by
  obtain ⟨htargets, hdepth', -⟩ := withTarget_eq getsource depth traceMem func
  refine ⟨?_, ?_, hdepth'⟩
  · rw [htargets]
  · rw [htargets]
    exact hdepth

/-- A list of two functions has no other at the first place than the one that calls itself. -/
theorem not_misplaces_of_le_two {func : CodeAlias} {depth : Nat} (h : OneTarget func depth p) (htwo : depth ≤ 2) :
    ¬ Misplaces getsource p e := by
  rintro ⟨-, frame, below, n, -, hplace⟩
  obtain ⟨rest, hrest⟩ := h.first
  have hlt := hplace.lt
  have hpos := hplace.pos
  have hlength := h.length
  have hother := hplace.other
  rw [h.depth] at hlt
  rw [← hrest] at hlt hlength hother
  have hrest' : rest.count frame.code ≤ rest.length := List.count_le_length
  rw [List.singleton_append, List.length_cons] at hlength hlt
  have hfirst : func = frame.code := by
    by_contra hne
    rw [List.count_cons_of_ne hne] at hlt
    split at hlt <;> omega
  have hone : n = 1 := by
    rw [hfirst, List.count_cons_self] at hlt
    split at hlt <;> omega
  exact hother ⟨0, func, hone, rfl, congrArg CodeAlias.filename hfirst, congrArg CodeAlias.firstlineno hfirst⟩

theorem throughout_of_le_two {func : CodeAlias} {depth : Nat} (h : OneTarget func depth p) (htwo : depth ≤ 2)
    (es : List TraceEvent) : Throughout (Traces getsource) p (fun _ p e => ¬ Misplaces getsource p e) es := by
  intro es₁ e es₂ s _ hrun
  have hs : OneTarget func depth s := by
    refine Run.invariant (I := OneTarget func depth) h (fun s e s' hs hstep => ?_) hrun
    have hnext := oneTarget_trace getsource e hs
    rwa [hstep] at hnext
  exact not_misplaces_of_le_two hs htwo

/-- The list of targets is no longer than the depth, and each call was recorded in the entry of its depth, exactly if no
event has been recorded where another function is. -/
theorem placed_iff {depth : Nat} (hdepth : 1 ≤ depth) (getsource : GetSource) (traceMem : Bool) (func : CodeAlias)
    (es : List TraceEvent) :
    ((traceAll getsource es (withTarget getsource depth traceMem func)).2.targetFunc.length ≤ depth ∧
      Placed (traceAll getsource es (withTarget getsource depth traceMem func)).2) ↔
      Throughout (Traces getsource) (withTarget getsource depth traceMem func)
        (fun _ p e => ¬ Misplaces getsource p e) es := by
  obtain ⟨-, -, hcalls⟩ := withTarget_eq getsource depth traceMem func
  have hrange : InRange (withTarget getsource depth traceMem func) := by
    intro call hcall
    rw [hcalls] at hcall
    cases hcall
  have hplaced : Placed (withTarget getsource depth traceMem func) := by
    intro call hcall
    rw [hcalls] at hcall
    cases hcall
  have hone : OneTarget func depth (traceAll getsource es (withTarget getsource depth traceMem func)).2 :=
    traceAll_keeps (fun e _ => oneTarget_trace getsource e) es (oneTarget_withTarget hdepth getsource traceMem func)
  rw [placed_traceAll_iff hrange hplaced es]
  exact and_iff_right hone.length

/-- `f` calls `g`, and `g` calls a C function. -/
theorem placed_events :
    (traceAll Samples.source Samples.events (withTarget Samples.source 2 false Samples.f)).2.targetFunc.length ≤ 2 ∧
      Placed (traceAll Samples.source Samples.events (withTarget Samples.source 2 false Samples.f)).2 :=
  (placed_iff (by decide) Samples.source false Samples.f Samples.events).mpr
    (throughout_of_le_two (oneTarget_withTarget (by decide) Samples.source false Samples.f) (Nat.le_refl 2) Samples.events)

namespace Samples

/-- `g` calls itself, and then a C function. -/
def recursionSource : GetSource := fun _ lineno =>
  some ((if lineno = 1 then "def f():\n    g()\n" else "def g(n=0):\n    if not n: g(1)\n    else: sleep(0.1)\n").toList.map
    Char.toNat)

def recursion : List TraceEvent :=
  [⟨.call, [⟨f, 1⟩, caller, wrap], 10⟩,
    ⟨.call, [⟨g, 5⟩, ⟨f, 2⟩, caller, wrap], 11⟩,
    ⟨.call, [⟨g, 5⟩, ⟨g, 6⟩, ⟨f, 2⟩, caller, wrap], 12⟩,
    ⟨.cCall, [⟨g, 7⟩, ⟨g, 6⟩, ⟨f, 2⟩, caller, wrap], 13⟩,
    ⟨.cReturn, [⟨g, 7⟩, ⟨g, 6⟩, ⟨f, 2⟩, caller, wrap], 14⟩,
    ⟨.ret, [⟨g, 7⟩, ⟨g, 6⟩, ⟨f, 2⟩, caller, wrap], 15⟩,
    ⟨.ret, [⟨g, 6⟩, ⟨f, 2⟩, caller, wrap], 16⟩,
    ⟨.ret, [⟨f, 2⟩, caller, wrap], 17⟩]

theorem targetRun_recursion : TargetRun [] caller wrap f recursion :=
  ⟨1, 2, 10, 17, _, .python 2 g 5 6 11 16 (.python 6 g 5 7 12 15 (.c 7 false 13 14 .nil .nil) .nil) .nil, rfl⟩

end Samples

/-- At depth 3, the call of the C function is recorded at depth 1, which is that of `f`. -/
theorem not_placed_recursion :
    TargetRun [] Samples.caller Samples.wrap Samples.f Samples.recursion ∧
      ¬ Placed (traceAll Samples.recursionSource Samples.recursion (withTarget Samples.recursionSource 3 false Samples.f)).2 := by
  refine ⟨Samples.targetRun_recursion, fun h => ?_⟩
  obtain ⟨i, code, hdepth, hcode, -, hline⟩ := h
    { lineno := 7, callerLineno := 5, filename := Samples.g.filename, start := 13, depth := 1, end_ := 14 } (by decide)
  have hfirst : (traceAll Samples.recursionSource Samples.recursion
      (withTarget Samples.recursionSource 3 false Samples.f)).2.targetFunc[0]? = some Samples.f := rfl
  cases hdepth
  rw [hfirst] at hcode
  cases hcode
  exact absurd hline (by decide)

end Levin.SimpleProfile
