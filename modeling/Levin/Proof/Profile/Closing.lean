import Levin.Framework.Run
import Levin.Proof.Profile.Targets

/-!
# How recorded calls are closed

A call that `_trace` records is closed at its return, if it is then found at the same
depth. This is so while each function that is added to the list of targets is neither
there nor running below (`closed_of_addsNew`). But a function is added again with each
event of one of its frames, until the list is full, and is no longer found at its depth
then (`open_after_second_event`).
-/

namespace Levin.SimpleProfile

open Framework

variable {getsource : GetSource} {rest : List ProfileFrame} {p q : SimpleProfile} {frame back : ProfileFrame}
  {below : List ProfileFrame} {code : CodeAlias} {codes : List CodeAlias} {es : List TraceEvent} {e : TraceEvent}
  {k : LineKey} {depth : Nat}

/-! ## Events of running code -/

/-- What the profile function is called with while a frame of the function `code` runs, above the frames `below` and
`rest`: it calls Python functions, and C functions that may call others before they return or raise. -/
inductive WellNested (rest : List ProfileFrame) : CodeAlias → List ProfileFrame → List TraceEvent → Prop
  | nil {code : CodeAlias} {below : List ProfileFrame} : WellNested rest code below []
  | python {code : CodeAlias} {below : List ProfileFrame} {es es' : List TraceEvent} (lineno : Nat) (callee : CodeAlias)
      (begins returns time time' : Nat) (body : WellNested rest callee ({ code, lineno } :: below) es)
      (next : WellNested rest code below es') :
      WellNested rest code below
        (⟨.call, ⟨callee, begins⟩ :: ⟨code, lineno⟩ :: (below ++ rest), time⟩ ::
          (es ++ ⟨.ret, ⟨callee, returns⟩ :: ⟨code, lineno⟩ :: (below ++ rest), time'⟩ :: es'))
  | c {code : CodeAlias} {below : List ProfileFrame} {es es' : List TraceEvent} (lineno : Nat) (raises : Bool)
      (time time' : Nat) (body : WellNested rest code below es) (next : WellNested rest code below es') :
      WellNested rest code below
        (⟨.cCall, ⟨code, lineno⟩ :: (below ++ rest), time⟩ ::
          (es ++ ⟨if raises then .cException else .cReturn, ⟨code, lineno⟩ :: (below ++ rest), time'⟩ :: es'))

/-- The profile function is called, and does not raise. -/
def Traces (getsource : GetSource) (p : SimpleProfile) (e : TraceEvent) (q : SimpleProfile) : Prop :=
  _trace getsource e p = (.ok (), q)

theorem traceAll_of_run {s : SimpleProfile} (h : Run (Traces getsource) p es s) : traceAll getsource es p = (.ok (), s) := by
  induction es generalizing p with
  | nil =>
    rw [Run.nil_iff.mp h]
    rfl
  | cons e es ih =>
    obtain ⟨q, hstep, hrun⟩ := Run.cons_iff.mp h
    rw [traceAll, hstep]
    exact ih hrun

/-- If an event adds a function to the list of targets, it is one that is not there and that is not running below, down to
the frames in `rest`, and its source can be read. -/
def AddsNew (getsource : GetSource) (rest : List ProfileFrame) (p : SimpleProfile) (e : TraceEvent) : Prop :=
  ∀ frame back below, eventFrame e.event e.frame = frame :: back :: (below ++ rest) →
    p.targetFunc.length ≠ p.depth → back.code ∈ p.targetFunc →
    frame.code ∉ p.targetFunc ∧ frame.code ∉ (back :: below).map ProfileFrame.code ∧
      getsource frame.code.filename frame.code.firstlineno ≠ none

theorem addsNew_iff (below : List ProfileFrame)
    (hframe : eventFrame e.event e.frame = frame :: back :: (below ++ rest)) :
    AddsNew getsource rest p e ↔ (p.targetFunc.length ≠ p.depth → back.code ∈ p.targetFunc →
      frame.code ∉ p.targetFunc ∧ frame.code ∉ (back :: below).map ProfileFrame.code ∧
        getsource frame.code.filename frame.code.firstlineno ≠ none) := by
  constructor
  · exact fun h => h frame back below hframe
  · intro h frame' back' below' hframe'
    rw [hframe, List.cons.injEq, List.cons.injEq, List.append_cancel_right_eq] at hframe'
    obtain ⟨rfl, rfl, rfl⟩ := hframe'
    exact h

/-- The condition on the first event, and then on the others. -/
theorem throughout_step (hfirst : AddsNew getsource rest p e)
    (hrest : Throughout (Traces getsource) (_trace getsource e p).2 (fun _ => AddsNew getsource rest) es) :
    Throughout (Traces getsource) p (fun _ => AddsNew getsource rest) (e :: es) := by
  refine Run.throughout_cons.mpr ⟨hfirst, fun s hs => ?_⟩
  rwa [show (_trace getsource e p).2 = s from congrArg Prod.snd hs] at hrest

/-! ## Calls that are open -/

/-- A call is recorded under the key. -/
def HasCall (p : SimpleProfile) (k : LineKey) : Prop := k ∈ p.calls.map lineKey

/-- A call is recorded under the key, and its end is before its start. -/
def IsOpen (p : SimpleProfile) (k : LineKey) : Prop := ∃ call ∈ p.calls, lineKey call = k ∧ call.end_ < call.start

/-- No recorded call starts later. -/
def StartsBy (time : Nat) (p : SimpleProfile) : Prop := ∀ call ∈ p.calls, call.start ≤ time

theorem hasCall_traceCall {time : Nat} (h : HasCall p k) : HasCall (traceCall frame depth time p) k := by
  rw [HasCall, keys_traceCall]
  split
  · exact h
  · exact List.mem_append_left _ h

theorem hasCall_traceCall_self (frame : ProfileFrame) (depth time : Nat) (p : SimpleProfile) :
    HasCall (traceCall frame depth time p) (frameKey frame depth) := by
  rw [HasCall, keys_traceCall]
  split
  · next h => exact h
  · exact List.mem_append_right _ List.mem_cons_self

theorem hasCall_traceReturn {time : Nat} : HasCall (traceReturn frame depth time p).2 k ↔ HasCall p k := by
  rw [HasCall, keys_traceReturn, HasCall]

theorem isOpen_traceCall {time : Nat} (hdistinct : DistinctCalls p) (h : IsOpen (traceCall frame depth time p) k) :
    IsOpen p k ∨ k = frameKey frame depth := by
  obtain ⟨call, hcall, rfl, hend⟩ := h
  rcases mem_traceCall hdistinct hcall with ⟨hcall, -⟩ | ⟨old, -, hkey, rfl⟩ | ⟨-, rfl⟩
  · exact .inl ⟨call, hcall, rfl, hend⟩
  · exact .inr hkey
  · exact .inr rfl

theorem startsBy_traceCall {time n : Nat} (hdistinct : DistinctCalls p) (h : StartsBy n p) (htime : time ≤ n) :
    StartsBy n (traceCall frame depth time p) := by
  intro call hcall
  rcases mem_traceCall hdistinct hcall with ⟨hcall, -⟩ | ⟨old, hold, -, rfl⟩ | ⟨-, rfl⟩
  · exact h call hcall
  · exact h old hold
  · exact htime

theorem traceReturn_ok {time : Nat} (h : HasCall p (frameKey frame depth)) :
    traceReturn frame depth time p = (.ok (), (traceReturn frame depth time p).2) := by
  unfold traceReturn
  split
  · next hnone => exact absurd h (getTheSameCall?_eq_none.mp hnone)
  · rfl

theorem isOpen_traceReturn {time : Nat} (hdistinct : DistinctCalls p) (hstart : StartsBy time p) (hopen : IsOpen (traceReturn frame depth time p).2 k) :
    IsOpen p k ∧ k ≠ frameKey frame depth := by
  obtain ⟨call, hcall, rfl, hend⟩ := hopen
  rcases mem_traceReturn hdistinct hcall with ⟨hcall, hkey⟩ | ⟨old, hold, -, rfl⟩
  · exact ⟨⟨call, hcall, rfl, hend⟩, hkey⟩
  · exact absurd hend (Nat.not_lt.mpr (hstart old hold))

theorem startsBy_traceReturn {time n : Nat} (hdistinct : DistinctCalls p) (h : StartsBy n p) :
    StartsBy n (traceReturn frame depth time p).2 := by
  intro call hcall
  rcases mem_traceReturn hdistinct hcall with ⟨hcall, -⟩ | ⟨old, hold, -, rfl⟩
  · exact h call hcall
  · exact h old hold

theorem startsBy_trace {n : Nat} (hdistinct : DistinctCalls p) (h : StartsBy n p) (htime : e.time ≤ n) :
    StartsBy n (_trace getsource e p).2 := by
  obtain ⟨q, hsaved, hrecorded⟩ := _trace_state getsource e p
  have hcalls := hsaved.calls
  have hdistinct' : DistinctCalls q := by
    rw [DistinctCalls, hcalls]
    exact hdistinct
  have h' : StartsBy n q := by
    rw [StartsBy, hcalls]
    exact h
  rcases hrecorded with heq | ⟨frame, depth, heq | heq⟩
  · rwa [heq]
  · rw [heq]
    exact startsBy_traceCall hdistinct' h' htime
  · rw [heq]
    exact startsBy_traceReturn hdistinct' h'

/-! ## One event -/

/-- What holds of the profiler throughout: no function is among the targets twice, and no two calls have the same key. -/
structure Inv (p : SimpleProfile) : Prop where
  targets : p.targetFunc.Nodup
  calls : DistinctCalls p

theorem Inv.traceCall (h : Inv p) (frame : ProfileFrame) (depth time : Nat) : Inv (traceCall frame depth time p) where
  targets := by
    rw [(targets_traceCall frame depth time p).1]
    exact h.targets
  calls := distinct_traceCall frame depth time h.calls

theorem Inv.traceReturn (h : Inv p) (frame : ProfileFrame) (depth time : Nat) :
    Inv (traceReturn frame depth time p).2 where
  targets := by
    rw [(targets_traceReturn frame depth time p).1]
    exact h.targets
  calls := by
    rw [DistinctCalls, keys_traceReturn]
    exact h.calls

/-- After an event of a frame, the one below which is `back`: the targets have been looked at, and no record is lost. -/
structure Passed (frame back : ProfileFrame) (p q : SimpleProfile) : Prop where
  targets : q.targetFunc = targetsAfter p.depth frame.code back.code p.targetFunc
  depth : q.depth = p.depth
  keys : ∀ k, HasCall p k → HasCall q k
  inv : Inv q

/-- Before anything is recorded. -/
structure Targeted (frame back : ProfileFrame) (p r : SimpleProfile) : Prop extends Passed frame back p r where
  calls : r.calls = p.calls

/-- After a call from the frame, which is recorded under its key, if its function has a place. -/
structure Called (frame back : ProfileFrame) (p q : SimpleProfile) : Prop extends Passed frame back p q where
  recorded : ∀ d, place? q.targetFunc frame.code = some d → HasCall q (frameKey frame d)
  opened : ∀ k, IsOpen q k → IsOpen p k ∨ ∃ d, place? q.targetFunc frame.code = some d ∧ k = frameKey frame d

/-- After the return to the frame, whose call is no longer open, if its function has a place. -/
structure Returned (frame back : ProfileFrame) (p q : SimpleProfile) : Prop extends Passed frame back p q where
  closed : ∀ k, IsOpen q k → IsOpen p k ∧ ∀ d, place? q.targetFunc frame.code = some d → k ≠ frameKey frame d

namespace Targeted

variable {r : SimpleProfile} {time : Nat}

theorem isOpen (h : Targeted frame back p r) : IsOpen r k ↔ IsOpen p k := by rw [IsOpen, h.calls, IsOpen]

/-- What is recorded then. -/
theorem passed_traceCall (h : Targeted frame back p r) : Passed frame back p (traceCall frame depth time r) where
  targets := (targets_traceCall frame depth time r).1.trans h.targets
  depth := (sameRun_traceCall frame depth time (SameRun.refl r)).depth.trans h.depth
  keys k hk := hasCall_traceCall (h.keys k hk)
  inv := h.inv.traceCall frame depth time

theorem passed_traceReturn (h : Targeted frame back p r) :
    Passed frame back p (traceReturn frame depth time r).2 where
  targets := (targets_traceReturn frame depth time r).1.trans h.targets
  depth := (sameRun_traceReturn frame depth time (SameRun.refl r)).depth.trans h.depth
  keys k hk := hasCall_traceReturn.mpr (h.keys k hk)
  inv := h.inv.traceReturn frame depth time

/-- A function without a place is not recorded. -/
theorem called_none (h : Targeted frame back p r) (hplace : place? r.targetFunc frame.code = none) :
    Called frame back p r where
  toPassed := h.toPassed
  recorded d hd := by
    rw [hplace] at hd
    cases hd
  opened k hk := .inl (h.isOpen.mp hk)

theorem called (h : Targeted frame back p r) (hplace : place? r.targetFunc frame.code = some depth) :
    Called frame back p (traceCall frame depth time r) where
  toPassed := h.passed_traceCall
  recorded d hd := by
    rw [(targets_traceCall frame depth time r).1, hplace] at hd
    cases hd
    exact hasCall_traceCall_self frame depth time r
  opened k hk := by
    rcases isOpen_traceCall h.inv.calls hk with hk | rfl
    · exact .inl (h.isOpen.mp hk)
    · exact .inr ⟨depth, by rw [(targets_traceCall frame depth time r).1, hplace], rfl⟩

theorem returned_none (h : Targeted frame back p r) (hplace : place? r.targetFunc frame.code = none) :
    Returned frame back p r where
  toPassed := h.toPassed
  closed k hk := by
    refine ⟨h.isOpen.mp hk, fun d hd => ?_⟩
    rw [hplace] at hd
    cases hd

theorem returned (h : Targeted frame back p r) (hplace : place? r.targetFunc frame.code = some depth)
    (hstart : StartsBy time p) : Returned frame back p (traceReturn frame depth time r).2 where
  toPassed := h.passed_traceReturn
  closed k hk := by
    have hstart' : StartsBy time r := by
      rw [StartsBy, h.calls]
      exact hstart
    obtain ⟨hopen, hne⟩ := isOpen_traceReturn h.inv.calls hstart' hk
    refine ⟨h.isOpen.mp hopen, fun d hd => ?_⟩
    rw [(targets_traceReturn frame depth time r).1, hplace] at hd
    cases hd
    exact hne

end Targeted

theorem trace_targeted (hinv : Inv p) (hnew : AddsNew getsource rest p e)
    (hframe : eventFrame e.event e.frame = frame :: back :: (below ++ rest)) :
    ∃ r, Targeted frame back p r ∧ _trace getsource e p =
      match place? r.targetFunc frame.code with
      | none => (.ok (), r)
      | some depth => if e.event.isCall then (.ok (), traceCall frame depth e.time r) else traceReturn frame depth e.time r := by
  have hadds := hnew frame back below hframe
  have hnodup := nodup_targetsAfter hinv.targets fun hlength hback => (hadds hlength hback).1
  obtain ⟨functionsCode, r, rfl, htrace⟩ := _trace_eq hframe (fun hlength hback => (hadds hlength hback).2.2) hnodup
  refine ⟨_, ?_, htrace⟩
  exact ⟨⟨rfl, rfl, fun _ => id, hnodup, hinv.calls⟩, rfl⟩

theorem trace_called (hinv : Inv p) (hnew : AddsNew getsource rest p e)
    (hframe : eventFrame e.event e.frame = frame :: back :: (below ++ rest)) (hcall : e.event.isCall = true) :
    ∃ q, Traces getsource p e q ∧ Called frame back p q := by
  obtain ⟨r, hr, htrace⟩ := trace_targeted hinv hnew hframe
  rw [hcall] at htrace
  cases hplace : place? r.targetFunc frame.code with
  | none =>
    rw [hplace] at htrace
    exact ⟨r, htrace, hr.called_none hplace⟩
  | some d =>
    rw [hplace] at htrace
    exact ⟨traceCall frame d e.time r, htrace, hr.called hplace⟩

/-- The return does not raise, because the call that it closes has been recorded. -/
theorem trace_returned (hinv : Inv p) (hnew : AddsNew getsource rest p e)
    (hframe : eventFrame e.event e.frame = frame :: back :: (below ++ rest)) (hret : e.event.isCall = false)
    (hstart : StartsBy e.time p)
    (hrecorded : ∀ d, place? (targetsAfter p.depth frame.code back.code p.targetFunc) frame.code = some d →
      HasCall p (frameKey frame d)) :
    ∃ q, Traces getsource p e q ∧ Returned frame back p q := by
  obtain ⟨r, hr, htrace⟩ := trace_targeted hinv hnew hframe
  rw [hret] at htrace
  rw [← hr.targets] at hrecorded
  cases hplace : place? r.targetFunc frame.code with
  | none =>
    rw [hplace] at htrace
    exact ⟨r, htrace, hr.returned_none hplace⟩
  | some d =>
    have hhas := hr.keys _ (hrecorded d hplace)
    rw [hplace] at htrace
    exact ⟨_, htrace.trans (traceReturn_ok hhas), hr.returned hplace hstart⟩

/-! ## Whole runs -/

/-- What is left after a frame has run for a while: what its function and those below are, and no more calls that are
open. -/
structure Settled (code : CodeAlias) (codes : List CodeAlias) (p q : SimpleProfile) : Prop where
  grown : Grown code codes p.depth p.targetFunc q.targetFunc
  depth : q.depth = p.depth
  keys : ∀ k, HasCall p k → HasCall q k
  opens : ∀ k, IsOpen q k → IsOpen p k

namespace Settled

theorem refl (code : CodeAlias) (codes : List CodeAlias) (p : SimpleProfile) : Settled code codes p p :=
  ⟨Grown.refl code codes p.depth p.targetFunc, rfl, fun _ => id, fun _ => id⟩

theorem trans {r : SimpleProfile} (h : Settled code codes p q) (h' : Settled code codes q r) : Settled code codes p r where
  grown := h.grown.trans (h.depth ▸ h'.grown)
  depth := h'.depth.trans h.depth
  keys k hk := h'.keys k (h.keys k hk)
  opens k hk := h.opens k (h'.opens k hk)

theorem pop {callee : CodeAlias} (h : Settled callee (code :: codes) p q) : Settled code codes p q :=
  ⟨h.grown.pop, h.depth, h.keys, h.opens⟩

end Settled

/-- What is found at the return is the place of the call. -/
theorem place?_eq {p₁ p₂ : SimpleProfile} (hcalled : Called frame back p p₁)
    (hsettled : Settled frame.code ((back :: below).map ProfileFrame.code) p₁ p₂) :
    place? (targetsAfter p₂.depth frame.code back.code p₂.targetFunc) frame.code = place? p₁.targetFunc frame.code := by
  have hgrown := hsettled.grown
  rw [hcalled.depth, hcalled.targets] at hgrown
  rw [hsettled.depth, hcalled.depth, hcalled.targets]
  exact place?_targetsAfter hgrown

/-- A call, what happens before its return, and the return. -/
theorem settled_of_return {p₁ p₂ p₃ : SimpleProfile} {first last : TraceEvent}
    (hfirst : eventFrame first.event first.frame = frame :: back :: (below ++ rest))
    (hlast : eventFrame last.event last.frame = frame :: back :: (below ++ rest))
    (hnew : AddsNew getsource rest p first) (hnew' : AddsNew getsource rest p₂ last)
    (hcalled : Called frame back p p₁) (hsettled : Settled frame.code ((back :: below).map ProfileFrame.code) p₁ p₂)
    (hreturned : Returned frame back p₂ p₃) : Settled frame.code ((back :: below).map ProfileFrame.code) p p₃ where
  grown := by
    have hgrown := grown_targetsAfter (below.map ProfileFrame.code) fun hlength hback =>
      ⟨(hnew frame back below hfirst hlength hback).1, (hnew frame back below hfirst hlength hback).2.1⟩
    have hgrown' := grown_targetsAfter (below.map ProfileFrame.code) fun hlength hback =>
      ⟨(hnew' frame back below hlast hlength hback).1, (hnew' frame back below hlast hlength hback).2.1⟩
    rw [← hcalled.targets] at hgrown
    rw [← hreturned.targets, hsettled.depth, hcalled.depth] at hgrown'
    exact hgrown.trans ((hcalled.depth ▸ hsettled.grown).trans hgrown')
  depth := hreturned.depth.trans (hsettled.depth.trans hcalled.depth)
  keys k hk := hreturned.keys k (hsettled.keys k (hcalled.keys k hk))
  opens k hk := by
    obtain ⟨hopen, hne⟩ := hreturned.closed k hk
    rcases hcalled.opened k (hsettled.opens k hopen) with hopen | ⟨d, hd, hkey⟩
    · exact hopen
    · rw [← place?_eq hcalled hsettled, ← hreturned.targets] at hd
      exact absurd hkey (hne d hd)

/-- What a run of events needs of the profiler: the clock has not gone back, and each event that adds a target adds a new
one. -/
structure Ready (getsource : GetSource) (rest : List ProfileFrame) (p : SimpleProfile) (es : List TraceEvent) : Prop where
  inv : Inv p
  clock : (es.map TraceEvent.time).Pairwise (· ≤ ·)
  starts : ∀ e ∈ es, StartsBy e.time p
  adds : Throughout (Traces getsource) p (fun _ => AddsNew getsource rest) es

theorem startsBy_run {n : Nat} (h : Run (Traces getsource) p es q) (hdistinct : DistinctCalls p) (hstart : StartsBy n p)
    (htime : ∀ e ∈ es, e.time ≤ n) : StartsBy n q ∧ DistinctCalls q := by
  induction h with
  | nil => exact ⟨hstart, hdistinct⟩
  | @snoc es s s' e _ hstep ih =>
    obtain ⟨hstart, hdistinct⟩ := ih fun e he => htime e (List.mem_append_left _ he)
    have hs' : s' = (_trace getsource e s).2 := by rw [hstep]
    rw [hs']
    exact ⟨startsBy_trace hdistinct hstart (htime e (List.mem_append_right _ List.mem_cons_self)), distinct_trace e hdistinct⟩

namespace Ready

variable {es' : List TraceEvent}

theorem left (h : Ready getsource rest p (es ++ es')) : Ready getsource rest p es where
  inv := h.inv
  clock := by
    have hclock := h.clock
    rw [List.map_append] at hclock
    exact (List.pairwise_append.mp hclock).1
  starts e he := h.starts e (List.mem_append_left _ he)
  adds := (Run.throughout_append h.adds).1

theorem right (h : Ready getsource rest p (es ++ es')) (hrun : Run (Traces getsource) p es q) (hinv : Inv q) :
    Ready getsource rest q es' := by
  have hclock := h.clock
  rw [List.map_append] at hclock
  obtain ⟨-, hclock', hbetween⟩ := List.pairwise_append.mp hclock
  refine ⟨hinv, hclock', fun e he => ?_, (Run.throughout_append h.adds).2 q hrun⟩
  refine (startsBy_run hrun h.inv.calls (h.starts e (List.mem_append_right _ he)) fun first hfirst => ?_).1
  exact hbetween first.time (List.mem_map_of_mem hfirst) e.time (List.mem_map_of_mem he)

theorem cons (h : Ready getsource rest p (e :: es)) (hstep : Traces getsource p e q) (hinv : Inv q) :
    Ready getsource rest q es := by
  have happend : Ready getsource rest p ([e] ++ es) := h
  exact happend.right (.single hstep) hinv

end Ready

/-- The events run to their end, and no call is left open that was not before. -/
def Settles (getsource : GetSource) (rest : List ProfileFrame) (code : CodeAlias) (codes : List CodeAlias)
    (es : List TraceEvent) : Prop :=
  ∀ p, Ready getsource rest p es → ∃ q, Run (Traces getsource) p es q ∧ Inv q ∧ Settled code codes p q

/-- A call and its return, around what settles, and before what settles. -/
theorem settles_cons {es' : List TraceEvent} {first last : TraceEvent} (frame : ProfileFrame)
    (hfirst : eventFrame first.event first.frame = frame :: back :: (below ++ rest))
    (hlast : eventFrame last.event last.frame = frame :: back :: (below ++ rest)) (hcall : first.event.isCall = true)
    (hret : last.event.isCall = false)
    (hbody : Settles getsource rest frame.code ((back :: below).map ProfileFrame.code) es)
    (hnext : Settles getsource rest frame.code ((back :: below).map ProfileFrame.code) es') :
    Settles getsource rest frame.code ((back :: below).map ProfileFrame.code) (first :: (es ++ last :: es')) := by
  intro p hp
  have hnew := (Run.throughout_cons.mp hp.adds).1
  obtain ⟨p₁, hstep₁, hcalled⟩ := trace_called hp.inv hnew hfirst hcall
  have hp₁ := hp.cons hstep₁ hcalled.inv
  obtain ⟨p₂, hrun₂, hinv₂, hsettled⟩ := hbody p₁ hp₁.left
  have hp₂ := hp₁.right hrun₂ hinv₂
  have hnew' := (Run.throughout_cons.mp hp₂.adds).1
  have hplace := place?_eq hcalled hsettled
  obtain ⟨p₃, hstep₃, hreturned⟩ := trace_returned hinv₂ hnew' hlast hret (hp₂.starts last List.mem_cons_self) (by
    intro d hd
    rw [hplace] at hd
    exact hsettled.keys _ (hcalled.recorded d hd))
  obtain ⟨p₄, hrun₄, hinv₄, hsettled'⟩ := hnext p₃ (hp₂.cons hstep₃ hreturned.inv)
  refine ⟨p₄, .cons hstep₁ (hrun₂.append (.cons hstep₃ hrun₄)), hinv₄, ?_⟩
  exact (settled_of_return hfirst hlast hnew hnew' hcalled hsettled hreturned).trans hsettled'

/-- Whatever is called by a frame, down to the frames that it was called from. -/
theorem settles_of_wellNested (h : WellNested rest code below es) (hbelow : below ≠ []) :
    Settles getsource rest code (below.map ProfileFrame.code) es := by
  induction h with
  | nil => exact fun p hp => ⟨p, .nil, hp.inv, Settled.refl _ _ p⟩
  | @python code below es es' lineno callee begins returns time time' _ _ ihbody ihnext =>
    obtain ⟨back, below, rfl⟩ := List.exists_cons_of_ne_nil hbelow
    refine settles_cons ⟨code, lineno⟩ rfl rfl rfl rfl ?_ (ihnext hbelow)
    intro p hp
    obtain ⟨q, hrun, hinv, hsettled⟩ := ihbody (List.cons_ne_nil _ _) p hp
    exact ⟨q, hrun, hinv, hsettled.pop⟩
  | @c code below es es' lineno raises time time' _ _ ihbody ihnext =>
    obtain ⟨back, below, rfl⟩ := List.exists_cons_of_ne_nil hbelow
    refine settles_cons ⟨code, lineno⟩ rfl ?_ rfl ?_ (ihbody hbelow) (ihnext hbelow)
    · cases raises <;> rfl
    · cases raises <;> rfl

/-! ## The run of a target -/

/-- What the profile function is called with from the call of the target function to its return. -/
def TargetRun (rest : List ProfileFrame) (caller wrap : ProfileFrame) (func : CodeAlias) (es : List TraceEvent) : Prop :=
  ∃ begins returns time time' body, WellNested rest func [caller, wrap] body ∧
    es = ⟨.call, ⟨func, begins⟩ :: caller :: wrap :: rest, time⟩ ::
      (body ++ [⟨.ret, ⟨func, returns⟩ :: caller :: wrap :: rest, time'⟩])

theorem settles_of_targetRun {caller wrap : ProfileFrame} {func : CodeAlias} (h : TargetRun rest caller wrap func es) :
    Settles getsource rest caller.code [wrap.code] es := by
  obtain ⟨begins, returns, time, time', body, hbody, rfl⟩ := h
  exact settles_of_wellNested (.python caller.lineno func begins returns time time' hbody .nil) (List.cons_ne_nil wrap [])

/-- A profiler with one target, which has not been called yet. -/
def withTarget (getsource : GetSource) (depth : Nat) (traceMem : Bool) (func : CodeAlias) : SimpleProfile :=
  (addTarget getsource (some func) { depth, traceMem }).2

theorem withTarget_eq (getsource : GetSource) (depth : Nat) (traceMem : Bool) (func : CodeAlias) :
    (withTarget getsource depth traceMem func).targetFunc = [func] ∧
      (withTarget getsource depth traceMem func).depth = depth ∧ (withTarget getsource depth traceMem func).calls = [] := by
  unfold withTarget addTarget
  dsimp only
  rw [appendTarget_eq]
  exact ⟨rfl, rfl, rfl⟩

/-- The profile function does not raise, and the end of each recorded call is not before its start. -/
def Closes (getsource : GetSource) (es : List TraceEvent) (p : SimpleProfile) : Prop :=
  (traceAll getsource es p).1 = .ok () ∧ ∀ call ∈ (traceAll getsource es p).2.calls, call.start ≤ call.end_

/-- A run that settles leaves no call open, since there was none at first. -/
theorem closed_of_settles {depth : Nat} {traceMem : Bool} {func : CodeAlias}
    (h : Settles getsource rest code codes es) (hclock : (es.map TraceEvent.time).Pairwise (· ≤ ·))
    (hnew : Throughout (Traces getsource) (withTarget getsource depth traceMem func)
      (fun _ => AddsNew getsource rest) es) :
    Closes getsource es (withTarget getsource depth traceMem func) := by
  obtain ⟨htargets, -, hcalls⟩ := withTarget_eq getsource depth traceMem func
  have hready : Ready getsource rest (withTarget getsource depth traceMem func) es := by
    refine ⟨⟨?_, ?_⟩, hclock, fun e he call hcall => ?_, hnew⟩
    · rw [htargets]
      exact List.nodup_singleton func
    · rw [DistinctCalls, hcalls]
      exact List.nodup_nil
    · rw [hcalls] at hcall
      cases hcall
  obtain ⟨q, hrun, -, hsettled⟩ := h _ hready
  rw [Closes, traceAll_of_run hrun]
  refine ⟨rfl, fun call hcall => Nat.not_lt.mp fun hopen => ?_⟩
  obtain ⟨other, hother, -⟩ := hsettled.opens (lineKey call) ⟨call, hcall, rfl, hopen⟩
  rw [hcalls] at hother
  cases hother

/-! ## A list that is full -/

theorem throughout_of_full (h : p.targetFunc.length = p.depth) (es : List TraceEvent) :
    Throughout (Traces getsource) p (fun _ => AddsNew getsource rest) es := by
  intro es₁ e es₂ s _ hrun
  have hfull : s.targetFunc.length = s.depth := by
    refine Run.invariant (I := fun s => s.targetFunc.length = s.depth) h (fun s e s' hs hstep => ?_) hrun
    have hkeep := full_trace getsource e hs
    rw [hstep] at hkeep
    rw [hkeep.1, hkeep.2]
    exact hs
  intro frame back below _ hlength
  exact absurd hfull hlength

/-- At depth 1 every run of the target closes all its calls. -/
theorem closed_at_depth_one {traceMem : Bool} {func : CodeAlias} {caller wrap : ProfileFrame}
    (hrun : TargetRun rest caller wrap func es) (hclock : (es.map TraceEvent.time).Pairwise (· ≤ ·)) :
    Closes getsource es (withTarget getsource 1 traceMem func) := by
  refine closed_of_settles (settles_of_targetRun hrun) hclock (throughout_of_full ?_ es)
  obtain ⟨htargets, hdepth, -⟩ := withTarget_eq getsource 1 traceMem func
  rw [htargets, hdepth]
  rfl

/-! ## Every depth -/

/-- When the target has returned, every call is closed, if each function that was added to the list of targets was a new
one. -/
theorem closed_of_addsNew {depth : Nat} {traceMem : Bool} {func : CodeAlias} {caller wrap : ProfileFrame}
    (hrun : TargetRun rest caller wrap func es) (hclock : (es.map TraceEvent.time).Pairwise (· ≤ ·))
    (hnew : Throughout (Traces getsource) (withTarget getsource depth traceMem func)
      (fun _ => AddsNew getsource rest) es) :
    Closes getsource es (withTarget getsource depth traceMem func) :=
  closed_of_settles (settles_of_targetRun hrun) hclock hnew

namespace Samples

def function (filename name : String) (firstlineno : Nat) : CodeAlias :=
  ⟨filename.toList.map Char.toNat, firstlineno, name.toList.map Char.toNat⟩

/-- The frame of `_run` that calls the target. -/
def caller : ProfileFrame := ⟨function "profile.py" "_run" 180, 183⟩

/-- The frame of the wrapper that calls `_run`. -/
def wrap : ProfileFrame := ⟨function "profile.py" "_wrap" 166, 167⟩

/-- `f` calls `g`, and `g` calls a C function. -/
def f : CodeAlias := function "app.py" "f" 1

def g : CodeAlias := function "app.py" "g" 5

def source : GetSource := fun _ lineno =>
  some ((if lineno = 1 then "def f():\n    g()\n" else "def g():\n    sleep(0.1)\n").toList.map Char.toNat)

def body : List TraceEvent :=
  [⟨.call, [⟨g, 5⟩, ⟨f, 2⟩, caller, wrap], 11⟩,
    ⟨.cCall, [⟨g, 6⟩, ⟨f, 2⟩, caller, wrap], 12⟩,
    ⟨.cReturn, [⟨g, 6⟩, ⟨f, 2⟩, caller, wrap], 13⟩,
    ⟨.ret, [⟨g, 6⟩, ⟨f, 2⟩, caller, wrap], 14⟩]

/-- A run of `f`. -/
def events : List TraceEvent := ⟨.call, [⟨f, 1⟩, caller, wrap], 10⟩ :: (body ++ [⟨.ret, [⟨f, 2⟩, caller, wrap], 15⟩])

theorem targetRun_events : TargetRun [] caller wrap f events :=
  ⟨1, 2, 10, 15, body, .python 2 g 5 6 11 14 (.c 6 false 12 13 .nil .nil) .nil, rfl⟩

theorem clock_events : (events.map TraceEvent.time).Pairwise (· ≤ ·) := by decide

/-- At depth 2 the list is full when `g` has been added. -/
theorem addsNew_events :
    Throughout (Traces source) (withTarget source 2 false f) (fun _ => AddsNew source []) events := by
  refine throughout_step ((addsNew_iff [] rfl).mpr (by decide)) ?_
  refine throughout_step ((addsNew_iff [wrap] rfl).mpr (by decide)) ?_
  refine throughout_step ((addsNew_iff [caller, wrap] rfl).mpr (by decide)) ?_
  exact throughout_of_full (by decide) _

end Samples

/-- At depth 2 all calls of this run are closed. -/
theorem closed_at_depth_two :
    Closes Samples.source Samples.events (withTarget Samples.source 2 false Samples.f) :=
  closed_of_addsNew Samples.targetRun_events Samples.clock_events Samples.addsNew_events

/-- At depth 3 the return from the C function finds `g` in the list twice. -/
theorem open_after_second_event :
    TargetRun [] Samples.caller Samples.wrap Samples.f Samples.events ∧
      (Samples.events.map TraceEvent.time).Pairwise (· ≤ ·) ∧
      ¬ ∀ call ∈ (traceAll Samples.source Samples.events (withTarget Samples.source 3 false Samples.f)).2.calls,
        call.start ≤ call.end_ := by
  refine ⟨Samples.targetRun_events, Samples.clock_events, ?_⟩
  decide

end Levin.SimpleProfile
