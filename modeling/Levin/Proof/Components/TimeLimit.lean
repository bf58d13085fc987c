import Levin.Components.TimeLimit
import Levin.Proof.Connection.Silence

/-!
# What ends a request in `TimeLimit`

Until the handler is done, a cancellation of the request's task reaches the task
of the handler as the timer's does, and after it the `await` itself; both come
back as `CancelledError`, which the middleware takes for its timer (`Inv`). It
keeps its law exactly in the runs in which nobody else cancels anything
(`law_iff`).
-/

namespace Levin.TimeLimit

open Framework

variable {m m' : TimeLimit} {es : List Event}

def Event.isHandlerDone : Event → Bool
  | .handlerDone _ => true
  | _ => false

/-- The events before the handler is done. -/
def beforeDone (es : List Event) : List Event := es.takeWhile fun e => !e.isHandlerDone

/-- What the middleware should do in a run with the events `es` that ends in `m`. -/
structure Law (es : List Event) (m : TimeLimit) : Prop where
  timeout (h : m.ended = some .timeout) : .timerExpires ∈ beforeDone es
  cancelled (h : .cancelRequest ∈ es) : m.ended = some (.result .cancelled)
  /-- A request that has been cancelled writes no response. -/
  silent (h : .cancelRequest ∈ es) (ending : Ending) (hm : m.ended = some ending) (π ω : Type)
    [ParserProtocol π ω] (c : Connection π ω) (f : Nat) : (c.handleRequest f ending.toResult).log = c.log

/-- The steps that keep the law: nobody cancels the request, and the handler is not cancelled unless
the timer has expired. -/
def Keeps (es : List Event) (_ : TimeLimit) : Event → Prop
  | .cancelRequest => False
  | .handlerDone r => r = .cancelled → .timerExpires ∈ es
  | .timerExpires | .resume => True

theorem beforeDone_split {es₁ es₂ : List Event} {r : HandlerResult} (h : ∀ e ∈ es₁, e.isHandlerDone = false) :
    beforeDone (es₁ ++ .handlerDone r :: es₂) = es₁ := by
  rw [beforeDone, List.takeWhile_append_of_pos fun e he => by simp [h e he]]
  simp [Event.isHandlerDone]

/-! ## One step -/

theorem cancelTimer_ended (m : TimeLimit) : m.cancelTimer.ended = m.ended := by
  unfold cancelTimer
  split <;> rfl

theorem cancelTimer_task (m : TimeLimit) : m.cancelTimer.task = m.task := by
  unfold cancelTimer
  split <;> rfl

/-- How the middleware ends once it goes on: `CancelledError` is its timer, whosever it is. -/
theorem resume_cases (h : m.resume = some m') :
    m'.task = m.task ∧ ∃ r, m.task.result = some r ∧
      m'.ended = some (if m.task.mustCancel = true ∨ r = .cancelled then .timeout else .result r) := by
  obtain ⟨woken, hwake, rfl⟩ := Option.map_eq_some_iff.mp h
  obtain ⟨r, hr, rfl⟩ := Option.map_eq_some_iff.mp hwake
  refine ⟨cancelTimer_task _, r, hr, ?_⟩
  rw [cancelTimer_ended]
  cases m.task.mustCancel <;> cases r <;> rfl

/-- What a step can do. -/
theorem step_cases {e : Event} (h : Step m e m') : m.ended = none ∧
    ((∃ r, e = .handlerDone r ∧ m.task.result = none ∧ m' = { m with task := m.task.finish r }) ∨
      (e = .timerExpires ∧ m' = m.timeoutManager) ∨ (e = .cancelRequest ∧ m' = { m with task := m.task.cancel }) ∨
      (e = .resume ∧ m.resume = some m')) := by
  simp only [Step, step] at h
  split at h
  · cases h
  · rename_i hended
    refine ⟨by simpa using hended, ?_⟩
    cases e with
    | handlerDone r =>
      obtain ⟨hr, h⟩ := Option.ite_none_right_eq_some.mp h
      exact .inl ⟨r, rfl, hr, (Option.some.inj h).symm⟩
    | timerExpires =>
      obtain ⟨-, h⟩ := Option.ite_none_right_eq_some.mp h
      exact .inr (.inl ⟨rfl, (Option.some.inj h).symm⟩)
    | cancelRequest => exact .inr (.inr (.inl ⟨rfl, (Option.some.inj h).symm⟩))
    | resume => exact .inr (.inr (.inr ⟨rfl, h⟩))

/-! ## Runs -/

/-- What a run with the events `es` has come to. -/
structure Inv (es : List Event) (m : TimeLimit) : Prop where
  running (h : m.task.result = none) : ∀ e ∈ es, e.isHandlerDone = false
  done {r : HandlerResult} (h : m.task.result = some r) :
    ∃ es₁ es₂, es = es₁ ++ .handlerDone r :: es₂ ∧ ∀ e ∈ es₁, e.isHandlerDone = false
  mustCancel (h : m.task.mustCancel = true) : .cancelRequest ∈ es
  /-- `CancelledError` is never passed on. -/
  ended {ending : Ending} (h : m.ended = some ending) : ∃ r, m.task.result = some r ∧
    ending = if m.task.mustCancel = true ∨ r = .cancelled then .timeout else .result r

theorem inv_new : Inv [] {} := ⟨nofun, nofun, nofun, nofun⟩

/-- A step that does not end the handler's task. -/
theorem Inv.snoc {e : Event} (h : Inv es m) (hresult : m'.task.result = m.task.result) (he : e.isHandlerDone = false)
    (hmust : m'.task.mustCancel = true → m.task.mustCancel = true ∨ e = .cancelRequest)
    (hended : ∀ ending, m'.ended = some ending → ∃ r, m'.task.result = some r ∧
      ending = if m'.task.mustCancel = true ∨ r = .cancelled then .timeout else .result r) : Inv (es ++ [e]) m' where
  running hnone e' he' := by
    rcases List.mem_append.mp he' with he' | he'
    · exact h.running (hresult ▸ hnone) e' he'
    · rwa [List.mem_singleton.mp he']
  done hr := by
    obtain ⟨es₁, es₂, rfl, hes₁⟩ := h.done (hresult ▸ hr)
    exact ⟨es₁, es₂ ++ [e], by simp, hes₁⟩
  mustCancel hm := by
    rcases hmust hm with hm | rfl
    · exact List.mem_append_left _ (h.mustCancel hm)
    · simp
  ended := hended _

theorem Inv.step {e : Event} (h : Inv es m) (hs : Step m e m') : Inv (es ++ [e]) m' := by
  obtain ⟨hnone, ⟨r, rfl, hr, rfl⟩ | ⟨rfl, rfl⟩ | ⟨rfl, rfl⟩ | ⟨rfl, hresume⟩⟩ := step_cases hs
  · refine ⟨nofun, fun hdone => ?_, fun hm => List.mem_append_left _ (h.mustCancel hm), fun hended => ?_⟩
    · obtain rfl := Option.some.inj hdone
      exact ⟨es, [], rfl, h.running hr⟩
    · rw [hnone] at hended
      cases hended
  · refine h.snoc (m.task.cancelAwaited_result) rfl (fun hm => .inl ?_) fun ending hended => ?_
    · rwa [timeoutManager, Await.cancelAwaited_mustCancel] at hm
    · rw [timeoutManager, hnone] at hended
      cases hended
  · refine h.snoc (m.task.cancel_result) rfl (fun _ => .inr rfl) fun ending hended => ?_
    rw [hnone] at hended
    cases hended
  · obtain ⟨htask, r, hr, hended⟩ := resume_cases hresume
    refine h.snoc (by rw [htask]) rfl (fun hm => .inl (htask ▸ hm)) fun ending hending => ⟨r, by rw [htask, hr], ?_⟩
    rw [hended] at hending
    rw [htask, ← Option.some.inj hending]

theorem run_inv (h : Run Step {} es m) : Inv es m :=
  h.history (I := Inv) inv_new fun _ _ _ _ => Inv.step

/-- The handler is done once. -/
theorem split_unique {es₁ es₂ es₁' es₂' : List Event} {r r' : HandlerResult}
    (h : es₁ ++ .handlerDone r :: es₂ = es₁' ++ .handlerDone r' :: es₂')
    (h₁ : ∀ e ∈ es₁, e.isHandlerDone = false) (h₁' : ∀ e ∈ es₁', e.isHandlerDone = false) : es₁ = es₁' ∧ r = r' := by
  have hbefore : es₁ = es₁' := by rw [← beforeDone_split h₁, h, beforeDone_split h₁']
  subst hbefore
  have hcons := List.append_cancel_left h
  exact ⟨rfl, by simpa using (List.cons.inj hcons).1⟩

/-- A run that keeps the law has come to its end without `CancelledError` from outside. -/
theorem law_of_throughout (h : Run Step {} es m) (hk : Throughout Step {} Keeps es) : Law es m := by
  have hnot : .cancelRequest ∉ es := by
    intro hmem
    obtain ⟨es₁, es₂, rfl⟩ := List.append_of_mem hmem
    obtain ⟨s, -, hrun, -⟩ := h.step_of_split
    exact hk es₁ _ es₂ s rfl hrun
  refine ⟨fun htimeout => ?_, fun hmem => absurd hmem hnot, fun hmem => absurd hmem hnot⟩
  obtain ⟨r, hr, hending⟩ := (run_inv h).ended htimeout
  have hcancelled : r = .cancelled := by
    split at hending
    · rename_i hor
      exact hor.resolve_left fun hm => hnot ((run_inv h).mustCancel hm)
    · cases hending
  obtain ⟨es₁, es₂, rfl, hes₁⟩ := (run_inv h).done hr
  obtain ⟨s, -, hrun, -⟩ := h.step_of_split
  rw [beforeDone_split hes₁]
  exact hk es₁ _ es₂ s rfl hrun hcancelled

theorem throughout_of_law (h : Run Step {} es m) {ending : Ending} (hended : m.ended = some ending) (hl : Law es m) :
    Throughout Step {} Keeps es := by
  obtain ⟨r, hr, hending⟩ := (run_inv h).ended hended
  intro es₁ e es₂ s hes _
  subst hes
  obtain ⟨s, s', hrun, hs⟩ := h.step_of_split
  cases e with
  | timerExpires => trivial
  | resume => trivial
  | cancelRequest =>
    -- The middleware passes no `CancelledError` on.
    have hpassed := hl.cancelled (by simp)
    rw [hended, Option.some.injEq, hending] at hpassed
    split at hpassed
    · cases hpassed
    · rename_i hne
      exact hne (.inr (Ending.result.inj hpassed))
  | handlerDone r' =>
    rintro rfl
    have hnone : s.task.result = none := by
      obtain ⟨-, ⟨r', -, hr', -⟩ | ⟨h, -⟩ | ⟨h, -⟩ | ⟨h, -⟩⟩ := step_cases hs
      · exact hr'
      all_goals cases h
    have hfree := (run_inv hrun).running hnone
    obtain ⟨es₁', es₂', hes, hfree'⟩ := (run_inv h).done hr
    obtain ⟨-, rfl⟩ := split_unique hes hfree hfree'
    have htimeout := hl.timeout (by rw [hended, hending, if_pos (.inr rfl)])
    rwa [beforeDone_split hfree] at htimeout

/-- The middleware keeps its law exactly where nobody cancels the request while it waits, and the
handler is not cancelled unless the timer has expired. -/
theorem law_iff (h : Run Step {} es m) {ending : Ending} (hended : m.ended = some ending) :
    Law es m ↔ Throughout Step {} Keeps es :=
  ⟨throughout_of_law h hended, law_of_throughout h⟩

/-- The timer expires while the handler runs. -/
theorem expired_keeps : Throughout Step {} Keeps [.timerExpires, .handlerDone .cancelled, .resume] := by
  have h : Run Step {} [.timerExpires, .handlerDone .cancelled, .resume]
      { task := { result := some .cancelled, cancelling := true }, timer := .expired, ended := some .timeout } :=
    .of_foldlM rfl
  refine (law_iff h rfl).mp ⟨fun _ => by decide, fun hmem => ?_, fun hmem => ?_⟩ <;> simp at hmem

/-- The connection is lost while the handler runs: the request ends with a response. -/
theorem lost_not_law : ¬ ∀ (es : List Event) (m : TimeLimit), Run Step {} es m → m.ended ≠ none → Law es m := by
  intro h
  have hrun : Run Step {} [.cancelRequest, .handlerDone .cancelled, .resume]
      { task := { result := some .cancelled, cancelling := true }, timer := .cancelled, ended := some .timeout } :=
    .of_foldlM rfl
  exact absurd ((h _ _ hrun nofun).timeout rfl) (by decide)

/-! ## The connection -/

/-- A response is begun in the log, whatever the parser writes of it. -/
theorem writeResponse_log_ne {π ω : Type} [ParserProtocol π ω] (owner : Owner) (response : Response)
    (request : Request) (c : Connection π ω) : (c.writeResponse owner response request).1.log ≠ c.log := by
  unfold Connection.writeResponse
  split <;> simp

/-- A request whose middleware has timed out responds; one whose handler is cancelled or raises does not. -/
theorem no_response_iff {π ω : Type} [ParserProtocol π ω] (c : Connection π ω) (f : Nat) (ending : Ending) :
    (c.handleRequest f ending.toResult).log = c.log ↔ ∀ response, ending.toResult ≠ .returned response := by
  cases h : ending.toResult with
  | raised e => exact iff_of_true rfl nofun
  | cancelled => exact iff_of_true rfl nofun
  | returned response =>
    rw [Connection.handleRequest_log]
    exact iff_of_false (writeResponse_log_ne _ _ _ c) fun hne => hne response rfl

/-- A request whose handler is cancelled responds, whoever has cancelled it. -/
theorem cancelled_responds {π ω : Type} [ParserProtocol π ω] (h : Run Step {} es m) {ending : Ending}
    (hended : m.ended = some ending) (hr : m.task.result = some .cancelled) (c : Connection π ω) (f : Nat) :
    (c.handleRequest f ending.toResult).log ≠ c.log := by
  obtain ⟨r, hr', rfl⟩ := (run_inv h).ended hended
  obtain rfl := Option.some.inj (hr'.symm.trans hr)
  rw [if_pos (.inr rfl), ne_eq, no_response_iff]
  exact fun hne => hne timeoutResponse rfl

end Levin.TimeLimit
