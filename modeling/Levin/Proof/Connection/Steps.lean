import Levin.Proof.Connection.Invariant

/-!
# What a step does

How the state of a task can change (`step_task`), what is added to the log
(`step_log`), when the transport is closing (`step_closing`), and that on an open
connection every task that goes on has a pending future (`step_live`).
-/

namespace Levin.Connection

open Framework

variable {π ω : Type} {c c' : Connection π ω} {f g k : Nat}

variable [ParserProtocol π ω]

/-! ## Tasks, step by step -/

/-- How an event can change the state of the task of `f`, where `n` futures exist. -/
inductive TaskStep (n f : Nat) : Event → TaskState → TaskState → Prop
  | same {e : Event} {s : TaskState} (hd : ∀ r, e ≠ .handlerDone f r) (hs : e ≠ .settle f) : TaskStep n f e s s
  | dispatched {data : Bytes} (h : n ≤ f) : TaskStep n f (.dataReceived data) .gone .handling
  | handled {r : HandlerResult} {o : Outcome} : TaskStep n f (.handlerDone f r) .handling (.ended o)
  | pushes {response : Response} : TaskStep n f (.handlerDone f (.returned response)) .handling .pushing
  | pushed {k : Nat} {r : HandlerResult} {o : Outcome} : TaskStep n f (.pushDone f k r) .pushing (.ended o)
  | cancelled {e : Event} {s : TaskState} (h : s = .handling ∨ s = .pushing) : TaskStep n f e s (.ended .cancelled)
  | settled {o : Outcome} : TaskStep n f (.settle f) (.ended o) .gone

omit [ParserProtocol π ω] in
/-- A task that is not stopped is left alone. -/
theorem taskStep_stop {n : Nat} {e : Event} {t t' : Task} (hd : ∀ r, e ≠ .handlerDone f r) (hs : e ≠ .settle f)
    (h : t' = t ∨ t' = t.stop) : TaskStep n f e t.state t'.state := by
  rcases h with rfl | rfl
  · exact .same hd hs
  · unfold Task.stop
    split
    · rename_i h
      exact .cancelled (.inl h)
    · rename_i h
      exact .cancelled (.inr h)
    · exact .same hd hs

/-- What a chunk does to an open connection: it is rejected, closes the connection at once, or its requests are dispatched. -/
theorem step_dataReceived_cases {data : Bytes} (hw : Wf c) (h : Step c (.dataReceived data) c') :
    c.transport.closing = false ∧ ∃ (ps : List π) (p : Option π),
      (∃ e, Rejects c data e ∧
        c' = { { c with parsers := ps, parser := p }.setClosing with escaped := c.escaped ++ [e] }) ∨
      (∃ parsed, (c.parse data).2 = .ok (some parsed) ∧ (parsed.close = true ∧ parsed.requests = []) ∧
        Closes { c with parsers := ps, parser := p, log := c.log ++ sent parsed.data }.closeTransport c') ∨
      ∃ parsed, (c.parse data).2 = .ok (some parsed) ∧ ¬ (parsed.close = true ∧ parsed.requests = []) ∧
        c' = dispatched parsed.requests parsed.close
          { c with parsers := ps, parser := p, log := c.log ++ sent parsed.data } := by
  obtain ⟨ho, rfl⟩ := step_dataReceived.mp h
  obtain ⟨ps, p, -, hreject | ⟨parsed, hpar, -, hc⟩⟩ := receive_cases hw.toPending data
  · exact ⟨ho, ps, p, .inl hreject⟩
  · simp only at hc
    split at hc
    · next hcl => exact ⟨ho, ps, p, .inr (.inl ⟨parsed, hpar, hcl, hc⟩)⟩
    · next hcl => exact ⟨ho, ps, p, .inr (.inr ⟨parsed, hpar, hcl, hc⟩)⟩

theorem step_task {e : Event} (hw : Wf c) (h : Step c e c') (f : Nat) :
    TaskStep c.next f e (c.task f).state (c'.task f).state := by
  cases e with
  | dataReceived data =>
    obtain ⟨-, ps, p, ⟨e, -, rfl⟩ | ⟨parsed, -, -, hc⟩ | ⟨parsed, -, -, rfl⟩⟩ := step_dataReceived_cases hw h
    · exact .same (by simp) (by simp)
    · rw [hc.task]
      exact .same (by simp) (by simp)
    · rcases dispatched_task parsed.requests parsed.close
        { c with parsers := ps, parser := p, log := c.log ++ sent parsed.data } f with ht | ⟨hn, -, ht⟩
      · rw [ht]
        exact .same (by simp) (by simp)
      · rw [ht, hw.idle f hn]
        exact .dispatched hn
  | handlerDone g result =>
    obtain ⟨hs, rfl⟩ := step_handlerDone.mp h
    obtain ⟨p, t, l, -, e, -, ht⟩ := handleRequest_eq g result c
    rw [e]
    by_cases hf : f = g
    · subst hf
      simp only [Function.update_self, hs]
      cases hfails : c.handlerFails f result with
      | true =>
        rw [if_pos hfails] at ht
        obtain ⟨o, -, rfl⟩ := ht
        exact .handled
      | false =>
        rw [if_neg (by simp [hfails])] at ht
        rcases ht with rfl | ⟨ht, -⟩
        · exact .handled
        · rw [ht]
          cases result with
          | returned response => exact .pushes
          | raised e => cases hfails
          | cancelled => cases hfails
    · simp only [Function.update_of_ne hf]
      exact .same (by simp [Ne.symm hf]) (by simp)
  | pushDone g k result =>
    obtain ⟨-, rfl⟩ := step_pushDone.mp h
    obtain ⟨p, t, l, -, e, -, -, -, ht⟩ := pushDone_eq g k result c
    rw [e]
    by_cases hf : f = g
    · subst hf
      simp only [Function.update_self]
      rcases ht with ht | ⟨hs, o, ht⟩
      · rw [ht]
        exact .same (by simp) (by simp)
      · rw [hs, ht]
        exact .pushed
    · simp only [Function.update_of_ne hf]
      exact .same (by simp) (by simp)
  | settle g =>
    obtain ⟨o, ho, rfl⟩ := step_settle.mp h
    have ht := (drains_settle hw ho).task f
    by_cases hf : f = g
    · subst hf
      have hgone : ((c.settle f o).task f).state = .gone := by
        rcases ht with ht | ⟨-, ht⟩ <;> simp [ht, setTask, Task.stop]
      rw [ho, hgone]
      exact .settled
    · simp only [setTask, Function.update_of_ne hf] at ht
      exact taskStep_stop (by simp) (by simp [Ne.symm hf]) (ht.imp_right And.right)
  | cancelTask g =>
    obtain ⟨-, rfl⟩ := step_cancelTask.mp h
    by_cases hf : f = g
    · subst hf
      exact taskStep_stop (by simp) (by simp) (.inr (by simp [stopTask, setTask]))
    · simp only [stopTask, setTask, Function.update_of_ne hf]
      exact .same (by simp) (by simp)
  | transportClosing =>
    obtain rfl := step_transportClosing.mp h
    exact .same (by simp) (by simp)
  | connectionLost =>
    obtain rfl := step_connectionLost.mp h
    have hd := connectionLost_drains (pending_setClosing hw.toPending)
    exact taskStep_stop (by simp) (by simp) ((hd.task f).imp_right And.right)
  | close =>
    obtain rfl := step_close.mp h
    rw [(closes_close hw.toPending).task]
    exact .same (by simp) (by simp)

theorem step_next_le {e : Event} (hw : Wf c) (h : Step c e c') : c.next ≤ c'.next := by
  cases e with
  | dataReceived data =>
    obtain ⟨-, ps, p, ⟨e, -, rfl⟩ | ⟨parsed, -, -, hc⟩ | ⟨parsed, -, -, rfl⟩⟩ := step_dataReceived_cases hw h
    · exact Nat.le_refl _
    · rw [hc.next]
      exact Nat.le_refl _
    · exact Nat.le_add_right _ _
  | handlerDone f result => exact Nat.le_of_eq (keepsFutures_handlerDone h).next.symm
  | pushDone f k result => exact Nat.le_of_eq (keepsFutures_pushDone h).next.symm
  | settle f =>
    obtain ⟨o, ho, rfl⟩ := step_settle.mp h
    rw [(drains_settle hw ho).next]
    exact Nat.le_refl _
  | cancelTask f => exact Nat.le_of_eq (keepsFutures_cancelTask h).next.symm
  | transportClosing =>
    obtain rfl := step_transportClosing.mp h
    exact Nat.le_refl _
  | connectionLost =>
    obtain rfl := step_connectionLost.mp h
    rw [(connectionLost_drains (pending_setClosing hw.toPending)).next]
    exact Nat.le_refl _
  | close =>
    obtain rfl := step_close.mp h
    rw [(closes_close hw.toPending).next]

/-! ## The log, step by step -/

/-- The chunk closes the connection at once: the parser says to close, and returns no request. -/
def ClosesAtOnce (c : Connection π ω) (data : Bytes) : Prop :=
  ∃ parsed, (c.parse data).2 = .ok (some parsed) ∧ parsed.close = true ∧ parsed.requests = []

theorem closesAtOnce_iff {data : Bytes} {parsed : Parsed ω} (hpar : (c.parse data).2 = .ok (some parsed)) :
    ClosesAtOnce c data ↔ parsed.close = true ∧ parsed.requests = [] := by
  refine ⟨?_, fun h => ⟨parsed, hpar, h⟩⟩
  rintro ⟨parsed', hpar', h⟩
  rw [hpar] at hpar'
  obtain rfl : parsed = parsed' := by simpa using hpar'
  exact h

/-- The end of the task of `f` is answered with a 500. -/
def Fails500 (c : Connection π ω) (f : Nat) : Prop :=
  (c.future f).state = .pending ∧ c.transport.closing = false ∧ (c.task f).state ≠ .ended .returned

instance (c : Connection π ω) (f : Nat) : Decidable (Fails500 c f) :=
  inferInstanceAs (Decidable (_ ∧ _ ∧ _))

/-- The end of the task of `f` closes the connection. -/
def SettleCloses (c : Connection π ω) (f : Nat) : Prop :=
  (c.future f).state = .pending ∧ .close ∈ (c.future f).callbacks

/-- What an event adds to the log. -/
def Logs (c : Connection π ω) : Event → List (Action ω) → Prop
  | .dataReceived data, l => ∃ (d : List ω) (k : Nat), l = sent d ++ List.replicate k .close ∧
      (k ≠ 0 ↔ ClosesAtOnce c data)
  | .handlerDone f result, l => Answers (.request f) result l
  | .pushDone f k result, l => Answers (.push f k) result l
  | .settle f, l => ∃ (l₁ : List (Action ω)) (k : Nat), l = l₁ ++ List.replicate k .close ∧
      (k ≠ 0 ↔ SettleCloses c f) ∧
      if Fails500 c f then ∃ chunks : List (List ω), l₁ = .respond (.request f) :: chunks.map .write else l₁ = []
  | .cancelTask _, l => l = []
  | .transportClosing, l => l = []
  | .connectionLost, l => ∃ k, l = .lost :: List.replicate k .close
  | .close, l => ∃ k, l = List.replicate (k + 1) .close

theorem step_log {e : Event} (hw : Wf c) (h : Step c e c') : ∃ l, c'.log = c.log ++ l ∧ Logs c e l := by
  cases e with
  | dataReceived data =>
    obtain ⟨-, ps, p, ⟨e, hr, rfl⟩ | ⟨parsed, hpar, hcl, hc⟩ | ⟨parsed, hpar, hcl, rfl⟩⟩ := step_dataReceived_cases hw h
    · refine ⟨[], by simp [setClosing], [], 0, rfl, ?_⟩
      simp only [ne_eq, not_true, false_iff]
      rintro ⟨parsed, hpar, -⟩
      rcases hr with hr | ⟨hr, -⟩ <;> rw [hr] at hpar <;> cases hpar
    · obtain ⟨k, hk⟩ := hc.log_closeTransport
      exact ⟨_, by rw [hk, List.append_assoc], parsed.data, k + 1, rfl, by simp [closesAtOnce_iff hpar, hcl]⟩
    · exact ⟨sent parsed.data, rfl, parsed.data, 0, by simp, by simp [closesAtOnce_iff hpar, hcl]⟩
  | handlerDone f result =>
    obtain ⟨-, rfl⟩ := step_handlerDone.mp h
    obtain ⟨p, t, l, -, e, hl, -⟩ := handleRequest_eq f result c
    exact ⟨l, by rw [e], hl⟩
  | pushDone f k result =>
    obtain ⟨hk, rfl⟩ := step_pushDone.mp h
    obtain ⟨p, t, l, -, e, hl, -⟩ := pushDone_eq f k result c
    exact ⟨l, by rw [e], hl (hw.running f k hk)⟩
  | settle f =>
    obtain ⟨o, ho, rfl⟩ := step_settle.mp h
    by_cases hs : (c.future f).state = .pending
    · have hmem := hw.listed f (hw.lt_of_task (.inl (by simp [ho]))) hs
      obtain ⟨p, r, l, -, hl, hc⟩ := settle_eq hw.toPending hmem o
      have hf : Fails500 c f ↔ o ≠ .returned ∧ c.transport.closing = false := by
        simp [Fails500, hs, ho, and_comm]
      simp only at hc
      split at hc
      · rename_i hcl
        obtain ⟨k, hk⟩ := hc.log_closeTransport
        exact ⟨_, by rw [hk, List.append_assoc], l, k + 1, rfl, by simp [SettleCloses, hs, hcl], by simpa [hf] using hl⟩
      · rename_i hcl
        rw [hc]
        exact ⟨l, rfl, l, 0, by simp, by simp [SettleCloses, hcl], by simpa [hf] using hl⟩
    · rw [settle_of_ne_pending hs]
      exact ⟨[], by simp [setTask], [], 0, rfl, by simp [SettleCloses, hs], by simp [Fails500, hs]⟩
  | cancelTask f =>
    obtain ⟨-, rfl⟩ := step_cancelTask.mp h
    exact ⟨[], by simp [stopTask, setTask], rfl⟩
  | transportClosing =>
    obtain rfl := step_transportClosing.mp h
    exact ⟨[], by simp [setClosing], rfl⟩
  | connectionLost =>
    obtain rfl := step_connectionLost.mp h
    obtain ⟨k, hk⟩ := (connectionLost_drains (pending_setClosing hw.toPending)).log rfl
    exact ⟨_, by rw [hk, logLost, List.append_assoc]; rfl, k, rfl⟩
  | close =>
    obtain rfl := step_close.mp h
    obtain ⟨k, hk⟩ := (close_closes hw.toPending).1.log_closeTransport
    exact ⟨_, hk, k, rfl⟩

/-! ## The end of the connection -/

/-- The event ends the connection: `close` or `connection_lost` runs. -/
def Shuts (c : Connection π ω) : Event → Prop
  | .close | .connectionLost => True
  | .dataReceived data => ClosesAtOnce c data
  | .settle g => SettleCloses c g
  | _ => False

/-- A transport that is closing stays so, and the end of the connection closes it. -/
theorem step_closing {e : Event} (hw : Wf c) (h : Step c e c') (hc : c.transport.closing = true ∨ Shuts c e) :
    c'.transport.closing = true := by
  cases e with
  | dataReceived data =>
    obtain ⟨ho, ps, p, ⟨e, -, rfl⟩ | ⟨parsed, -, -, hr⟩ | ⟨parsed, hpar, hcl, -⟩⟩ := step_dataReceived_cases hw h
    · rfl
    · exact hr.closing
    · rcases hc with hc | hc
      · rw [ho] at hc
        cases hc
      · exact absurd ((closesAtOnce_iff hpar).mp hc) hcl
  | handlerDone f result =>
    rw [(keepsFutures_handlerDone h).transport]
    exact hc.resolve_right id
  | pushDone f k result =>
    rw [(keepsFutures_pushDone h).transport]
    exact hc.resolve_right id
  | settle f =>
    obtain ⟨o, ho, rfl⟩ := step_settle.mp h
    rcases hc with hc | hc
    · exact (drains_settle hw ho).closing hc
    · have hmem := hw.listed f (hw.lt_of_task (.inl (by simp [ho]))) hc.1
      obtain ⟨p, r, l, -, -, hs⟩ := settle_eq hw.toPending hmem o
      simp only [if_pos hc.2] at hs
      exact hs.closing
  | cancelTask f =>
    rw [(keepsFutures_cancelTask h).transport]
    exact hc.resolve_right id
  | transportClosing =>
    obtain rfl := step_transportClosing.mp h
    rfl
  | connectionLost =>
    obtain rfl := step_connectionLost.mp h
    exact (connectionLost_drains (pending_setClosing hw.toPending)).closing rfl
  | close =>
    obtain rfl := step_close.mp h
    exact (closes_close hw.toPending).closing

/-- A connection that is open after a step was open before it, and the event did not end it. -/
theorem step_open {e : Event} (hw : Wf c) (h : Step c e c') (ho : c'.transport.closing = false) :
    c.transport.closing = false ∧ ¬ Shuts c e := by
  have hnot : ¬ (c.transport.closing = true ∨ Shuts c e) := by
    intro hc
    rw [step_closing hw h hc] at ho
    cases ho
  rw [not_or, Bool.not_eq_true] at hnot
  exact hnot

/-- On an open connection, every task that goes on has a pending future. -/
def Live (c : Connection π ω) : Prop :=
  c.transport.closing = false → ∀ f, (c.task f).state ≠ .gone → f ∈ c.futures

theorem step_live {e : Event} (hw : Wf c) (hl : Live c) (h : Step c e c') : Live c' := by
  intro ho f hf
  obtain ⟨hopen, hshuts⟩ := step_open hw h ho
  have ht := step_task hw h f
  -- A task that goes on and is not new went on before.
  have hmem : f < c.next → f ∈ c.futures := by
    intro hlt
    refine hl hopen f fun hgone => hf ?_
    rw [hgone] at ht
    generalize (c'.task f).state = s' at ht
    cases ht with
    | same => rfl
    | dispatched hn => omega
    | cancelled hs => simp at hs
  have hlt : (∀ data, e ≠ .dataReceived data) → f < c.next := by
    intro hd
    by_contra hn
    rw [hw.idle f (by omega)] at ht
    generalize (c'.task f).state = s' at ht hf
    cases ht with
    | same => exact hf rfl
    | dispatched => exact hd _ rfl
    | cancelled hs => simp at hs
  cases e with
  | dataReceived data =>
    have hwf := step_wf hw h
    obtain ⟨-, ps, p, ⟨e, -, rfl⟩ | ⟨parsed, -, -, hc⟩ | ⟨parsed, -, -, rfl⟩⟩ := step_dataReceived_cases hw h
    · cases ho
    · rw [hc.closing] at ho
      cases ho
    · have hlt' : f < c.next + parsed.requests.length := hwf.lt_of_task (.inl hf)
      refine List.mem_append.mpr ?_
      by_cases hn : f < c.next
      · exact .inl (hmem hn)
      · exact .inr (List.mem_range'_1.mpr ⟨by simp only; omega, by simp only; omega⟩)
  | handlerDone g result =>
    rw [(keepsFutures_handlerDone h).futures]
    exact hmem (hlt (by simp))
  | pushDone g k result =>
    rw [(keepsFutures_pushDone h).futures]
    exact hmem (hlt (by simp))
  | settle g =>
    obtain ⟨o, hend, rfl⟩ := step_settle.mp h
    have hne : f ≠ g := by
      rintro rfl
      rw [hend] at ht
      generalize (((c.settle f o).task f).state) = s' at ht hf
      cases ht with
      | same hd hs => exact hs rfl
      | cancelled hs => simp at hs
      | settled => exact hf rfl
    have hf' := hmem (hlt (by simp))
    by_cases hs : (c.future g).state = .pending
    · obtain ⟨p, r, l, -, -, hc⟩ := settle_eq hw.toPending (hw.listed g (hw.lt_of_task (.inl (by simp [hend]))) hs) o
      simp only [if_neg fun hcl => hshuts ⟨hs, hcl⟩] at hc
      rw [hc]
      exact (List.mem_erase_of_ne hne).mpr hf'
    · rw [settle_of_ne_pending hs]
      exact hf'
  | cancelTask g =>
    rw [(keepsFutures_cancelTask h).futures]
    exact hmem (hlt (by simp))
  | transportClosing =>
    obtain rfl := step_transportClosing.mp h
    cases ho
  | connectionLost => exact absurd trivial hshuts
  | close => exact absurd trivial hshuts

theorem Reachable.live (h : Reachable c) : Live c := by
  obtain ⟨parsers, info, sslcontext, es, h⟩ := h
  exact (h.invariant (I := fun c => Wf c ∧ Live c) ⟨wf_fresh _ _ _, fun _ f hf => absurd rfl hf⟩
    fun _ _ _ hI hs => ⟨step_wf hI.1 hs, step_live hI.1 hI.2 hs⟩).2

end Levin.Connection
