import Levin.Proof.Connection.Dispatch
import Levin.Proof.Connection.Handlers

/-!
# The invariant

Between two steps of the event loop `_futures` lists exactly the futures that are
pending (`Wf`). Every step keeps this (`step_wf`), so that it holds of every
reachable state.
-/

namespace Levin.Connection

open Framework

variable {π ω : Type} {c c' : Connection π ω} {f g k : Nat}

/-- What holds between two steps of the event loop: `_futures` lists exactly the futures that are
pending, tasks exist for futures only, and a parser is selected before the first of them. -/
structure Wf (c : Connection π ω) : Prop extends Pending c where
  lt : ∀ f ∈ c.futures, f < c.next
  listed : ∀ f < c.next, (c.future f).state = .pending → f ∈ c.futures
  idle : ∀ f, c.next ≤ f → c.task f = {}
  running : ∀ f, ∀ k ∈ (c.task f).running, k < (c.task f).pushes.length
  parser : c.parser = none → c.next = 0

variable [ParserProtocol π ω]

namespace Wf

omit [ParserProtocol π ω]

theorem lt_of_task (hw : Wf c) (h : (c.task f).state ≠ .gone ∨ (c.task f).running ≠ []) : f < c.next := by
  by_contra hlt
  rw [hw.idle f (by omega)] at h
  simp at h

/-- A future of the past is listed as long as it is pending. -/
theorem mem_futures_iff (hw : Wf c) : f ∈ c.futures ↔ f < c.next ∧ (c.future f).state = .pending :=
  ⟨fun h => ⟨hw.lt f h, hw.pending f h⟩, fun h => hw.listed f h.1 h.2⟩

/-- What is no future, task or parser does not matter. -/
theorem congr (hw : Wf c) (hf : c'.futures = c.futures) (hfu : c'.future = c.future) (ht : c'.task = c.task)
    (hn : c'.next = c.next) (hp : c.parser ≠ none → c'.parser ≠ none) : Wf c' where
  nodup := by rw [hf]; exact hw.nodup
  pending := by rw [hf, hfu]; exact hw.pending
  callbacks := by rw [hf, hfu]; exact hw.callbacks
  lt := by rw [hf, hn]; exact hw.lt
  listed := by rw [hf, hfu, hn]; exact hw.listed
  idle := by rw [ht, hn]; exact hw.idle
  running := by rw [ht]; exact hw.running
  parser h := by rw [hn]; exact hw.parser (Classical.not_not.mp fun hne => hp hne h)

/-- A task goes on. -/
theorem setTask (hw : Wf c) (hf : f < c.next) {t : Task} (ht : ∀ k ∈ t.running, k < t.pushes.length) :
    Wf (c.setTask f t) where
  nodup := hw.nodup
  pending := hw.pending
  callbacks := hw.callbacks
  lt := hw.lt
  listed := hw.listed
  idle g hg := by
    have hne : g ≠ f := fun h => absurd (h ▸ hg) (Nat.not_le.mpr hf)
    simpa [Connection.setTask, hne] using hw.idle g hg
  running g := by
    by_cases hg : g = f
    · subst hg
      simpa [Connection.setTask] using ht
    · simpa [Connection.setTask, hg] using hw.running g
  parser := hw.parser

theorem stop_running {t : Task} (h : ∀ k ∈ t.running, k < t.pushes.length) :
    ∀ k ∈ t.stop.running, k < t.stop.pushes.length := by
  unfold Task.stop
  split
  · simp
  · simp
  · exact h

/-- Futures are completed and dropped. -/
theorem drains (hw : Wf c) (h : Drains c c') : Wf c' where
  toPending := h.pending hw.toPending
  lt f hf := by rw [h.next]; exact hw.lt f (h.futures.subset hf)
  listed f hf hs := by
    by_contra hn
    by_cases hf' : f ∈ c.futures
    · exact h.dropped f hf' hn hs
    · rw [(h.future f).resolve_right fun ⟨m, _⟩ => hf' m] at hs
      exact hf' (hw.listed f (h.next ▸ hf) hs)
  idle f hf := by
    rw [h.next] at hf
    rcases h.task f with e | ⟨m, -⟩
    · rw [e]; exact hw.idle f hf
    · exact absurd (hw.lt f m) (by omega)
  running f := by
    rcases h.task f with e | ⟨-, e⟩ <;> rw [e]
    · exact hw.running f
    · exact stop_running (hw.running f)
  parser hp := by
    rw [h.next]
    refine hw.parser ?_
    have := h.parser
    rw [hp] at this
    exact Option.isNone_iff_eq_none.mp (by simpa using this.symm)

/-- Requests are dispatched. -/
theorem dispatched (hw : Wf c) (hp : c.parser ≠ none) (rs : List Request) (close : Bool) :
    Wf (dispatched rs close c) := by
  have hmem : ∀ f, f ∈ (Connection.dispatched rs close c).futures ↔
      f ∈ c.futures ∨ c.next ≤ f ∧ f < c.next + rs.length := by
    intro f
    rw [show (Connection.dispatched rs close c).futures = c.futures ++ List.range' c.next rs.length from rfl]
    simp
  have hcases : ∀ f, (f < c.next ∨ c.next + rs.length ≤ f) ∨ c.next ≤ f ∧ f < c.next + rs.length := by
    intro f
    omega
  refine ⟨⟨?_, fun f hf => ?_, fun f hf => ?_⟩, fun f hf => ?_, fun f hf hs => ?_, fun f hf => ?_, fun f => ?_, ?_⟩
  · refine List.nodup_append.mpr ⟨hw.nodup, List.nodup_range', fun f hf g hg => ?_⟩
    have := hw.lt f hf
    rw [List.mem_range'_1] at hg
    omega
  · rcases (hmem f).mp hf with hf | ⟨h₁, h₂⟩
    · rw [(dispatched_old (.inl (hw.lt f hf))).1]
      exact hw.pending f hf
    · obtain ⟨request, -, -, e, -⟩ := dispatched_new h₁ h₂
      rw [e]
  · rcases (hmem f).mp hf with hf | ⟨h₁, h₂⟩
    · rw [(dispatched_old (.inl (hw.lt f hf))).1]
      exact hw.callbacks f hf
    · obtain ⟨request, -, -, e, -⟩ := dispatched_new h₁ h₂
      rw [e]
      exact (ite_eq_or_eq _ _ _).symm
  · show f < c.next + rs.length
    rcases (hmem f).mp hf with hf | ⟨-, h₂⟩
    · exact Nat.lt_add_right _ (hw.lt f hf)
    · exact h₂
  · have hlt : f < c.next + rs.length := hf
    rcases hcases f with hold | hnew
    · rw [(dispatched_old hold).1] at hs
      exact (hmem f).mpr (.inl (hw.listed f (by omega) hs))
    · exact (hmem f).mpr (.inr hnew)
  · have hle : c.next + rs.length ≤ f := hf
    rw [(dispatched_old (.inr hle)).2]
    exact hw.idle f (by omega)
  · rcases hcases f with hold | ⟨h₁, h₂⟩
    · rw [(dispatched_old hold).2]
      exact hw.running f
    · obtain ⟨request, -, -, -, e⟩ := dispatched_new h₁ h₂
      rw [e]
      simp
  · exact fun h => absurd h hp

end Wf

/-! ## Steps -/

theorem step_dataReceived {data : Bytes} :
    Step c (.dataReceived data) c' ↔ c.transport.closing = false ∧ c.receive data = c' := by
  simp [Step, step]

theorem step_handlerDone {result : HandlerResult} :
    Step c (.handlerDone f result) c' ↔ (c.task f).state = .handling ∧ c.handleRequest f result = c' := by
  simp [Step, step]

theorem step_pushDone {result : HandlerResult} :
    Step c (.pushDone f k result) c' ↔ k ∈ (c.task f).running ∧ c.pushDone f k result = c' := by
  simp [Step, step]

theorem step_settle : Step c (.settle f) c' ↔ ∃ o, (c.task f).state = .ended o ∧ c.settle f o = c' := by
  simp only [Step, step]
  split
  · rename_i o ho
    simp [ho]
  · rename_i hn
    simp only [reduceCtorEq, false_iff, not_exists, not_and]
    exact fun o ho => absurd ho (hn o)

theorem step_cancelTask :
    Step c (.cancelTask f) c' ↔ ((c.task f).state = .handling ∨ (c.task f).state = .pushing) ∧ c.stopTask f = c' := by
  simp [Step, step]

theorem step_transportClosing : Step c .transportClosing c' ↔ c.setClosing = c' := by
  simp [Step, step]

theorem step_connectionLost : Step c .connectionLost c' ↔ c.setClosing.connectionLost = c' := by
  simp [Step, step]

theorem step_close : Step c .close c' ↔ c.close.1 = c' := by
  simp [Step, step]

/-- The futures and the transport are as before, and no exception has come out. -/
structure KeepsFutures (c c' : Connection π ω) : Prop where
  next : c'.next = c.next
  futures : c'.futures = c.futures
  transport : c'.transport = c.transport
  escaped : c'.escaped = c.escaped

theorem keepsFutures_handlerDone {result : HandlerResult} (h : Step c (.handlerDone f result) c') : KeepsFutures c c' := by
  obtain ⟨-, rfl⟩ := step_handlerDone.mp h
  obtain ⟨p, t, l, -, e, -⟩ := handleRequest_eq f result c
  rw [e]
  exact ⟨rfl, rfl, rfl, rfl⟩

theorem keepsFutures_pushDone {result : HandlerResult} (h : Step c (.pushDone f k result) c') : KeepsFutures c c' := by
  obtain ⟨-, rfl⟩ := step_pushDone.mp h
  obtain ⟨p, t, l, -, e, -⟩ := pushDone_eq f k result c
  rw [e]
  exact ⟨rfl, rfl, rfl, rfl⟩

theorem keepsFutures_cancelTask (h : Step c (.cancelTask f) c') : KeepsFutures c c' := by
  obtain ⟨-, rfl⟩ := step_cancelTask.mp h
  exact ⟨rfl, rfl, rfl, rfl⟩

/-- The end of a task only drains. -/
theorem drains_settle (hw : Wf c) {o : Outcome} (ho : (c.task f).state = .ended o) :
    Drains (c.setTask f { c.task f with state := .gone }) (c.settle f o) := by
  have hlt : f < c.next := hw.lt_of_task (.inl (by simp [ho]))
  by_cases hs : (c.future f).state = .pending
  · have hw₁ := hw.setTask (t := { c.task f with state := .gone }) hlt (hw.running f)
    simp only [settle, setTask, hs]
    exact drains_invokeCallbacks hw₁.toPending (hw.listed f hlt hs) (Outcome.toFuture_ne_pending o)
  · rw [settle_of_ne_pending hs]
    exact .refl _

theorem wf_receive (hw : Wf c) (data : Bytes) : Wf (c.receive data) := by
  obtain ⟨ps, p, hp, ⟨e, -, h⟩ | ⟨parsed, -, hp', h⟩⟩ := receive_cases hw.toPending data
  · rw [h]
    exact hw.congr rfl rfl rfl rfl hp
  · have hw₁ : Wf { c with parsers := ps, parser := p, log := c.log ++ sent parsed.data } :=
      hw.congr rfl rfl rfl rfl hp
    simp only at h
    split at h
    · exact hw₁.drains ((closes_closeTransport _).trans h).drains
    · rw [h]
      exact hw₁.dispatched hp' _ _

/-- Every step of the event loop keeps the invariant. -/
theorem step_wf ⦃c : Connection π ω⦄ ⦃e : Event⦄ ⦃c' : Connection π ω⦄ (hw : Wf c) (h : Step c e c') : Wf c' := by
  have isSome_ne : ∀ {p : Option π}, p.isSome = c.parser.isSome → c.parser ≠ none → p ≠ none := by
    intro p hp hn
    rwa [← Option.isSome_iff_ne_none, hp, Option.isSome_iff_ne_none]
  cases e with
  | dataReceived data =>
    obtain ⟨-, rfl⟩ := step_dataReceived.mp h
    exact wf_receive hw data
  | handlerDone f result =>
    obtain ⟨hs, rfl⟩ := step_handlerDone.mp h
    obtain ⟨p, t, l, hp, e, -, ht⟩ := handleRequest_eq f result c
    have ht' : ∀ k ∈ t.running, k < t.pushes.length := by
      split at ht
      · obtain ⟨o, -, rfl⟩ := ht
        exact hw.running f
      · rcases ht with rfl | ⟨-, hr⟩
        · exact hw.running f
        · simp [hr]
    rw [e]
    exact (hw.setTask (hw.lt_of_task (.inl (by simp [hs]))) ht').congr rfl rfl rfl rfl (isSome_ne hp)
  | pushDone f k result =>
    obtain ⟨hk, rfl⟩ := step_pushDone.mp h
    obtain ⟨p, t, l, hp, e, -, hpushes, hr, -⟩ := pushDone_eq f k result c
    have ht' : ∀ k ∈ t.running, k < t.pushes.length := by
      rw [hpushes, hr]
      exact fun k hk => hw.running f k (List.mem_of_mem_erase hk)
    rw [e]
    exact (hw.setTask (hw.lt_of_task (.inr (List.ne_nil_of_mem hk))) ht').congr rfl rfl rfl rfl (isSome_ne hp)
  | settle f =>
    obtain ⟨o, ho, rfl⟩ := step_settle.mp h
    have hlt : f < c.next := hw.lt_of_task (.inl (by simp [ho]))
    exact (hw.setTask (t := { c.task f with state := .gone }) hlt (hw.running f)).drains (drains_settle hw ho)
  | cancelTask f =>
    obtain ⟨hs, rfl⟩ := step_cancelTask.mp h
    exact hw.setTask (hw.lt_of_task (.inl (by rcases hs with hs | hs <;> simp [hs]))) (Wf.stop_running (hw.running f))
  | transportClosing =>
    obtain rfl := step_transportClosing.mp h
    exact hw.congr rfl rfl rfl rfl id
  | connectionLost =>
    obtain rfl := step_connectionLost.mp h
    have hw₁ : Wf c.setClosing.logLost := hw.congr rfl rfl rfl rfl id
    exact hw₁.drains (connectionLost_drains (pending_setClosing hw.toPending))
  | close =>
    obtain rfl := step_close.mp h
    exact hw.drains (closes_close hw.toPending).drains

theorem wf_fresh (parsers : List π) (info : TransportInfo) (sslcontext : Bool) :
    Wf (fresh parsers info sslcontext) where
  nodup := List.nodup_nil
  pending _ h := nomatch h
  callbacks _ h := nomatch h
  lt _ h := nomatch h
  listed _ h := nomatch h
  idle _ _ := rfl
  running _ _ h := nomatch h
  parser _ := rfl

theorem Reachable.wf (h : Reachable c) : Wf c := by
  obtain ⟨parsers, info, sslcontext, es, h⟩ := h
  exact h.invariant (wf_fresh parsers info sslcontext) step_wf

end Levin.Connection
