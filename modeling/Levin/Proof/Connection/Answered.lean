import Levin.Proof.Connection.Batch
import Levin.Proof.Connection.Wire

/-!
# No request is lost

As long as the transport is open, a request has a response or is still to get one,
whatever the parsers are (`run_batched`). So when the tasks are all gone each has
one, and one only if no task has failed late (`answered_once`).
-/

namespace Levin.Connection

open Framework

variable {π ω : Type} [ParserProtocol π ω] {c c' : Connection π ω} {f : Nat} {e : Event} {es : List Event}

/-- A future of a step is that of a request in its chunk, whose handler has been called. -/
theorem step_new (hw : Wf c) (h : Step c e c') (hf : c.next ≤ f) (hf' : f < c'.next) :
    (∃ data, e = .dataReceived data) ∧ (c'.task f).state = .handling := by
  have hlength : ∀ d : Connection π ω, d.requests.length = d.next := fun d => by simp [requests]
  have hnew := congrArg List.length (step_requests hw h)
  rw [List.length_append, hlength, hlength] at hnew
  cases e with
  | dataReceived data =>
    refine ⟨⟨data, rfl⟩, ?_⟩
    obtain ⟨-, ps, p, ⟨e, -, rfl⟩ | ⟨parsed, -, -, hc⟩ | ⟨parsed, -, -, rfl⟩⟩ := step_dataReceived_cases hw h
    · exact absurd hf' (Nat.not_lt.mpr hf)
    · rw [hc.next] at hf'
      exact absurd hf' (Nat.not_lt.mpr hf)
    · obtain ⟨-, -, -, -, ht⟩ := @dispatched_new π ω { c with parsers := ps, parser := p, log := c.log ++ sent parsed.data }
        f parsed.requests parsed.close hf hf'
      exact congrArg Task.state ht
  | _ =>
    simp only [newRequests, List.length_nil] at hnew
    omega

/-- A request that has just been dispatched waits for its handler. -/
theorem batched_new (hw : Wf c) (hr : Responded es c f) (h : Step c e c') (hf : c.next ≤ f) (hf' : f < c'.next) :
    Batched (es ++ [e]) c' f := by
  obtain ⟨⟨data, rfl⟩, hhandling⟩ := step_new hw h hf hf'
  refine ⟨responded_step hw hr h, fun _ => .inr ⟨?_, .inl hhandling⟩⟩
  rintro ⟨response, hmem⟩
  have hpast := hr.past (hr.returned ⟨response, by simpa using hmem⟩)
  omega

/-- In every run, each request has been answered as long as the transport is open, or is still to be. -/
theorem run_batched {parsers : List π} {info : TransportInfo} {sslcontext : Bool}
    (h : Run Step (fresh parsers info sslcontext) es c) : Live c ∧ ∀ f < c.next, Batched es c f := by
  induction h with
  | nil => exact ⟨fun _ f hf => absurd rfl hf, fun f hf => absurd hf (Nat.not_lt_zero f)⟩
  | @snoc es c c' e h hs ih =>
    obtain ⟨hw, hr⟩ := responded_run h
    refine ⟨step_live hw ih.1 hs, fun f hf => ?_⟩
    by_cases hold : f < c.next
    · exact batched_step hw ih.1 (ih.2 f hold) hs
    · exact batched_new hw (hr f) hs (Nat.le_of_not_lt hold) hf

/-- In every run, while the transport is open: a request that has not been answered waits for its handler or for the
500 response, and one whose task is gone has been answered, once if no task has failed late. -/
theorem none_lost {parsers : List π} {info : TransportInfo} {sslcontext : Bool}
    (h : Run Step (fresh parsers info sslcontext) es c) (ho : c.transport.closing = false) (hf : f < c.next) :
    (.request f ∈ responds c.log ∨ Unanswered es c f) ∧
      ((c.task f).state = .gone → 1 ≤ (responds c.log).count (.request f) ∧
        (Throughout Step (fresh parsers info sslcontext) (fun es c e => ¬ LateFailure es c e) es →
          (responds c.log).count (.request f) = 1)) := by
  have hwaits := ((run_batched h).2 f hf).waits ho
  refine ⟨hwaits, fun hgone => ?_⟩
  have hin : .request f ∈ responds c.log := by
    refine hwaits.resolve_right fun ⟨_, hun⟩ => ?_
    rcases hun with hun | ⟨o, _, hun⟩ <;> rw [hgone] at hun <;> cases hun
  have hone := List.count_pos_iff.mpr hin
  refine ⟨hone, fun hlate => ?_⟩
  have honce : AtMostOnce c := by
    refine h.invariant_of (I := AtMostOnce) (fun f => Nat.zero_le _) ?_ hlate
    intro es c e c' hr hg hok hs
    exact (atMostOnce_step (responded_run hr).1 (responded_run hr).2 hs hg).mpr hok
  exact Nat.le_antisymm (honce f) hone

/-- The state once a request has been received and answered. -/
def answeredOnce : Connection Mock UInt8 := ((mockConnection.receive [45]).handleRequest 0 returnsOk).settle 0 .returned

theorem answeredOnce_not_lost : 1 ≤ (responds answeredOnce.log).count (.request 0) := by
  have hrun : Run Step mockConnection [.dataReceived [45], .handlerDone 0 returnsOk, .settle 0] answeredOnce :=
    .cons (step_dataReceived.mpr ⟨rfl, rfl⟩) <| .cons (step_handlerDone.mpr ⟨by decide, rfl⟩) <|
      .single (step_settle.mpr ⟨_, by decide, rfl⟩)
  exact ((none_lost hrun (by decide) (show 0 < answeredOnce.next by decide)).2 (by decide)).1

end Levin.Connection
