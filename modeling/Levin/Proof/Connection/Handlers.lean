import Levin.Proof.Connection.Callbacks

/-!
# Handlers and their tasks

What the coroutines do when a handler comes back, in one equation each: a handler
of a request (`handleRequest_eq`) or of a push (`pushDone_eq`) writes its response
and may end its task; the end of a task completes its future (`settle_eq`).
-/

namespace Levin.Connection

open Framework

variable {π ω : Type} {c c' : Connection π ω} {f g k : Nat}

variable [ParserProtocol π ω]

/-! ## Handlers -/

/-- What a handler's result adds to the log: a response, if there is one. -/
def Answers (owner : Owner) : HandlerResult → List (Action ω) → Prop
  | .returned _, l => ∃ chunks : List (List ω), l = .respond owner :: chunks.map .write
  | _, l => l = []

/-- Whether `handle_request` fails at its handler's result: the handler has failed, or its response
cannot be written. -/
def handlerFails (c : Connection π ω) (f : Nat) : HandlerResult → Bool
  | .returned response =>
    (c.writeResponse (.request f) response ((c.future f).request.setTransportInfo c.transport.info)).2.2.isSome
  | _ => true

/-- What `handle_request` does of its handler's result: it writes the response, and ends or waits
for the pushes. -/
theorem handleRequest_eq (f : Nat) (result : HandlerResult) (c : Connection π ω) :
    ∃ (p : Option π) (t : Task) (l : List (Action ω)), p.isSome = c.parser.isSome ∧
      c.handleRequest f result = { c with parser := p, log := c.log ++ l, task := Function.update c.task f t } ∧
      Answers (.request f) result l ∧
      if c.handlerFails f result then ∃ o, o ≠ .returned ∧ t = { c.task f with state := .ended o }
      else t = { c.task f with state := .ended .returned } ∨
        t.state = .pushing ∧ t.running = List.range t.pushes.length := by
  cases result with
  | raised e => exact ⟨c.parser, _, [], rfl, by simp [handleRequest, endTask, setTask], rfl, .raised e, by simp, rfl⟩
  | cancelled => exact ⟨c.parser, _, [], rfl, by simp [handleRequest, endTask, setTask], rfl, .cancelled, by simp, rfl⟩
  | returned response =>
    obtain ⟨p, chunks, hp, hw⟩ := writeResponse_eq (.request f) response
      ((c.future f).request.setTransportInfo c.transport.info) c
    rcases hwr : c.writeResponse (.request f) response
      ((c.future f).request.setTransportInfo c.transport.info) with ⟨c₁, r, _ | e⟩
    · rw [hwr] at hw
      obtain rfl : c₁ = _ := hw
      simp only [handleRequest, handlerFails, hwr, Option.isSome_none, Bool.false_eq_true, ite_false]
      split
      · exact ⟨p, _, _, hp, rfl, ⟨chunks, rfl⟩, .inr ⟨rfl, rfl⟩⟩
      · exact ⟨p, _, _, hp, rfl, ⟨chunks, rfl⟩, .inl rfl⟩
    · rw [hwr] at hw
      obtain rfl : c₁ = _ := hw
      simp only [handleRequest, handlerFails, hwr, Option.isSome_some, ite_true]
      exact ⟨p, _, _, hp, rfl, ⟨chunks, rfl⟩, .raised e, by simp, rfl⟩

/-- What `handle_push` makes of a response: it writes it, as a push. -/
theorem handlePush_returned {push : Push} (hk : (c.task f).pushes[k]? = some push) (response : Response) :
    (c.handlePush f k (.returned response)).1 =
      (c.writeResponse (.push f k) { response with push := true } (c.pushRequest push (c.future f).request)).1 := by
  simp only [handlePush, hk]
  split <;> rename_i hw <;> rw [hw]

/-- What `handle_push` does of its handler's result: it writes the response. -/
theorem handlePush_eq (f k : Nat) (result : HandlerResult) (c : Connection π ω) :
    ∃ (p : Option π) (l : List (Action ω)), p.isSome = c.parser.isSome ∧
      (c.handlePush f k result).1 = { c with parser := p, log := c.log ++ l } ∧
      (k < (c.task f).pushes.length → Answers (.push f k) result l) := by
  cases result with
  | raised e => exact ⟨c.parser, [], rfl, by simp [handlePush], fun _ => rfl⟩
  | cancelled => exact ⟨c.parser, [], rfl, by simp [handlePush], fun _ => rfl⟩
  | returned response =>
    cases hk : (c.task f).pushes[k]? with
    | none =>
      have hle := List.getElem?_eq_none_iff.mp hk
      exact ⟨c.parser, [], rfl, by simp [handlePush, hk], fun hlt => by omega⟩
    | some push =>
      obtain ⟨p, chunks, hp, hw⟩ := writeResponse_eq (.push f k) { response with push := true }
        (c.pushRequest push (c.future f).request) c
      exact ⟨p, _, hp, by rw [handlePush_returned hk, hw], fun _ => ⟨chunks, rfl⟩⟩

omit [ParserProtocol π ω] in
/-- A task that one of its pushes has ended for. -/
theorem gather_eq (f k : Nat) (outcome : Outcome) (c : Connection π ω) :
    ∃ t : Task, c.gather f k outcome = c.setTask f t ∧ t.pushes = (c.task f).pushes ∧
      t.running = (c.task f).running.erase k ∧
      (t.state = (c.task f).state ∨ (c.task f).state = .pushing ∧ ∃ o, t.state = .ended o) := by
  simp only [gather]
  split
  · rename_i hs
    split
    · exact ⟨_, rfl, rfl, rfl, .inr ⟨hs, outcome, rfl⟩⟩
    · split
      · exact ⟨_, rfl, rfl, rfl, .inr ⟨hs, .returned, rfl⟩⟩
      · exact ⟨_, rfl, rfl, rfl, .inl rfl⟩
  · exact ⟨_, rfl, rfl, rfl, .inl rfl⟩

theorem pushDone_gather (f k : Nat) (result : HandlerResult) (c : Connection π ω) :
    c.pushDone f k result = (c.handlePush f k result).1.gather f k (c.handlePush f k result).2 := rfl

/-- What is written when a push ends is what `handle_push` writes. -/
theorem pushDone_log (f k : Nat) (result : HandlerResult) (c : Connection π ω) :
    (c.pushDone f k result).log = (c.handlePush f k result).1.log := by
  obtain ⟨t, h, -⟩ := gather_eq f k (c.handlePush f k result).2 (c.handlePush f k result).1
  rw [pushDone_gather, h]
  rfl

/-- What the end of a push does: its response is written, and its task may end. -/
theorem pushDone_eq (f k : Nat) (result : HandlerResult) (c : Connection π ω) :
    ∃ (p : Option π) (t : Task) (l : List (Action ω)), p.isSome = c.parser.isSome ∧
      c.pushDone f k result = { c with parser := p, log := c.log ++ l, task := Function.update c.task f t } ∧
      (k < (c.task f).pushes.length → Answers (.push f k) result l) ∧
      t.pushes = (c.task f).pushes ∧ t.running = (c.task f).running.erase k ∧
      (t.state = (c.task f).state ∨ (c.task f).state = .pushing ∧ ∃ o, t.state = .ended o) := by
  obtain ⟨p, l, hp, hw, hl⟩ := handlePush_eq f k result c
  obtain ⟨t, hg, ht⟩ := gather_eq f k (c.handlePush f k result).2 (c.handlePush f k result).1
  rw [← pushDone_gather, hw] at hg
  rw [hw] at ht
  exact ⟨p, t, l, hp, hg, hl, ht⟩

/-! ## Tasks that have ended -/

theorem failed_toFuture (o : Outcome) : failed o.toFuture = true ↔ o ≠ .returned := by
  cases o <;> simp [Outcome.toFuture, failed]

theorem Outcome.toFuture_ne_pending (o : Outcome) : o.toFuture ≠ .pending := by
  cases o <;> simp [Outcome.toFuture]

/-- What the end of a task does to a future that has none yet: it drops it, with a 500 if the task
failed and the transport is open, and closes the connection if the close callback says so. -/
theorem settle_eq (hp : Pending c) (hf : f ∈ c.futures) (o : Outcome) :
    ∃ (p : Option π) (r : Response) (l : List (Action ω)), p.isSome = c.parser.isSome ∧
      (if o ≠ .returned ∧ c.transport.closing = false then
        ∃ chunks : List (List ω), l = .respond (.request f) :: chunks.map .write
      else l = []) ∧
      let c₁ := { (c.setTask f { c.task f with state := .gone }).drop f o.toFuture with
        parser := p, response500 := r, log := c.log ++ l }
      if .close ∈ (c.future f).callbacks then Closes c₁.closeTransport (c.settle f o) else c.settle f o = c₁ := by
  have hp₀ : Pending (c.setTask f { c.task f with state := .gone }) := ⟨hp.nodup, hp.pending, hp.callbacks⟩
  obtain ⟨p, r, l, hsome, hl, -, hi⟩ := invokeCallbacks_close hp₀ hf (Outcome.toFuture_ne_pending o)
  simp only [ne_eq, failed_toFuture] at hl
  have hpend : ((c.setTask f { c.task f with state := .gone }).future f).state = .pending := hp.pending f hf
  simp only [settle, hpend]
  exact ⟨p, r, l, hsome, hl, hi⟩

/-- A future completed before keeps its state. -/
theorem settle_of_ne_pending (h : (c.future f).state ≠ .pending) (o : Outcome) :
    c.settle f o = c.setTask f { c.task f with state := .gone } := by
  simp only [settle]
  split
  · rename_i hp
    exact absurd hp h
  · rfl

end Levin.Connection
