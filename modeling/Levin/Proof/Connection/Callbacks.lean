import Levin.Core.Connection
import Mathlib.Tactic.Common

/-!
# What completing a future does

A pending request future has the done callback, and after it the close callback
if the last request of a closing chunk is its (`Pending`). Completing it takes it
out of `_futures`, with a 500 response where the transport still is open
(`doneCallback_eq`). On a closing transport nothing is written: `close` only
finishes futures with `CloseException` and drops them (`Closes`). `cancel` and
`connection_lost` drop futures too, cancelled or finished (`Drains`).
-/

namespace Levin

theorem Task.stop_stop (t : Task) : t.stop.stop = t.stop := by
  rcases t with ⟨_ | _ | _ | _, _, _⟩ <;> rfl

namespace Connection

open Framework

variable {π ω : Type} {c c' c'' : Connection π ω} {f g : Nat}

/-- The futures in `_futures` are pending requests'. -/
structure Pending (c : Connection π ω) : Prop where
  nodup : c.futures.Nodup
  pending : ∀ f ∈ c.futures, (c.future f).state = .pending
  callbacks : ∀ f ∈ c.futures, (c.future f).callbacks = [.done] ∨ (c.future f).callbacks = [.done, .close]

theorem pending_logLost (hp : Pending c) : Pending c.logLost := ⟨hp.nodup, hp.pending, hp.callbacks⟩

theorem pending_setClosing (hp : Pending c) : Pending c.setClosing := ⟨hp.nodup, hp.pending, hp.callbacks⟩

/-! ## Futures completed and dropped -/

/-- The future `f` completed and dropped. -/
def drop (f : Nat) (state : FutureState) (c : Connection π ω) : Connection π ω :=
  { c.setFuture f state with futures := c.futures.erase f }

theorem setFuture_future_self (state : FutureState) :
    (c.setFuture f state).future f = { c.future f with state } := by
  simp [setFuture]

theorem drop_future_self (state : FutureState) : (c.drop f state).future f = { c.future f with state } :=
  setFuture_future_self state

theorem drop_future_of_ne (state : FutureState) (h : g ≠ f) : (c.drop f state).future g = c.future g := by
  simp [drop, setFuture, h]

/-- What `close` does: it closes the transport, finishes some of the futures and drops them,
and writes nothing. -/
structure Closes (c c' : Connection π ω) : Prop where
  futures : c'.futures.Sublist c.futures
  future : ∀ f, c'.future f = c.future f ∨
    f ∈ c.futures ∧ f ∉ c'.futures ∧ c'.future f = { c.future f with state := .finished (some .CloseException) }
  dropped : ∀ f ∈ c.futures, f ∉ c'.futures → (c'.future f).state ≠ .pending
  task : c'.task = c.task
  parser : c'.parser = c.parser
  response500 : c'.response500 = c.response500
  next : c'.next = c.next
  escaped : c'.escaped = c.escaped
  closing : c'.transport.closing = true
  log : ∃ k, c'.log = c.log ++ List.replicate k .close

namespace Closes

theorem refl (h : c.transport.closing = true) : Closes c c :=
  ⟨.refl _, fun _ => .inl rfl, fun _ h hn => absurd h hn, rfl, rfl, rfl, rfl, rfl, h, 0, by simp⟩

theorem trans (h : Closes c c') (h' : Closes c' c'') : Closes c c'' where
  futures := h'.futures.trans h.futures
  future f := by
    rcases h'.future f with e' | ⟨m', n', e'⟩
    · rcases h.future f with e | ⟨m, n, e⟩
      · exact .inl (e'.trans e)
      · exact .inr ⟨m, fun hm => n (h'.futures.subset hm), e'.trans e⟩
    · rcases h.future f with e | ⟨m, n, e⟩
      · exact .inr ⟨h.futures.subset m', n', by rw [e', e]⟩
      · exact absurd m' n
  dropped f hf hn := by
    by_cases hf' : f ∈ c'.futures
    · exact h'.dropped f hf' hn
    · rw [(h'.future f).resolve_right fun ⟨m, _⟩ => hf' m]
      exact h.dropped f hf hf'
  task := h'.task.trans h.task
  parser := h'.parser.trans h.parser
  response500 := h'.response500.trans h.response500
  next := h'.next.trans h.next
  escaped := h'.escaped.trans h.escaped
  closing := h'.closing
  log := by
    obtain ⟨k, e⟩ := h.log
    obtain ⟨k', e'⟩ := h'.log
    exact ⟨k + k', by rw [e', e, List.append_assoc, List.replicate_append_replicate]⟩

end Closes

theorem closes_closeTransport (c : Connection π ω) : Closes c c.closeTransport :=
  ⟨.refl _, fun _ => .inl rfl, fun _ h hn => absurd h hn, rfl, rfl, rfl, rfl, rfl, rfl, 1, rfl⟩

theorem Closes.log_closeTransport (h : Closes c.closeTransport c') :
    ∃ k, c'.log = c.log ++ List.replicate (k + 1) .close := by
  obtain ⟨k, e⟩ := h.log
  exact ⟨k, by rw [e, closeTransport, List.append_assoc, List.replicate_succ]; rfl⟩

/-- Finishing a future of the list and dropping it, on a closing transport. -/
theorem closes_drop (hp : Pending c) (hc : c.transport.closing = true) (hf : f ∈ c.futures) :
    Closes c (c.drop f (.finished (some .CloseException))) where
  futures := List.erase_sublist
  future g := by
    by_cases hg : g = f
    · subst hg
      exact .inr ⟨hf, hp.nodup.not_mem_erase, drop_future_self _⟩
    · exact .inl (drop_future_of_ne _ hg)
  dropped g hg hn := by
    by_cases hgf : g = f
    · subst hgf
      simp [drop_future_self]
    · exact absurd ((List.mem_erase_of_ne hgf).mpr hg) hn
  task := rfl
  parser := rfl
  response500 := rfl
  next := rfl
  escaped := rfl
  closing := hc
  log := ⟨0, by simp [drop, setFuture]⟩

/-- What completing futures and dropping them does: tasks may stop, and a closing transport
is written nothing. -/
structure Drains (c c' : Connection π ω) : Prop where
  futures : c'.futures.Sublist c.futures
  future : ∀ f, c'.future f = c.future f ∨
    f ∈ c.futures ∧ f ∉ c'.futures ∧ ∃ state, state ≠ .pending ∧ c'.future f = { c.future f with state }
  dropped : ∀ f ∈ c.futures, f ∉ c'.futures → (c'.future f).state ≠ .pending
  task : ∀ f, c'.task f = c.task f ∨ f ∈ c.futures ∧ c'.task f = (c.task f).stop
  parser : c'.parser.isSome = c.parser.isSome
  next : c'.next = c.next
  escaped : c'.escaped = c.escaped
  closing : c.transport.closing = true → c'.transport.closing = true
  log : c.transport.closing = true → ∃ k, c'.log = c.log ++ List.replicate k .close

namespace Drains

theorem refl (c : Connection π ω) : Drains c c :=
  ⟨.refl _, fun _ => .inl rfl, fun _ h hn => absurd h hn, fun _ => .inl rfl, rfl, rfl, rfl, id,
    fun _ => ⟨0, by simp⟩⟩

theorem trans (h : Drains c c') (h' : Drains c' c'') : Drains c c'' where
  futures := h'.futures.trans h.futures
  future f := by
    rcases h'.future f with e' | ⟨m', n', s', hs', e'⟩
    · rcases h.future f with e | ⟨m, n, s, hs, e⟩
      · exact .inl (e'.trans e)
      · exact .inr ⟨m, fun hm => n (h'.futures.subset hm), s, hs, e'.trans e⟩
    · rcases h.future f with e | ⟨m, n, s, hs, e⟩
      · exact .inr ⟨h.futures.subset m', n', s', hs', by rw [e', e]⟩
      · exact absurd m' n
  dropped f hf hn := by
    by_cases hf' : f ∈ c'.futures
    · exact h'.dropped f hf' hn
    · rw [(h'.future f).resolve_right fun ⟨m, _⟩ => hf' m]
      exact h.dropped f hf hf'
  task f := by
    rcases h'.task f with e' | ⟨m', e'⟩ <;> rcases h.task f with e | ⟨m, e⟩
    · exact .inl (e'.trans e)
    · exact .inr ⟨m, e'.trans e⟩
    · exact .inr ⟨h.futures.subset m', by rw [e', e]⟩
    · exact .inr ⟨m, by rw [e', e, Task.stop_stop]⟩
  parser := h'.parser.trans h.parser
  next := h'.next.trans h.next
  escaped := h'.escaped.trans h.escaped
  closing hc := h'.closing (h.closing hc)
  log hc := by
    obtain ⟨k, e⟩ := h.log hc
    obtain ⟨k', e'⟩ := h'.log (h.closing hc)
    exact ⟨k + k', by rw [e', e, List.append_assoc, List.replicate_append_replicate]⟩

/-- A future that is left is as it was. -/
theorem future_of_mem (h : Drains c c') (hf : f ∈ c'.futures) : c'.future f = c.future f :=
  (h.future f).resolve_right fun ⟨_, hn, _⟩ => hn hf

theorem pending (h : Drains c c') (hp : Pending c) : Pending c' where
  nodup := hp.nodup.sublist h.futures
  pending f hf := by rw [h.future_of_mem hf]; exact hp.pending f (h.futures.subset hf)
  callbacks f hf := by rw [h.future_of_mem hf]; exact hp.callbacks f (h.futures.subset hf)

end Drains

theorem Closes.drains (h : Closes c c') : Drains c c' where
  futures := h.futures
  future f := (h.future f).imp_right fun ⟨m, n, e⟩ => ⟨m, n, _, by simp, e⟩
  dropped := h.dropped
  task f := .inl (congrFun h.task f)
  parser := congrArg Option.isSome h.parser
  next := h.next
  escaped := h.escaped
  closing _ := h.closing
  log _ := h.log

theorem Closes.pending (h : Closes c c') (hp : Pending c) : Pending c' := h.drains.pending hp

variable [ParserProtocol π ω]

/-! ## Writing -/

/-- `write_response` changes the parser's state, and writes what it yields. -/
theorem writeResponse_eq (owner : Owner) (response : Response) (request : Request) (c : Connection π ω) :
    ∃ (p : Option π) (chunks : List (List ω)), p.isSome = c.parser.isSome ∧
      (c.writeResponse owner response request).1 =
        { c with parser := p, log := c.log ++ .respond owner :: chunks.map .write } := by
  unfold writeResponse
  split
  · rename_i h
    exact ⟨none, [], by rw [h], by rw [h]; rfl⟩
  · rename_i h
    exact ⟨_, _, by rw [h]; rfl, rfl⟩

theorem write500_of_closing (h : c.transport.closing = true) : c.write500 f = (c, none) := by
  simp [write500, h]

/-- On an open transport, `_write_500` writes one response to the request. -/
theorem write500_eq (h : c.transport.closing = false) :
    ∃ (p : Option π) (r : Response) (chunks : List (List ω)), p.isSome = c.parser.isSome ∧
      (c.write500 f).1 =
        { c with parser := p, response500 := r, log := c.log ++ .respond (.request f) :: chunks.map .write } := by
  obtain ⟨p, chunks, hp, hw⟩ := writeResponse_eq (.request f) c.response500 (c.future f).request c
  refine ⟨p, (c.writeResponse (.request f) c.response500 (c.future f).request).2.1, chunks, hp, ?_⟩
  simp only [write500, h, Bool.false_eq_true, ite_false, hw]

/-- Whether a completed future makes the done callback write a 500 response. -/
def failed : FutureState → Bool
  | .finished none => false
  | _ => true

/-- The done callback of a future in the list. -/
theorem doneCallback_eq (hf : f ∈ c.futures) :
    (c.doneCallback f).1 =
      let c' := if failed (c.future f).state then (c.write500 f).1 else c
      { c' with futures := c'.futures.erase f } := by
  have hmem : f ∈ (c.write500 f).1.futures := by
    cases hc : c.transport.closing with
    | true => rwa [write500_of_closing hc]
    | false =>
      obtain ⟨p, r, chunks, -, hw⟩ := write500_eq (f := f) hc
      rwa [hw]
  unfold doneCallback
  rcases (c.future f).state with _ | _ | _ | e <;> simp [getFutureException, failed, hf, hmem]

/-- The done callback on a closing transport. -/
theorem doneCallback_of_closing (hc : c.transport.closing = true) (hf : f ∈ c.futures) :
    (c.doneCallback f).1 = { c with futures := c.futures.erase f } := by
  rw [doneCallback_eq hf, write500_of_closing hc, ite_self]

/-- The callbacks of a future of the list, the done callback first. -/
theorem invokeCallbacks_eq {close : Connection π ω → Connection π ω × Option Exc}
    (h : (c.future f).callbacks = [.done] ∨ (c.future f).callbacks = [.done, .close]) :
    c.invokeCallbacks close f =
      if .close ∈ (c.future f).callbacks then (close (c.doneCallback f).1).1 else (c.doneCallback f).1 := by
  unfold invokeCallbacks
  rcases h with h | h <;> simp [h]

/-! ## `close` -/

/-- `set_exception` on a future of the list drops it, and closes once more if it has the close
callback. -/
theorem setException_eq (close : Connection π ω → Connection π ω × Option Exc) (hp : Pending c)
    (hc : c.transport.closing = true) (hf : f ∈ c.futures) :
    c.setException close f =
      (if .close ∈ (c.future f).callbacks then (close (c.drop f (.finished (some .CloseException)))).1
        else c.drop f (.finished (some .CloseException)), none) := by
  have hs := setFuture_future_self (c := c) (f := f) (.finished (some .CloseException))
  have hcb : ((c.setFuture f (.finished (some .CloseException))).future f).callbacks = (c.future f).callbacks := by
    rw [hs]
  have hd : ((c.setFuture f (.finished (some .CloseException))).doneCallback f).1 =
      c.drop f (.finished (some .CloseException)) := doneCallback_of_closing hc hf
  simp only [setException, hp.pending f hf]
  rw [invokeCallbacks_eq (by rw [hcb]; exact hp.callbacks f hf), hd, hcb]

/-- `set_exception` on a future of the list does what `close` does, if the close callback does. -/
theorem setException_closes {close : Connection π ω → Connection π ω × Option Exc}
    (hclose : ∀ c : Connection π ω, Pending c → Closes c.closeTransport (close c).1) (hp : Pending c)
    (hc : c.transport.closing = true) (hf : f ∈ c.futures) :
    Closes c (c.setException close f).1 ∧ (c.setException close f).2 = none := by
  have hd := closes_drop hp hc hf
  rw [setException_eq _ hp hc hf]
  refine ⟨?_, rfl⟩
  split
  · exact hd.trans ((closes_closeTransport _).trans (hclose _ (hd.pending hp)))
  · exact hd

/-- `close` raises nothing, at any depth of nesting, and once it has closed the transport it does
what `Closes` says. -/
theorem closeNested_closes (depth : Nat) :
    ∀ c : Connection π ω, Pending c →
      Closes c.closeTransport (closeNested depth c).1 ∧ (closeNested depth c).2 = none := by
  induction depth with
  | zero => exact fun c _ => ⟨.refl rfl, rfl⟩
  | succ depth ih =>
    intro c hp
    have hp₀ := (closes_closeTransport c).pending hp
    have hbody : ∀ f c', f ∈ c'.futures → Closes c.closeTransport c' →
        Closes c.closeTransport (c'.setException (closeNested depth) f).1 ∧
          (c'.setException (closeNested depth) f).2 = none := by
      intro f c' hf h
      have hs := setException_closes (fun c hp => (ih c hp).1) (h.pending hp₀) h.closing hf
      exact ⟨h.trans hs.1, hs.2⟩
    have h₀ : Closes c.closeTransport c.closeTransport := .refl rfl
    exact ⟨forEach_invariant (fun f c' hf h => (hbody f c' hf h).1) _ _ _ h₀, forEach_no_exc hbody _ _ _ h₀⟩

/-- `close` raises nothing, and once it has closed the transport it does what `Closes` says. -/
theorem close_closes (hp : Pending c) : Closes c.closeTransport c.close.1 ∧ c.close.2 = none :=
  closeNested_closes _ c hp

theorem closes_close (hp : Pending c) : Closes c c.close.1 :=
  (closes_closeTransport c).trans (close_closes hp).1

/-! ## `cancel` and `connection_lost` -/

/-- The done callback of a future just completed: it drops the future, and answers its request
with a 500 if the future has failed and the transport is open. -/
theorem complete_eq (hf : f ∈ c.futures) (state : FutureState) :
    ∃ (p : Option π) (r : Response) (l : List (Action ω)), p.isSome = c.parser.isSome ∧
      ((c.setFuture f state).doneCallback f).1 =
        { c.drop f state with parser := p, response500 := r, log := c.log ++ l } ∧
      if failed state = true ∧ c.transport.closing = false then
        ∃ chunks : List (List ω), l = .respond (.request f) :: chunks.map .write
      else l = [] := by
  rw [doneCallback_eq (c := c.setFuture f state) hf, setFuture_future_self]
  cases hs : failed state with
  | false => exact ⟨c.parser, c.response500, [], rfl, by simp [drop, setFuture], by simp⟩
  | true =>
    cases hc : c.transport.closing with
    | true =>
      rw [write500_of_closing (c := c.setFuture f state) hc]
      exact ⟨c.parser, c.response500, [], rfl, by simp [drop, setFuture], by simp⟩
    | false =>
      obtain ⟨p, r, chunks, hp, hw⟩ := write500_eq (f := f) (c := c.setFuture f state) hc
      simp only [hw]
      exact ⟨p, r, _, hp, rfl, by simp⟩

theorem drains_complete (hp : Pending c) (hf : f ∈ c.futures) {state : FutureState} (hs : state ≠ .pending) :
    Drains c ((c.setFuture f state).doneCallback f).1 := by
  obtain ⟨p, r, l, hsome, e, hl⟩ := complete_eq hf state
  rw [e]
  refine ⟨List.erase_sublist, fun g => ?_, fun g hg hn => ?_, fun _ => .inl rfl, hsome, rfl, rfl, id,
    fun hc => ⟨0, ?_⟩⟩
  · by_cases hg : g = f
    · subst hg
      exact .inr ⟨hf, hp.nodup.not_mem_erase, state, hs, drop_future_self state⟩
    · exact .inl (drop_future_of_ne state hg)
  · by_cases hgf : g = f
    · subst hgf
      have hself := drop_future_self (c := c) (f := g) state
      exact (congrArg Future.state hself).trans_ne hs
    · exact absurd ((List.mem_erase_of_ne hgf).mpr hg) hn
  · rw [if_neg (by simp [hc])] at hl
    simp [hl]

/-- A future of the list completes: its done callback drops it, with a 500 response if it has
failed and the transport is open, and then its close callback, if it has one, closes the
connection. -/
theorem invokeCallbacks_close (hp : Pending c) (hf : f ∈ c.futures) {state : FutureState}
    (hs : state ≠ .pending) :
    ∃ (p : Option π) (r : Response) (l : List (Action ω)), p.isSome = c.parser.isSome ∧
      (if failed state = true ∧ c.transport.closing = false then
        ∃ chunks : List (List ω), l = .respond (.request f) :: chunks.map .write
      else l = []) ∧
      let c₁ := { c.drop f state with parser := p, response500 := r, log := c.log ++ l }
      Drains c c₁ ∧
        if .close ∈ (c.future f).callbacks then
          Closes c₁.closeTransport ((c.setFuture f state).invokeCallbacks close f)
        else (c.setFuture f state).invokeCallbacks close f = c₁ := by
  obtain ⟨p, r, l, hsome, e, hl⟩ := complete_eq hf state
  have hd := drains_complete hp hf hs
  rw [e] at hd
  refine ⟨p, r, l, hsome, hl, hd, ?_⟩
  rw [invokeCallbacks_eq (by rw [setFuture_future_self]; exact hp.callbacks f hf), setFuture_future_self, e]
  split
  · exact (close_closes (hd.pending hp)).1
  · rfl

theorem drains_invokeCallbacks (hp : Pending c) (hf : f ∈ c.futures) {state : FutureState}
    (hs : state ≠ .pending) : Drains c ((c.setFuture f state).invokeCallbacks close f) := by
  obtain ⟨p, r, l, -, -, hd, hi⟩ := invokeCallbacks_close hp hf hs
  split at hi
  · exact hd.trans ((closes_closeTransport _).trans hi).drains
  · rwa [hi]

/-- A future of the list that completes is dropped in its new state; any other that changes is
finished with `CloseException`. -/
theorem invokeCallbacks_future (hp : Pending c) (hf : f ∈ c.futures) {state : FutureState}
    (hs : state ≠ .pending) :
    f ∉ ((c.setFuture f state).invokeCallbacks close f).futures ∧
      (((c.setFuture f state).invokeCallbacks close f).future f).state = state ∧
      ∀ g ≠ f, ((c.setFuture f state).invokeCallbacks close f).future g = c.future g ∨
        (((c.setFuture f state).invokeCallbacks close f).future g).state = .finished (some .CloseException) := by
  obtain ⟨p, r, l, -, -, -, hi⟩ := invokeCallbacks_close hp hf hs
  have hn : f ∉ c.futures.erase f := hp.nodup.not_mem_erase
  have hself := drop_future_self (c := c) (f := f) state
  split at hi
  · refine ⟨fun h => hn (hi.futures.subset h), ?_, fun g hg => ?_⟩
    · rcases hi.future f with e' | ⟨m, -⟩
      · rw [e']; exact congrArg Future.state hself
      · exact absurd m hn
    · rcases hi.future g with e' | ⟨-, -, e'⟩
      · exact .inl (e'.trans (drop_future_of_ne state hg))
      · rw [e']; exact .inr rfl
  · rw [hi]
    exact ⟨hn, congrArg Future.state hself, fun g hg => .inl (drop_future_of_ne state hg)⟩

theorem cancel_eq (hp : Pending c) (hf : f ∈ c.futures) :
    c.cancel f = ((c.setFuture f .cancelled).invokeCallbacks close f).stopTask f := by
  simp only [cancel, hp.pending f hf]

theorem drains_cancel (hp : Pending c) (hf : f ∈ c.futures) : Drains c (c.cancel f) := by
  have h := drains_invokeCallbacks hp hf (show FutureState.cancelled ≠ .pending by simp)
  rw [cancel_eq hp hf]
  refine ⟨h.futures, h.future, h.dropped, fun g => ?_, h.parser, h.next, h.escaped, h.closing, h.log⟩
  by_cases hg : g = f
  · subst hg
    refine .inr ⟨hf, ?_⟩
    rcases h.task g with e | ⟨-, e⟩ <;> simp [stopTask, setTask, e, Task.stop_stop]
  · simpa [stopTask, setTask, hg] using h.task g

/-- `connection_lost` only drains, once it is recorded that it was called. -/
theorem connectionLost_drains (hp : Pending c) : Drains c.logLost c.connectionLost :=
  forEach_invariant (I := Drains c.logLost)
    (fun _ _ hf h => h.trans (drains_cancel (h.pending (pending_logLost hp)) hf)) _ _ _ (.refl _)

end Connection

end Levin
