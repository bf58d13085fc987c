import Levin.Proof.Connection.Invariant

/-!
# Removing futures

`_done_callback` takes its future out of `_futures`, and is called where nothing
else shows it: from `close` and `connection_lost` while they walk that list, and
from a `close` which another future's close callback calls in turn. `DoneCalled`
names each of these calls with the state it is made in. The future always is in
the list (`step_removes`), so that the removal never fails, also where the 500
response before it could not be written.
-/

namespace Levin.Connection

open Framework

variable {π ω : Type} {c c' s : Connection π ω} {f g : Nat} {e : Event}

variable [ParserProtocol π ω]

/-! ## The calls of `_done_callback` -/

/-- One callback of the future `f`. -/
def runCallback (close : Connection π ω → Connection π ω × Option Exc) (f : Nat) (c : Connection π ω) :
    Callback → Connection π ω
  | .done => (c.doneCallback f).1
  | .close => (close c).1

/-- A list of callbacks of `f`, run from the state `c`, calls `_done_callback` of `g` in the state
`s`: itself, or through `close`, of which `closeCalls` says it. -/
def CallbacksCall (close : Connection π ω → Connection π ω × Option Exc)
    (closeCalls : Connection π ω → Nat → Connection π ω → Prop) (f : Nat) :
    List Callback → Connection π ω → Nat → Connection π ω → Prop
  | [], _, _, _ => False
  | callback :: callbacks, c, g, s =>
    (match callback with
      | .done => g = f ∧ s = c
      | .close => closeCalls c g s) ∨
    CallbacksCall close closeCalls f callbacks (runCallback close f c callback) g s

/-- So does the completion of `f` in the state `c`. -/
def CompletionCalls (close : Connection π ω → Connection π ω × Option Exc)
    (closeCalls : Connection π ω → Nat → Connection π ω → Prop) (f : Nat) (state : FutureState) (c : Connection π ω) :
    Nat → Connection π ω → Prop :=
  CallbacksCall close closeCalls f ((c.setFuture f state).future f).callbacks (c.setFuture f state)

/-- So does `close`. -/
def CloseNestedCalls : Nat → Connection π ω → Nat → Connection π ω → Prop
  | 0, _, _, _ => False
  | depth + 1, c, g, s =>
    ∃ f s₁, Visits (·.futures) (setException (closeNested depth)) c.futures.length 0 c.closeTransport f s₁ ∧
      (s₁.future f).state = .pending ∧
        CompletionCalls (closeNested depth) (CloseNestedCalls depth) f (.finished (some .CloseException)) s₁ g s

def CloseCalls (c : Connection π ω) (g : Nat) (s : Connection π ω) : Prop :=
  CloseNestedCalls c.futures.length c g s

/-- During the event `e` in the state `c`, `_done_callback` of `g` is called in the state `s`. -/
def DoneCalled (c : Connection π ω) (e : Event) (g : Nat) (s : Connection π ω) : Prop :=
  match e with
  | .dataReceived data =>
    match c.parse data with
    | (c, .ok (some parsed)) =>
      parsed.close = true ∧ parsed.requests = [] ∧
        CloseCalls (if parsed.data = [] then c else c.write parsed.data) g s
    | _ => False
  | .settle f =>
    match (c.task f).state with
    | .ended outcome =>
      (c.future f).state = .pending ∧
        CompletionCalls close CloseCalls f outcome.toFuture (c.setTask f { c.task f with state := .gone }) g s
    | _ => False
  | .connectionLost =>
    ∃ f s₁, Visits (·.futures) (fun f c => (cancel f c, (none : Option Exc))) c.futures.length 0
        c.setClosing.logLost f s₁ ∧
      (s₁.future f).state = .pending ∧ CompletionCalls close CloseCalls f .cancelled s₁ g s
  | .close => CloseCalls c g s
  | .handlerDone _ _ | .pushDone _ _ _ | .cancelTask _ | .transportClosing => False

/-- `_done_callback` removes its future, and raises only what the 500 response before it does. -/
def Removes (f : Nat) (c : Connection π ω) : Prop :=
  f ∈ c.futures ∧ (c.doneCallback f).1.futures = c.futures.erase f ∧
    (c.doneCallback f).2 = if failed (c.future f).state then (c.write500 f).2 else none

theorem write500_futures (f : Nat) (c : Connection π ω) : (c.write500 f).1.futures = c.futures := by
  cases hc : c.transport.closing with
  | true => rw [write500_of_closing hc]
  | false =>
    obtain ⟨p, r, chunks, -, hw⟩ := write500_eq (f := f) hc
    rw [hw]

theorem removes_of_mem (hf : f ∈ c.futures) : Removes f c := by
  have hw := write500_futures f c
  refine ⟨hf, ?_, ?_⟩
  · rw [doneCallback_eq hf]
    cases failed (c.future f).state <;> simp [hw]
  · unfold doneCallback
    rcases (c.future f).state with _ | _ | _ | e <;> simp [getFutureException, failed, hf, hw]

/-! ## Each of them finds its future in the list -/

/-- The completion of a future of the list, where `close` keeps to the list. -/
theorem completionCalls_mem {close : Connection π ω → Connection π ω × Option Exc}
    {closeCalls : Connection π ω → Nat → Connection π ω → Prop}
    (hclose : ∀ c g s, Pending c → closeCalls c g s → g ∈ s.futures) (hp : Pending c) (hf : f ∈ c.futures)
    {state : FutureState} (hs : state ≠ .pending) (h : CompletionCalls close closeCalls f state c g s) :
    g ∈ s.futures := by
  have hpend : Pending ((c.setFuture f state).doneCallback f).1 := (drains_complete hp hf hs).pending hp
  rw [CompletionCalls, setFuture_future_self] at h
  rcases hp.callbacks f hf with hcb | hcb <;> simp only [hcb, CallbacksCall, runCallback, or_false] at h
  · obtain ⟨rfl, rfl⟩ := h
    exact hf
  · rcases h with ⟨rfl, rfl⟩ | h
    · exact hf
    · exact hclose _ _ _ hpend h

/-- `close`, at any depth of nesting. -/
theorem closeNestedCalls_mem (depth : Nat) :
    ∀ (c : Connection π ω) g s, Pending c → CloseNestedCalls depth c g s → g ∈ s.futures := by
  induction depth with
  | zero => exact fun c g s _ h => h.elim
  | succ depth ih =>
    rintro c g s hp ⟨f, s₁, hv, -, h⟩
    have hp₀ := (closes_closeTransport c).pending hp
    have hstep : ∀ f c', f ∈ c'.futures → Closes c.closeTransport c' →
        Closes c.closeTransport (c'.setException (closeNested depth) f).1 := fun f c' hf h =>
      h.trans (setException_closes (fun c hp => (closeNested_closes depth c hp).1) (h.pending hp₀) h.closing hf).1
    obtain ⟨hf, hcl⟩ := hv.invariant hstep (.refl rfl)
    exact completionCalls_mem ih (hcl.pending hp₀) hf (by simp) h

theorem closeCalls_mem (c : Connection π ω) (g : Nat) (s : Connection π ω) (hp : Pending c) (h : CloseCalls c g s) :
    g ∈ s.futures :=
  closeNestedCalls_mem _ c g s hp h

/-- Whenever `_done_callback` is called, its future is in the list. -/
theorem step_removes (hw : Wf c) (h : Step c e c') (hd : DoneCalled c e g s) : Removes g s := by
  refine removes_of_mem ?_
  cases e with
  | dataReceived data =>
    obtain ⟨ps, p, -, -, hc⟩ := parse_eq data c
    simp only [DoneCalled] at hd
    split at hd
    · rename_i c₁ parsed hparse
      obtain rfl : c₁ = _ := (congrArg Prod.fst hparse).symm.trans hc
      refine closeCalls_mem _ _ _ ?_ hd.2.2
      split <;> exact ⟨hw.nodup, hw.pending, hw.callbacks⟩
    · exact hd.elim
  | settle f =>
    obtain ⟨o, ho, -⟩ := step_settle.mp h
    simp only [DoneCalled, ho] at hd
    have hlt : f < c.next := hw.lt_of_task (.inl (by simp [ho]))
    exact completionCalls_mem closeCalls_mem (c := c.setTask f { c.task f with state := .gone })
      ⟨hw.nodup, hw.pending, hw.callbacks⟩ (hw.listed f hlt hd.1) (Outcome.toFuture_ne_pending o) hd.2
  | connectionLost =>
    obtain ⟨f, s₁, hv, -, hd⟩ := hd
    have hp := pending_logLost (pending_setClosing hw.toPending)
    have hstep : ∀ f c', f ∈ c'.futures → Drains c.setClosing.logLost c' → Drains c.setClosing.logLost (c'.cancel f) :=
      fun f c' hf h => h.trans (drains_cancel (h.pending hp) hf)
    obtain ⟨hf, hdr⟩ := hv.invariant hstep (.refl _)
    exact completionCalls_mem closeCalls_mem (hdr.pending hp) hf (by simp) hd
  | close => exact closeCalls_mem _ _ _ hw.toPending hd
  | handlerDone _ _ => exact hd.elim
  | pushDone _ _ _ => exact hd.elim
  | cancelTask _ => exact hd.elim
  | transportClosing => exact hd.elim

/-- In every state between two steps of the event loop `_futures` holds each future dispatched and
not yet completed once, and no other; and each call of `_done_callback` during the next step removes
its future. -/
theorem futures_exact (h : Reachable c) :
    (∀ f, c.futures.count f = if f < c.next ∧ (c.future f).state = .pending then 1 else 0) ∧
      ∀ e c', Step c e c' → ∀ f s, DoneCalled c e f s → Removes f s := by
  have hw := h.wf
  refine ⟨fun f => ?_, fun e c' hs f s hd => step_removes hw hs hd⟩
  split
  · rename_i hf
    exact List.count_eq_one_of_mem hw.nodup (hw.mem_futures_iff.mpr hf)
  · rename_i hf
    exact List.count_eq_zero_of_not_mem fun hm => hf (hw.mem_futures_iff.mp hm)

theorem onePending_reachable : Reachable onePending :=
  ⟨_, _, _, _, .single (step_dataReceived.mpr ⟨rfl, rfl⟩)⟩

/-- `close` on a connection with one pending request removes its future. -/
theorem onePending_removed :
    onePending.futures.count 0 = 1 ∧ Removes 0 (onePending.closeTransport.setFuture 0 (.finished (some .CloseException))) :=
  have h := futures_exact onePending_reachable
  ⟨h.1 0, h.2 .close _ (step_close.mpr rfl) 0 _ ⟨0, _, .here rfl, rfl, .inl ⟨rfl, rfl⟩⟩⟩

end Levin.Connection
