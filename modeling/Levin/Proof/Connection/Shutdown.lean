import Levin.Core.EventLoop
import Levin.Proof.Connection.Callbacks

/-!
# Shutting a connection down

`close` and `connection_lost` walk `_futures`, and the done callback of each
future they complete takes it out of the list under the walk. The element after
it moves to the position just visited and is skipped: without close callbacks,
every second future is completed and the others stay (`close_every_second`,
`connectionLost_every_second`). The close callback of one future may complete
others, but never makes `connection_lost` cancel the second one. So all futures
are completed exactly if there is at most one (`shutdown_complete_iff`).
-/

namespace Levin.Connection

open Framework

variable {π ω : Type} {c : Connection π ω} {f g : Nat}

/-- No pending future closes the connection when it completes. -/
def NoCloseCallback (c : Connection π ω) : Prop := ∀ f ∈ c.futures, .close ∉ (c.future f).callbacks

variable [ParserProtocol π ω]

/-- `connection_lost` cancels every pending future, and leaves none. -/
def LostCompletes (c : Connection π ω) : Prop :=
  (∀ f ∈ c.futures, (c.connectionLost.future f).state = .cancelled) ∧ c.connectionLost.futures = []

/-- `close` finishes every pending future with `CloseException`, and leaves none. -/
def CloseCompletes (c : Connection π ω) : Prop :=
  (∀ f ∈ c.futures, (c.close.1.future f).state = .finished (some .CloseException)) ∧ c.close.1.futures = []

/-- Cancelling a future of the list drops it; any other that changes is finished with
`CloseException`. -/
theorem cancel_future (hp : Pending c) (hf : f ∈ c.futures) :
    f ∉ (c.cancel f).futures ∧ ((c.cancel f).future f).state = .cancelled ∧
      ∀ g ≠ f, (c.cancel f).future g = c.future g ∨
        ((c.cancel f).future g).state = .finished (some .CloseException) := by
  have h := invokeCallbacks_future hp hf (show FutureState.cancelled ≠ .pending by simp)
  rw [cancel_eq hp hf]
  exact h

/-! ## Without close callbacks -/

/-- Completing a future without the close callback drops it and changes no other. -/
theorem complete_plain (hp : Pending c) (hn : NoCloseCallback c) (hf : f ∈ c.futures) {state : FutureState}
    (hs : state ≠ .pending) :
    let c' := (c.setFuture f state).invokeCallbacks close f
    NoCloseCallback c' ∧ c'.futures = c.futures.erase f ∧ c'.task = c.task ∧
      (fun g => (c'.future g).state) = Function.update (fun g => (c.future g).state) f state := by
  obtain ⟨p, r, l, -, -, -, hi⟩ := invokeCallbacks_close hp hf hs
  rw [if_neg (hn f hf)] at hi
  rw [hi]
  refine ⟨fun g hg => ?_, rfl, rfl, funext fun g => ?_⟩
  · have hne : g ≠ f := fun h => hp.nodup.not_mem_erase (h ▸ hg)
    exact (drop_future_of_ne (c := c) state hne).symm ▸ hn g (List.mem_of_mem_erase hg)
  · by_cases hg : g = f
    · subst hg
      rw [Function.update_self]
      exact congrArg Future.state (drop_future_self (c := c) state)
    · rw [Function.update_of_ne hg]
      exact congrArg Future.state (drop_future_of_ne state hg)

/-- Cancelling a future without the close callback drops it, stops its task and changes no other. -/
theorem cancel_plain (hp : Pending c) (hn : NoCloseCallback c) (hf : f ∈ c.futures) :
    (Pending (c.cancel f) ∧ NoCloseCallback (c.cancel f)) ∧ (c.cancel f).futures = c.futures.erase f ∧
      (c.cancel f).task = Function.update c.task f (c.task f).stop ∧
      (fun g => ((c.cancel f).future g).state) = Function.update (fun g => (c.future g).state) f .cancelled := by
  obtain ⟨hn', hfutures, htask, hstate⟩ := complete_plain hp hn hf (show FutureState.cancelled ≠ .pending by simp)
  have hp' := (drains_cancel hp hf).pending hp
  rw [cancel_eq hp hf] at hp' ⊢
  refine ⟨⟨hp', hn'⟩, hfutures, ?_, hstate⟩
  simp only [stopTask, setTask, htask]

/-- Without close callbacks `connection_lost` cancels every second future and stops its task, and
leaves the others as they are. -/
theorem connectionLost_every_second (hp : Pending c) (hn : NoCloseCallback c) :
    c.connectionLost.futures = odds c.futures ∧
      ∀ f, (c.connectionLost.future f).state = if f ∈ evens c.futures then .cancelled else (c.future f).state :=
  forEach_removing (I := fun c => Pending c ∧ NoCloseCallback c) (fun (c : Connection π ω) g => (c.future g).state)
    .cancelled (fun _ _ hf h => have hc := cancel_plain h.1 h.2 hf; ⟨rfl, hc.1, hc.2.1, hc.2.2.2⟩) c.futures.length []
    c.futures c.logLost ⟨pending_logLost hp, hn⟩ rfl hp.nodup (Nat.le_refl _)

/-- Without close callbacks `close` finishes every second future with `CloseException`, and
leaves the others as they are. -/
theorem close_every_second (hp : Pending c) (hn : NoCloseCallback c) :
    c.close.1.futures = odds c.futures ∧
      ∀ f, (c.close.1.future f).state =
        if f ∈ evens c.futures then .finished (some .CloseException) else (c.future f).state := by
  unfold close
  cases hl : c.futures.length with
  | zero =>
    obtain hnil := List.length_eq_zero_iff.mp hl
    simp [closeNested, closeTransport, setClosing, hnil, evens]
  | succ depth =>
    have hbody : ∀ f (c : Connection π ω), f ∈ c.futures →
        Pending c ∧ NoCloseCallback c ∧ c.transport.closing = true →
        (c.setException (closeNested depth) f).2 = none ∧
          (Pending (c.setException (closeNested depth) f).1 ∧
            NoCloseCallback (c.setException (closeNested depth) f).1 ∧
            (c.setException (closeNested depth) f).1.transport.closing = true) ∧
          (c.setException (closeNested depth) f).1.futures = c.futures.erase f ∧
          (fun g => ((c.setException (closeNested depth) f).1.future g).state) =
            Function.update (fun g => (c.future g).state) f (.finished (some .CloseException)) := by
      rintro f c hf ⟨hp, hn, hc⟩
      rw [setException_eq _ hp hc hf]
      have hd := closes_drop hp hc hf
      rw [if_neg (hn f hf)]
      refine ⟨rfl, ⟨hd.pending hp, fun g hg => ?_, hc⟩, rfl, funext fun g => ?_⟩
      · rw [hd.drains.future_of_mem hg]
        exact hn g (List.mem_of_mem_erase hg)
      · by_cases hg : g = f
        · subst hg
          rw [drop_future_self, Function.update_self]
        · rw [drop_future_of_ne _ hg, Function.update_of_ne hg]
    have h₀ := closes_closeTransport c
    simp only [closeNested]
    exact forEach_removing (fun (c : Connection π ω) g => (c.future g).state) (.finished (some .CloseException))
      hbody c.closeTransport.futures.length [] c.futures c.closeTransport
      ⟨h₀.pending hp, hn, rfl⟩ rfl hp.nodup (Nat.le_refl _)

/-! ## With at most one future, and with more -/

/-- The second of the pending futures is never cancelled by `connection_lost`. -/
theorem connectionLost_second (hp : Pending c) {fs : List Nat} (hfs : c.futures = f :: g :: fs) :
    (c.connectionLost.future g).state ≠ .cancelled := by
  have hnd := hp.nodup
  rw [hfs] at hnd
  have hne : f ≠ g := fun h => (List.nodup_cons.mp hnd).1 (h ▸ List.mem_cons_self)
  have hkeep : ∀ h (c : Connection π ω), h ∈ c.futures → Pending c → h ≠ g →
      (c.future g).state ≠ .cancelled → ((c.cancel h).future g).state ≠ .cancelled := by
    intro h c hh hp hne hs
    rcases (cancel_future hp hh).2.2 g (Ne.symm hne) with e | e <;> rw [e]
    · exact hs
    · simp
  have hlen : c.futures.length = fs.length + 1 + 1 := by rw [hfs]; rfl
  have hg : (c.logLost.future g).state = .pending := hp.pending g (by simp [hfs])
  unfold connectionLost
  rw [hlen]
  have hp' := pending_logLost hp
  have hfs' : c.logLost.futures = f :: g :: fs := hfs
  generalize c.logLost = c at hp' hfs' hg
  have hf : f ∈ c.futures := by simp [hfs']
  -- The first turn drops `f`, so that `g` is before the position of the second turn.
  have hd := drains_cancel hp' hf
  have hsub : (c.cancel f).futures.Sublist (g :: fs) := by
    have := hd.futures.erase f
    rwa [List.erase_of_not_mem (cancel_future hp' hf).1, hfs', List.erase_cons_head] at this
  rw [forEach, hfs', List.getElem?_cons_zero]
  refine forEach_skip (I := Pending) (Q := fun c => (c.future g).state ≠ .cancelled) (fun c hp => hp.nodup)
    (fun h c hh hp => ⟨(drains_cancel hp hh).pending hp, (drains_cancel hp hh).futures⟩) hkeep _ 1 _
    (hd.pending hp') (fun hg => mem_take_of_sublist hnd.of_cons hsub (by simp) hg) ?_
  exact hkeep f c hf hp' hne (by simp [hg])

theorem lostCompletes_iff (hp : Pending c) : LostCompletes c ↔ c.futures.length ≤ 1 := by
  constructor
  · intro h
    match hfs : c.futures with
    | [] | [_] => simp
    | f :: g :: fs => exact absurd (h.1 g (by simp [hfs])) (connectionLost_second hp hfs)
  · intro h
    have hp' := pending_logLost hp
    match hfs : c.futures, h with
    | [], _ => simp [LostCompletes, connectionLost, logLost, forEach, hfs]
    | [f], _ =>
      have hfs' : c.logLost.futures = [f] := hfs
      have hf : f ∈ c.logLost.futures := by simp [hfs']
      obtain ⟨hn, hs, -⟩ := cancel_future hp' hf
      have hsub := (drains_cancel hp' hf).futures
      rw [hfs'] at hsub
      simp only [LostCompletes, connectionLost, forEach, hfs, hfs', List.length_singleton,
        List.getElem?_cons_zero, List.mem_singleton, forall_eq]
      refine ⟨hs, List.eq_nil_iff_forall_not_mem.mpr fun g hg => ?_⟩
      rw [List.mem_singleton.mp (hsub.subset hg)] at hg
      exact hn hg

/-- A single future is finished by `close`, with or without the close callback. -/
theorem closeCompletes_of_le (hp : Pending c) (h : c.futures.length ≤ 1) : CloseCompletes c := by
  match hfs : c.futures, h with
  | [], _ => simp [CloseCompletes, close, closeNested, closeTransport, setClosing, hfs]
  | [f], _ =>
    have hf : f ∈ c.futures := by simp [hfs]
    have h₀ := closes_closeTransport c
    have hp' := h₀.pending hp
    have he := setException_eq (closeNested 0) hp' h₀.closing hf
    have hd : (c.closeTransport.drop f (.finished (some .CloseException))).futures = [] := by
      simp [drop, closeTransport, setFuture, setClosing, hfs]
    have hs := drop_future_self (c := c.closeTransport) (f := f) (.finished (some .CloseException))
    have hlen : c.closeTransport.futures = [f] := hfs
    have hc : c.close.1 = (c.closeTransport.setException (closeNested 0) f).1 := by
      rw [close, hfs, List.length_singleton, closeNested, hlen, List.length_singleton, forEach, hlen,
        List.getElem?_cons_zero]
      simp only [he, forEach]
    rw [CloseCompletes, hc, he, hfs]
    simp only [List.mem_singleton, forall_eq]
    split
    · exact ⟨congrArg Future.state hs, hd⟩
    · exact ⟨congrArg Future.state hs, hd⟩

/-- All pending futures are cancelled by `connection_lost`, and all are finished by `close`,
exactly if there is at most one of them. For `connection_lost` this is so whatever close
callbacks there are; for `close` on its own, if there are none. -/
theorem shutdown_complete_iff (hp : Pending c) :
    (LostCompletes c ∧ CloseCompletes c ↔ c.futures.length ≤ 1) ∧
      (LostCompletes c ↔ c.futures.length ≤ 1) ∧
      (NoCloseCallback c → (CloseCompletes c ↔ c.futures.length ≤ 1)) := by
  have hl := lostCompletes_iff hp
  refine ⟨⟨fun h => hl.mp h.1, fun h => ⟨hl.mpr h, closeCompletes_of_le hp h⟩⟩, hl, fun hn => ?_⟩
  refine ⟨fun h => ?_, closeCompletes_of_le hp⟩
  rw [← odds_eq_nil_iff, ← (close_every_second hp hn).1]
  exact h.2

theorem pending_onePending : Pending onePending := ⟨by decide, by decide, by decide⟩

theorem pending_twoPending : Pending twoPending := ⟨by decide, by decide, by decide⟩

theorem onePending_completes : LostCompletes onePending ∧ CloseCompletes onePending :=
  (shutdown_complete_iff pending_onePending).1.mpr (by decide)

/-- `connection_lost` leaves the second of two pending futures. -/
theorem twoPending_not_completed :
    ¬ ∀ c : Connection HttpSimple.Parser UInt8, Pending c → LostCompletes c ∧ CloseCompletes c :=
  fun h => absurd (h twoPending pending_twoPending).1.2 (by decide)

end Levin.Connection
