import Levin.Proof.Connection.Http1
import Levin.Proof.Connection.Wire

/-!
# Why a request gets a 500

The 500 of a connection is for a task that has failed. On an HTTP/1 connection whose
transport is open a task fails by one event: its handler raises, is cancelled or
returns a response whose status HTTP does not know, or the task itself is cancelled
(`step_failed`).
-/

namespace Levin.Connection

open Framework

/-! ## The end of a task -/

section Tasks

variable {π ω : Type} [ParserProtocol π ω] {c c' : Connection π ω} {f : Nat} {e : Event}

/-- The tasks that go on when one settles are left alone, whether the connection is closed or not. -/
theorem settle_task (hw : Wf c) {g : Nat} {o : Outcome} (ho : (c.task g).state = .ended o) (hf : f ≠ g) :
    (c.settle g o).task f = c.task f := by
  by_cases hs : (c.future g).state = .pending
  · have hmem := hw.listed g (hw.lt_of_task (.inl (by simp [ho]))) hs
    obtain ⟨p, r, l, -, -, hc⟩ := settle_eq hw.toPending hmem o
    simp only at hc
    split at hc
    · exact (congrFun hc.task f).trans (Function.update_of_ne hf _ _)
    · rw [hc]
      exact Function.update_of_ne hf _ _
  · rw [settle_of_ne_pending hs]
    exact Function.update_of_ne hf _ _

/-- The events by which the task of `f` can end. -/
def Ends (f : Nat) : Event → Prop
  | .handlerDone g _ => g = f
  | .pushDone g _ _ => g = f
  | .cancelTask g => g = f
  | .connectionLost => True
  | _ => False

theorem step_ended (hw : Wf c) (h : Step c e c') {o : Outcome} (hended : (c'.task f).state = .ended o)
    (hnew : (c.task f).state ≠ .ended o) : Ends f e := by
  have hkept : c'.task f ≠ c.task f := fun heq => hnew (heq ▸ hended)
  cases e with
  | dataReceived data =>
    obtain ⟨-, ps, p, ⟨e, -, rfl⟩ | ⟨parsed, -, -, hc⟩ | ⟨parsed, -, -, rfl⟩⟩ := step_dataReceived_cases hw h
    · exact absurd rfl hkept
    · exact absurd (congrFun hc.task f) hkept
    · rcases dispatched_task parsed.requests parsed.close
        { c with parsers := ps, parser := p, log := c.log ++ sent parsed.data } f with ht | ⟨-, -, ht⟩
      · exact absurd ht hkept
      · rw [ht] at hended
        cases hended
  | handlerDone g result =>
    obtain ⟨-, rfl⟩ := step_handlerDone.mp h
    obtain ⟨p, t, l, -, heq, -⟩ := handleRequest_eq g result c
    by_contra hg
    exact hkept (by rw [heq]; exact Function.update_of_ne (Ne.symm hg) _ _)
  | pushDone g k result =>
    obtain ⟨-, rfl⟩ := step_pushDone.mp h
    obtain ⟨p, t, l, -, heq, -⟩ := pushDone_eq g k result c
    by_contra hg
    exact hkept (by rw [heq]; exact Function.update_of_ne (Ne.symm hg) _ _)
  | settle g =>
    obtain ⟨o', ho, rfl⟩ := step_settle.mp h
    by_cases hg : f = g
    · subst hg
      have ht := step_task hw h f
      rw [hended, ho] at ht
      cases ht with
      | same _ hs => exact absurd rfl hs
      | cancelled hs => simp at hs
    · exact absurd (settle_task hw ho hg) hkept
  | cancelTask g =>
    obtain ⟨-, rfl⟩ := step_cancelTask.mp h
    by_contra hg
    exact hkept (Function.update_of_ne (Ne.symm hg) _ _)
  | transportClosing =>
    obtain rfl := step_transportClosing.mp h
    exact absurd rfl hkept
  | connectionLost => exact trivial
  | close =>
    obtain rfl := step_close.mp h
    exact absurd (congrFun (closes_close hw.toPending).task f) hkept

end Tasks

variable {c c' : Connection HttpSimple.Parser UInt8} {f : Nat} {e : Event}

/-! ## What an HTTP/1 connection stays -/

/-- No coroutine of the task waits for a push. -/
def PushFree (t : Task) : Prop := t.state ≠ .pushing ∧ t.running = []

theorem PushFree.stop {t : Task} (h : PushFree t) : PushFree t.stop := by
  unfold Task.stop
  split
  · exact ⟨by simp, rfl⟩
  · exact ⟨by simp, rfl⟩
  · exact h

theorem http1_of_isSome (h : c.parser.isSome) : Http1 c := by
  obtain ⟨p, hp⟩ := Option.isSome_iff_exists.mp h
  exact .inl hp

theorem parser_of_task (hw : Wf c) (h : Http1 c) (hf : f < c.next) : c.parser = some {} :=
  h.resolve_right fun ⟨hnone, _⟩ => by
    have := hw.parser hnone
    omega

theorem step_http1 (hw : Wf c) (h1 : Http1 c) (h : Step c e c') : Http1 c' := by
  by_cases hd : ∃ data, e = .dataReceived data
  · obtain ⟨data, rfl⟩ := hd
    obtain ⟨-, rfl⟩ := step_dataReceived.mp h
    exact (http1_receive_count h1 data).1
  · have hne : ∀ data, e ≠ .dataReceived data := fun data he => hd ⟨data, he⟩
    have hkept := step_parser_isSome hw h hne
    rcases h1 with hp | ⟨hp, hps⟩
    · exact http1_of_isSome (by rw [hkept, hp]; rfl)
    · exact .inr ⟨by simpa [hp] using hkept, (step_unused hw hp h hne).1.trans hps⟩

theorem step_pushFree (hw : Wf c) (h1 : Http1 c) (hfree : ∀ f, PushFree (c.task f)) (h : Step c e c') (f : Nat) :
    PushFree (c'.task f) := by
  have hupdate : ∀ (g : Nat) (t : Task), PushFree t → PushFree (Function.update c.task g t f) := by
    intro g t ht
    by_cases hg : f = g
    · subst hg
      rwa [Function.update_self]
    · rw [Function.update_of_ne hg]
      exact hfree f
  have hstop : ∀ t : Task, t = c.task f ∨ t = (c.task f).stop → PushFree t := by
    rintro t (rfl | rfl)
    · exact hfree f
    · exact (hfree f).stop
  cases e with
  | dataReceived data =>
    obtain ⟨-, ps, p, ⟨e, -, rfl⟩ | ⟨parsed, -, -, hc⟩ | ⟨parsed, -, -, rfl⟩⟩ := step_dataReceived_cases hw h
    · exact hfree f
    · rw [hc.task]
      exact hfree f
    · rcases dispatched_task parsed.requests parsed.close
        { c with parsers := ps, parser := p, log := c.log ++ sent parsed.data } f with ht | ⟨-, -, ht⟩
      · rw [ht]
        exact hfree f
      · rw [ht]
        exact ⟨by simp, rfl⟩
  | handlerDone g result =>
    obtain ⟨hs, rfl⟩ := step_handlerDone.mp h
    have hlt : g < c.next := hw.lt_of_task (.inl (by simp [hs]))
    cases result with
    | returned response =>
      rw [http1_handleRequest (parser_of_task hw h1 hlt)]
      exact hupdate g _ ⟨by simp, (hfree g).2⟩
    | raised e => exact hupdate g _ ⟨by simp, (hfree g).2⟩
    | cancelled => exact hupdate g _ ⟨by simp, (hfree g).2⟩
  | pushDone g k result =>
    obtain ⟨hk, -⟩ := step_pushDone.mp h
    rw [(hfree g).2] at hk
    cases hk
  | settle g =>
    obtain ⟨o, ho, rfl⟩ := step_settle.mp h
    have hg := hupdate g { c.task g with state := .gone } ⟨by simp, (hfree g).2⟩
    rcases (drains_settle hw ho).task f with ht | ⟨-, ht⟩
    · rw [ht]
      exact hg
    · rw [ht]
      exact hg.stop
  | cancelTask g =>
    obtain ⟨-, rfl⟩ := step_cancelTask.mp h
    exact hupdate g _ (hfree g).stop
  | transportClosing =>
    obtain rfl := step_transportClosing.mp h
    exact hfree f
  | connectionLost =>
    obtain rfl := step_connectionLost.mp h
    exact hstop _ (((connectionLost_drains (pending_setClosing hw.toPending)).task f).imp_right And.right)
  | close =>
    obtain rfl := step_close.mp h
    rw [(closes_close hw.toPending).task]
    exact hfree f

/-! ## What makes a task fail -/

/-- The task of `f` fails by the event. -/
def FailsBy (f : Nat) : Event → Prop
  | .handlerDone g (.returned response) => g = f ∧ (HttpSimple.statusPhrase response.status).isSome = false
  | .handlerDone g _ => g = f
  | .cancelTask g => g = f
  | _ => False

theorem step_failed (hw : Wf c) (h1 : Http1 c) (hfree : ∀ f, PushFree (c.task f)) (h : Step c e c')
    (ho : c'.transport.closing = false) {o : Outcome} (hended : (c'.task f).state = .ended o) (hne : o ≠ .returned)
    (hnew : (c.task f).state ≠ .ended o) : FailsBy f e := by
  have hends := step_ended hw h hended hnew
  cases e with
  | handlerDone g result =>
    obtain rfl : g = f := hends
    cases result with
    | returned response =>
      refine ⟨rfl, ?_⟩
      by_contra hk
      obtain ⟨hs, rfl⟩ := step_handlerDone.mp h
      have hp := parser_of_task hw h1 (hw.lt_of_task (f := g) (.inl (by simp [hs])))
      rw [http1_handleRequest hp] at hended
      simp only [Function.update_self, Bool.not_eq_false] at hended hk
      rw [if_pos hk] at hended
      exact hne (TaskState.ended.inj hended).symm
    | raised e => rfl
    | cancelled => rfl
  | pushDone g k result =>
    obtain ⟨hk, -⟩ := step_pushDone.mp h
    rw [(hfree g).2] at hk
    cases hk
  | cancelTask g => exact hends
  | connectionLost => exact absurd trivial (step_open hw h ho).2
  | _ => exact hends.elim

end Levin.Connection
