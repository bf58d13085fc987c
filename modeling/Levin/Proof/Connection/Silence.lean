import Levin.Proof.Connection.Shutdown
import Levin.Proof.Connection.Steps

/-!
# Nothing is written after the end

Only `_write_500` looks at the transport. `close` stops no task, and
`connection_lost` only those whose futures it cancels: a handler or push handler
in flight that outlives the end of the connection writes its response when it
returns. So nothing is written afterwards, whatever happens, exactly if none
outlives it (`silent_iff`).
-/

namespace Levin.Connection

open Framework

variable {π ω : Type} {c c' : Connection π ω} {f g : Nat} {e : Event}

/-- A handler of the request or of one of its pushes is in flight. -/
def InFlight (c : Connection π ω) (f : Nat) : Prop :=
  (c.task f).state = .handling ∨ (c.task f).running ≠ []

/-- `close` or `connection_lost` has run. -/
def Shut (log : List (Action ω)) : Prop := .close ∈ log ∨ .lost ∈ log

/-- Nothing is written after `close` or `connection_lost` has run. -/
def Silent (log : List (Action ω)) : Prop := ∀ l₁ d l₂, log = l₁ ++ .write d :: l₂ → ¬ Shut l₁

/-- What is written, in order. -/
def writes (log : List (Action ω)) : List (List ω) :=
  log.filterMap fun | .write d => some d | _ => none

@[simp] theorem writes_append (l l' : List (Action ω)) : writes (l ++ l') = writes l ++ writes l' :=
  List.filterMap_append

@[simp] theorem writes_close (k : Nat) : writes (List.replicate k (.close : Action ω)) = [] := by
  simp [writes]

theorem shut_append {l l' : List (Action ω)} : Shut (l ++ l') ↔ Shut l ∨ Shut l' := by
  simp only [Shut, List.mem_append]
  tauto

theorem writes_of_write_mem {l₁ l₂ : List (Action ω)} {d : List ω} : writes (l₁ ++ .write d :: l₂) ≠ [] := by
  simp [writes]

theorem silent_append {l l' : List (Action ω)} (h : Silent l) (hs : Shut l → writes l' = []) (h' : Silent l') :
    Silent (l ++ l') := by
  intro l₁ d l₂ heq
  rcases List.append_eq_append_iff.mp heq with ⟨as, rfl, rfl⟩ | ⟨bs, rfl, hbs⟩
  · rw [shut_append, not_or]
    exact ⟨fun hl => writes_of_write_mem (hs hl), h' as d l₂ rfl⟩
  · rcases bs with _ | ⟨b, bs⟩
    · rw [List.append_nil] at hs h
      rw [List.nil_append] at hbs
      exact fun hl => absurd (hbs ▸ hs hl) (show writes ([] ++ .write d :: l₂) ≠ [] from writes_of_write_mem)
    · obtain ⟨rfl, -⟩ := List.cons.inj hbs
      exact h l₁ d bs rfl

theorem silent_of_writes {l : List (Action ω)} (h : writes l = []) : Silent l := by
  rintro l₁ d l₂ rfl
  exact absurd h writes_of_write_mem

/-- What does not end the connection is followed by what it likes. -/
theorem silent_of_not_shut {l : List (Action ω)} (h : ¬ Shut l) : Silent l := by
  rintro l₁ d l₂ rfl
  exact fun hl => h (shut_append.mpr (.inl hl))

/-- `connection_lost` cancels the future of `f` and stops its task: the task has not ended, and the
future is the first that is pending, or at an even position with no close callback in the way. -/
def Cancels (c : Connection π ω) (f : Nat) : Prop :=
  ((c.task f).state = .handling ∨ (c.task f).state = .pushing) ∧
    (c.futures.head? = some f ∨ NoCloseCallback c ∧ f ∈ evens c.futures)

theorem not_inFlight_stop (h : (c.task f).state = .handling ∨ (c.task f).state = .pushing)
    (ht : c'.task f = (c.task f).stop) : ¬ InFlight c' f := by
  unfold InFlight Task.stop at *
  rcases h with h | h <;> simp [ht, h]

theorem stop_eq (h : ¬ ((c.task f).state = .handling ∨ (c.task f).state = .pushing)) :
    (c.task f).stop = c.task f := by
  unfold Task.stop
  split
  · rename_i hs
    exact absurd (.inl hs) h
  · rename_i hs
    exact absurd (.inr hs) h
  · rfl

variable [ParserProtocol π ω]

/-- If the event ends the connection, no handler outlives it: each in flight is stopped by
`connection_lost`. -/
def Quiet (c : Connection π ω) (e : Event) : Prop :=
  Shuts c e → ∀ f, InFlight c f → e = .connectionLost ∧ Cancels c f

/-! ## Who outlives the end -/

/-- `connection_lost` stops the task of the first future that is pending. -/
theorem connectionLost_head (hp : Pending c) (hf : c.futures.head? = some f) :
    c.connectionLost.task f = (c.task f).stop := by
  obtain ⟨fs, hfs⟩ : ∃ fs, c.futures = f :: fs := by
    rcases hl : c.futures with _ | ⟨g, fs⟩
    · simp [hl] at hf
    · obtain rfl : g = f := by simpa [hl] using hf
      exact ⟨fs, rfl⟩
  have hp' := pending_logLost hp
  have hfs' : c.logLost.futures = f :: fs := hfs
  have hmem : f ∈ c.logLost.futures := by simp [hfs']
  have hstop : (c.logLost.cancel f).task f = (c.task f).stop := by
    have hd := drains_invokeCallbacks hp' hmem (show FutureState.cancelled ≠ .pending by simp)
    rw [cancel_eq hp' hmem]
    simp only [stopTask, setTask, Function.update_self]
    rcases hd.task f with e | ⟨-, e⟩ <;> rw [e]
    · rfl
    · exact Task.stop_stop _
  have hloop : Drains (c.logLost.cancel f) c.connectionLost := by
    have hd := drains_cancel hp' hmem
    unfold connectionLost
    rw [hfs, List.length_cons, forEach, hfs', List.getElem?_cons_zero]
    exact forEach_invariant (I := Drains (c.logLost.cancel f))
      (fun _ _ hf h => h.trans (drains_cancel (h.pending (hd.pending hp')) hf)) _ _ _ (.refl _)
  rcases hloop.task f with e | ⟨-, e⟩ <;> rw [e, hstop]
  exact Task.stop_stop _

/-- Without close callbacks `connection_lost` stops the tasks of every second future. -/
theorem connectionLost_task (hp : Pending c) (hn : NoCloseCallback c) (f : Nat) :
    c.connectionLost.task f = if f ∈ evens c.futures then (c.task f).stop else c.task f := by
  -- The loop makes the tasks it visits stopped ones, and changes no other.
  have hbody : ∀ f (c : Connection π ω), f ∈ c.futures → Pending c ∧ NoCloseCallback c →
      (none : Option Exc) = none ∧ (Pending (c.cancel f) ∧ NoCloseCallback (c.cancel f)) ∧
        (c.cancel f).futures = c.futures.erase f ∧
        (fun g => ((c.cancel f).task g).stop = (c.cancel f).task g) =
          Function.update (fun g => (c.task g).stop = c.task g) f True := by
    intro f c hf ⟨hp, hn⟩
    obtain ⟨hI, hfutures, htask, -⟩ := cancel_plain hp hn hf
    refine ⟨rfl, hI, hfutures, funext fun g => ?_⟩
    rw [htask]
    by_cases hg : g = f
    · subst hg
      simp [Task.stop_stop]
    · simp [hg]
  have hview : ((c.connectionLost.task f).stop = c.connectionLost.task f) =
      if f ∈ evens c.futures then True else (c.task f).stop = c.task f :=
    (forEach_removing (I := fun c => Pending c ∧ NoCloseCallback c)
      (fun (c : Connection π ω) g => (c.task g).stop = c.task g) True hbody
      c.futures.length [] c.futures c.logLost ⟨pending_logLost hp, hn⟩ rfl hp.nodup (Nat.le_refl _)).2 f
  rcases (connectionLost_drains hp).task f with e | ⟨-, e⟩
  · have e : c.connectionLost.task f = c.task f := e
    split
    · rename_i hf
      rw [if_pos hf, eq_iff_iff, iff_true, e] at hview
      rw [e, hview]
    · exact e
  · have e : c.connectionLost.task f = (c.task f).stop := e
    split
    · exact e
    · rename_i hf
      rw [if_neg hf, e, Task.stop_stop] at hview
      rw [e]
      exact hview.mp rfl

/-- No handler outlives `connection_lost` that it cancels. -/
theorem not_inFlight_connectionLost (hp : Pending c) (h : Cancels c f) : ¬ InFlight c.connectionLost f := by
  refine not_inFlight_stop h.1 ?_
  rcases h.2 with hf | ⟨hn, hf⟩
  · exact connectionLost_head hp hf
  · rw [connectionLost_task hp hn, if_pos hf]

/-- Without close callbacks, every other handler does. -/
theorem inFlight_connectionLost (hp : Pending c) (hn : NoCloseCallback c) (h : InFlight c f) (hc : ¬ Cancels c f) :
    InFlight c.connectionLost f := by
  have ht : c.connectionLost.task f = c.task f := by
    rw [connectionLost_task hp hn]
    split
    · rename_i hf
      exact stop_eq fun hs => hc ⟨hs, .inr ⟨hn, hf⟩⟩
    · rfl
  rwa [InFlight, ht]

/-- `connection_lost` aside, the end of a connection stops no task, and starts none. -/
theorem inFlight_of_shuts (hw : Wf c) (h : Step c e c') (hs : Shuts c e) (hl : e ≠ .connectionLost) :
    InFlight c' f ↔ InFlight c f := by
  cases e with
  | dataReceived data =>
    obtain ⟨-, ps, p, ⟨e, hr, -⟩ | ⟨parsed, -, -, hc⟩ | ⟨parsed, hpar, hcl, -⟩⟩ := step_dataReceived_cases hw h
    · obtain ⟨parsed, hpar, -⟩ := hs
      rcases hr with hr | ⟨hr, -⟩ <;> rw [hr] at hpar <;> cases hpar
    · simp only [InFlight, hc.task]
      rfl
    · exact absurd ((closesAtOnce_iff hpar).mp hs) hcl
  | settle g =>
    obtain ⟨o, ho, rfl⟩ := step_settle.mp h
    have hmem := hw.listed g (hw.lt_of_task (.inl (by simp [ho]))) hs.1
    obtain ⟨p, r, l, -, -, hc⟩ := settle_eq hw.toPending hmem o
    simp only [if_pos hs.2] at hc
    have ht : (c.settle g o).task = Function.update c.task g { c.task g with state := .gone } := hc.task
    unfold InFlight
    by_cases hf : f = g
    · subst hf
      simp [ht, ho]
    · simp [ht, hf]
  | connectionLost => exact absurd rfl hl
  | close =>
    obtain rfl := step_close.mp h
    simp only [InFlight, (closes_close hw.toPending).task]
  | _ => exact hs.elim

omit [ParserProtocol π ω] in
theorem inFlight_of_drains (hd : Drains c c') (h : InFlight c' f) : InFlight c f := by
  rcases hd.task f with e | ⟨-, e⟩
  · rwa [InFlight, e] at h
  · by_cases hs : (c.task f).state = .handling ∨ (c.task f).state = .pushing
    · exact absurd h (not_inFlight_stop hs e)
    · rwa [InFlight, e, stop_eq hs] at h

/-- No handler is in flight after an event that ends the connection exactly if none outlives it, as
far as close callbacks are not in the way of `connection_lost`. -/
theorem quiet_iff (hw : Wf c) (h : Step c e c') (hs : Shuts c e) :
    (Quiet c e → ∀ f, ¬ InFlight c' f) ∧
      ((e = .connectionLost → NoCloseCallback c) → (∀ f, ¬ InFlight c' f) → Quiet c e) := by
  by_cases hl : e = .connectionLost
  · subst hl
    obtain rfl := step_connectionLost.mp h
    have hp := pending_setClosing hw.toPending
    refine ⟨fun hq f hf => ?_, fun hn hnone _ f hf => ⟨rfl, ?_⟩⟩
    · have hf' : InFlight c.setClosing.logLost f := inFlight_of_drains (connectionLost_drains hp) hf
      exact not_inFlight_connectionLost hp (hq trivial f hf').2 hf
    · by_contra hc
      exact hnone f (inFlight_connectionLost hp (hn rfl) hf hc)
  · refine ⟨fun hq f hf => hl (hq hs f ((inFlight_of_shuts hw h hs hl).mp hf)).1, fun _ hnone _ f hf => ?_⟩
    exact absurd ((inFlight_of_shuts hw h hs hl).mpr hf) (hnone f)

/-! ## What is written afterwards -/

/-- Only a chunk starts handlers, and only a handler that returns those of its pushes. -/
theorem step_inFlight (hw : Wf c) (h : Step c e c') (hd : ∀ data, e ≠ .dataReceived data) (hf : InFlight c' f) :
    InFlight c f := by
  have update : ∀ {g : Nat} {t : Task}, (g = f → InFlight c f) → c'.task = Function.update c.task g t → InFlight c f := by
    intro g t hg ht
    by_cases hgf : g = f
    · exact hg hgf
    · rwa [InFlight, ht, Function.update_of_ne (Ne.symm hgf)] at hf
  cases e with
  | dataReceived data => exact absurd rfl (hd data)
  | handlerDone g result =>
    obtain ⟨hs, rfl⟩ := step_handlerDone.mp h
    obtain ⟨p, t, l, -, e, -⟩ := handleRequest_eq g result c
    exact update (fun hg => .inl (hg ▸ hs)) (congrArg task e)
  | pushDone g k result =>
    obtain ⟨hk, rfl⟩ := step_pushDone.mp h
    obtain ⟨p, t, l, -, e, -⟩ := pushDone_eq g k result c
    exact update (fun hg => .inr (hg ▸ List.ne_nil_of_mem hk)) (congrArg task e)
  | settle g =>
    obtain ⟨o, ho, rfl⟩ := step_settle.mp h
    have hf' := inFlight_of_drains (drains_settle hw ho) hf
    by_cases hgf : g = f
    · subst hgf
      simpa [InFlight, setTask, ho] using hf'
    · simpa [InFlight, setTask, Ne.symm hgf] using hf'
  | cancelTask g =>
    obtain ⟨hs, rfl⟩ := step_cancelTask.mp h
    by_cases hgf : g = f
    · subst hgf
      exact absurd hf (not_inFlight_stop hs (by simp [stopTask, setTask]))
    · simpa [InFlight, stopTask, setTask, Ne.symm hgf] using hf
  | transportClosing =>
    obtain rfl := step_transportClosing.mp h
    exact hf
  | connectionLost =>
    obtain rfl := step_connectionLost.mp h
    have hf' : InFlight c.setClosing.logLost f :=
      inFlight_of_drains (connectionLost_drains (pending_setClosing hw.toPending)) hf
    exact hf'
  | close =>
    obtain rfl := step_close.mp h
    exact inFlight_of_drains (closes_close hw.toPending).drains hf

/-- Once the connection has ended, the transport is closing and no handler is in flight. -/
structure Ended (c : Connection π ω) : Prop extends Wf c where
  closing : c.transport.closing = true
  noneInFlight : ∀ f, ¬ InFlight c f

/-- A quiet event that ends the connection. -/
theorem ended_of_quiet (hw : Wf c) (h : Step c e c') (hs : Shuts c e) (hq : Quiet c e) : Ended c' :=
  ⟨step_wf hw h, step_closing hw h (.inr hs), (quiet_iff hw h hs).1 hq⟩

/-- A connection that has ended stays so, and writes nothing. -/
theorem ended_step (he : Ended c) (h : Step c e c') :
    Ended c' ∧ ∃ l, c'.log = c.log ++ l ∧ writes l = [] := by
  have hd : ∀ data, e ≠ .dataReceived data := by
    rintro data rfl
    have := (step_dataReceived.mp h).1
    rw [he.closing] at this
    cases this
  obtain ⟨l, hl, hlog⟩ := step_log he.toWf h
  refine ⟨⟨step_wf he.toWf h, step_closing he.toWf h (.inl he.closing),
    fun f hf => he.noneInFlight f (step_inFlight he.toWf h hd hf)⟩, l, hl, ?_⟩
  cases e with
  | dataReceived data => exact absurd rfl (hd data)
  | handlerDone f result => exact absurd (.inl (step_handlerDone.mp h).1) (he.noneInFlight f)
  | pushDone f k result =>
    exact absurd (.inr (List.ne_nil_of_mem (step_pushDone.mp h).1)) (he.noneInFlight f)
  | settle f =>
    obtain ⟨l₁, k, rfl, -, hl₁⟩ := hlog
    rw [if_neg (by simp [Fails500, he.closing])] at hl₁
    subst hl₁
    exact writes_close k
  | cancelTask f =>
    obtain rfl : l = [] := hlog
    rfl
  | transportClosing =>
    obtain rfl : l = [] := hlog
    rfl
  | connectionLost =>
    obtain ⟨k, rfl⟩ := hlog
    exact writes_close k
  | close =>
    obtain ⟨k, rfl⟩ := hlog
    exact writes_close (k + 1)

omit [ParserProtocol π ω] in
theorem not_shut_answers {owner : Owner} {result : HandlerResult} {l : List (Action ω)} (h : Answers owner result l) :
    ¬ Shut l := by
  cases result with
  | returned response =>
    obtain ⟨chunks, rfl⟩ := h
    simp [Shut]
  | raised exc =>
    obtain rfl : l = [] := h
    simp [Shut]
  | cancelled =>
    obtain rfl : l = [] := h
    simp [Shut]

/-- What a step adds to the log is silent, and ends the connection if the event does. -/
theorem silent_logs {l : List (Action ω)} (h : Logs c e l) : Silent l ∧ (Shut l → Shuts c e) := by
  have hclose : ∀ k, Silent (List.replicate k (.close : Action ω)) := fun k => silent_of_writes (writes_close k)
  have hsent : ∀ d : List ω, ¬ Shut (sent d) := by
    intro d
    unfold sent
    split <;> simp [Shut]
  cases e with
  | dataReceived data =>
    obtain ⟨d, k, rfl, hk⟩ := h
    refine ⟨silent_append (silent_of_not_shut (hsent d)) (fun _ => writes_close k) (hclose k), fun hs => ?_⟩
    refine hk.mp fun hk => hsent d ?_
    simpa [hk] using hs
  | handlerDone f result => exact ⟨silent_of_not_shut (not_shut_answers h), fun hs => absurd hs (not_shut_answers h)⟩
  | pushDone f k result => exact ⟨silent_of_not_shut (not_shut_answers h), fun hs => absurd hs (not_shut_answers h)⟩
  | settle f =>
    obtain ⟨l₁, k, rfl, hk, hl₁⟩ := h
    have hl₁ : ¬ Shut l₁ := by
      split at hl₁
      · obtain ⟨chunks, rfl⟩ := hl₁
        simp [Shut]
      · simp [hl₁, Shut]
    refine ⟨silent_append (silent_of_not_shut hl₁) (fun _ => writes_close k) (hclose k), fun hs => ?_⟩
    refine hk.mp fun hk => hl₁ ?_
    simpa [hk] using hs
  | cancelTask f =>
    obtain rfl : l = [] := h
    exact ⟨silent_of_writes rfl, fun hs => by simp [Shut] at hs⟩
  | transportClosing =>
    obtain rfl : l = [] := h
    exact ⟨silent_of_writes rfl, fun hs => by simp [Shut] at hs⟩
  | connectionLost =>
    obtain ⟨k, rfl⟩ := h
    exact ⟨silent_of_writes (writes_close k), fun _ => trivial⟩
  | close =>
    obtain ⟨k, rfl⟩ := h
    exact ⟨hclose (k + 1), fun _ => trivial⟩

/-- The transport is closing once the connection has ended. -/
theorem Reachable.closing_of_shut (h : Reachable c) (hs : Shut c.log) : c.transport.closing = true := by
  obtain ⟨parsers, info, sslcontext, es, h⟩ := h
  refine (h.invariant (I := fun c => Wf c ∧ (Shut c.log → c.transport.closing = true))
    ⟨wf_fresh _ _ _, fun hs => by simp [Shut, fresh, connectionMade] at hs⟩ fun c e c' hI hstep => ?_).2 hs
  obtain ⟨l, hl, hlog⟩ := step_log hI.1 hstep
  refine ⟨step_wf hI.1 hstep, fun hs => step_closing hI.1 hstep ?_⟩
  rw [hl, shut_append] at hs
  exact hs.imp hI.2 (silent_logs hlog).2

/-- A quiet step keeps the log silent, and ends the connection if it ends it at all. -/
theorem silent_step (hw : Wf c) (hs : Silent c.log) (he : Shut c.log → Ended c) (hq : Quiet c e) (h : Step c e c') :
    Silent c'.log ∧ (Shut c'.log → Ended c') := by
  by_cases hshut : Shut c.log
  · obtain ⟨he', l, hl, hwr⟩ := ended_step (he hshut) h
    rw [hl]
    exact ⟨silent_append hs (fun _ => hwr) (silent_of_writes hwr), fun _ => he'⟩
  · obtain ⟨l, hl, hlog⟩ := step_log hw h
    obtain ⟨hsl, hshuts⟩ := silent_logs hlog
    rw [hl, shut_append]
    refine ⟨silent_append hs (fun h => absurd h hshut) hsl, fun hsh => ?_⟩
    exact ended_of_quiet hw h (hshuts (hsh.resolve_left hshut)) hq

/-! ## What a handler in flight may write -/

/-- Whatever its state, the parser can write some response, pushed or not. -/
def CanWrite (π : Type) {ω : Type} [ParserProtocol π ω] : Prop :=
  ∀ (p : π) (push : Bool), ∃ response : Response, response.push = push ∧
    ∀ request, (ParserProtocol.handleResponse p response request).1.chunks ≠ []

theorem writes_writeResponse {p : π} (hp : c.parser = some p) (owner : Owner) (response : Response) (request : Request) :
    writes (c.writeResponse owner response request).1.log =
      writes c.log ++ (ParserProtocol.handleResponse p response request).1.chunks := by
  simp [writeResponse, hp, writes]

theorem handleRequest_log (response : Response) :
    (c.handleRequest f (.returned response)).log =
      (c.writeResponse (.request f) response ((c.future f).request.setTransportInfo c.transport.info)).1.log := by
  simp only [handleRequest]
  split
  · rename_i hw
    rw [hw]
    rfl
  · rename_i hw
    rw [hw]
    split <;> rfl

/-- A handler in flight can return a response that is written. -/
theorem exists_write (hpar : CanWrite π) (hw : Wf c) (hf : InFlight c f) :
    ∃ e c', Step c e c' ∧ writes c'.log ≠ writes c.log := by
  obtain ⟨p, hp⟩ : ∃ p, c.parser = some p := by
    have hlt := hw.lt_of_task (hf.imp_left fun h => by simp [h])
    refine Option.ne_none_iff_exists'.mp fun h => ?_
    have := hw.parser h
    omega
  rcases hf with hf | hf
  · obtain ⟨response, -, hresp⟩ := hpar p false
    refine ⟨.handlerDone f (.returned response), _, step_handlerDone.mpr ⟨hf, rfl⟩, ?_⟩
    rw [handleRequest_log, writes_writeResponse hp]
    simp [hresp]
  · obtain ⟨k, hk⟩ := List.exists_mem_of_ne_nil _ hf
    obtain ⟨response, hpush, hresp⟩ := hpar p true
    refine ⟨.pushDone f k (.returned response), _, step_pushDone.mpr ⟨hk, rfl⟩, ?_⟩
    have hpushed : { response with push := true } = response := by rw [← hpush]
    rw [pushDone_log, handlePush_returned (List.getElem?_eq_getElem (hw.running f k hk)), writes_writeResponse hp, hpushed]
    simp [hresp]

/-- A run whose steps are all quiet writes nothing after `close` or `connection_lost`. And of an
event that ends the connection: whatever happens after it nothing is written, exactly if it is
quiet, as far as close callbacks are not in the way of `connection_lost`. -/
theorem silent_iff :
    (∀ (parsers : List π) (info : TransportInfo) (sslcontext : Bool) (es : List Event) (c : Connection π ω),
      Run Step (fresh parsers info sslcontext) es c →
        Throughout Step (fresh parsers info sslcontext) (fun _ c e => Quiet c e) es → Silent c.log) ∧
    (CanWrite π → ∀ (c c' : Connection π ω) (e : Event), Reachable c → Step c e c' → Shuts c e →
      (e = .connectionLost → NoCloseCallback c) →
        ((∀ es c'', Run Step c' es c'' → writes c''.log = writes c'.log) ↔ Quiet c e)) := by
  constructor
  · intro parsers info sslcontext es c h hq
    refine (h.invariant_of (I := fun c => Silent c.log ∧ (Shut c.log → Ended c)) ?_ ?_ hq).1
    · exact ⟨silent_of_writes rfl, fun hs => by simp [Shut, fresh, connectionMade] at hs⟩
    · intro es c e c' hr hI hq hs
      exact silent_step (hr.invariant (wf_fresh _ _ _) step_wf) hI.1 hI.2 hq hs
  · intro hpar c c' e hc h hs hn
    have hw' := step_wf hc.wf h
    constructor
    · intro hsilent
      refine (quiet_iff hc.wf h hs).2 hn fun f hf => ?_
      obtain ⟨e', c'', hstep, hne⟩ := exists_write hpar hw' hf
      exact hne (hsilent _ _ (.single hstep))
    · intro hq es c'' hr
      have he := ended_of_quiet hc.wf h hs hq
      refine (hr.invariant (I := fun c'' => Ended c'' ∧ writes c''.log = writes c'.log) ⟨he, rfl⟩
        fun c₁ e c₂ hI hstep => ?_).2
      obtain ⟨he', l, hl, hwr⟩ := ended_step hI.1 hstep
      exact ⟨he', by rw [hl, writes_append, hwr, List.append_nil, hI.2]⟩

theorem canWrite_http1 : CanWrite HttpSimple.Parser := by
  intro p push
  refine ⟨{ status := 200, body := [], push }, rfl, fun _ => ?_⟩
  show (HttpSimple.handleResponse { status := 200, body := [], push }).1.chunks ≠ []
  cases push <;> decide

/-- Of the one request that is in flight nothing is written after `connection_lost`, however its handler ends. -/
theorem onePending_silent : ∀ es c, Run Step onePending.setClosing.connectionLost es c →
    writes c.log = writes onePending.setClosing.connectionLost.log := by
  have hreachable : Reachable onePending :=
    ⟨_, _, _, [.dataReceived (chunk "/")], .single (step_dataReceived.mpr ⟨rfl, rfl⟩)⟩
  have htask : ∀ f, f ≠ 0 → onePending.task f = {} := fun f hf => Function.update_of_ne hf _ _
  have hno : ∀ f ∈ onePending.futures, .close ∉ (onePending.future f).callbacks := by decide
  have hquiet : Quiet onePending .connectionLost := by
    intro _ f hf
    by_cases h0 : f = 0
    · subst h0
      exact ⟨rfl, .inl (by decide), .inl (by decide)⟩
    · exact absurd hf (by simp [InFlight, htask f h0])
  exact (silent_iff.2 canWrite_http1 onePending _ .connectionLost hreachable (step_connectionLost.mpr rfl) trivial
    fun _ => hno).mpr hquiet

/-- The second of two requests is answered after the connection is lost: `connection_lost` cancels
only the first future. -/
theorem lost_not_silent :
    ¬ ∀ es (c : Connection HttpSimple.Parser UInt8), Run Step createConnection es c → Silent c.log := by
  intro h
  have hrun : Run Step createConnection
      [.dataReceived (chunk "/"), .dataReceived (chunk "/q/"), .connectionLost, .handlerDone 1 returnsOk]
      (twoPending.setClosing.connectionLost.handleRequest 1 returnsOk) :=
    .cons (step_dataReceived.mpr ⟨rfl, rfl⟩) <| .cons (step_dataReceived.mpr ⟨by decide, rfl⟩) <|
      .cons (step_connectionLost.mpr rfl) <| .single (step_handlerDone.mpr ⟨by decide, rfl⟩)
  have hlog : (twoPending.setClosing.connectionLost.handleRequest 1 returnsOk).log =
      [.lost, .respond (.request 1)] ++ .write (Bytes.ascii "HTTP/1.1 200 OK\r\n") ::
        (twoPending.setClosing.connectionLost.handleRequest 1 returnsOk).log.drop 3 := by
    decide
  exact h _ _ hrun _ _ _ hlog (.inr (by decide))

end Levin.Connection
