import Levin.Core.Parsers.Mock
import Levin.Proof.Connection.Steps

/-!
# One response for a request

The handler's task writes the response to a request, and the done callback of its
future a 500 response if the task fails. A task that fails after its handler has
returned, because the response cannot be written or a push fails, has written a
response before: its request is answered twice if the future learns of the
failure while the transport is open (`at_most_once_iff`).
-/

namespace Levin.Connection

open Framework

variable {π ω : Type} {c c' : Connection π ω} {f g : Nat} {e : Event}

/-- Whose responses were started, in that order: the calls of `write_response`. -/
def responds (log : List (Action ω)) : List Owner :=
  log.filterMap fun | .respond owner => some owner | _ => none

@[simp] theorem responds_nil : responds ([] : List (Action ω)) = [] := rfl

@[simp] theorem responds_append (l l' : List (Action ω)) : responds (l ++ l') = responds l ++ responds l' :=
  List.filterMap_append

@[simp] theorem responds_respond (owner : Owner) (l : List (Action ω)) :
    responds (.respond owner :: l) = owner :: responds l := rfl

@[simp] theorem responds_write (chunks : List (List ω)) : responds (chunks.map .write) = [] := by
  simp [responds]

@[simp] theorem responds_close (k : Nat) : responds (List.replicate k (.close : Action ω)) = [] := by
  simp [responds]

@[simp] theorem responds_sent (data : List ω) : responds (sent data) = [] := by
  unfold sent
  split <;> rfl

/-- Whose responses an event starts. -/
def started (c : Connection π ω) : Event → List Owner
  | .handlerDone f (.returned _) => [.request f]
  | .pushDone f k (.returned _) => [.push f k]
  | .settle f => if Fails500 c f then [.request f] else []
  | _ => []

theorem responds_answers {owner : Owner} {result : HandlerResult} {l : List (Action ω)} (h : Answers owner result l) :
    responds l = match result with
      | .returned _ => [owner]
      | _ => [] := by
  cases result with
  | returned response =>
    obtain ⟨chunks, rfl⟩ := h
    simp
  | raised e =>
    obtain rfl : l = [] := h
    rfl
  | cancelled =>
    obtain rfl : l = [] := h
    rfl

variable [ParserProtocol π ω]

theorem step_responds (hw : Wf c) (h : Step c e c') : responds c'.log = responds c.log ++ started c e := by
  obtain ⟨l, hl, h⟩ := step_log hw h
  rw [hl, responds_append]
  congr 1
  cases e with
  | dataReceived data =>
    obtain ⟨d, k, rfl, -⟩ := h
    simp [started]
  | handlerDone f result =>
    rw [responds_answers h]
    cases result <;> rfl
  | pushDone f k result =>
    rw [responds_answers h]
    cases result <;> rfl
  | settle f =>
    obtain ⟨l₁, k, rfl, -, hl₁⟩ := h
    by_cases hf : Fails500 c f
    · rw [if_pos hf] at hl₁
      obtain ⟨chunks, rfl⟩ := hl₁
      simp [started, hf]
    · rw [if_neg hf] at hl₁
      subst hl₁
      simp [started, hf]
  | cancelTask f => rw [show l = [] from h]; rfl
  | transportClosing => rw [show l = [] from h]; rfl
  | connectionLost =>
    obtain ⟨k, rfl⟩ := h
    exact responds_close k
  | close =>
    obtain ⟨k, rfl⟩ := h
    exact responds_close (k + 1)

omit [ParserProtocol π ω] in
theorem mem_started : .request f ∈ started c e ↔
    (∃ response, e = .handlerDone f (.returned response)) ∨ e = .settle f ∧ Fails500 c f := by
  cases e with
  | handlerDone g result => cases result <;> simp [started, eq_comm]
  | pushDone g k result => cases result <;> simp [started]
  | settle g =>
    by_cases hg : g = f
    · subst hg
      by_cases h : Fails500 c g <;> simp [started, h]
    · by_cases h : Fails500 c g <;> simp [started, h, hg, Ne.symm hg]
  | _ => simp [started]

/-! ## At most one -/

/-- No request has had two responses started. -/
def AtMostOnce (c : Connection π ω) : Prop := ∀ f, (responds c.log).count (.request f) ≤ 1

/-- The handler of the request has returned a response. -/
def Returned (es : List Event) (f : Nat) : Prop := ∃ response, .handlerDone f (.returned response) ∈ es

/-- A future learns that its task has failed, on an open transport, although the handler of its
request has returned a response: that could not be written, or a push has failed, or the task was
cancelled while it waited for its pushes. -/
def LateFailure (es : List Event) (c : Connection π ω) (e : Event) : Prop :=
  ∃ f, e = .settle f ∧ Fails500 c f ∧ Returned es f

/-- What a run tells of the response to `f`: it is not started before the handler is done, and as
long as the task has not ended it is started exactly if the handler has returned one. -/
structure Responded (es : List Event) (c : Connection π ω) (f : Nat) : Prop where
  past : .request f ∈ responds c.log → f < c.next ∧ (c.task f).state ≠ .handling
  returned : Returned es f → .request f ∈ responds c.log
  only : .request f ∈ responds c.log → (c.task f).state ≠ .gone → Returned es f

theorem responded_step (hw : Wf c) {es : List Event} (hr : Responded es c f) (h : Step c e c') :
    Responded (es ++ [e]) c' f := by
  have ht := step_task hw h f
  have hn := step_next_le hw h
  have hmem : .request f ∈ responds c'.log ↔ .request f ∈ responds c.log ∨
      (∃ response, e = .handlerDone f (.returned response)) ∨ e = .settle f ∧ Fails500 c f := by
    rw [step_responds hw h, List.mem_append, mem_started]
  have hret : Returned (es ++ [e]) f ↔ Returned es f ∨ ∃ response, e = .handlerDone f (.returned response) := by
    simp [Returned, exists_or, eq_comm]
  -- A request that has been answered has a task that has left its handler.
  have hpast : .request f ∈ responds c'.log → f < c.next := by
    rw [hmem]
    rintro (hold | ⟨response, rfl⟩ | ⟨rfl, -⟩)
    · exact (hr.past hold).1
    · exact hw.lt_of_task (.inl (by simp [(step_handlerDone.mp h).1]))
    · obtain ⟨o, ho, -⟩ := step_settle.mp h
      exact hw.lt_of_task (.inl (by simp [ho]))
  refine ⟨fun hin => ⟨Nat.lt_of_lt_of_le (hpast hin) hn, ?_⟩, fun hre => ?_, fun hin hg => ?_⟩
  · have hlt := hpast hin
    rw [hmem] at hin
    generalize (c'.task f).state = s' at ht ⊢
    generalize hs : (c.task f).state = s at ht
    cases ht with
    | same hd hne =>
      rcases hin with hold | ⟨response, rfl⟩ | ⟨rfl, -⟩
      · exact hs ▸ (hr.past hold).2
      · exact absurd rfl (hd _)
      · exact absurd rfl hne
    | dispatched hle => omega
    | handled => simp
    | pushes => simp
    | pushed => simp
    | cancelled => simp
    | settled => simp
  · rw [hmem]
    rcases hret.mp hre with hre | hre
    · exact .inl (hr.returned hre)
    · exact .inr (.inl hre)
  · have hlt := hpast hin
    rw [hret]
    rcases hmem.mp hin with hold | hnew | ⟨rfl, -⟩
    · refine .inl (hr.only hold fun hgone => hg ?_)
      rw [hgone] at ht
      generalize (c'.task f).state = s' at ht
      cases ht with
      | same => rfl
      | dispatched hle => omega
      | cancelled hs => simp at hs
    · exact .inr hnew
    · obtain ⟨o, ho, -⟩ := step_settle.mp h
      rw [ho] at ht
      generalize (c'.task f).state = s' at ht hg
      cases ht with
      | same hd hs => exact absurd rfl hs
      | cancelled hs => simp at hs
      | settled => exact absurd rfl hg

omit [ParserProtocol π ω] in
theorem length_started_le (c : Connection π ω) (e : Event) : (started c e).length ≤ 1 := by
  cases e with
  | handlerDone f result => cases result <;> simp [started]
  | pushDone f k result => cases result <;> simp [started]
  | settle f =>
    simp only [started]
    split <;> simp
  | _ => simp [started]

/-- A step starts a second response for a request exactly if it is a late failure. -/
theorem atMostOnce_step (hw : Wf c) {es : List Event} (hr : ∀ f, Responded es c f) (h : Step c e c')
    (hg : AtMostOnce c) : AtMostOnce c' ↔ ¬ LateFailure es c e := by
  have hcount : ∀ f, (responds c'.log).count (.request f) =
      (responds c.log).count (.request f) + (started c e).count (.request f) := by
    intro f
    rw [step_responds hw h, List.count_append]
  constructor
  · rintro hg' ⟨f, rfl, hf, hre⟩
    have hone := List.count_pos_iff.mpr ((hr f).returned hre)
    have htwo := hg' f
    have hnew : (started c (.settle f)).count (.request f) = 1 := by simp [started, hf]
    rw [hcount, hnew] at htwo
    omega
  · intro hlate f
    rw [hcount]
    by_cases hin : .request f ∈ started c e
    · have hnot : .request f ∉ responds c.log := by
        intro hold
        rcases mem_started.mp hin with ⟨response, rfl⟩ | ⟨rfl, hf⟩
        · exact ((hr f).past hold).2 (step_handlerDone.mp h).1
        · obtain ⟨o, ho, -⟩ := step_settle.mp h
          exact hlate ⟨f, rfl, hf, (hr f).only hold (by simp [ho])⟩
      rw [List.count_eq_zero_of_not_mem hnot, Nat.zero_add]
      exact Nat.le_trans List.count_le_length (length_started_le c e)
    · rw [List.count_eq_zero_of_not_mem hin]
      exact hg f

theorem responded_run {parsers : List π} {info : TransportInfo} {sslcontext : Bool} {es : List Event}
    (h : Run Step (fresh parsers info sslcontext) es c) : Wf c ∧ ∀ f, Responded es c f := by
  refine h.history (I := fun es c => Wf c ∧ ∀ f, Responded es c f) ⟨wf_fresh _ _ _, fun f => ?_⟩
    fun es c e c' hI hs => ⟨step_wf hI.1 hs, fun f => responded_step hI.1 (hI.2 f) hs⟩
  exact ⟨(nomatch ·), fun ⟨_, h⟩ => (nomatch h), (nomatch ·)⟩

/-- In every run, each request has had at most one response started exactly if no step was a late
failure. -/
theorem at_most_once_iff {parsers : List π} {info : TransportInfo} {sslcontext : Bool} {es : List Event}
    (h : Run Step (fresh parsers info sslcontext) es c) :
    AtMostOnce c ↔ Throughout Step (fresh parsers info sslcontext) (fun es c e => ¬ LateFailure es c e) es := by
  refine Run.good_iff (G := AtMostOnce) Step.det (fun f => Nat.zero_le _) (fun es c e c' hr hs hg f => ?_)
    (fun es c e c' hr hs hg => atMostOnce_step (responded_run hr).1 (responded_run hr).2 hs hg) h
  have := hg f
  rw [step_responds (responded_run hr).1 hs, List.count_append] at this
  omega

/-- A connection whose parser takes every chunk for the request `GET /path`. -/
def mockConnection : Connection Mock UInt8 :=
  let request := Request.create (Bytes.ascii "/path") (Bytes.ascii "GET") (some []) [] []
  fresh [⟨fun _ => some { data := [], requests := [request], close := false }⟩] createConnection.transport.info false

/-- A handler that returns a response with one push. -/
def returnsPush : HandlerResult :=
  .returned { status := 200, body := Bytes.ascii "ok", pushes := [{ path := Bytes.ascii "/style.css" }] }

/-- The handler of the push raises. -/
def pushFails : List Event :=
  [.dataReceived [45], .handlerDone 0 returnsPush, .pushDone 0 0 (.raised (.other "Exception"))]

/-- The state before the future learns that the task has failed. -/
def pushFailed : Connection Mock UInt8 :=
  ((mockConnection.receive [45]).handleRequest 0 returnsPush).pushDone 0 0 (.raised (.other "Exception"))

theorem pushFailed_run : Run Step mockConnection pushFails pushFailed :=
  .cons (step_dataReceived.mpr ⟨rfl, rfl⟩) <| .cons (step_handlerDone.mpr ⟨by decide, rfl⟩) <|
    .single (step_pushDone.mpr ⟨by decide, rfl⟩)

theorem pushFailed_once : AtMostOnce pushFailed := by
  refine (at_most_once_iff pushFailed_run).mpr (Run.throughout_of_forall_mem fun e he es s hlate => ?_)
  obtain ⟨f, rfl, -⟩ := hlate
  simp [pushFails] at he

/-- The request whose push has failed is answered a second time, with a 500. -/
theorem pushFailed_twice :
    ¬ ∀ es (c : Connection Mock UInt8), Run Step mockConnection es c → AtMostOnce c := by
  intro h
  have hrun : Run Step mockConnection (pushFails ++ [.settle 0])
      (pushFailed.settle 0 (.raised (.other "Exception"))) :=
    .snoc pushFailed_run (step_settle.mpr ⟨_, by decide, rfl⟩)
  exact absurd (h _ _ hrun 0) (by decide)

end Levin.Connection
