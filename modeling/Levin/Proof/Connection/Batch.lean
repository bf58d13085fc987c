import Levin.Proof.Connection.Responses
import Levin.Proof.Connection.Wire
import Mathlib.Data.List.TakeWhile

/-!
# A batch of requests that closes the connection

Where a chunk gives several requests and says to close, the close callback is on
the last one's future alone. The connection is closed when that request is done.
The others have their responses written before it exactly if they are done by then,
and the parser does not cut their responses off (`batch_answered_iff`).
-/

namespace Levin.Connection

open Framework

variable {π ω : Type} {c c' : Connection π ω} {f g : Nat} {e : Event}

/-! ## The responses in the log -/

def isWrite : Action ω → Bool
  | .write _ => true
  | _ => false

/-- The responses that have been started, each with what has been written of it: the data up to the next entry that is none. -/
def replies : List (Action ω) → List (Owner × List (List ω))
  | [] => []
  | .respond owner :: log => (owner, writes (log.takeWhile isWrite)) :: replies log
  | _ :: log => replies log

theorem replies_append {l l' : List (Action ω)} (h : l'.head?.any isWrite = false) :
    replies (l ++ l') = replies l ++ replies l' := by
  have hnone : l'.takeWhile isWrite = [] := by
    rcases l' with _ | ⟨a, l'⟩
    · rfl
    · exact List.takeWhile_cons_of_neg (by simpa using h)
  induction l with
  | nil => rfl
  | cons a l ih =>
    cases a with
    | respond owner =>
      have hwhile : (l ++ l').takeWhile isWrite = l.takeWhile isWrite := by
        rw [List.takeWhile_append, hnone]
        split
        · next hlength => rw [List.append_nil, (List.takeWhile_prefix _).eq_of_length hlength]
        · rfl
      simp only [List.cons_append, replies, hwhile, ih]
    | _ => exact ih

@[simp] theorem replies_write (chunks : List (List ω)) : replies (chunks.map .write) = [] := by
  induction chunks with
  | nil => rfl
  | cons d chunks ih => exact ih

@[simp] theorem replies_close (k : Nat) : replies (List.replicate k (.close : Action ω)) = [] := by
  induction k with
  | zero => rfl
  | succ k ih => exact ih

@[simp] theorem replies_respond (owner : Owner) (chunks : List (List ω)) :
    replies (.respond owner :: chunks.map .write) = [(owner, chunks)] := by
  have hwhile : (chunks.map Action.write).takeWhile isWrite = chunks.map .write :=
    List.takeWhile_eq_self_iff.mpr fun a ha => by
      obtain ⟨d, -, rfl⟩ := List.mem_map.mp ha
      rfl
  have hwrites : writes (chunks.map (Action.write (ω := ω))) = chunks := by simp [writes]
  rw [replies, hwhile, hwrites, replies_write]

theorem map_fst_replies (log : List (Action ω)) : (replies log).map Prod.fst = responds log := by
  induction log with
  | nil => rfl
  | cons a log ih =>
    cases a with
    | respond owner => exact congrArg (owner :: ·) ih
    | _ => exact ih

theorem mem_responds_of_replies {owner : Owner} {chunks : List (List ω)} {log : List (Action ω)}
    (h : (owner, chunks) ∈ replies log) : owner ∈ responds log :=
  map_fst_replies log ▸ List.mem_map_of_mem h

theorem exists_replies_of_responds {owner : Owner} {log : List (Action ω)} (h : owner ∈ responds log) :
    ∃ chunks, (owner, chunks) ∈ replies log := by
  rw [← map_fst_replies, List.mem_map] at h
  obtain ⟨⟨_, chunks⟩, hin, rfl⟩ := h
  exact ⟨chunks, hin⟩

/-- A response of `f` is in the log with the whole of it, as `whole` has it, before each close. -/
def AnsweredBeforeClose (whole : Nat → List (List ω) → Prop) (log : List (Action ω)) (f : Nat) : Prop :=
  ∀ l₁ l₂, log = l₁ ++ .close :: l₂ → ∃ chunks, (.request f, chunks) ∈ replies l₁ ∧ whole f chunks

variable {whole : Nat → List (List ω) → Prop}

theorem answeredBeforeClose_of_not_mem {log : List (Action ω)} (h : .close ∉ log) : AnsweredBeforeClose whole log f := by
  rintro l₁ l₂ rfl
  simp at h

/-- The part before a close has all of `l`, or the close is in `l`. -/
theorem append_eq_close {l l' l₁ l₂ : List (Action ω)} (h : l ++ l' = l₁ ++ .close :: l₂) :
    (∃ as, l₁ = l ++ as ∧ l' = as ++ .close :: l₂) ∨ ∃ bs, l = l₁ ++ .close :: bs := by
  rcases List.append_eq_append_iff.mp h with ⟨as, rfl, hl'⟩ | ⟨bs, rfl, hbs⟩
  · exact .inl ⟨as, rfl, hl'⟩
  · rcases bs with _ | ⟨b, bs⟩
    · exact .inl ⟨[], by simp, hbs.symm⟩
    · obtain ⟨rfl, -⟩ := List.cons.inj hbs
      exact .inr ⟨bs, rfl⟩

theorem mem_replies_of_close {x : Owner × List (List ω)} {l l' : List (Action ω)} (h : x ∈ replies l) :
    x ∈ replies (l ++ .close :: l') := by
  rw [replies_append rfl]
  exact List.mem_append_left _ h

/-- Only the first close matters. -/
theorem answeredBeforeClose_append {l l' : List (Action ω)} (h : .close ∈ l) :
    AnsweredBeforeClose whole (l ++ l') f ↔ AnsweredBeforeClose whole l f := by
  constructor
  · rintro ha l₁ l₂ rfl
    exact ha l₁ (l₂ ++ l') (by simp)
  · intro ha l₁ l₂ heq
    rcases append_eq_close heq with ⟨as, rfl, -⟩ | ⟨bs, rfl⟩
    · obtain ⟨a, b, rfl⟩ := List.append_of_mem h
      obtain ⟨chunks, hin, hwhole⟩ := ha a b rfl
      refine ⟨chunks, ?_, hwhole⟩
      rw [List.append_assoc, List.cons_append]
      exact mem_replies_of_close hin
    · exact ha l₁ bs rfl

theorem answeredBeforeClose_close {l : List (Action ω)} (h : .close ∉ l) (k : Nat) :
    AnsweredBeforeClose whole (l ++ List.replicate (k + 1) .close) f ↔
      ∃ chunks, (.request f, chunks) ∈ replies l ∧ whole f chunks := by
  refine ⟨fun ha => ha l (List.replicate k .close) rfl, fun ⟨chunks, hin, hwhole⟩ l₁ l₂ heq => ?_⟩
  rcases append_eq_close heq with ⟨as, rfl, hrest⟩ | ⟨bs, rfl⟩
  · refine ⟨chunks, ?_, hwhole⟩
    rcases as with _ | ⟨a, as⟩
    · rwa [List.append_nil]
    · obtain rfl : .close = a := (List.cons.inj (List.replicate_succ ▸ hrest)).1
      exact mem_replies_of_close hin
  · simp at h

/-- The request has not been answered, and waits for its handler or for the 500 response. -/
def Unanswered (es : List Event) (c : Connection π ω) (f : Nat) : Prop :=
  ¬ Returned es f ∧ ((c.task f).state = .handling ∨ ∃ o, o ≠ .returned ∧ (c.task f).state = .ended o)

variable [ParserProtocol π ω]

/-- A handler or a push handler is done, a task is cancelled, or the end of a task reaches its future. -/
def Completion : Event → Prop
  | .handlerDone _ _ | .pushDone _ _ _ | .settle _ | .cancelTask _ => True
  | _ => False

def CompletionStep (c : Connection π ω) (e : Event) (c' : Connection π ω) : Prop := Completion e ∧ Step c e c'

theorem CompletionStep.det ⦃c : Connection π ω⦄ ⦃e : Event⦄ ⦃c₁ c₂ : Connection π ω⦄ (h₁ : CompletionStep c e c₁)
    (h₂ : CompletionStep c e c₂) : c₁ = c₂ :=
  Step.det h₁.2 h₂.2

/-- The future that closes the connection completes before another request from `n` to `m` has
been answered. -/
def ClosesEarly (n m : Nat) (es : List Event) (c : Connection π ω) (e : Event) : Prop :=
  ∃ g, e = .settle g ∧ SettleCloses c g ∧ c.transport.closing = false ∧
    ∃ f, n ≤ f ∧ f < m ∧ f ≠ g ∧ Unanswered es c f

/-- What holds of the request `f` of a batch after the events `es`: it is answered or still to be
answered while the connection is open. -/
structure Batched (es : List Event) (c : Connection π ω) (f : Nat) : Prop extends Responded es c f where
  waits : c.transport.closing = false → .request f ∈ responds c.log ∨ Unanswered es c f

omit [ParserProtocol π ω] in
theorem Batched.not_mem_iff {es : List Event} (hb : Batched es c f) (ho : c.transport.closing = false) :
    .request f ∉ responds c.log ↔ Unanswered es c f := by
  refine ⟨fun h => (hb.waits ho).resolve_left h, fun ⟨hre, h⟩ hin => ?_⟩
  refine hre (hb.only hin fun hg => ?_)
  rcases h with h | ⟨o, -, h⟩ <;> rw [hg] at h <;> cases h

theorem batched_step (hw : Wf c) (hl : Live c) {es : List Event} (hb : Batched es c f) (h : Step c e c') :
    Batched (es ++ [e]) c' f := by
  have hr := responded_step hw hb.toResponded h
  refine ⟨hr, fun ho => ?_⟩
  have hopen := (step_open hw h ho).1
  by_cases hin : .request f ∈ responds c'.log
  · exact .inl hin
  · refine .inr ⟨fun hre => hin (hr.returned hre), ?_⟩
    have hmem := step_responds hw h
    rw [hmem, List.mem_append, not_or, mem_started] at hin
    obtain ⟨-, hun⟩ := (hb.not_mem_iff hopen).mp hin.1
    have ht := step_task hw h f
    generalize hs' : (c'.task f).state = s' at ht ⊢
    rcases hun with hs | ⟨o, hne, hs⟩
    · rw [hs] at ht
      cases ht with
      | same => exact .inl rfl
      | @handled r o =>
        obtain ⟨-, rfl⟩ := step_handlerDone.mp h
        cases r with
        | returned response => exact absurd (.inl ⟨response, rfl⟩) hin.2
        | raised exc =>
          have ho : o = .raised exc := by simpa [handleRequest, endTask, setTask, eq_comm] using hs'
          exact .inr ⟨o, by simp [ho], rfl⟩
        | cancelled =>
          have ho : o = .cancelled := by simpa [handleRequest, endTask, setTask, eq_comm] using hs'
          exact .inr ⟨o, by simp [ho], rfl⟩
      | pushes => exact absurd (.inl ⟨_, rfl⟩) hin.2
      | cancelled => exact .inr ⟨.cancelled, by simp, rfl⟩
    · rw [hs] at ht
      cases ht with
      | same => exact .inr ⟨o, hne, rfl⟩
      | cancelled hc => simp at hc
      | settled =>
        have hpend := hw.pending f (hl hopen f (by simp [hs]))
        exact absurd (.inr ⟨rfl, hpend, hopen, by simpa [hs] using hne⟩) hin.2

/-- What a completion adds to the log: a response, with what the parser makes of it, and then the closes of the connection. -/
theorem completion_log (hw : Wf c) (h : CompletionStep c e c') : ∃ (l : List (Action ω)) (k : Nat),
    c'.log = (c.log ++ l) ++ List.replicate k .close ∧ (k ≠ 0 ↔ Shuts c e) ∧ .close ∉ l ∧
      replies (c.log ++ l) = replies c.log ++ (started c e).map fun owner => (owner, newWrites c e) := by
  obtain ⟨hcomp, h⟩ := h
  obtain ⟨l, hl, hlog⟩ := step_log hw h
  have hwrites := step_writes hw h
  rw [hl, writes_append, List.append_cancel_left_eq] at hwrites
  -- A response that is started has all that is written in the step.
  have hreplies : ∀ (owner : Owner) (chunks : List (List ω)), l = .respond owner :: chunks.map .write →
      .close ∉ l ∧ replies (c.log ++ l) = replies c.log ++ [(owner, newWrites c e)] := by
    rintro owner chunks rfl
    rw [writes_respond] at hwrites
    exact ⟨by simp, by rw [replies_append rfl, replies_respond, hwrites]⟩
  have hnothing : l = [] → started c e = [] →
      .close ∉ l ∧ replies (c.log ++ l) = replies c.log ++ (started c e).map fun owner => (owner, newWrites c e) := by
    rintro rfl hstarted
    simp [hstarted]
  cases e with
  | handlerDone f result =>
    refine ⟨l, 0, by simpa using hl, by simp [Shuts], ?_⟩
    cases result with
    | returned response =>
      obtain ⟨chunks, hchunks⟩ := hlog
      exact hreplies (.request f) chunks hchunks
    | raised e => exact hnothing hlog rfl
    | cancelled => exact hnothing hlog rfl
  | pushDone f k result =>
    refine ⟨l, 0, by simpa using hl, by simp [Shuts], ?_⟩
    cases result with
    | returned response =>
      obtain ⟨chunks, hchunks⟩ := hlog
      exact hreplies (.push f k) chunks hchunks
    | raised e => exact hnothing hlog rfl
    | cancelled => exact hnothing hlog rfl
  | settle f =>
    obtain ⟨l₁, k, rfl, hk, hl₁⟩ := hlog
    refine ⟨l₁, k, by rw [hl, List.append_assoc], hk, ?_⟩
    rw [writes_append, writes_close, List.append_nil] at hwrites
    by_cases hf : Fails500 c f
    · rw [if_pos hf] at hl₁
      obtain ⟨chunks, rfl⟩ := hl₁
      rw [writes_respond] at hwrites
      exact ⟨by simp, by rw [replies_append rfl, replies_respond, hwrites]; simp [started, hf]⟩
    · rw [if_neg hf] at hl₁
      subst hl₁
      simp [started, hf]
  | cancelTask f =>
    obtain rfl : l = [] := hlog
    exact ⟨[], 0, by simpa using hl, by simp [Shuts], by simp [started]⟩
  | _ => exact hcomp.elim

/-- A completion closes the connection only through a close callback. -/
theorem completion_closing (hw : Wf c) (h : CompletionStep c e c') :
    c'.transport.closing = true ↔ c.transport.closing = true ∨ Shuts c e := by
  obtain ⟨hcomp, h⟩ := h
  refine ⟨fun hc => ?_, step_closing hw h⟩
  cases e with
  | handlerDone f result => exact .inl ((keepsFutures_handlerDone h).transport ▸ hc)
  | pushDone f k result => exact .inl ((keepsFutures_pushDone h).transport ▸ hc)
  | cancelTask f => exact .inl ((keepsFutures_cancelTask h).transport ▸ hc)
  | settle f =>
    by_contra hno
    obtain ⟨hno, hs⟩ := not_or.mp hno
    obtain ⟨o, ho, rfl⟩ := step_settle.mp h
    by_cases hpend : (c.future f).state = .pending
    · obtain ⟨p, r, l, -, -, he⟩ := settle_eq hw.toPending (hw.listed f (hw.lt_of_task (.inl (by simp [ho]))) hpend) o
      simp only [if_neg fun hcl => hs ⟨hpend, hcl⟩] at he
      rw [he] at hc
      exact hno hc
    · rw [settle_of_ne_pending hpend] at hc
      exact hno hc
  | _ => exact hcomp.elim

theorem settle_of_shuts (hcomp : Completion e) (hs : Shuts c e) : ∃ g, e = .settle g := by
  cases e with
  | settle g => exact ⟨g, rfl⟩
  | dataReceived | transportClosing | connectionLost | close => exact hcomp.elim
  | _ => exact hs.elim

/-! ## Batches -/

/-- In this step, on the open connection, the parser makes `chunks` of a response to `f`: of what the handler has returned, or of
the 500. -/
def Writes (f : Nat) (chunks : List (List ω)) (c : Connection π ω) (e : Event) : Prop :=
  c.transport.closing = false ∧ .request f ∈ started c e ∧ chunks = newWrites c e

/-- Responses to `f` are written on the open connection, but none whole. -/
def CutOff (whole : Nat → List (List ω) → Prop) (c₀ : Connection π ω) (es : List Event) (f : Nat) : Prop :=
  (∃ chunks, Sometime CompletionStep c₀ (Writes f chunks) es) ∧
    ∀ chunks, Sometime CompletionStep c₀ (Writes f chunks) es → ¬ whole f chunks

/-- Of the requests from `n` to `m`, each has a whole response written before the connection is closed. -/
def BatchAnswered (whole : Nat → List (List ω) → Prop) (n m : Nat) (c : Connection π ω) : Prop :=
  ∀ f, n ≤ f → f < m → AnsweredBeforeClose whole c.log f

/-- What a run of completions keeps of a batch. -/
structure Batch (n m : Nat) (c₀ : Connection π ω) (es : List Event) (c : Connection π ω) : Prop extends Wf c where
  run : Run CompletionStep c₀ es c
  live : Live c
  batched : ∀ f, n ≤ f → f < m → Batched es c f
  closing_iff : c.transport.closing = true ↔ .close ∈ c.log
  written : c.transport.closing = false → ∀ f, n ≤ f → f < m → ∀ chunks,
    (.request f, chunks) ∈ replies c.log ↔ Sometime CompletionStep c₀ (Writes f chunks) es

variable {n m : Nat} {c₀ : Connection π ω} {es : List Event}

theorem mem_replies_started {chunks : List (List ω)} :
    (.request f, chunks) ∈ (started c e).map (fun owner => (owner, newWrites c e)) ↔
      .request f ∈ started c e ∧ chunks = newWrites c e := by
  simp only [List.mem_map, Prod.mk.injEq]
  constructor
  · rintro ⟨owner, hin, rfl, rfl⟩
    exact ⟨hin, rfl⟩
  · rintro ⟨hin, rfl⟩
    exact ⟨_, hin, rfl, rfl⟩

/-- The responses that have been written once a completion is over, but for what it closes. -/
theorem Batch.mem_replies (hb : Batch n m c₀ es c) (ho : c.transport.closing = false) {l : List (Action ω)}
    (hl : replies (c.log ++ l) = replies c.log ++ (started c e).map fun owner => (owner, newWrites c e))
    (hn : n ≤ f) (hm : f < m) (chunks : List (List ω)) :
    (.request f, chunks) ∈ replies (c.log ++ l) ↔ Sometime CompletionStep c₀ (Writes f chunks) (es ++ [e]) := by
  rw [hl, List.mem_append, hb.written ho f hn hm, mem_replies_started, Run.sometime_snoc CompletionStep.det hb.run, Writes,
    and_iff_right ho]

theorem batch_step (hb : Batch n m c₀ es c) (h : CompletionStep c e c') : Batch n m c₀ (es ++ [e]) c' := by
  obtain ⟨l, k, hlog, hk, hclose, hreplies⟩ := completion_log hb.toWf h
  have hclosing := completion_closing hb.toWf h
  refine ⟨step_wf hb.toWf h.2, .snoc hb.run h, step_live hb.toWf hb.live h.2, ?_, ?_, ?_⟩
  · exact fun f hn hm => batched_step hb.toWf hb.live (hb.batched f hn hm) h.2
  · have hmem : .close ∈ List.replicate k (.close : Action ω) ↔ Shuts c e := by
      rw [← hk, List.mem_replicate, and_iff_left rfl]
    rw [hclosing, hb.closing_iff, hlog, List.mem_append, List.mem_append, hmem, or_iff_left hclose]
  · intro ho f hn hm chunks
    have hopen : ¬ (c.transport.closing = true ∨ Shuts c e) := by
      rw [← hclosing, ho]
      simp
    obtain ⟨hopen, hnot⟩ := not_or.mp hopen
    obtain rfl : k = 0 := by
      by_contra hne
      exact hnot (hk.mp hne)
    rw [hlog, List.replicate_zero, List.append_nil]
    exact hb.mem_replies (by simpa using hopen) hreplies hn hm chunks

/-- No completion on a connection that is still open has closed it early. -/
theorem throughout_of_open (hb : ∀ ⦃es c⦄, Run CompletionStep c₀ es c → Wf c) (h : Run CompletionStep c₀ es c)
    (ho : c.transport.closing = false) :
    Throughout CompletionStep c₀ (fun es c e => ¬ ClosesEarly n m es c e) es := by
  induction h with
  | nil => exact Run.throughout_nil
  | @snoc es c c' e h hs ih =>
    obtain ⟨hopen, hnot⟩ := step_open (hb h) hs.2 ho
    refine Run.throughout_snoc.mpr ⟨ih hopen, fun s hrun => ?_⟩
    obtain rfl := h.det CompletionStep.det hrun
    rintro ⟨g, rfl, hg, -⟩
    exact hnot hg

/-- The step that closes the connection finds all requests of the batch answered exactly if no other one is still to be
answered, and none has been cut off. -/
theorem batchAnswered_close (hb : Batch n m c₀ es c) (h : CompletionStep c e c') (ho : c.transport.closing = false)
    (hs : Shuts c e) : BatchAnswered whole n m c' ↔
      ¬ ClosesEarly n m es c e ∧ ∀ f, n ≤ f → f < m → ¬ CutOff whole c₀ (es ++ [e]) f := by
  obtain ⟨l, k, hlog, hk, hclose, hreplies⟩ := completion_log hb.toWf h
  obtain ⟨k, rfl⟩ := Nat.exists_eq_succ_of_ne_zero (hk.mpr hs)
  have hno : .close ∉ c.log ++ l := by
    rw [List.mem_append, ← hb.closing_iff, ho]
    simpa using hclose
  have hanswered : BatchAnswered whole n m c' ↔ ∀ f, n ≤ f → f < m →
      ∃ chunks, Sometime CompletionStep c₀ (Writes f chunks) (es ++ [e]) ∧ whole f chunks := by
    refine forall_congr' fun f => forall_congr' fun hn => forall_congr' fun hm => ?_
    rw [hlog, answeredBeforeClose_close hno]
    simp only [hb.mem_replies ho hreplies hn hm]
  obtain ⟨g, rfl⟩ := settle_of_shuts h.1 hs
  rw [hanswered]
  constructor
  · refine fun hall => ⟨?_, fun f hn hm hcut => ?_⟩
    · rintro ⟨g', hg', -, -, f, hn, hm, hne, hun⟩
      obtain rfl := Event.settle.inj hg'
      obtain ⟨chunks, hsome, -⟩ := hall f hn hm
      have hin : .request f ∈ responds c.log := by
        rcases (Run.sometime_snoc CompletionStep.det hb.run).mp hsome with hsome | ⟨-, hstarted, -⟩
        · exact mem_responds_of_replies ((hb.written ho f hn hm chunks).mpr hsome)
        · rcases mem_started.mp hstarted with ⟨response, hdone⟩ | ⟨hf, -⟩
          · cases hdone
          · exact absurd (Event.settle.inj hf).symm hne
      exact ((hb.batched f hn hm).not_mem_iff ho).mpr hun hin
    · obtain ⟨chunks, hsome, hwhole⟩ := hall f hn hm
      exact hcut.2 chunks hsome hwhole
  · rintro ⟨hearly, hcut⟩ f hn hm
    -- Some response to it has been written; by not being cut off, one of them whole.
    have hsome : ∃ chunks, Sometime CompletionStep c₀ (Writes f chunks) (es ++ [.settle g]) := by
      by_cases hin : .request f ∈ responds c.log
      · obtain ⟨chunks, hin⟩ := exists_replies_of_responds hin
        exact ⟨chunks, (Run.sometime_snoc CompletionStep.det hb.run).mpr (.inl ((hb.written ho f hn hm chunks).mp hin))⟩
      · have hun := ((hb.batched f hn hm).not_mem_iff ho).mp hin
        by_cases hfg : f = g
        · subst hfg
          have hfails : Fails500 c f := by
            refine ⟨hs.1, ho, ?_⟩
            rcases hun.2 with hh | ⟨o, hne, hh⟩
            · simp [hh]
            · simpa [hh] using hne
          exact ⟨_, (Run.sometime_snoc CompletionStep.det hb.run).mpr (.inr ⟨ho, mem_started.mpr (.inr ⟨rfl, hfails⟩), rfl⟩)⟩
        · exact absurd ⟨g, rfl, hs, ho, f, hn, hm, hfg, hun⟩ hearly
    by_contra hnone
    exact hcut f hn hm ⟨hsome, fun chunks h hwhole => hnone ⟨chunks, h, hwhole⟩⟩

/-- After that nothing matters. -/
theorem batchAnswered_after (whole : Nat → List (List ω) → Prop) (hb : Batch n m c₀ es c) (h : CompletionStep c e c')
    (hc : c.transport.closing = true) :
    (BatchAnswered whole n m c' ↔ BatchAnswered whole n m c) ∧ ¬ ClosesEarly n m es c e ∧
      ∀ f, CutOff whole c₀ (es ++ [e]) f ↔ CutOff whole c₀ es f := by
  obtain ⟨l, k, hlog, -⟩ := completion_log hb.toWf h
  have hno : ∀ f chunks, ¬ Writes f chunks c e := fun f chunks hwrites => by
    rw [hwrites.1] at hc
    cases hc
  refine ⟨?_, ?_, fun f => ?_⟩
  · refine forall_congr' fun f => forall_congr' fun hn => forall_congr' fun hm => ?_
    rw [hlog, List.append_assoc, answeredBeforeClose_append (hb.closing_iff.mp hc)]
  · rintro ⟨g, -, -, ho, -⟩
    rw [ho] at hc
    cases hc
  · simp only [CutOff, Run.sometime_snoc CompletionStep.det hb.run, hno, or_false]

/-- The batch as the chunk leaves it. -/
theorem batch_receive (hc : Reachable c) (ho : c.transport.closing = false) {data : Bytes} {parsed : Parsed ω}
    (hp : (c.parse data).2 = .ok (some parsed)) (hr : parsed.requests ≠ []) :
    Batch c.next (c.next + parsed.requests.length) (c.receive data) [] (c.receive data) ∧
      (c.receive data).transport.closing = false := by
  have hw := hc.wf
  have hstep : Step c (.dataReceived data) (c.receive data) := step_dataReceived.mpr ⟨ho, rfl⟩
  have hold : ∀ f, c.next ≤ f → .request f ∉ responds (c.receive data).log := by
    intro f hf hin
    obtain ⟨parsers, info, sslcontext, es, hrun⟩ := hc
    rw [step_responds hw hstep, show started c (.dataReceived data) = [] from rfl, List.append_nil] at hin
    have := ((responded_run hrun).2 f).past hin
    omega
  have hlive := step_live hw hc.live hstep
  have hw' := step_wf hw hstep
  obtain ⟨ps, p, -, ⟨e, hrej, -⟩ | ⟨parsed', hp', -, hrec⟩⟩ := receive_cases hw.toPending data
  · rcases hrej with h | ⟨h, -⟩ <;> rw [hp] at h <;> cases h
  · obtain rfl : parsed = parsed' := by
      rw [hp] at hp'
      simpa using hp'
    simp only [hr, and_false, ite_false] at hrec
    have hopen : (c.receive data).transport.closing = false := by
      rw [hrec]
      exact ho
    have hreceived : Reachable (c.receive data) := by
      obtain ⟨parsers, info, sslcontext, es, hrun⟩ := hc
      exact ⟨parsers, info, sslcontext, _, .snoc hrun hstep⟩
    have hclose : .close ∉ (c.receive data).log := by
      intro hin
      have hclosing := hreceived.closing_of_shut (.inl hin)
      rw [hopen] at hclosing
      cases hclosing
    refine ⟨⟨hw', .nil, hlive, ?_, ?_, ?_⟩, hopen⟩
    · refine fun f hn hm => ⟨⟨fun h => absurd h (hold f hn), fun ⟨_, h⟩ => (nomatch h), fun h => absurd h (hold f hn)⟩, ?_⟩
      have ht : ((c.receive data).task f).state = .handling := by
        rw [hrec]
        obtain ⟨-, -, -, -, ht⟩ := @dispatched_new π ω { c with parsers := ps, parser := p, log := c.log ++ sent parsed.data }
          f parsed.requests parsed.close hn hm
        exact congrArg Task.state ht
      exact fun _ => .inr ⟨fun ⟨_, h⟩ => (nomatch h), .inl ht⟩
    · exact iff_of_false (by simp [hopen]) hclose
    · exact fun _ f hn _ chunks => iff_of_false (fun hin => hold f hn (mem_responds_of_replies hin)) Run.not_sometime_nil

/-- A chunk gives some requests, and may say to close. However their handlers are done, each has a whole response written
before the connection is closed exactly if, where a run closes it, it is not closed early and no request is cut off. -/
theorem batch_answered_iff (hc : Reachable c) (ho : c.transport.closing = false) {data : Bytes} {parsed : Parsed ω}
    (hp : (c.parse data).2 = .ok (some parsed)) (hr : parsed.requests ≠ []) (whole : Nat → List (List ω) → Prop)
    (h : Run CompletionStep (c.receive data) es c') :
    BatchAnswered whole c.next (c.next + parsed.requests.length) c' ↔
      (c'.transport.closing = true →
        Throughout CompletionStep (c.receive data)
            (fun es c₁ e => ¬ ClosesEarly c.next (c.next + parsed.requests.length) es c₁ e) es ∧
          ∀ f, c.next ≤ f → f < c.next + parsed.requests.length → ¬ CutOff whole (c.receive data) es f) := by
  obtain ⟨h₀, hopen⟩ := batch_receive hc ho hp hr
  generalize c.next + parsed.requests.length = m at h₀ ⊢
  have hbatch : ∀ ⦃es c₁⦄, Run CompletionStep (c.receive data) es c₁ → Batch c.next m (c.receive data) es c₁ :=
    fun es c₁ hrun => hrun.history h₀ fun _ _ _ _ hb hs => batch_step hb hs
  -- An open connection has not been closed.
  have hvacuous : ∀ {c₁ : Connection π ω} {es : List Event}, Batch c.next m (c.receive data) es c₁ →
      c₁.transport.closing = false → BatchAnswered whole c.next m c₁ := by
    intro c₁ es hb ho f _ _
    exact answeredBeforeClose_of_not_mem fun hin => by
      rw [hb.closing_iff.mpr hin] at ho
      cases ho
  induction h with
  | nil => exact iff_of_true (hvacuous h₀ hopen) fun hc => by rw [hopen] at hc; cases hc
  | @snoc es c₁ c₂ e hrun hs ih =>
    have hb := hbatch hrun
    cases hcl : c₂.transport.closing with
    | false => exact iff_of_true (hvacuous (batch_step hb hs) hcl) nofun
    | true =>
      rw [forall_prop_of_true rfl, Run.throughout_snoc]
      have hlast : ∀ {ok : Prop} (P : Connection π ω → Prop), (P c₁ ↔ ok) →
          ((∀ s, Run CompletionStep (c.receive data) es s → P s) ↔ ok) := fun P hP =>
        ⟨fun hall => hP.mp (hall _ hrun), fun hok s hrun' => hrun.det CompletionStep.det hrun' ▸ hP.mpr hok⟩
      rw [hlast (fun s => ¬ ClosesEarly c.next m es s e) Iff.rfl]
      cases hcl₁ : c₁.transport.closing with
      | false =>
        have hshuts := ((completion_closing hb.toWf hs).mp hcl).resolve_left (by simp [hcl₁])
        rw [batchAnswered_close hb hs hcl₁ hshuts, and_assoc,
          and_iff_right (throughout_of_open (fun _ _ hrun => (hbatch hrun).toWf) hrun hcl₁)]
      | true =>
        obtain ⟨hkept, hearly, hcut⟩ := batchAnswered_after whole hb hs hcl₁
        refine hkept.trans (ih.trans ?_)
        rw [hcl₁, forall_prop_of_true rfl, and_iff_left hearly]
        simp only [hcut]

/-- What the parser returns for a chunk with two requests that says to close. -/
def closingPair : Parsed UInt8 :=
  let request (path : String) := Request.create (Bytes.ascii path) (Bytes.ascii "GET") (some []) [] []
  { data := [], requests := [request "/path", request "/next"], close := true }

def closingConnection : Connection Mock UInt8 :=
  fresh [⟨fun _ => some closingPair⟩] createConnection.transport.info false

/-- The state once the chunk is received. -/
def pairReceived : Connection Mock UInt8 := closingConnection.receive [45]

theorem pair_parsed : (closingConnection.parse [45]).2 = .ok (some closingPair) := rfl

theorem closingConnection_reachable : Reachable closingConnection := ⟨_, _, _, [], .nil⟩

/-- What the parser writes of any response. -/
def testWritten (_ : Nat) (chunks : List (List UInt8)) : Prop := chunks = [Bytes.ascii "test"]

/-- The handlers are done in order, and the connection is closed. -/
def inOrder : List Event := [.handlerDone 0 returnsOk, .handlerDone 1 returnsOk, .settle 1]

/-- Both requests are answered before the close. -/
theorem inOrder_answered : ∃ c, Run CompletionStep pairReceived inOrder c ∧ c.transport.closing = true ∧
    BatchAnswered testWritten 0 2 c := by
  have hfirst : CompletionStep pairReceived (.handlerDone 0 returnsOk) (pairReceived.handleRequest 0 returnsOk) :=
    ⟨trivial, step_handlerDone.mpr ⟨by decide, rfl⟩⟩
  have hrun : Run CompletionStep pairReceived inOrder
      (((pairReceived.handleRequest 0 returnsOk).handleRequest 1 returnsOk).settle 1 .returned) :=
    .cons hfirst <| .cons ⟨trivial, step_handlerDone.mpr ⟨by decide, rfl⟩⟩ <|
      .single ⟨trivial, step_settle.mpr ⟨.returned, by decide, rfl⟩⟩
  refine ⟨_, hrun, by decide, (batch_answered_iff closingConnection_reachable (by decide) pair_parsed (by decide)
    testWritten hrun).mpr fun _ => ⟨?_, ?_⟩⟩
  · rintro es₁ e es₂ s heq - ⟨g, rfl, -, -, f, -, hf, hne, hun, -⟩
    -- When the second future completes both handlers have returned.
    obtain ⟨rfl, rfl⟩ : [.handlerDone 0 returnsOk, .handlerDone 1 returnsOk] = es₁ ∧ 1 = g := by
      rcases es₁ with _ | ⟨e₁, _ | ⟨e₂, _ | ⟨e₃, es₁⟩⟩⟩ <;> simp [inOrder] at heq ⊢
      exact ⟨⟨heq.1, heq.2.1⟩, heq.2.2.1⟩
    have hf : f < 2 := hf
    obtain rfl : f = 0 := by omega
    exact hun ⟨_, List.mem_cons_self⟩
  · intro f _ hf hcut
    have hf : f < 2 := hf
    have hwrites : Sometime CompletionStep pairReceived (Writes f [Bytes.ascii "test"]) inOrder := by
      obtain rfl | rfl : f = 0 ∨ f = 1 := by omega
      · exact ⟨[], _, _, _, rfl, .nil, by decide, by decide, by decide⟩
      · exact ⟨[_], _, _, _, rfl, .single hfirst, by decide, by decide, by decide⟩
    exact hcut.2 _ hwrites rfl

/-- The last request of the two is answered first, and closes the connection. -/
theorem lastFirst_run : Run CompletionStep pairReceived [.handlerDone 1 returnsOk, .settle 1]
    ((pairReceived.handleRequest 1 returnsOk).settle 1 .returned) :=
  .cons ⟨trivial, step_handlerDone.mpr ⟨by decide, rfl⟩⟩ <| .single ⟨trivial, step_settle.mpr ⟨.returned, by decide, rfl⟩⟩

/-- The connection is closed before the first of the two is answered. -/
theorem lastFirst_not_answered :
    ¬ ∀ (c : Connection Mock UInt8) (data : Bytes) (parsed : Parsed UInt8), Reachable c → c.transport.closing = false →
        (c.parse data).2 = .ok (some parsed) → parsed.requests ≠ [] → parsed.close = true →
          ∀ es c', Run CompletionStep (c.receive data) es c' →
            BatchAnswered testWritten c.next (c.next + parsed.requests.length) c' := by
  intro h
  have hans := h _ _ _ closingConnection_reachable (by decide) pair_parsed (by decide) rfl _ _ lastFirst_run 0
    (Nat.le_refl 0) (by decide)
  have hlog : ((pairReceived.handleRequest 1 returnsOk).settle 1 .returned).log =
      [.respond (.request 1), .write (Bytes.ascii "test")] ++ .close :: [] := by decide
  obtain ⟨chunks, hin, -⟩ := hans _ _ hlog
  exact absurd (mem_responds_of_replies hin) (by decide)

end Levin.Connection
