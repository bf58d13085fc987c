import Levin.Core.Parsers.Hyper
import Levin.Framework.Run
import Levin.Proof.Http2.Reference
import Mathlib.Data.List.TakeDrop

/-!
# Between the chunks of a response

A run of `Next` resumes the generator of `handle_response` as often as it likes,
and lets anything happen to the connection in between. What a resumption does
(`resume_cases`) depends on what is left of the body (`Generator.left`):

* `sends_body`: the chunks of a run fit the window and the frame size they meet,
  and make up a prefix of the body; only the one that completes it ends the
  stream;
* `handleResponse_run`: what `handle_response` sends where nothing comes between
  its chunks is one of these runs.
-/

namespace Levin.Hyper

open Framework

variable {σ : Type}

inductive SendEvent (σ : Type)
  /-- `next` is called on the generator, and a chunk is sent or not. -/
  | resumed (chunk : Option (Chunk σ))
  /-- Anything happens to the connection. -/
  | changed

def SendEvent.chunk? : SendEvent σ → Option (Chunk σ)
  | .resumed chunk => chunk
  | .changed => none

def SendEvent.isResumed : SendEvent σ → Bool
  | .resumed _ => true
  | .changed => false

/-- The chunks sent in a run, in order. -/
def chunks (es : List (SendEvent σ)) : List (Chunk σ) := es.filterMap SendEvent.chunk?

/-- How often the generator has been resumed. -/
def resumptions (es : List (SendEvent σ)) : Nat := es.countP SendEvent.isResumed

/-- What chunks carry, put together. -/
def payloads (cs : List (Chunk σ)) : Bytes := (cs.map Chunk.payload).flatten

/-- What is left to send of `body`, as long as the generator has not ended. -/
def Generator.left (body : Bytes) : Generator → Option Bytes
  | .created => some body
  | .suspended _ data => some data
  | .ended _ => none

theorem Generator.ended_of_left {g : Generator} {body : Bytes} (h : g.left body = none) : ∃ exc, g = .ended exc := by
  cases g with
  | ended exc => exact ⟨exc, rfl⟩
  | created => cases h
  | suspended t data => cases h

section Events

variable (es : List (SendEvent σ)) (cs : List (Chunk σ)) (c : Chunk σ)

theorem chunks_snoc (e : SendEvent σ) : chunks (es ++ [e]) = chunks es ++ e.chunk?.toList := by
  rw [chunks, chunks, List.filterMap_append]
  cases h : e.chunk? <;> simp [h]

theorem chunks_cons_resumed (chunk : Option (Chunk σ)) :
    chunks (.resumed chunk :: es) = chunk.toList ++ chunks es := by
  cases chunk <;> rfl

@[simp] theorem resumptions_snoc_resumed (chunk : Option (Chunk σ)) :
    resumptions (es ++ [.resumed chunk]) = resumptions es + 1 := by
  simp [resumptions, SendEvent.isResumed]

@[simp] theorem resumptions_snoc_changed : resumptions (es ++ [.changed]) = resumptions es := by
  simp [resumptions, SendEvent.isResumed]

@[simp] theorem payloads_snoc : payloads (cs ++ [c]) = payloads cs ++ c.payload := by
  simp [payloads]

end Events

/-- The stream a generator sends on, once it is known. -/
def Generator.streamId? (response : Response) (request : Request) : Generator → Option Nat
  | .created => if response.push then none else some request.stream
  | .suspended t _ => some t
  | .ended _ => none

/-- Where a run has come to that has sent the chunks `cs`: they and what is left make up the body. -/
def Progress (response : Response) (request : Request) (cs : List (Chunk σ)) : Generator → Prop
  | .created => cs = []
  | .suspended t data =>
    cs ≠ [] ∧ payloads cs ++ data = response.body ∧ (response.push = false → t = request.stream)
  | .ended _ => payloads cs <+: response.body

section Progress

variable {response : Response} {request : Request} {cs : List (Chunk σ)} {g : Generator} {data : Bytes}

theorem Progress.left (h : Progress response request cs g) (hg : g.left response.body = some data) :
    payloads cs ++ data = response.body := by
  cases g with
  | created =>
    obtain rfl : cs = [] := h
    exact (Option.some.inj hg).symm
  | suspended t data' =>
    obtain rfl := Option.some.inj hg
    exact h.2.1
  | ended exc => cases hg

theorem Progress.isPrefix (h : Progress response request cs g) : payloads cs <+: response.body := by
  cases hg : g.left response.body with
  | some data => exact ⟨data, h.left hg⟩
  | none =>
    cases g with
    | ended exc => exact h
    | created => cases hg
    | suspended t data => cases hg

theorem Progress.streamId (h : Progress response request cs g) (hg : g.left response.body = some data)
    (hpush : response.push = false) : g.streamId? response request = some request.stream := by
  cases g with
  | created => rw [Generator.streamId?, hpush, if_neg Bool.false_ne_true]
  | suspended t data' => rw [Generator.streamId?, h.2.2 hpush]
  | ended exc => cases hg

end Progress

variable [H2Connection σ]

/-- A step of the generator, or of anything else that has the connection. -/
inductive Next (response : Response) (request : Request) : Generator × σ → SendEvent σ → Generator × σ → Prop
  | resumed (g : Generator) (conn : σ) :
    Next response request (g, conn) (.resumed (resume response request g conn).chunk)
      ((resume response request g conn).generator, (resume response request g conn).conn)
  | changed (g : Generator) (conn conn' : σ) : Next response request (g, conn) .changed (g, conn')

/-! ## One resumption -/

/-- How a turn of the loop cuts the chunk `c` off `data`: the window is that of `stream`. -/
structure Cuts (stream : Nat) (pushes : List Push) (data : Bytes) (c : Chunk σ) : Prop where
  window : ∃ w : Int, H2Connection.localFlowControlWindow stream c.conn = .ok w ∧ c.payload.length ≤ w
  frame : c.payload.length ≤ H2Connection.maxOutboundFrameSize c.conn
  nonempty : 1 ≤ H2Connection.maxOutboundFrameSize c.conn → data ≠ [] → c.payload ≠ []
  endStream : c.endStream = true ↔ pushes = [] ∧ c.payload = data

/-- What a resumption with `data` left comes to: the end, or a chunk of it and a suspension. -/
def Comes (stream : Nat) (streamId : Option Nat) (pushes : List Push) (data : Bytes) (t : Turn σ) : Prop :=
  (t.chunk = none ∧ ∃ exc, t.generator = .ended exc) ∨
    ∃ c rest, t.chunk = some c ∧ t.generator = .suspended c.streamId rest ∧ data = c.payload ++ rest ∧
      Cuts stream pushes data c ∧ ∀ t ∈ streamId, c.streamId = t

theorem chunkSize_le (window : Int) (data : Bytes) (conn : σ) : chunkSize window data conn ≤ data.length := by
  simp only [chunkSize]
  omega

theorem length_take_chunkSize (window : Int) (data : Bytes) (conn : σ) :
    (data.take (chunkSize window data conn)).length = chunkSize window data conn := by
  rw [List.length_take, Nat.min_eq_left (chunkSize_le window data conn)]

/-- A turn of the loop sends something, if something is left. -/
theorem chunkSize_pos {window : Int} {data : Bytes} {conn : σ} (hw : 1 ≤ window)
    (hframe : 1 ≤ H2Connection.maxOutboundFrameSize conn) (h : data ≠ []) : 0 < chunkSize window data conn := by
  have hdata := List.length_pos_iff.mpr h
  simp only [chunkSize]
  omega

theorem cuts_take {stream streamId : Nat} {pushes : List Push} {data : Bytes} {window : Int} {conn : σ}
    {frames : List Frame} (hw : H2Connection.localFlowControlWindow stream conn = .ok window) (h : 1 ≤ window) :
    Cuts stream pushes data
      { conn, streamId, payload := data.take (chunkSize window data conn),
        endStream := pushes.isEmpty && decide (chunkSize window data conn ≥ data.length), frames } where
  window := by
    refine ⟨window, hw, ?_⟩
    rw [length_take_chunkSize, chunkSize]
    omega
  frame := by
    rw [length_take_chunkSize]
    exact Nat.min_le_right _ _
  nonempty hframe hdata := by
    rw [ne_eq, ← List.length_eq_zero_iff, length_take_chunkSize]
    exact Nat.ne_of_gt (chunkSize_pos h hframe hdata)
  endStream := by
    rw [Bool.and_eq_true, decide_eq_true_eq, List.isEmpty_iff]
    exact and_congr_right fun _ => (List.take_eq_self_iff data).symm

theorem sendTurn_comes (stream streamId : Nat) (pushes : List Push) (data : Bytes) (conn : σ) :
    Comes stream (some streamId) pushes data (sendTurn stream streamId pushes data conn) := by
  unfold sendTurn
  split
  · exact .inl ⟨rfl, _, rfl⟩
  · rename_i window hw
    split
    · exact .inl ⟨rfl, _, rfl⟩
    · rename_i h
      dsimp only
      split
      · exact .inl ⟨rfl, _, rfl⟩
      · refine .inr ⟨_, _, rfl, rfl, (List.take_append_drop _ _).symm, cuts_take hw (by omega), ?_⟩
        rintro t ⟨⟩
        rfl

theorem startResponse_comes (response : Response) (stream streamId : Nat) (conn : σ) :
    Comes stream (some streamId) response.pushes response.body (startResponse response stream streamId conn) := by
  unfold startResponse
  split
  · exact .inl ⟨rfl, _, rfl⟩
  · exact sendTurn_comes stream streamId response.pushes response.body _

theorem Comes.of_streamId {stream streamId : Nat} {pushes : List Push} {data : Bytes} {t : Turn σ}
    (h : Comes stream (some streamId) pushes data t) : Comes stream none pushes data t := by
  refine h.imp_right fun ⟨c, rest, hc, hg, hdata, hcuts, _⟩ => ⟨c, rest, hc, hg, hdata, hcuts, ?_⟩
  rintro t ⟨⟩

/-- A response that is not pushed goes out on the request's stream. -/
theorem start_comes (response : Response) (request : Request) (conn : σ) :
    Comes request.stream (if response.push then none else some request.stream) response.pushes response.body
      (start response request conn) := by
  unfold start
  split
  · split
    · exact .inl ⟨rfl, _, rfl⟩
    · exact .inl ⟨rfl, _, rfl⟩
    · exact (startResponse_comes response _ _ _).of_streamId
  · exact startResponse_comes response _ _ _

/-- One resumption of a generator that has not ended. -/
theorem resume_comes (response : Response) (request : Request) {g : Generator} {data : Bytes} (conn : σ)
    (h : g.left response.body = some data) :
    Comes request.stream (g.streamId? response request) response.pushes data (resume response request g conn) := by
  cases g with
  | created =>
    obtain rfl := Option.some.inj h
    exact start_comes (setContentLength response) request conn
  | suspended t data' =>
    obtain rfl : data' = data := Option.some.inj h
    by_cases hdata : data' = []
    · exact .inl ⟨by rw [resume, if_pos hdata], none, by rw [resume, if_pos hdata]⟩
    · rw [resume, if_neg hdata]
      exact sendTurn_comes _ _ _ _ _
  | ended exc => cases h

/-! ## Runs -/

/-- A chunk `c` as it should be, sent after the chunks `cs`. -/
structure Sent (response : Response) (request : Request) (cs : List (Chunk σ)) (c : Chunk σ) : Prop where
  /-- It goes out on the request's stream, unless the response is pushed. -/
  stream : response.push = false → c.streamId = request.stream
  /-- The window and the frame size are those of the connection that sends it. -/
  window : ∃ w : Int, H2Connection.localFlowControlWindow request.stream c.conn = .ok w ∧ c.payload.length ≤ w
  frame : c.payload.length ≤ H2Connection.maxOutboundFrameSize c.conn
  nonempty : 1 ≤ H2Connection.maxOutboundFrameSize c.conn → response.body ≠ [] → c.payload ≠ []
  /-- It ends the stream if it completes the body, and nothing is pushed. -/
  endStream : c.endStream = true ↔ response.pushes = [] ∧ payloads (cs ++ [c]) = response.body

variable {response : Response} {request : Request} {cs : List (Chunk σ)} {g : Generator} {data : Bytes} {conn : σ}

/-- The loop goes round only if something is left. -/
theorem resume_nil (response : Response) (request : Request) (t : Nat) (conn : σ) :
    resume response request (.suspended t []) conn = { generator := .ended none, conn } := rfl

/-- What is left when a chunk is sent is not empty, unless the body is. -/
theorem left_ne_nil {c : Chunk σ} (hg : g.left response.body = some data)
    (hc : (resume response request g conn).chunk = some c) (hbody : response.body ≠ []) : data ≠ [] := by
  cases g with
  | created => exact Option.some.inj hg ▸ hbody
  | suspended t data' =>
    obtain rfl := Option.some.inj hg
    rintro rfl
    cases hc
  | ended exc => cases hg

/-- One resumption, after a run that has sent the chunks `cs`. -/
theorem Progress.resume (h : Progress response request cs g) (conn : σ) :
    Progress response request (cs ++ (resume response request g conn).chunk.toList)
        (resume response request g conn).generator ∧
      ∀ c ∈ (resume response request g conn).chunk, Sent response request cs c := by
  cases hg : g.left response.body with
  | none =>
    obtain ⟨exc, rfl⟩ := Generator.ended_of_left hg
    rw [Hyper.resume, Option.toList_none, List.append_nil]
    exact ⟨h, nofun⟩
  | some data =>
    rcases resume_comes response request conn hg with
      ⟨hc, exc, hgen⟩ | ⟨c, rest, hc, hgen, hdata, hcuts, hstream⟩
    · rw [hc, hgen, Option.toList_none, List.append_nil]
      exact ⟨h.isPrefix, nofun⟩
    · have hbody := h.left hg
      have hs : response.push = false → c.streamId = request.stream := fun hpush =>
        hstream _ (h.streamId hg hpush)
      rw [hc, hgen]
      refine ⟨⟨by simp, ?_, hs⟩, ?_⟩
      · rw [Option.toList_some, payloads_snoc, List.append_assoc, ← hdata, hbody]
      · rintro c ⟨⟩
        refine ⟨hs, hcuts.window, hcuts.frame, fun hframe hne => hcuts.nonempty hframe (left_ne_nil hg hc hne), ?_⟩
        rw [hcuts.endStream, payloads_snoc, ← hbody, List.append_cancel_left_eq]

/-- How many resumptions a generator has left at most. -/
def Generator.remaining (body : Bytes) : Generator → Nat
  | .created => body.length + 2
  | .suspended _ data => data.length + 1
  | .ended _ => 0

/-- A resumption sends something, or is the last. -/
theorem resume_remaining (response : Response) (request : Request) (g : Generator)
    (hframe : ∀ conn : σ, 1 ≤ H2Connection.maxOutboundFrameSize conn) (conn : σ) :
    (resume response request g conn).generator.remaining response.body ≤ g.remaining response.body - 1 := by
  cases hg : g.left response.body with
  | none =>
    obtain ⟨exc, rfl⟩ := Generator.ended_of_left hg
    exact Nat.le_refl _
  | some data =>
    rcases resume_comes response request conn hg with ⟨-, exc, hgen⟩ | ⟨c, rest, hc, hgen, hdata, hcuts, -⟩
    · rw [hgen]
      exact Nat.zero_le _
    · have hlen := congrArg List.length hdata
      rw [List.length_append] at hlen
      rw [hgen]
      cases g with
      | created =>
        obtain rfl := Option.some.inj hg
        simp only [Generator.remaining]
        omega
      | suspended t data' =>
        obtain rfl := Option.some.inj hg
        have hne : data' ≠ [] := by
          rintro rfl
          cases hc
        have hpos := List.length_pos_iff.mpr (hcuts.nonempty (hframe _) hne)
        simp only [Generator.remaining]
        omega
      | ended exc => cases hg

variable {es : List (SendEvent σ)} {s₀ s : Generator × σ}

theorem run_progress (h : Run (Next response request) (.created, conn) es s) :
    Progress response request (chunks es) s.1 := by
  have h₀ : Progress response request (chunks ([] : List (SendEvent σ))) .created := rfl
  refine Run.history (I := fun es s => Progress response request (chunks es) s.1) h₀ ?_ h
  rintro es s e s' hI (⟨g, conn⟩ | ⟨g, conn, conn'⟩)
  · rw [chunks_snoc]
    exact (hI.resume conn).1
  · rwa [chunks_snoc, SendEvent.chunk?, Option.toList_none, List.append_nil]

theorem run_remaining (hframe : ∀ conn : σ, 1 ≤ H2Connection.maxOutboundFrameSize conn)
    (h : Run (Next response request) (.created, conn) es s) :
    s.1.remaining response.body ≤ response.body.length + 2 - resumptions es := by
  refine Run.history (I := fun es s => s.1.remaining response.body ≤ response.body.length + 2 - resumptions es)
    (Nat.le_refl _) ?_ h
  rintro es s e s' hI (⟨g, conn⟩ | ⟨g, conn, conn'⟩)
  · have hle := resume_remaining response request g hframe conn
    rw [resumptions_snoc_resumed]
    dsimp only at hI ⊢
    omega
  · rwa [resumptions_snoc_changed]

/-- Every chunk of a run is as it should be, given those before it. -/
theorem run_sent (h : Run (Next response request) (.created, conn) es s) :
    ∀ cs₁ c cs₂, chunks es = cs₁ ++ c :: cs₂ → Sent response request cs₁ c := by
  induction h with
  | nil => simp [chunks]
  | snoc h hs ih =>
    intro cs₁ c cs₂ heq
    rw [chunks_snoc] at heq
    cases hs with
    | changed g conn conn' => exact ih cs₁ c cs₂ (by simpa [SendEvent.chunk?] using heq)
    | resumed g conn =>
      obtain ⟨-, hsent⟩ := (run_progress h).resume conn
      rw [SendEvent.chunk?] at heq
      cases hc : (resume response request g conn).chunk with
      | none => exact ih cs₁ c cs₂ (by simpa [hc] using heq)
      | some c' =>
        rw [hc, Option.toList_some] at heq
        rcases snoc_eq_append_cons.mp heq with ⟨rfl, rfl, rfl⟩ | ⟨cs₂', hbefore, rfl⟩
        · exact hsent _ hc
        · exact ih cs₁ c cs₂' hbefore

/-- The chunks `cs` of a response that is not pushed, as they should be. -/
structure SendsBody (response : Response) (request : Request) (cs : List (Chunk σ)) : Prop where
  stream : ∀ c ∈ cs, c.streamId = request.stream
  /-- The window that the connection has when it sends the chunk. -/
  window : ∀ c ∈ cs, ∃ w : Int,
    H2Connection.localFlowControlWindow c.streamId c.conn = .ok w ∧ c.payload.length ≤ w
  frame : ∀ c ∈ cs, c.payload.length ≤ H2Connection.maxOutboundFrameSize c.conn
  isPrefix : payloads cs <+: response.body
  nonempty : response.body ≠ [] → ∀ c ∈ cs, c.payload ≠ []
  endStream : ∀ cs₁ c cs₂, cs = cs₁ ++ c :: cs₂ →
    (c.endStream = true ↔ response.pushes = [] ∧ payloads (cs₁ ++ [c]) = response.body)

/-- Whatever happens to the connection between the chunks of a response that is not pushed, they
are as they should be, and `next` is called on the generator only so often before it has ended. -/
theorem sends_body (hframe : ∀ conn : σ, 1 ≤ H2Connection.maxOutboundFrameSize conn)
    (hpush : response.push = false) (h : Run (Next response request) (.created, conn) es s) :
    SendsBody response request (chunks es) ∧
      (response.body.length + 2 ≤ resumptions es → ∃ exc, s.1 = .ended exc) := by
  have hsent := run_sent h
  have hmem : ∀ c ∈ chunks es, ∃ cs₁, Sent response request cs₁ c := by
    intro c hc
    obtain ⟨cs₁, cs₂, heq⟩ := List.append_of_mem hc
    exact ⟨cs₁, hsent cs₁ c cs₂ heq⟩
  refine ⟨⟨?_, ?_, ?_, (run_progress h).isPrefix, ?_, ?_⟩, fun hn => ?_⟩
  · intro c hc
    obtain ⟨cs₁, hc⟩ := hmem c hc
    exact hc.stream hpush
  · intro c hc
    obtain ⟨cs₁, hc⟩ := hmem c hc
    rw [hc.stream hpush]
    exact hc.window
  · intro c hc
    obtain ⟨cs₁, hc⟩ := hmem c hc
    exact hc.frame
  · intro hbody c hc
    obtain ⟨cs₁, hc⟩ := hmem c hc
    exact hc.nonempty (hframe _) hbody
  · exact fun cs₁ c cs₂ heq => (hsent cs₁ c cs₂ heq).endStream
  · have hle := run_remaining hframe h
    rw [Nat.sub_eq_zero_of_le hn, Nat.le_zero] at hle
    cases hg : s.1 with
    | ended exc => exact ⟨exc, rfl⟩
    | created =>
      rw [hg] at hle
      cases hle
    | suspended t data =>
      rw [hg] at hle
      cases hle

/-- `GET /` on stream 1. -/
def getRoot : Request := .create (Bytes.ascii "/") (Bytes.ascii "GET") (some []) [] (Bytes.ascii "HTTP/2") 1

def hello : Response where
  status := 200
  body := Bytes.ascii "hello"

/-- The events of `hello`, sent with a window of 2 and then one of 3. -/
def twoThree : List (SendEvent Reference) :=
  let first := resume hello getRoot .created (Connection.requested 2 true)
  let second := resume hello getRoot first.generator (first.conn.setStream 1 .body 3)
  [.resumed first.chunk, .changed, .resumed second.chunk]

theorem twoThree_sends : SendsBody hello getRoot (chunks twoThree) ∧ payloads (chunks twoThree) = hello.body :=
  ⟨(sends_body (fun r : Reference => r.maxFrameSize_pos) rfl
    (.snoc (.snoc (.single (.resumed .created (Connection.requested 2 true))) (.changed _ _ _)) (.resumed _ _))).1,
    by decide⟩

/-! ## Nothing in between -/

/-- The loop, from the turn it begins with. -/
theorem sendLoop_succ (stream streamId : Nat) (pushes : List Push) (n : Nat) (data : Bytes) (conn : σ) :
    sendLoop stream streamId pushes (n + 1) data conn =
      match sendTurn stream streamId pushes data conn with
      | ⟨some c, .suspended _ rest, conn⟩ =>
        if rest = [] then ([c.frames], none, conn)
        else
          let (chunks, exc, conn) := sendLoop stream streamId pushes n rest conn
          (c.frames :: chunks, exc, conn)
      | ⟨_, .ended exc, conn⟩ => ([], exc, conn)
      | ⟨_, _, conn⟩ => ([], none, conn) := by
  rw [sendLoop, sendTurn]
  cases H2Connection.localFlowControlWindow stream conn with
  | error e => rfl
  | ok window =>
    dsimp only [chunkSize]
    split
    · rfl
    · rcases H2Connection.sendData streamId _ _ conn with ⟨e | _, sent⟩ <;> rfl

/-- What is `sent` at one go is what a run sends that begins with the turn `t` and goes on alone. -/
def Alone (response : Response) (request : Request) (t : Turn σ) (sent : List (List Frame) × Option Exc × σ) : Prop :=
  ∃ es exc conn', Run (Next response request) (t.generator, t.conn) es (.ended exc, conn') ∧
    sent = ((t.chunk.toList ++ chunks es).map Chunk.frames, exc, conn')

/-- A turn that is the last. -/
theorem alone_ended (exc : Option Exc) (conn : σ) :
    Alone response request { generator := .ended exc, conn } ([], exc, conn) :=
  ⟨[], exc, conn, .nil, rfl⟩

/-- What the loop sends at one go: the chunks of a run in which nothing else happens. -/
theorem sendLoop_alone (hframe : ∀ conn : σ, 1 ≤ H2Connection.maxOutboundFrameSize conn) (streamId : Nat) :
    ∀ (n : Nat) (data : Bytes) (conn : σ), data.length < n →
      Alone response request (sendTurn request.stream streamId response.pushes data conn)
        (sendLoop request.stream streamId response.pushes n data conn)
  | 0, _, _, hn => absurd hn (Nat.not_lt_zero _)
  | n + 1, data, conn, hn => by
    have hturn := sendTurn_comes request.stream streamId response.pushes data conn
    rw [sendLoop_succ]
    generalize sendTurn request.stream streamId response.pushes data conn = t at hturn ⊢
    obtain ⟨chunk, g, conn₁⟩ := t
    rcases hturn with ⟨rfl, exc, rfl⟩ | ⟨c, rest, rfl, rfl, hdata, hcuts, hstream⟩
    · exact alone_ended _ _
    · obtain rfl := hstream _ rfl
      by_cases hnil : rest = []
      · subst hnil
        exact ⟨[.resumed none], none, conn₁, .single (.resumed _ _), rfl⟩
      · -- More is left, so that something has been sent, and the loop goes on with less.
        have hne : data ≠ [] := by
          rintro rfl
          exact hnil (List.append_eq_nil_iff.mp hdata.symm).2
        have hpos := List.length_pos_iff.mpr (hcuts.nonempty (hframe _) hne)
        have hlen : rest.length < n := by
          have := congrArg List.length hdata
          rw [List.length_append] at this
          omega
        obtain ⟨es, exc, conn', hrun, hloop⟩ := sendLoop_alone hframe c.streamId n rest conn₁ hlen
        have hnext : resume response request (.suspended c.streamId rest) conn₁ =
            sendTurn request.stream c.streamId response.pushes rest conn₁ := if_neg hnil
        rw [← hnext] at hrun hloop
        refine ⟨_ :: es, exc, conn', .cons (.resumed _ _) hrun, ?_⟩
        rw [chunks_cons_resumed]
        dsimp only
        rw [if_neg hnil, hloop]
        rfl

theorem sendResponse_alone (hframe : ∀ conn : σ, 1 ≤ H2Connection.maxOutboundFrameSize conn)
    (streamId : Nat) (conn : σ) :
    Alone response request (startResponse (setContentLength response) request.stream streamId conn)
      (sendResponse (setContentLength response) request.stream streamId conn) := by
  unfold startResponse sendResponse
  split
  · exact alone_ended _ _
  · exact sendLoop_alone hframe streamId _ response.body _ (Nat.lt_succ_self _)

theorem send_alone (response : Response) (request : Request)
    (hframe : ∀ conn : σ, 1 ≤ H2Connection.maxOutboundFrameSize conn) (conn : σ) :
    Alone response request (start (setContentLength response) request conn)
      (send (setContentLength response) request conn) := by
  unfold start send
  split
  · split
    · exact alone_ended _ _
    · exact alone_ended _ _
    · exact sendResponse_alone hframe _ _
  · exact sendResponse_alone hframe _ _

/-- `handle_response` as a connection uses it, one `next` after the other, is one of the runs. -/
theorem handleResponse_run (hframe : ∀ conn : σ, 1 ≤ H2Connection.maxOutboundFrameSize conn)
    (response : Response) (request : Request) (p : Parser σ) :
    ∃ es exc, Run (Next response request) (.created, p.conn) es
        (.ended exc, (handleResponse response request p).2.2.conn) ∧
      (handleResponse response request p).1 =
        { chunks := (chunks es).map fun c => c.frames.map .frame, exc } := by
  obtain ⟨es, exc, conn', hrun, hsent⟩ := send_alone response request hframe p.conn
  refine ⟨_ :: es, exc, .cons (.resumed _ _) ?_, ?_⟩
  · rw [handleResponse, hsent]
    exact hrun
  · rw [handleResponse, hsent, chunks_cons_resumed]
    dsimp only
    rw [List.map_map]
    rfl

end Levin.Hyper
