import Levin.Core.Parsers.Mock
import Levin.Proof.Connection.Steps

/-!
# Exceptions out of `data_received`

`_parse` returns nothing where no parser accepts a chunk, and lets through what
the selected parser raises. Either way the chunk makes `data_received` raise: an
exception has come out of it exactly if some chunk was not accepted
(`no_escape_iff`).
-/

namespace Levin.Connection

open Framework

variable {π ω : Type} [ParserProtocol π ω] {c c' : Connection π ω} {data : Bytes} {e : Event}

/-- The parser `p` accepts the chunk. -/
def ParserAccepts (p : π) (data : Bytes) : Prop :=
  ∃ parsed, (ParserProtocol.handleRequest p data).1 = .ok parsed

/-- The chunk is accepted: by the selected parser or, if there is none yet, by a parser of the
list before which all raise `ParseError`. -/
def Accepts (c : Connection π ω) (data : Bytes) : Prop :=
  match c.parser with
  | some p => ParserAccepts p data
  | none => ∃ before p after, c.parsers = before ++ p :: after ∧
      (∀ q ∈ before, (ParserProtocol.handleRequest q data).1 = .error .ParseError) ∧ ParserAccepts p data

/-- The loop of `_parse` finds the first parser that does not raise `ParseError`. -/
theorem selectParser_iff (data : Bytes) (ps : List π) :
    (∃ r, (selectParser data ps).2 = .ok (some r)) ↔
      ∃ before p after, ps = before ++ p :: after ∧
        (∀ q ∈ before, (ParserProtocol.handleRequest q data).1 = .error .ParseError) ∧ ParserAccepts p data := by
  induction ps with
  | nil => simp [selectParser]
  | cons p ps ih =>
    rcases hp : ParserProtocol.handleRequest p data with ⟨e | parsed, p'⟩
    · by_cases he : e = .ParseError
      · subst he
        rw [show (selectParser data (p :: ps)).2 = (selectParser data ps).2 by simp [selectParser, hp], ih]
        constructor
        · rintro ⟨before, q, after, rfl, hb, hq⟩
          exact ⟨p :: before, q, after, rfl, List.forall_mem_cons.mpr ⟨by rw [hp], hb⟩, hq⟩
        · rintro ⟨before, q, after, h, hb, hq⟩
          rcases before with _ | ⟨b, before⟩
          · obtain ⟨rfl, -⟩ := List.cons.inj h
            obtain ⟨parsed, hq⟩ := hq
            rw [hp] at hq
            cases hq
          · obtain ⟨rfl, rfl⟩ := List.cons.inj h
            exact ⟨before, q, after, rfl, (List.forall_mem_cons.mp hb).2, hq⟩
      · have hs : (selectParser data (p :: ps)).2 = .error e := by
          cases e <;> simp_all [selectParser]
        simp only [hs, reduceCtorEq, exists_false, false_iff]
        rintro ⟨before, q, after, h, hb, parsed, hq⟩
        rcases before with _ | ⟨b, before⟩
        · obtain ⟨rfl, -⟩ := List.cons.inj h
          rw [hp] at hq
          cases hq
        · obtain ⟨rfl, -⟩ := List.cons.inj h
          have := (List.forall_mem_cons.mp hb).1
          rw [hp] at this
          exact he (Except.error.inj this)
    · refine iff_of_true ⟨(p', parsed), by simp [selectParser, hp]⟩ ⟨[], p, ps, rfl, by simp, parsed, by rw [hp]⟩

theorem accepts_iff : Accepts c data ↔ ∃ parsed, (c.parse data).2 = .ok (some parsed) := by
  unfold Accepts parse
  cases c.parser with
  | some p =>
    simp only [ParserAccepts]
    cases (ParserProtocol.handleRequest p data).1 <;> simp [Except.map]
  | none =>
    simp only
    rw [← selectParser_iff]
    rcases selectParser data c.parsers with ⟨ps, e | _ | ⟨p, parsed⟩⟩ <;> simp

theorem not_accepts_of_rejects {e : Exc} (h : Rejects c data e) : ¬ Accepts c data := by
  rw [accepts_iff]
  rintro ⟨parsed, hp⟩
  rcases h with h | ⟨h, -⟩ <;> rw [h] at hp <;> cases hp

/-- A chunk that is accepted lets no exception out. -/
theorem receive_of_accepts (hp : Pending c) (h : Accepts c data) : (c.receive data).escaped = c.escaped := by
  obtain ⟨ps, p, -, ⟨e, hr, -⟩ | ⟨parsed, -, -, hc⟩⟩ := receive_cases hp data
  · exact absurd h (not_accepts_of_rejects hr)
  · simp only at hc
    split at hc
    · exact ((closes_closeTransport _).trans hc).escaped
    · rw [hc]
      rfl

/-- A chunk that is not lets one out, and changes nothing of the connection but its parsers. -/
theorem receive_of_not_accepts (hp : Pending c) (h : ¬ Accepts c data) :
    ∃ (ps : List π) (p : Option π) (e : Exc), c.receive data =
      { { c with parsers := ps, parser := p }.setClosing with escaped := c.escaped ++ [e] } := by
  obtain ⟨ps, p, -, ⟨e, -, hc⟩ | ⟨parsed, ha, -, -⟩⟩ := receive_cases hp data
  · exact ⟨ps, p, e, hc⟩
  · exact absurd (accepts_iff.mpr ⟨parsed, ha⟩) h

/-- An event that is no chunk lets no exception out. -/
theorem step_escaped (hw : Wf c) (h : Step c e c') (he : ∀ data, e ≠ .dataReceived data) : c'.escaped = c.escaped := by
  cases e with
  | dataReceived data => exact absurd rfl (he data)
  | handlerDone f result => exact (keepsFutures_handlerDone h).escaped
  | pushDone f k result => exact (keepsFutures_pushDone h).escaped
  | settle f =>
    obtain ⟨o, ho, rfl⟩ := step_settle.mp h
    exact (drains_settle hw ho).escaped
  | cancelTask f => exact (keepsFutures_cancelTask h).escaped
  | transportClosing =>
    obtain rfl := step_transportClosing.mp h
    rfl
  | connectionLost =>
    obtain rfl := step_connectionLost.mp h
    exact (connectionLost_drains (pending_setClosing hw.toPending)).escaped
  | close =>
    obtain rfl := step_close.mp h
    exact (closes_close hw.toPending).escaped

/-- The event is no chunk, or one that is accepted. -/
def NoReject (c : Connection π ω) (e : Event) : Prop := ∀ data, e = .dataReceived data → Accepts c data

theorem step_escaped_cases (hw : Wf c) (h : Step c e c') :
    NoReject c e ∧ c'.escaped = c.escaped ∨ ¬ NoReject c e ∧ ∃ exc, c'.escaped = c.escaped ++ [exc] := by
  by_cases he : ∃ data, e = .dataReceived data
  · obtain ⟨data, rfl⟩ := he
    obtain ⟨-, rfl⟩ := step_dataReceived.mp h
    simp only [NoReject, Event.dataReceived.injEq, forall_eq']
    by_cases ha : Accepts c data
    · exact .inl ⟨ha, receive_of_accepts hw.toPending ha⟩
    · obtain ⟨ps, p, exc, hc⟩ := receive_of_not_accepts hw.toPending ha
      exact .inr ⟨ha, exc, by rw [hc]⟩
  · exact .inl ⟨fun data hd => absurd ⟨data, hd⟩ he, step_escaped hw h fun data hd => he ⟨data, hd⟩⟩

/-- In every run, no exception has come out of `data_received` exactly if each chunk was accepted
in the state it came in. -/
theorem no_escape_iff {parsers : List π} {info : TransportInfo} {sslcontext : Bool} {es : List Event}
    (h : Run Step (fresh parsers info sslcontext) es c) :
    c.escaped = [] ↔ Throughout Step (fresh parsers info sslcontext) (fun _ c e => NoReject c e) es := by
  refine Run.good_iff (G := fun c => c.escaped = []) Step.det rfl (fun es c e c' hr hs hg => ?_)
    (fun es c e c' hr hs hg => ?_) h
  · rcases step_escaped_cases (hr.invariant (wf_fresh _ _ _) step_wf) hs with ⟨-, he⟩ | ⟨-, exc, he⟩
    · rwa [← he]
    · simp [he] at hg
  · rcases step_escaped_cases (hr.invariant (wf_fresh _ _ _) step_wf) hs with ⟨hn, he⟩ | ⟨hn, exc, he⟩
    · exact iff_of_true (he.trans hg) hn
    · exact iff_of_false (by simp [he]) hn

/-- A chunk that is no request. -/
def garbage : Bytes := Bytes.ascii "\x00\x01"

theorem garbage_escape :
    (createConnection.receive (chunk "/")).escaped = [] ∧ (createConnection.receive garbage).escaped ≠ [] := by
  have hiff : ∀ data, (createConnection.receive data).escaped = [] ↔ Accepts createConnection data := by
    intro data
    rw [no_escape_iff (.single (step_dataReceived.mpr ⟨rfl, rfl⟩) : Run Step createConnection [.dataReceived data] _),
      Run.throughout_cons, and_iff_left fun _ _ => Run.throughout_nil]
    simp only [NoReject, Event.dataReceived.injEq, forall_eq']
    exact Iff.rfl
  refine ⟨(hiff _).mpr (accepts_iff.mpr ⟨_, rfl⟩), fun h => ?_⟩
  obtain ⟨parsed, hparsed⟩ := accepts_iff.mp ((hiff _).mp h)
  have hnone : (createConnection.parse garbage).2 = .ok none := by decide
  rw [hnone] at hparsed
  cases hparsed

/-- A parser that raises `ParseError` for every chunk: the first chunk makes `data_received` raise
a `TypeError`. -/
theorem mock_escape :
    (∀ (p : Mock) data e, (ParserProtocol.handleRequest p data).1 = .error e → e = .ParseError) ∧
      ¬ ∀ (parsers : List Mock) info sslcontext es c, Run Step (fresh parsers info sslcontext) es c → c.escaped = [] := by
  refine ⟨fun p data e h => ?_, fun h => ?_⟩
  · rcases hp : p.returnValue data with _ | parsed <;> simp [ParserProtocol.handleRequest, hp] at h
    exact h.symm
  · have hrun : Run Step (fresh [⟨fun _ => none⟩] createConnection.transport.info false) [.dataReceived garbage]
        ((fresh [⟨fun _ => none⟩] createConnection.transport.info false : Connection Mock UInt8).receive garbage) :=
      .single (step_dataReceived.mpr ⟨rfl, rfl⟩)
    exact absurd (h _ _ _ _ _ hrun) (by decide)

end Levin.Connection
