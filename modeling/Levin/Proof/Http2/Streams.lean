import Levin.Core.Parsers.Hyper
import Levin.Framework.Interleave

/-!
# Requests out of interleaved streams

h2 reports the events of all streams in one sequence, and the parser keeps one
unfinished request a stream. If every stream's own events are a life (`Life.Step`),
the parser's table holds at any time what each stream's life calls for
(`Tracking`), whatever comes between its events and however they are grouped into
chunks; and each stream that ends gives one request, of its own header fields and
data (`demultiplexed`).
-/

namespace Levin

open Framework Bytes

/-- The stream an event is about. -/
def H2Event.stream? : H2Event → Option Nat
  | .RequestReceived t _ | .DataReceived t _ | .StreamEnded t | .StreamReset t => some t
  | .ConnectionTerminated | .other => none

/-- The fields of a request. -/
def H2Event.fields? : H2Event → Option Fields
  | .RequestReceived _ fields => some fields
  | _ => none

/-- The data that comes with an event. -/
def H2Event.data : H2Event → Bytes
  | .DataReceived _ data => data
  | _ => []

/-- The stream that ends. -/
def H2Event.ended? : H2Event → Option Nat
  | .StreamEnded t => some t
  | _ => none

/-- The life of a stream, as far as a server hears of it: the fields and the data that have
come, and how it stopped, if it did. `cut` is a stream reset before its end. -/
inductive Life
  | idle
  | opened (fields : Fields) (data : Bytes)
  | ended (fields : Fields) (data : Bytes)
  | cut (fields : Fields) (data : Bytes)
  deriving DecidableEq, Repr

namespace Life

/-- What may happen next to a stream. -/
inductive Step : Life → H2Event → Life → Prop
  | request (t : Nat) (fields : Fields) : Step .idle (.RequestReceived t fields) (.opened fields [])
  | data (t : Nat) (fields : Fields) (old new : Bytes) :
    Step (.opened fields old) (.DataReceived t new) (.opened fields (old ++ new))
  | finish (t : Nat) (fields : Fields) (data : Bytes) :
    Step (.opened fields data) (.StreamEnded t) (.ended fields data)
  | cut (t : Nat) (fields : Fields) (data : Bytes) :
    Step (.opened fields data) (.StreamReset t) (.cut fields data)
  | late (t : Nat) (fields : Fields) (data : Bytes) :
    Step (.ended fields data) (.StreamReset t) (.ended fields data)

/-- `Step` as a function. -/
def next : Life → H2Event → Option Life
  | .idle, .RequestReceived _ fields => some (.opened fields [])
  | .opened fields old, .DataReceived _ new => some (.opened fields (old ++ new))
  | .opened fields data, .StreamEnded _ => some (.ended fields data)
  | .opened fields data, .StreamReset _ => some (.cut fields data)
  | .ended fields data, .StreamReset _ => some (.ended fields data)
  | _, _ => none

theorem step_iff (l : Life) (e : H2Event) (l' : Life) : Step l e l' ↔ next l e = some l' := by
  constructor
  · intro h
    cases h <;> rfl
  · intro h
    unfold next at h
    split at h <;> cases h <;> constructor

theorem step_det {l a b : Life} {e : H2Event} (ha : Step l e a) (hb : Step l e b) : a = b := by
  rw [step_iff] at ha hb
  exact Option.some.inj (ha.symm.trans hb)

end Life

/-- Every stream's events are a life. -/
abbrev WellFormed (events : List H2Event) : Prop := Interleaved H2Event.stream? Life.Step .idle events

instance (events : List H2Event) : Decidable (WellFormed events) :=
  decidable_of_iff _ (interleaved_iff Life.step_iff).symm

/-- The events of stream `t`. -/
abbrev ofStream (t : Nat) (events : List H2Event) : List H2Event := on H2Event.stream? t events

/-- The fields of the first request among the events of a stream. -/
def fieldsIn? (events : List H2Event) : Option Fields := events.findSome? H2Event.fields?

/-- The data among the events of a stream. -/
def dataIn (events : List H2Event) : Bytes := events.flatMap H2Event.data

/-- The streams that end, in order. -/
def endedIn (events : List H2Event) : List Nat := events.filterMap H2Event.ended?

namespace Life

variable {events : List H2Event} {l : Life}

/-- The fields and the data that have come, of a stream that has begun. -/
def received? : Life → Option (Fields × Bytes)
  | .idle => none
  | .opened fields data | .ended fields data | .cut fields data => some (fields, data)

/-- A life records its events: nothing before the request, then its fields and all data. -/
theorem records (h : Run Step .idle events l) :
    l.received? = (fieldsIn? events).map fun fields => (fields, dataIn events) := by
  refine (h.history (I := fun es l => l.received? = (fieldsIn? es).map (fun fields => (fields, dataIn es)) ∧
    (fieldsIn? es = none → dataIn es = [])) ⟨rfl, fun _ => rfl⟩ ?_).1
  rintro es l e l' ⟨hI, hnone⟩ hs
  have hfields : fieldsIn? (es ++ [e]) = (fieldsIn? es).or e.fields? := by simp [fieldsIn?]
  have hdata : dataIn (es ++ [e]) = dataIn es ++ e.data := by simp [dataIn]
  rw [hfields, hdata]
  cases hf : fieldsIn? es with
  | none =>
    -- The stream is idle, and no data has come.
    rw [hf] at hI
    rw [hnone hf]
    cases hs with
    | request t fields => exact ⟨rfl, nofun⟩
    | data | finish | cut | late => exact nomatch hI
  | some fields =>
    rw [hf] at hI
    refine ⟨?_, nofun⟩
    cases hs with
    | request => exact nomatch hI
    | data =>
      obtain ⟨rfl, rfl⟩ := Prod.mk.inj (Option.some.inj hI)
      rfl
    | finish | cut | late => simpa [received?, H2Event.data] using hI

/-- A stream has begun when its request has come. -/
theorem began_iff (h : Run Step .idle events l) :
    (∃ t fields, .RequestReceived t fields ∈ events) ↔ l ≠ .idle := by
  refine h.history (I := fun es l => (∃ t fields, .RequestReceived t fields ∈ es) ↔ l ≠ .idle) (by simp) ?_
  intro es l e l' hI hs
  simp only [List.mem_append, List.mem_singleton, exists_or]
  cases hs <;> simp_all

/-- It has ended when its end has come. -/
theorem ended_iff (h : Run Step .idle events l) :
    (∃ t, .StreamEnded t ∈ events) ↔ ∃ fields data, l = .ended fields data := by
  refine h.history (I := fun es l => (∃ t, .StreamEnded t ∈ es) ↔ ∃ fields data, l = .ended fields data) (by simp) ?_
  intro es l e l' hI hs
  simp only [List.mem_append, List.mem_singleton, exists_or]
  cases hs <;> simp_all

/-- It has been cut when it has been reset and has not ended. -/
theorem cut_iff (h : Run Step .idle events l) :
    (∃ t, .StreamReset t ∈ events) ∧ (¬ ∃ t, .StreamEnded t ∈ events) ↔ ∃ fields data, l = .cut fields data := by
  rw [ended_iff h]
  refine h.history (I := fun es l => (∃ t, .StreamReset t ∈ es) ∧ (¬ ∃ fields data, l = .ended fields data) ↔
    ∃ fields data, l = .cut fields data) (by simp) ?_
  intro es l e l' hI hs
  simp only [List.mem_append, List.mem_singleton, exists_or]
  cases hs <;> simp_all

/-- Once a stream has ended, and once it has been cut, it stays so. -/
theorem stays {fields : Fields} {data : Bytes} {m : Life} (hm : m = .ended fields data ∨ m = .cut fields data)
    (h : Run Step m events l) : l = m := by
  refine h.invariant (I := (· = m)) rfl ?_
  rintro l e l' rfl hs
  rcases hm with rfl | rfl <;> cases hs
  rfl

end Life

namespace Hyper

/-! ## The request of a stream -/

/-- The last value of a field, or `default`. -/
def lastValue (name default : Bytes) (fields : Fields) : Bytes :=
  ((fields.filter (·.1 = name)).getLast?.map Prod.snd).getD default

/-- The request that a stream's header fields make, with the data that has come as its body. -/
def requestOf (t : Nat) (fields : Fields) (data : Bytes) : Request where
  rawPath := lastValue (ascii ":path") (ascii "/") fields
  method := lastValue (ascii ":method") (ascii "GET") fields
  body := some data
  headers := createHeadersMap (fields.filter fun f => !(ascii ":").isPrefixOf f.1)
  stream := t
  protocol := ascii "HTTP/2"
  scheme := ascii "http"
  transportInfo := none

theorem lastValue_snoc (name default : Bytes) (fields : Fields) (f : Bytes × Bytes) :
    lastValue name default (fields ++ [f]) = if f.1 = name then f.2 else lastValue name default fields := by
  by_cases hf : f.1 = name <;> simp [lastValue, hf]

theorem requestFromEvent_eq (t : Nat) (fields : Fields) : requestFromEvent t fields = requestOf t fields [] := by
  have hfold : fields.foldl (fun (acc : Bytes × Bytes × Fields) (f : Bytes × Bytes) =>
      if (ascii ":").isPrefixOf f.1 then
        if f.1 = ascii ":method" then (f.2, acc.2.1, acc.2.2)
        else if f.1 = ascii ":path" then (acc.1, f.2, acc.2.2)
        else acc
      else (acc.1, acc.2.1, acc.2.2 ++ [f])) (ascii "GET", ascii "/", []) =
      (lastValue (ascii ":method") (ascii "GET") fields, lastValue (ascii ":path") (ascii "/") fields,
        fields.filter fun f => !(ascii ":").isPrefixOf f.1) := by
    induction fields using List.reverseRecOn with
    | nil => rfl
    | append_singleton fields f ih =>
      have hmethod : (ascii ":").isPrefixOf (ascii ":method") = true := by decide
      have hpath : (ascii ":").isPrefixOf (ascii ":path") = true := by decide
      have hne : ascii ":path" ≠ ascii ":method" := by decide
      rw [List.foldl_append, ih, lastValue_snoc, lastValue_snoc, List.filter_append]
      obtain ⟨name, value⟩ := f
      simp only [List.foldl_cons, List.foldl_nil]
      by_cases hm : name = ascii ":method"
      · subst hm
        simp [hmethod, Ne.symm hne]
      · by_cases hp : name = ascii ":path"
        · subst hp
          simp [hpath, hne]
        · cases hc : (ascii ":").isPrefixOf name <;> simp [hm, hp, hc]
  calc requestFromEvent t fields
      = .create (fields.foldl _ (ascii "GET", ascii "/", [])).2.1 (fields.foldl _ (ascii "GET", ascii "/", [])).1
          (some []) (fields.foldl _ (ascii "GET", ascii "/", [])).2.2 (ascii "HTTP/2") t := rfl
    _ = requestOf t fields [] := by
      rw [hfold]
      rfl

/-- The request of stream `t` among the events of all of them. -/
def requestIn (events : List H2Event) (t : Nat) : Request :=
  requestOf t ((fieldsIn? (ofStream t events)).getD []) (dataIn (ofStream t events))

/-- The request of a stream that has begun. -/
theorem requestIn_eq {events : List H2Event} {t : Nat} {l : Life} {fields : Fields} {data : Bytes}
    (h : Run Life.Step .idle (ofStream t events) l) (hl : l.received? = some (fields, data)) :
    requestIn events t = requestOf t fields data := by
  have hrec := Life.records h
  rw [hl] at hrec
  cases hf : fieldsIn? (ofStream t events) with
  | none => simp [hf] at hrec
  | some fields' =>
    rw [hf, Option.map_some, Option.some.injEq, Prod.mk.injEq] at hrec
    rw [requestIn, hf, hrec.1, hrec.2, Option.getD_some]

/-! ## One event -/

/-- What a stream's life leaves in the table: a request while it has neither ended nor begun,
and for good if it was cut. -/
def pending (t : Nat) : Life → Option Request
  | .opened fields data | .cut fields data => some (requestOf t fields data)
  | .idle | .ended _ _ => none

/-- The request an event hands out. -/
def EventResult.request? : EventResult → Option Request
  | .request r => some r
  | .close | .nothing => none

/-- What it adds to the result of `handle_request`. -/
def EventResult.addTo (parsed : Parsed Wire) : EventResult → Parsed Wire
  | .request r => { parsed with requests := parsed.requests ++ [r] }
  | .close => { parsed with close := true }
  | .nothing => parsed

theorem EventResult.addTo_requests (r : EventResult) (parsed : Parsed Wire) :
    (r.addTo parsed).requests = parsed.requests ++ r.request?.toList := by
  cases r <;> simp [addTo, request?]

variable {σ : Type} {p : Parser σ} {events before : List H2Event} {e : H2Event} {t : Nat} {l l' : Life}

theorem parseEvents_cons {r : EventResult} {p' : Parser σ} (h : parseEvent p e = (.ok r, p'))
    (events : List H2Event) (parsed : Parsed Wire) :
    parseEvents (e :: events) parsed p = parseEvents events (r.addTo parsed) p' := by
  cases r <;> simp only [parseEvents, h, EventResult.addTo]

/-- The table holds for every stream what its life leaves in it. -/
abbrev Tracking (events : List H2Event) (p : Parser σ) : Prop :=
  Tracks H2Event.stream? Life.Step .idle (fun t p l => p.streams.get? t = pending t l) events p

/-- An event that is about no stream. -/
theorem parseEvent_none (h : e.stream? = none) : ∃ r : EventResult,
    parseEvent p e = (.ok r, p) ∧ r.request? = none := by
  cases e with
  | ConnectionTerminated => exact ⟨.close, rfl, rfl⟩
  | other => exact ⟨.nothing, rfl, rfl⟩
  | _ => exact nomatch h

/-- An event of stream `t` that its life allows next: the table follows it, and what it hands out is
the request of the stream if it ends. -/
theorem parseEvent_own (ht : e.stream? = some t) (hp : p.streams.get? t = pending t l) (hs : Life.Step l e l') :
    ∃ (r : EventResult) (p' : Parser σ), parseEvent p e = (.ok r, p') ∧ p'.conn = p.conn ∧
      p'.streams.get? t = pending t l' ∧ (∀ s, s ≠ t → p'.streams.get? s = p.streams.get? s) ∧
      r.request? = if e.ended? = none then none else pending t l := by
  cases hs with
  | request t' fields =>
    obtain rfl : t' = t := Option.some.inj ht
    refine ⟨.nothing, { p with streams := p.streams.set t' (requestFromEvent t' fields) }, rfl, rfl, ?_, ?_, rfl⟩
    · rw [Dict.get?_set_self, requestFromEvent_eq]
      rfl
    · intro s hs
      exact Dict.get?_set_of_ne _ _ hs
  | data t' fields old new =>
    obtain rfl : t' = t := Option.some.inj ht
    refine ⟨.nothing, { p with streams := p.streams.set t' (requestOf t' fields (old ++ new)) }, ?_, rfl, ?_, ?_, rfl⟩
    · simp only [parseEvent, hp, pending]
      rfl
    · exact Dict.get?_set_self _ _ _
    · intro s hs
      exact Dict.get?_set_of_ne _ _ hs
  | finish t' fields data =>
    obtain rfl : t' = t := Option.some.inj ht
    refine ⟨.request (requestOf t' fields data), { p with streams := p.streams.filter fun kv => kv.1 ≠ t' },
      ?_, rfl, ?_, ?_, rfl⟩
    · simp only [parseEvent, Dict.pop?_of_get? hp]
    · exact Dict.get?_filter_self _ _
    · intro s hs
      exact Dict.get?_filter_of_ne _ hs
  | cut t' fields data => exact ⟨.nothing, p, rfl, rfl, hp, fun _ _ => rfl, rfl⟩
  | late t' fields data => exact ⟨.nothing, p, rfl, rfl, hp, fun _ _ => rfl, rfl⟩

theorem mem_endedIn : t ∈ endedIn events ↔ .StreamEnded t ∈ events := by
  simp only [endedIn, List.mem_filterMap]
  constructor
  · rintro ⟨e, he, ht⟩
    cases e with
    | StreamEnded s => exact Option.some.inj ht ▸ he
    | _ => exact nomatch ht
  · intro h
    exact ⟨_, h, rfl⟩

/-- An event of stream `t` among those of the stream. -/
theorem exists_ofStream {f : Nat → H2Event} (hf : ∀ s, (f s).stream? = some s) :
    (∃ s, f s ∈ ofStream t events) ↔ f t ∈ events := by
  constructor
  · rintro ⟨s, hs⟩
    have hmem := List.mem_filter.mp hs
    obtain rfl : s = t := by simpa [hf] using hmem.2
    exact hmem.1
  · exact fun h => ⟨t, (mem_on (hf t)).mpr h⟩

/-- A stream has ended exactly if its life has. -/
theorem mem_endedIn_iff (h : Run Life.Step .idle (ofStream t events) l) :
    t ∈ endedIn events ↔ ∃ fields data, l = .ended fields data := by
  rw [mem_endedIn, ← Life.ended_iff h, exists_ofStream fun _ => rfl]

/-- Nothing comes after the end that changes the request. -/
theorem requestIn_append (hwf : WellFormed (before ++ events)) (ht : t ∈ endedIn before) :
    requestIn (before ++ events) t = requestIn before t := by
  obtain ⟨l, hl⟩ := hwf t
  have hl' := hl
  rw [on_append] at hl'
  obtain ⟨m, hm, hml⟩ := Run.append_iff.mp hl'
  obtain ⟨fields, data, rfl⟩ := (mem_endedIn_iff hm).mp ht
  obtain rfl := Life.stays (.inl rfl) hml
  rw [requestIn_eq hl rfl, requestIn_eq hm rfl]

theorem endedIn_append (events events' : List H2Event) :
    endedIn (events ++ events') = endedIn events ++ endedIn events' := List.filterMap_append

/-- A stream ends once. -/
theorem endedIn_nodup (hwf : WellFormed events) : (endedIn events).Nodup := by
  induction events using List.reverseRecOn with
  | nil => exact List.nodup_nil
  | append_singleton events e ih =>
    have ih := ih hwf.of_append
    rw [endedIn_append]
    cases e with
    | StreamEnded t =>
      obtain ⟨l, l', hl, hs⟩ := hwf.step (k := t) rfl
      have hnew : t ∉ endedIn events := by
        rw [mem_endedIn_iff hl]
        rintro ⟨fields, data, rfl⟩
        cases hs
      refine List.nodup_append.mpr ⟨ih, by simp [endedIn, H2Event.ended?], ?_⟩
      intro s hs s' hs'
      rw [List.mem_singleton.mp hs']
      exact fun h => hnew (h ▸ hs)
    | _ =>
      show (endedIn events ++ []).Nodup
      rwa [List.append_nil]

/-- One event of a well-formed sequence: the table follows it, and it hands out the request of the
stream that ends with it. -/
theorem parseEvent_tracks (hp : Tracking before p) (hwf : WellFormed (before ++ [e])) :
    ∃ (r : EventResult) (p' : Parser σ), parseEvent p e = (.ok r, p') ∧ p'.conn = p.conn ∧
      Tracking (before ++ [e]) p' ∧ r.request?.toList = (endedIn [e]).map (requestIn (before ++ [e])) := by
  cases ht : e.stream? with
  | none =>
    obtain ⟨r, hr, hrequest⟩ := parseEvent_none (p := p) ht
    refine ⟨r, p, hr, rfl, ?_, ?_⟩
    · apply hp.snoc
      · intro k l l' hk
        simp [ht] at hk
      · exact fun _ _ _ h => h
    · rw [hrequest]
      cases e <;> simp_all [H2Event.stream?, endedIn, H2Event.ended?]
  | some t =>
    obtain ⟨l, l', hl, hs⟩ := hwf.step ht
    obtain ⟨r, p', hr, hconn, -, hother, hrequest⟩ := parseEvent_own ht (hp hl) hs
    refine ⟨r, p', hr, hconn, ?_, ?_⟩
    · apply hp.snoc
      · intro k m m' hk hm hs'
        obtain ⟨r', p'', hr', -, hown, -⟩ := parseEvent_own hk hm hs'
        obtain ⟨-, rfl⟩ := Prod.mk.inj (hr.symm.trans hr')
        exact hown
      · intro k m hk hm
        have hkt : k ≠ t := fun h => hk (h ▸ ht)
        exact (hother k hkt).trans hm
    · have hnew := Run.on_snoc ht hl hs
      rw [hrequest]
      cases hs with
      | finish t' fields data =>
        obtain rfl : t' = t := Option.some.inj ht
        have hended : endedIn [.StreamEnded t'] = [t'] := rfl
        rw [hended, List.map_singleton, requestIn_eq hnew rfl]
        rfl
      | _ => rfl

/-- The loop over the events of a chunk. -/
theorem parseEvents_tracks (hp : Tracking before p) (hwf : WellFormed (before ++ events)) (parsed : Parsed Wire) :
    ∃ (parsed' : Parsed Wire) (p' : Parser σ), parseEvents events parsed p = (.ok parsed', p') ∧
      p'.conn = p.conn ∧ Tracking (before ++ events) p' ∧
      parsed'.requests = parsed.requests ++ (endedIn events).map (requestIn (before ++ events)) := by
  induction events generalizing before p parsed with
  | nil => exact ⟨parsed, p, rfl, rfl, by rwa [List.append_nil], by simp [endedIn]⟩
  | cons e events ih =>
    rw [List.append_cons] at hwf ⊢
    obtain ⟨r, p₁, hr, hconn, hp₁, hrequest⟩ := parseEvent_tracks hp hwf.of_append
    have hended : (endedIn [e]).map (requestIn (before ++ [e] ++ events)) = r.request?.toList := by
      rw [hrequest]
      refine List.map_congr_left fun t ht => requestIn_append hwf ?_
      exact mem_endedIn.mpr (List.mem_append_right _ (mem_endedIn.mp ht))
    rw [show endedIn (e :: events) = endedIn [e] ++ endedIn events from endedIn_append [e] events,
      List.map_append, hended]
    obtain ⟨parsed', p', hev, hc, ht, hreq⟩ := ih hp₁ hwf (r.addTo parsed)
    refine ⟨parsed', p', ?_, hc.trans hconn, ht, ?_⟩
    · rw [parseEvents_cons hr, hev]
    · rw [hreq, r.addTo_requests, List.append_assoc]

end Hyper

end Levin
