import Levin.Core.Parsers.HttpSimple
import Levin.Framework.Message
import Mathlib.Data.Bool.AllAny

/-!
# The framing of a response

`handle_response` yields a status line, the header lines, and CRLFs between and
after them and the body (`chunks_flatten`). With a body the last CRLF is two
bytes more than `Content-Length` announces; without one, header lines are not
followed by an empty line, and nothing announces the body. So what is written is
never one message with the body it announces (`never_framed`).
-/

namespace Levin.HttpSimple

open Framework Bytes

/-- The status line. -/
def statusLine (status : Nat) (phrase : Bytes) : Bytes := ascii "HTTP/1.1 " ++ decimal status ++ ascii " " ++ phrase

/-- The fields of a header map as they are written, a space before each value. -/
def writtenFields (headers : Dict Bytes Bytes) : List (Bytes × Bytes) :=
  headers.map fun (k, v) => (headerName k, 32 :: v)

/-- What follows the last header line, or the status line if there is none. -/
def tail (response : Response) : Bytes :=
  if response.body = [] then if response.headers = [] then CRLF else []
  else CRLF ++ response.body ++ CRLF

/-- No header is about framing, and the header lines can be told apart. -/
structure PlainHeaders (headers : Dict Bytes Bytes) : Prop where
  lines : ∀ h ∈ headers, (58 ∉ h.1 ∧ OneLine h.1) ∧ 58 ∉ h.2 ∧ OneLine h.2
  unframed : ∀ h ∈ headers, lower h.1 ≠ ascii "content-length" ∧ lower h.1 ≠ ascii "transfer-encoding"

/-! ## The bytes written -/

theorem headerLines_encode {headers : Dict Bytes Bytes} (h : headers ≠ []) :
    headerLines headers ++ CRLF = Message.encodeFields (writtenFields headers) := by
  rw [headerLines, join_append _ (by simpa using h), Message.encodeFields, writtenFields, List.map_map]
  congr 1
  refine List.map_congr_left fun kv _ => ?_
  simp [Message.fieldLine, join, List.intercalate_cons_cons, List.intercalate_singleton, ascii]

theorem chunks_flatten {response : Response} {phrase : Bytes} (hs : statusPhrase response.status = some phrase) :
    (handleResponse response).1.chunks.flatten =
      statusLine response.status phrase ++ CR :: LF ::
        (Message.encodeFields (writtenFields (setContentLength response).headers) ++ tail response) := by
  have hstatus : (setContentLength response).status = response.status := by
    unfold setContentLength
    split <;> rfl
  have hbody : (setContentLength response).body = response.body := by
    unfold setContentLength
    split <;> rfl
  simp only [handleResponse, hstatus, hs, hbody]
  by_cases hb : response.body = []
  · have hset : setContentLength response = response := if_pos hb
    rw [hset]
    by_cases hh : response.headers = []
    · simp [hb, hh, tail, statusLine, headerLines, join, writtenFields, Message.encodeFields, CRLF]
    · have := headerLines_encode hh
      simp [hb, hh, tail, statusLine, ← this, CRLF]
  · have hne : (setContentLength response).headers ≠ [] := by
      rw [setContentLength, if_neg hb]
      exact Dict.set_ne_nil _ _ _
    have := headerLines_encode hne
    simp [hb, tail, statusLine, ← this, CRLF]

/-! ## The fields written -/

theorem lower_headerName (k : Bytes) : lower (headerName k) = lower k := by
  unfold headerName
  split
  · rename_i hk
    rw [hk]
    decide
  · exact lower_capitalize k

theorem mem_headerName {k : Bytes} {x : UInt8} (hx : x.toNat < 65) (hn : x ≠ 45) (h : x ∈ headerName k) : x ∈ k := by
  unfold headerName at h
  split at h
  · -- `Content-Type` has no byte before the letters but the hyphen.
    have hall : ∀ y ∈ ascii "Content-Type", 65 ≤ y.toNat ∨ y = 45 := List.all_iff_forall_prop.mp (by decide)
    rcases hall x h with hle | he
    · omega
    · exact absurd he hn
  · exact mem_capitalize hx h

/-- A header that can be told apart from others is written as a field that can. -/
theorem fieldsOk_writtenFields {headers : Dict Bytes Bytes}
    (h : ∀ kv ∈ headers, (58 ∉ kv.1 ∧ OneLine kv.1) ∧ OneLine kv.2) : Message.FieldsOk (writtenFields headers) := by
  intro field hf
  obtain ⟨kv, hkv, rfl⟩ := List.mem_map.mp hf
  obtain ⟨⟨hcolon, hcr, hlf⟩, hv⟩ := h kv hkv
  exact ⟨⟨fun hm => hcolon (mem_headerName (by decide) (by decide) hm),
    fun hm => hcr (mem_headerName (by decide) (by decide) hm),
    fun hm => hlf (mem_headerName (by decide) (by decide) hm)⟩, oneLine_cons.mpr ⟨by decide, hv⟩⟩

/-- The headers once `Content-Length` is set. -/
theorem mem_setContentLength {response : Response} {kv : Bytes × Bytes} (h : kv ∈ (setContentLength response).headers) :
    kv = (ascii "Content-Length", decimal response.body.length) ∨ kv ∈ response.headers := by
  unfold setContentLength at h
  split at h
  · exact .inr h
  · exact Dict.mem_set h

theorem fieldsOk_setContentLength {response : Response} (h : PlainHeaders response.headers) :
    Message.FieldsOk (writtenFields (setContentLength response).headers) := by
  refine fieldsOk_writtenFields fun kv hkv => ?_
  rcases mem_setContentLength hkv with rfl | hkv
  · have hname : 58 ∉ ascii "Content-Length" ∧ OneLine (ascii "Content-Length") := by
      unfold OneLine
      decide
    exact ⟨hname, oneLine_of_no_space (decimal_no_space _)⟩
  · exact ⟨(h.lines kv hkv).1, (h.lines kv hkv).2.2⟩

theorem oneLine_statusLine {status : Nat} {phrase : Bytes} (hs : statusPhrase status = some phrase) :
    OneLine (statusLine status phrase) := by
  have hphrases : ∀ s ∈ HTTP_STATUSES, (s.2.toList.all fun c => 32 ≤ c.toNat ∧ c.toNat < 127) = true :=
    List.all_iff_forall_prop.mp (by decide +kernel)
  obtain ⟨s, hfind, rfl⟩ := Option.map_eq_some_iff.mp hs
  simp only [statusLine, oneLine_append]
  exact ⟨⟨⟨by unfold OneLine; decide, oneLine_of_no_space (decimal_no_space _)⟩, by unfold OneLine; decide⟩,
    oneLine_ascii (List.all_iff_forall_prop.mp (hphrases s (List.mem_of_find?_eq_some hfind)))⟩

/-! ## What is written is no message -/

/-- A message of which the bytes are written has the headers as its fields, and begins its body where the
tail has an empty line. -/
theorem encode_eq_chunks {response : Response} {phrase : Bytes} (hs : statusPhrase response.status = some phrase)
    (hp : PlainHeaders response.headers) {m : Message} (hm : m.WellFormed)
    (e : m.encode = (handleResponse response).1.chunks.flatten) :
    m.fields = writtenFields (setContentLength response).headers ∧ tail response = CR :: LF :: m.body := by
  rw [chunks_flatten hs] at e
  have htail : tail response = [] ∨ ∃ z, tail response = CR :: z := by
    unfold tail CRLF
    split
    · split
      · exact .inr ⟨_, rfl⟩
      · exact .inl rfl
    · exact .inr ⟨_, rfl⟩
  obtain ⟨-, hf, hb⟩ := Message.head_inj hm (oneLine_statusLine hs) (fieldsOk_setContentLength hp) htail e.symm
  exact ⟨hf.symm, hb⟩

/-- `Content-Length` announces the response's own body, where it is announced at all. -/
theorem announced_length {response : Response} (hp : PlainHeaders response.headers) {m : Message} (ha : m.Announces)
    (hf : m.fields = writtenFields (setContentLength response).headers) : m.body.length = response.body.length := by
  obtain ⟨field, hfield, hname, hvalue⟩ := ha
  rw [hf] at hfield
  obtain ⟨kv, hkv, rfl⟩ := List.mem_map.mp hfield
  rw [lower_headerName] at hname
  rcases mem_setContentLength hkv with rfl | hkv
  · have hstrip : strip (32 :: decimal response.body.length) = decimal response.body.length :=
      strip_of_no_space (decimal_no_space _)
    exact decimal_injective (hvalue.symm.trans hstrip)
  · exact absurd hname (hp.unframed kv hkv).1

/-- What is written is one message, with the body that it announces. -/
def Framed (response : Response) : Prop :=
  ∃ m : Message, m.WellFormed ∧ m.Announces ∧ m.encode = (handleResponse response).1.chunks.flatten

/-- No response with a known status is written as one message with the body it announces; and its
head and body, announced or not, are complete only without headers and body. -/
theorem never_framed {response : Response} (hs : statusPhrase response.status ≠ none)
    (hp : PlainHeaders response.headers) :
    ¬ Framed response ∧
      ((∃ m : Message, m.WellFormed ∧ m.body = response.body ∧
          m.encode = (handleResponse response).1.chunks.flatten) ↔
        response.headers = [] ∧ response.body = []) := by
  obtain ⟨phrase, hphrase⟩ := Option.ne_none_iff_exists'.mp hs
  refine ⟨?_, ?_, ?_⟩
  · rintro ⟨m, hm, ha, e⟩
    obtain ⟨hf, ht⟩ := encode_eq_chunks hphrase hp hm e
    have hlen := announced_length hp ha hf
    unfold tail at ht
    split at ht
    · rename_i hb
      split at ht
      · -- Without headers there is no field that could announce the body.
        rename_i hh
        obtain ⟨field, hfield, -⟩ := ha
        rw [hf, setContentLength, if_pos hb, hh] at hfield
        cases hfield
      · cases ht
    · -- The CRLF after the body is not announced.
      have hlen' := congrArg List.length ht
      simp only [CRLF, List.length_append, List.length_cons, List.length_nil] at hlen'
      omega
  · rintro ⟨m, hm, hb, e⟩
    obtain ⟨-, ht⟩ := encode_eq_chunks hphrase hp hm e
    unfold tail at ht
    split at ht
    · rename_i hnil
      split at ht
      · rename_i hh
        exact ⟨hh, hnil⟩
      · cases ht
    · have hlen := congrArg List.length ht
      simp only [CRLF, hb, List.length_append, List.length_cons, List.length_nil] at hlen
      omega
  · rintro ⟨hh, hb⟩
    refine ⟨⟨statusLine response.status phrase, [], []⟩, ⟨oneLine_statusLine hphrase, fun _ h => nomatch h⟩,
      hb.symm, ?_⟩
    rw [chunks_flatten hphrase, setContentLength, if_pos hb, hh, tail, if_pos hb, if_pos hh]
    rfl

/-- `Response(status=200, body=b"ok")` -/
def okResponse : Response where
  status := 200
  body := ascii "ok"

theorem plainHeaders_nil : PlainHeaders [] where
  lines _ h := nomatch h
  unframed _ h := nomatch h

theorem okResponse_not_framed : ¬ Framed okResponse :=
  (never_framed (by decide) plainHeaders_nil).1

/-- The two bytes after the body `ok` are announced by nothing. -/
theorem trailing_crlf :
    ¬ ∀ response : Response, statusPhrase response.status ≠ none → 200 ≤ response.status →
      response.status ≠ 204 → response.status ≠ 304 → PlainHeaders response.headers → Framed response := by
  intro h
  obtain ⟨m, hm, ha, e⟩ := h okResponse (by decide) (by decide) (by decide) (by decide) plainHeaders_nil
  obtain ⟨hf, ht⟩ := encode_eq_chunks (show statusPhrase 200 = some (ascii "OK") by decide) plainHeaders_nil hm e
  have hlen := announced_length plainHeaders_nil ha hf
  rw [show m.body = ascii "ok\r\n" from (List.cons.inj (List.cons.inj ht).2).2.symm] at hlen
  exact absurd hlen (by decide)

end Levin.HttpSimple
