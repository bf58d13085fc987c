import Levin.Framework.Lines

/-!
# Messages with a header section

A start line, header fields, an empty line and a body. The lines of a well-formed
message can be told apart: a text that begins with the lines of a start line and of
fields is the encoding of a message with just these or of none, and of none if
no empty line follows them (`head_inj`).
-/

namespace Levin.Framework

open Bytes

structure Message where
  startLine : Bytes
  /-- Names and values; a value is all that follows the colon. -/
  fields : List (Bytes × Bytes)
  body : Bytes
  deriving DecidableEq, Repr

namespace Message

def fieldLine (field : Bytes × Bytes) : Bytes := field.1 ++ 58 :: field.2

/-- The lines of the fields, each with its end. -/
def encodeFields (fields : List (Bytes × Bytes)) : Bytes := (fields.map fieldLine).flatMap (· ++ [CR, LF])

def encode (m : Message) : Bytes := m.startLine ++ CR :: LF :: (encodeFields m.fields ++ CR :: LF :: m.body)

/-- The fields can be told apart once encoded. -/
def FieldsOk (fields : List (Bytes × Bytes)) : Prop :=
  ∀ field ∈ fields, (58 ∉ field.1 ∧ OneLine field.1) ∧ OneLine field.2

structure WellFormed (m : Message) : Prop where
  startLine : OneLine m.startLine
  fields : FieldsOk m.fields

/-- A `Content-Length` field announces the body. -/
def Announces (m : Message) : Prop :=
  ∃ field ∈ m.fields, lower field.1 = ascii "content-length" ∧ strip field.2 = decimal m.body.length

theorem oneLine_fieldLine {field : Bytes × Bytes} (h : (58 ∉ field.1 ∧ OneLine field.1) ∧ OneLine field.2) :
    OneLine (fieldLine field) :=
  oneLine_append.mpr ⟨h.1.2, oneLine_cons.mpr ⟨by decide, h.2⟩⟩

theorem fieldLine_ne_nil (field : Bytes × Bytes) : fieldLine field ≠ [] := by
  simp [fieldLine]

theorem encodeFields_cons (field : Bytes × Bytes) (fields : List (Bytes × Bytes)) (rest : Bytes) :
    encodeFields (field :: fields) ++ rest = fieldLine field ++ CR :: LF :: (encodeFields fields ++ rest) := by
  simp [encodeFields]

/-- The first byte of a field's line does not end a line. -/
theorem encodeFields_cons_ne {field : Bytes × Bytes} (h : OneLine (fieldLine field)) (fields : List (Bytes × Bytes))
    (rest y : Bytes) : encodeFields (field :: fields) ++ rest ≠ CR :: y := by
  rw [encodeFields_cons]
  cases hl : fieldLine field with
  | nil => exact absurd hl (fieldLine_ne_nil field)
  | cons b line =>
    rw [hl] at h
    intro e
    exact (oneLine_cons.mp h).1.1 (List.cons.inj e).1

/-- What follows the fields of a text starts with an empty line or is nothing: the text is the encoding
of no other fields, and of none at all if it is nothing. -/
theorem encodeFields_inj {fields fields' : List (Bytes × Bytes)} (h : FieldsOk fields) (h' : FieldsOk fields')
    {x y : Bytes} (hx : x = [] ∨ ∃ z, x = CR :: z)
    (e : encodeFields fields ++ x = encodeFields fields' ++ CR :: LF :: y) : fields = fields' ∧ x = CR :: LF :: y := by
  induction fields generalizing fields' with
  | nil =>
    cases fields' with
    | nil => exact ⟨rfl, e⟩
    | cons field' fields' =>
      have hne := encodeFields_cons_ne (oneLine_fieldLine (h' field' List.mem_cons_self)) fields' (CR :: LF :: y)
      rcases hx with rfl | ⟨z, rfl⟩
      · rw [encodeFields_cons] at e
        exact absurd e (by simp [encodeFields])
      · exact absurd e.symm (hne z)
  | cons field fields ih =>
    obtain ⟨hf, h⟩ := List.forall_mem_cons.mp h
    have hl := oneLine_fieldLine hf
    cases fields' with
    | nil => exact absurd e (encodeFields_cons_ne hl fields x _)
    | cons field' fields' =>
      obtain ⟨hf', h'⟩ := List.forall_mem_cons.mp h'
      have hl' := oneLine_fieldLine hf'
      rw [encodeFields_cons, encodeFields_cons] at e
      obtain ⟨hline, hrest⟩ := append_sep_inj hl.1 hl'.1 e
      obtain ⟨hname, hvalue⟩ := append_sep_inj hf.1.1 hf'.1.1 hline
      obtain ⟨rfl, hxy⟩ := ih h h' (List.cons.inj hrest).2
      exact ⟨by rw [Prod.ext hname hvalue], hxy⟩

theorem head_inj {m : Message} (hm : m.WellFormed) {startLine x : Bytes} {fields : List (Bytes × Bytes)}
    (hs : OneLine startLine) (hf : FieldsOk fields) (hx : x = [] ∨ ∃ z, x = CR :: z)
    (e : startLine ++ CR :: LF :: (encodeFields fields ++ x) = m.encode) :
    startLine = m.startLine ∧ fields = m.fields ∧ x = CR :: LF :: m.body := by
  obtain ⟨hstart, hrest⟩ := append_sep_inj hs.1 hm.startLine.1 e
  obtain ⟨hfields, hbody⟩ := encodeFields_inj hf hm.fields hx (List.cons.inj hrest).2
  exact ⟨hstart, hfields, hbody⟩

/-- The lines of a message, from the lines of its body. -/
theorem splitlines_encode {m : Message} (hm : m.WellFormed) :
    splitlines m.encode = m.startLine :: (m.fields.map fieldLine ++ [] :: splitlines m.body) := by
  have hlines : ∀ line ∈ m.fields.map fieldLine, OneLine line := by
    intro line hl
    obtain ⟨field, hf, rfl⟩ := List.mem_map.mp hl
    exact oneLine_fieldLine (hm.fields field hf)
  rw [encode, splitlines_append hm.startLine, encodeFields, splitlines_flatMap hlines]
  exact congrArg (fun ls => m.startLine :: (m.fields.map fieldLine ++ ls)) (splitlines_append oneLine_nil m.body)

end Message

end Levin.Framework
