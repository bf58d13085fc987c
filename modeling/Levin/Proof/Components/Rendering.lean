import Levin.Proof.Components.Templates

/-!
# What a template is rendered to

A template is written in parts (`TemplatePart`): text, in which a `$` is doubled, and
placeholders. Read again it has the parts it was written of (`templatePieces_asWritten`),
so that it is rendered to its text and the values of its placeholders, and to what has
been written of those without a value (`fill_asWritten`). `init` reads each file once
and keeps the first of a name that it comes to (`getTemplate_init`).
-/

namespace Levin

open Framework Bytes

/-! ## Templates as they are written -/

/-- A part of a template. -/
inductive TemplatePart
  | literal (text : Text)
  | named (name : Text) (braced : Bool)
  deriving DecidableEq, Repr

namespace TemplatePart

/-- A `$` in a text is doubled. -/
def escape (c : Nat) : Text := if c = 36 then [36, 36] else [c]

/-- What is written of a part. -/
def asWritten : TemplatePart → Text
  | literal text => text.flatMap escape
  | named name true => 36 :: 123 :: (name ++ [125])
  | named name false => 36 :: name

/-- What is read of a part. -/
def pieces : TemplatePart → List TemplatePiece
  | literal text => text.map .char
  | named name braced => [.named (name.map UInt8.ofNat) (asWritten (named name braced))]

/-- A character an identifier goes on with. -/
def isIdentifierChar (c : Nat) : Bool := isIdentifierStart c || (48 ≤ c && c ≤ 57)

/-- An identifier. -/
def IsIdentifier (name : Text) : Prop := name.head?.any isIdentifierStart = true ∧ name.all isIdentifierChar = true

/-- The names of placeholders are identifiers, and what follows one without braces is no part of it. -/
def Delimited : List TemplatePart → Prop
  | [] => True
  | literal _ :: parts => Delimited parts
  | named name braced :: parts =>
    IsIdentifier name ∧ (braced = false → (parts.flatMap asWritten).head?.any isIdentifierChar = false) ∧ Delimited parts

end TemplatePart

open TemplatePart

theorem templatePieces_skip (s t : Text) : templatePieces s.length (s ++ t) = templatePieces 0 t := by
  induction s with
  | nil => rfl
  | cons c s ih => exact ih

/-- The identifier at the beginning of a text is the longest. -/
theorem identifierAt_append {name s : Text} (h : IsIdentifier name) (hs : s.head?.any isIdentifierChar = false) :
    identifierAt (name ++ s) = name := by
  obtain ⟨c, name, rfl⟩ : ∃ c rest, name = c :: rest := by
    cases name with
    | nil => cases h.1
    | cons c rest => exact ⟨c, rest, rfl⟩
  have hstart : isIdentifierStart c = true := by simpa using h.1
  have hall : ∀ d ∈ c :: name, isIdentifierChar d = true := List.all_eq_true.mp h.2
  have htake : ((c :: name) ++ s).takeWhile isIdentifierChar = c :: name := by
    rw [List.takeWhile_append_of_pos hall]
    cases s with
    | nil => exact List.append_nil _
    | cons d s => simp [show isIdentifierChar d = false by simpa using hs]
  rw [identifierAt, List.cons_append, List.head?_cons, Option.any_some, if_pos hstart]
  exact htake

theorem templatePieces_literal (text s : Text) :
    templatePieces 0 (text.flatMap escape ++ s) = text.map .char ++ templatePieces 0 s := by
  induction text with
  | nil => rfl
  | cons c text ih =>
    rw [List.flatMap_cons, List.append_assoc, List.map_cons, List.cons_append, ← ih]
    by_cases hc : c = 36
    · subst hc
      rfl
    · simp [escape, hc, templatePieces]

theorem templatePieces_named {name s : Text} {braced : Bool} (h : IsIdentifier name)
    (hs : braced = false → s.head?.any isIdentifierChar = false) :
    templatePieces 0 (asWritten (named name braced) ++ s) =
      .named (name.map UInt8.ofNat) (asWritten (named name braced)) :: templatePieces 0 s := by
  have hne : name ≠ [] := by
    rintro rfl
    cases h.1
  cases braced with
  | true =>
    have hbraced : identifierAt (name ++ 125 :: s) = name := identifierAt_append h rfl
    have hskip := templatePieces_skip (name ++ [125]) s
    simp only [List.length_cons, List.length_append, List.length_nil, List.append_assoc, List.cons_append,
      List.nil_append] at hskip
    have hnone : identifierAt (123 :: (name ++ 125 :: s)) = [] := rfl
    simp only [asWritten, List.cons_append, List.append_assoc, List.nil_append, templatePieces, hnone, List.tail_cons,
      hbraced, List.drop_left, List.head?_cons]
    simpa [hne] using hskip
  | false =>
    have hname : identifierAt (name ++ s) = name := identifierAt_append h (hs rfl)
    have hdollar : (name ++ s).head? ≠ some 36 := by
      obtain ⟨c, rest, rfl⟩ := List.exists_cons_of_ne_nil hne
      rintro heq
      obtain rfl : c = 36 := by simpa using heq
      cases h.1
    simp only [asWritten, List.cons_append, templatePieces, hname, if_neg hdollar, if_pos hne, if_true,
      templatePieces_skip]

/-- A template that is read has the parts of which it was written. -/
theorem templatePieces_asWritten {parts : List TemplatePart} (h : Delimited parts) :
    templatePieces 0 (parts.flatMap asWritten) = parts.flatMap pieces := by
  induction parts with
  | nil => rfl
  | cons part parts ih =>
    rw [List.flatMap_cons, List.flatMap_cons]
    cases part with
    | literal text =>
      rw [← ih h]
      exact templatePieces_literal text _
    | named name braced =>
      obtain ⟨hname, hs, h⟩ := h
      rw [templatePieces_named hname hs, ih h]
      rfl

/-! ## What is filled in -/

namespace TemplatePart

/-- What a part is rendered to, where placeholders have these values. -/
def shown (values : Bytes → Option Text) : TemplatePart → Text
  | literal text => text
  | named name braced => (values (name.map UInt8.ofNat)).getD (asWritten (named name braced))

end TemplatePart

variable {V : Type}

variable {str : Slot V → Except Exc Text} {mapping : Mapping V} {values : Bytes → Option Text}

theorem safeSubstitute_chars (text : Text) {pieces : List TemplatePiece} {rest : Text}
    (h : safeSubstitute str mapping pieces = .ok rest) :
    safeSubstitute str mapping (text.map .char ++ pieces) = .ok (text ++ rest) := by
  induction text with
  | nil => exact h
  | cons c text ih =>
    rw [List.map_cons, List.cons_append, safeSubstitute, ih]
    rfl

/-- What a mapping says that the placeholders are. -/
def Maps (str : Slot V → Except Exc Text) (mapping : Mapping V) (values : Bytes → Option Text) : Prop :=
  ∀ name, (mapping.get? name).elim (values name = none) fun value =>
    ∃ text, values name = some text ∧ value.elim Except.ok str = .ok text

theorem safeSubstitute_named (hmaps : Maps str mapping values) (name : Bytes) (source : Text)
    {pieces : List TemplatePiece} {rest : Text} (h : safeSubstitute str mapping pieces = .ok rest) :
    safeSubstitute str mapping (.named name source :: pieces) = .ok ((values name).getD source ++ rest) := by
  have hname := hmaps name
  rw [safeSubstitute]
  generalize mapping.get? name = found at hname ⊢
  rcases found with _ | value | slot
  · rw [show values name = none from hname, h]
    rfl
  · obtain ⟨text, htext, hvalue⟩ := hname
    cases hvalue
    simp only [htext, h]
    rfl
  · obtain ⟨text, htext, hvalue⟩ := hname
    simp only [htext, show str slot = .ok text from hvalue, h]
    rfl

/-- The pieces of a template that has been written are filled in with the values. -/
theorem safeSubstitute_pieces (hmaps : Maps str mapping values) (parts : List TemplatePart) :
    safeSubstitute str mapping (parts.flatMap pieces) = .ok (parts.flatMap (shown values)) := by
  induction parts with
  | nil => rfl
  | cons part parts ih =>
    rw [List.flatMap_cons, List.flatMap_cons]
    cases part with
    | literal text => exact safeSubstitute_chars text ih
    | named name braced => exact safeSubstitute_named hmaps _ _ ih

namespace TemplateFormat

variable [RequestValue V] {format : TemplateFormat V}

/-- The text that stands for a value. -/
def textOf (format : TemplateFormat V) : Slot V → Except Exc Text
  | .lazy func => format.str (.lazy func)
  | .value v =>
    (RequestValue.asBytes v).elim (format.str (.value v)) fun data =>
      (Text.decodeUtf8 data).elim (.error (.other "UnicodeDecodeError")) .ok

/-- What the placeholders are with a context. -/
def valuesOf (format : TemplateFormat V) (slots : Bytes → Option (Slot V)) (name : Bytes) : Option Text :=
  (slots name).bind fun slot => (format.textOf slot).toOption

/-- Every value has a text. -/
def Legible (format : TemplateFormat V) (context : Context V) : Prop :=
  ∀ kv ∈ context, ∃ text, format.textOf kv.2 = .ok text

/-- The item of the mapping that a value becomes. -/
def mapped (slot : Slot V) : Except Exc (Text ⊕ Slot V) :=
  match slot with
  | .lazy _ => .ok (.inr slot)
  | .value v =>
    match RequestValue.asBytes v with
    | none => .ok (.inr slot)
    | some data =>
      match Text.decodeUtf8 data with
      | none => .error (.other "UnicodeDecodeError")
      | some text => .ok (.inl text)

theorem decoded_cons (k : Bytes) (slot : Slot V) (context : Context V) :
    decoded ((k, slot) :: context) =
      (mapped slot).bind fun value => (decoded context).map fun mapping => (k, value) :: mapping := by
  rcases slot with v | func
  · simp only [decoded, mapped]
    cases RequestValue.asBytes v with
    | none => rfl
    | some data => cases hdecode : Text.decodeUtf8 data <;> simp only [hdecode] <;> rfl
  · rfl

/-- A value with a text becomes an item with this text. -/
theorem mapped_of_textOf {slot : Slot V} {text : Text} (h : format.textOf slot = .ok text) :
    ∃ value, mapped slot = .ok value ∧ value.elim Except.ok format.str = .ok text := by
  rcases slot with v | func
  · rw [textOf] at h
    simp only [mapped]
    cases hv : RequestValue.asBytes v with
    | none =>
      rw [hv] at h
      exact ⟨_, rfl, h⟩
    | some data =>
      rw [hv, Option.elim_some] at h
      cases hdecode : Text.decodeUtf8 data with
      | none =>
        rw [hdecode] at h
        cases h
      | some text' =>
        rw [hdecode] at h
        exact ⟨.inl text', by simp only [hdecode], h⟩
  · exact ⟨_, rfl, h⟩

/-- A legible context is a mapping of its values. -/
theorem decoded_maps {context : Context V} (h : format.Legible context) :
    ∃ mapping, decoded context = .ok mapping ∧ Maps format.str mapping (format.valuesOf context.get?) := by
  induction context with
  | nil => exact ⟨[], rfl, fun name => rfl⟩
  | cons kv context ih =>
    obtain ⟨k, slot⟩ := kv
    obtain ⟨mapping, hmapping, hmaps⟩ := ih fun kv hkv => h kv (List.mem_cons_of_mem _ hkv)
    obtain ⟨text, htext⟩ := h (k, slot) List.mem_cons_self
    obtain ⟨value, hvalue, helim⟩ := mapped_of_textOf htext
    refine ⟨(k, value) :: mapping, by rw [decoded_cons, hvalue, hmapping]; rfl, fun name => ?_⟩
    by_cases hk : k = name
    · subst hk
      have hslot : format.valuesOf (Dict.get? ((k, slot) :: context)) k = some text := by
        simp [valuesOf, Dict.get?, htext, Except.toOption]
      simpa [Dict.get?, hslot] using helim
    · have hname := hmaps name
      simpa [valuesOf, Dict.get?, hk] using hname

theorem mapped_error {slot : Slot V} {e : Exc} (h : mapped slot = .error e) : e = .other "UnicodeDecodeError" := by
  rcases slot with v | func
  · simp only [mapped] at h
    split at h
    · cases h
    · split at h <;> cases h
      rfl
  · cases h

/-- `bytes` that are not UTF-8. -/
def Undecodable (slot : Slot V) : Prop :=
  ∃ v data, slot = .value v ∧ RequestValue.asBytes v = some data ∧ Text.decodeUtf8 data = none

/-- One value that cannot be decoded is enough, whether the template has its name or not. -/
theorem decoded_undecodable {context : Context V} (h : ∃ kv ∈ context, Undecodable kv.2) :
    decoded context = .error (.other "UnicodeDecodeError") := by
  induction context with
  | nil =>
    obtain ⟨kv, hkv, -⟩ := h
    cases hkv
  | cons kv context ih =>
    obtain ⟨k, slot⟩ := kv
    rw [decoded_cons]
    cases hvalue : mapped slot with
    | error e =>
      obtain rfl := mapped_error hvalue
      rfl
    | ok value =>
      obtain ⟨kv, hkv, hbad⟩ := h
      rcases List.mem_cons.mp hkv with rfl | hkv
      · obtain ⟨v, data, rfl, hdata, hnone⟩ := hbad
        simp [mapped, hdata, hnone] at hvalue
      · rw [ih ⟨kv, hkv, hbad⟩]
        rfl

/-- A template that has been written is filled in with the values of its placeholders. -/
theorem fill_asWritten {parts : List TemplatePart} (hparts : Delimited parts) {context : Context V}
    (h : format.Legible context) :
    format.fill (parts.flatMap asWritten) context =
      (Text.encodeUtf8 (parts.flatMap (shown (format.valuesOf context.get?)))).elim (.error unicodeEncodeError) .ok := by
  obtain ⟨mapping, hmapping, hmaps⟩ := decoded_maps h
  simp only [fill, hmapping, templatePieces_asWritten hparts, safeSubstitute_pieces hmaps]
  cases Text.encodeUtf8 (parts.flatMap (shown (format.valuesOf context.get?))) <;> rfl

end TemplateFormat

/-! ## Templates that are read -/

namespace TemplateFormat

/-- The files that `init` opens, as it comes to them. -/
def opened (formats : List Bytes) (walked : List (Bytes × List Bytes)) : List (Bytes × Bytes) :=
  walked.flatMap fun dir => (dir.2.filter fun file => formats.any (·.isSuffixOf file)).map (dir.1, ·)

/-- Reading files one after another. -/
def readAll (read : Bytes → Bytes → Except Exc Text) :
    List (Bytes × Bytes) → Dict (Bytes × Bytes) Text → Dict (Bytes × Bytes) Text × Except Exc Unit
  | [], templates => (templates, .ok ())
  | file :: files, templates =>
    match read file.1 file.2 with
    | .error e => (templates, .error e)
    | .ok text => readAll read files (templates.set file text)

variable {formats : List Bytes} {read : Bytes → Bytes → Except Exc Text}

theorem readAll_append (files files' : List (Bytes × Bytes)) (templates : Dict (Bytes × Bytes) Text) :
    readAll read (files ++ files') templates =
      match readAll read files templates with
      | (templates, .error e) => (templates, .error e)
      | (templates, .ok ()) => readAll read files' templates := by
  induction files generalizing templates with
  | nil => rfl
  | cons file files ih =>
    rw [List.cons_append, readAll, readAll]
    cases read file.1 file.2 with
    | error e => rfl
    | ok text => exact ih _

theorem checkAndSave_eq (root : Bytes) (files : List Bytes) (templates : Dict (Bytes × Bytes) Text) :
    checkAndSave formats read root files templates =
      readAll read ((files.filter fun file => formats.any (·.isSuffixOf file)).map (root, ·)) templates := by
  induction files generalizing templates with
  | nil => rfl
  | cons file files ih =>
    rw [checkAndSave]
    by_cases hformat : formats.any (·.isSuffixOf file) = true
    · rw [if_pos hformat, List.filter_cons, if_pos hformat, List.map_cons, readAll]
      cases read root file with
      | error e => rfl
      | ok text => exact ih _
    · rw [if_neg hformat, List.filter_cons, if_neg hformat]
      exact ih _

/-- The directories do not matter to what is read in which order. -/
theorem init_eq (walked : List (Bytes × List Bytes)) (templates : Dict (Bytes × Bytes) Text) :
    init formats read walked templates = readAll read (opened formats walked) templates := by
  induction walked generalizing templates with
  | nil => rfl
  | cons dir walked ih =>
    obtain ⟨root, files⟩ := dir
    rw [init, checkAndSave_eq, opened, List.flatMap_cons, readAll_append]
    rcases readAll read _ templates with ⟨templates, _ | _⟩
    · rfl
    · exact ih templates

/-- What is kept of each file is what is read of it. -/
def Kept (read : Bytes → Bytes → Except Exc Text) (templates : Dict (Bytes × Bytes) Text) : Prop :=
  ∀ file text, templates.get? file = some text → read file.1 file.2 = .ok text

theorem Kept.set {templates : Dict (Bytes × Bytes) Text} (h : Kept read templates) {file : Bytes × Bytes} {text : Text}
    (hread : read file.1 file.2 = .ok text) : Kept read (templates.set file text) := by
  intro file' text' hget
  by_cases hfile : file' = file
  · subst hfile
    rw [Dict.get?_set_self] at hget
    rw [hread, Option.some.inj hget]
  · rw [Dict.get?_set_of_ne text templates hfile] at hget
    exact h file' text' hget

/-- The first template of a name stays the first. -/
theorem find?_readAll {files : List (Bytes × Bytes)} {templates templates' : Dict (Bytes × Bytes) Text}
    (hkept : Kept read templates) (h : readAll read files templates = (templates', .ok ())) (name : Bytes) :
    ((templates'.find? fun kv => kv.1.2 = name).map Prod.snd) =
      ((templates.find? fun kv => kv.1.2 = name).map Prod.snd).or
        ((files.find? fun file => file.2 = name).bind fun file => (read file.1 file.2).toOption) := by
  induction files generalizing templates with
  | nil =>
    cases h
    rw [List.find?_nil, Option.bind_none, Option.or_none]
  | cons file files ih =>
    rw [readAll] at h
    cases hread : read file.1 file.2 with
    | error e =>
      rw [hread] at h
      cases h
    | ok text =>
      rw [hread] at h
      rw [ih (hkept.set hread) h]
      have hset : (templates.set file text).find? (fun kv => kv.1.2 = name) =
          (templates.find? fun kv => kv.1.2 = name).or (if file.2 = name then some (file, text) else none) := by
        cases hget : templates.get? file with
        | none =>
          rw [Dict.set_of_get?_none text hget, List.find?_append]
          by_cases hname : file.2 = name <;> simp [hname]
        | some text' =>
          obtain rfl : text' = text := by
            have := hkept file text' hget
            rw [hread] at this
            exact (Except.ok.inj this).symm
          rw [Dict.set_of_get? hget]
          by_cases hname : file.2 = name
          · have hfound : (templates.find? fun kv => kv.1.2 = name).isSome :=
              List.find?_isSome.mpr ⟨_, Dict.mem_of_get? hget, by simpa using hname⟩
            obtain ⟨kv, hkv⟩ := Option.isSome_iff_exists.mp hfound
            rw [hkv, Option.some_or]
          · rw [if_neg hname, Option.or_none]
      rw [hset]
      by_cases hname : file.2 = name
      · simp only [hname, if_true, List.find?_cons, decide_true, Option.bind_some]
        cases templates.find? fun kv => kv.1.2 = name <;> simp [hread, ← hname, Except.toOption]
      · simp [hname]

/-- A template is the first file of its name, whatever directory it is in. -/
theorem getTemplate_init {walked : List (Bytes × List Bytes)} {templates : Dict (Bytes × Bytes) Text}
    (h : init formats read walked [] = (templates, .ok ())) (str : Slot V → Except Exc Text) (name : Bytes) :
    getTemplate ⟨templates, str⟩ name =
      ((opened formats walked).find? fun file => file.2 = name).bind fun file => (read file.1 file.2).toOption := by
  rw [init_eq] at h
  have hkept : Kept read [] := fun file text hget => by cases hget
  exact find?_readAll hkept h name

/-- A scope comes before the context that is updated with it. -/
theorem get?_update_or (context : Context V) {scope : Context V} (hnodup : (scope.map Prod.fst).Nodup) :
    (update context scope).get? = fun key => (scope.get? key).or (context.get? key) := by
  funext key
  cases hkey : scope.get? key with
  | some slot => exact get?_update hnodup (Dict.mem_of_get? hkey)
  | none =>
    have hreverse : Dict.get? scope.reverse key = none := by
      rw [Dict.get?_eq_none, List.map_reverse, List.mem_reverse]
      exact Dict.get?_eq_none.mp hkey
    rw [update, Dict.get?_foldl_set, hreverse]

end TemplateFormat

variable [RequestValue V]

/-- A template that `init` has read is rendered to its text with the values of its placeholders, which the scope of the
request gives before the context does; what has been written of a placeholder without a value stays. Where two files
have one name, it is the one that was read first. A file that is empty counts as none, and a value that is not UTF-8
is an error, whether the template asks for it or not. -/
theorem render_written {formats : List Bytes} {read : Bytes → Bytes → Except Exc Text}
    {walked : List (Bytes × List Bytes)} {templates : Dict (Bytes × Bytes) Text} (str : Slot V → Except Exc Text)
    (hinit : TemplateFormat.init formats read walked [] = (templates, .ok ())) (name : Bytes) (context : Context V)
    (r : ScopedRequest V) (hkeys : r.NodupKeys) :
    ((∀ file ∈ TemplateFormat.opened formats walked, file.2 ≠ name) →
      TemplateFormat.render ⟨templates, str⟩ name context (some r) = (.error (.other "Exception"), context)) ∧
    ∀ root, (TemplateFormat.opened formats walked).find? (fun file => file.2 = name) = some (root, name) →
      (read root name = .ok [] →
        TemplateFormat.render ⟨templates, str⟩ name context (some r) = (.error (.other "Exception"), context)) ∧
      ∀ parts, read root name = .ok (parts.flatMap asWritten) → parts.flatMap asWritten ≠ [] →
        ((∃ kv ∈ TemplateFormat.update context r.scope, TemplateFormat.Undecodable kv.2) →
          (TemplateFormat.render ⟨templates, str⟩ name context (some r)).1 = .error (.other "UnicodeDecodeError")) ∧
        (Delimited parts → TemplateFormat.Legible ⟨templates, str⟩ (TemplateFormat.update context r.scope) →
          (TemplateFormat.render ⟨templates, str⟩ name context (some r)).1 =
            (Text.encodeUtf8 (parts.flatMap (shown (TemplateFormat.valuesOf ⟨templates, str⟩ fun key =>
              (r.scope.get? key).or (context.get? key))))).elim (.error unicodeEncodeError) .ok) := by
  have htemplate := TemplateFormat.getTemplate_init hinit str name
  refine ⟨fun hfiles => ?_, fun root hfirst => ?_⟩
  · have hnone : (TemplateFormat.opened formats walked).find? (fun file => file.2 = name) = none :=
      List.find?_eq_none.mpr fun file hfile => by simpa using hfiles file hfile
    rw [hnone, Option.bind_none] at htemplate
    rw [TemplateFormat.render, htemplate]
  · rw [hfirst, Option.bind_some] at htemplate
    refine ⟨fun hread => ?_, fun parts hread hne => ?_⟩
    · rw [hread] at htemplate
      change _ = some [] at htemplate
      rw [TemplateFormat.render, htemplate]
    · obtain ⟨c, text, hsource⟩ := List.exists_cons_of_ne_nil hne
      rw [hread, hsource] at htemplate
      change _ = some (c :: text) at htemplate
      have hrender : (TemplateFormat.render ⟨templates, str⟩ name context (some r)).1 =
          TemplateFormat.fill ⟨templates, str⟩ (parts.flatMap asWritten) (TemplateFormat.update context r.scope) := by
        simp only [TemplateFormat.render, htemplate, TemplateFormat.contextWith, hsource]
      rw [hrender]
      refine ⟨fun hbad => ?_, fun hparts hlegible => ?_⟩
      · simp only [TemplateFormat.fill, TemplateFormat.decoded_undecodable hbad]
      · rw [← TemplateFormat.get?_update_or context hkeys, TemplateFormat.fill_asWritten hparts hlegible]

/-- Two directories with a file of one name. -/
def pages : List (Bytes × List Bytes) :=
  [(ascii "./templates", [ascii "page.txt", ascii "page.html"]), (ascii "./templates/old", [ascii "page.html"])]

def readPage (root _ : Bytes) : Except Exc Text :=
  .ok (Text.decodeLatin1 (if root = ascii "./templates" then ascii "Dear $name: $$${price}" else ascii "Old"))

/-- The parts of the first of them. -/
def pageParts : List TemplatePart :=
  [.literal (Text.decodeLatin1 (ascii "Dear ")), .named (Text.decodeLatin1 (ascii "name")) false,
    .literal (Text.decodeLatin1 (ascii ": $")), .named (Text.decodeLatin1 (ascii "price")) true]

/-- A request with a name in its scope. -/
def namedRequest : ScopedRequest AttrValue :=
  ((getRequest []).connected ⟨.object 7, rfl⟩).set (ascii "name") (.value (.bytes (ascii "levin")))

/-- `str`, of values that are neither `bytes` nor `str`. -/
def strObject (_ : Slot AttrValue) : Except Exc Text := .ok (Text.decodeLatin1 (ascii "object"))

/-- The page of the first directory is rendered with the name in the scope. -/
theorem page_rendered :
    (TemplateFormat.render ⟨(TemplateFormat.init [ascii ".html"] readPage pages []).1, strObject⟩ (ascii "page.html")
      [(ascii "name", .value (.bytes (ascii "nobody")))] (some namedRequest)).1 = .ok (ascii "Dear levin: $${price}") := by
  have hinit : TemplateFormat.init [ascii ".html"] readPage pages [] =
      ((TemplateFormat.init [ascii ".html"] readPage pages []).1, .ok ()) := rfl
  have hwritten := (render_written strObject hinit (ascii "page.html")
    [(ascii "name", .value (.bytes (ascii "nobody")))] namedRequest ((Request.nodupKeys_connected _ _).set _ _)).2
  rw [((hwritten (ascii "./templates") (by decide)).2 pageParts (by decide) (by decide)).2 ?_ ?_]
  · decide
  · exact ⟨⟨by decide, by decide⟩, fun _ => by decide, ⟨by decide, by decide⟩, fun h => Bool.noConfusion h, trivial⟩
  · have hcontext : TemplateFormat.update [(ascii "name", .value (.bytes (ascii "nobody")))] namedRequest.scope =
        [(ascii "name", .value (.bytes (ascii "levin"))), (ascii "get_transport_info", .lazy fun _ => .ret (.object 7))] := rfl
    rw [hcontext]
    intro kv hkv
    rcases List.mem_pair.mp hkv with rfl | rfl
    · exact ⟨Text.decodeLatin1 (ascii "levin"), rfl⟩
    · exact ⟨_, rfl⟩

end Levin
