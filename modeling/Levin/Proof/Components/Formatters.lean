import Levin.Components.Formating
import Levin.Framework.Finishers
import Levin.Proof.Components.PatchRequest

/-!
# The formatters of an application

`JsonFormat`, `TextFormat` and `TemplateFormat` stand in the list of components in some
order. Each makes a response of the values it is for, and leaves everything else alone;
a response comes through them as it is. So whatever comes back from the handler is
formatted by one of them or by none, and in whichever order they stand
(`formatters_perm`), unless there is a template for a `dict`, which two of them are for.
-/

namespace Levin

open Framework Bytes

variable {V η : Type}

/-- What comes back from a middleware: a result or an exception, and the request as it is then. -/
abbrev Formatted (V : Type) : Type := Except Exc (Result V) × ScopedRequest V

namespace Formatters

/-- There is no value any more. -/
def Finished (answer : Formatted V) : Prop := ∀ v, answer.1 ≠ .ok (.value v)

theorem finished_json (format : JsonFormat V) (depth : Nat) (v : V) (r : ScopedRequest V) :
    Finished (format.respond depth v r) := by
  unfold JsonFormat.respond
  repeat' split
  all_goals exact fun v h => by cases h

theorem finished_text [TextValue V] (format : TextFormat V) (depth : Nat) (body : Except Exc Bytes) (r : ScopedRequest V) :
    Finished (format.respond depth body r) := by
  unfold TextFormat.respond
  repeat' split
  all_goals exact fun v h => by cases h

end Formatters

variable [TemplateValue V]

inductive FormatKind
  | json
  | text
  | template
  deriving DecidableEq, Repr

/-- The formatters of an application. -/
structure Formatters (V : Type) where
  json : JsonFormat V
  text : TextFormat V
  templates : TemplateFormat V
  contentType : Bytes := ascii "text/html"
  status : V → Nat
  depth : Nat

namespace Formatters

variable (formats : Formatters V)

def middleware : FormatKind → Middleware (ScopedRequest V) η (Formatted V)
  | .json => formats.json.middleware formats.depth
  | .text => formats.text.middleware formats.depth
  | .template => formats.templates.middleware formats.contentType formats.status formats.depth

/-- The values that a formatter is for, where `template` is what the scope has under this name. -/
def IsFor (template : Option V) : FormatKind → V → Prop
  | .json, v => formats.json.typesToFormat v = true
  | .text, v => (TextFormat.encoded v).isSome
  | .template, v =>
    (TemplateValue.asTemplate v).isSome ∨ (template.filter PyValue.truthy).isSome ∧ (TemplateValue.asDict v).isSome

/-- What a formatter does with a value. -/
def finishValue (template : Option V) : FormatKind → V → ScopedRequest V → Formatted V
  | .json, v, r => if formats.json.typesToFormat v then formats.json.respond formats.depth v r else (.ok (.value v), r)
  | .text, v, r => (TextFormat.encoded v).elim (.ok (.value v), r) fun body => formats.text.respond formats.depth body r
  | .template, v, r => formats.templates.finishValue formats.contentType formats.status formats.depth template v r

/-- What a formatter does with what comes back. -/
def finish (template : Option V) (kind : FormatKind) : Formatted V → Formatted V
  | (.ok (.value v), r) => formats.finishValue template kind v r
  | answer => answer

variable {formats}

/-- A value for which no formatter is comes back as it is. -/
theorem finishValue_of_not {template : Option V} {kind : FormatKind} {v : V} (h : ¬ formats.IsFor template kind v)
    (r : ScopedRequest V) : formats.finishValue template kind v r = (.ok (.value v), r) := by
  cases kind with
  | json => exact if_neg h
  | text =>
    rw [IsFor, Option.not_isSome_iff_eq_none] at h
    rw [finishValue, h]
    rfl
  | template =>
    rw [IsFor, not_or, not_and, Option.not_isSome_iff_eq_none] at h
    rw [finishValue, TemplateFormat.finishValue, h.1]
    cases htemplate : template.filter PyValue.truthy with
    | none => rfl
    | some t =>
      have hdict : TemplateValue.asDict v = none := by simpa [htemplate] using h.2
      rw [hdict]

theorem finished_template (format : TemplateFormat V) (contentType : Bytes) (status : V → Nat) (depth : Nat)
    (path : Option Bytes) (context : Context V) (r : ScopedRequest V) :
    Finished (format.respond contentType status depth path context r) := by
  unfold TemplateFormat.respond
  repeat' split
  all_goals exact fun v h => by cases h

/-- A formatter makes a response of a value that it is for, or raises. -/
theorem finished_finishValue {template : Option V} {kind : FormatKind} {v : V} (h : formats.IsFor template kind v)
    (r : ScopedRequest V) : Finished (formats.finishValue template kind v r) := by
  cases kind with
  | json =>
    rw [finishValue, if_pos (show formats.json.typesToFormat v = true from h)]
    exact finished_json _ _ _ _
  | text =>
    obtain ⟨body, hbody⟩ := Option.isSome_iff_exists.mp h
    rw [finishValue, hbody]
    exact finished_text _ _ _ _
  | template =>
    rw [finishValue, TemplateFormat.finishValue]
    cases htemplate : TemplateValue.asTemplate v with
    | some t => exact finished_template _ _ _ _ _ _ _
    | none =>
      obtain ⟨ht, hv⟩ := h.resolve_left (by simp [htemplate])
      obtain ⟨t, ht⟩ := Option.isSome_iff_exists.mp ht
      obtain ⟨context, hv⟩ := Option.isSome_iff_exists.mp hv
      rw [ht, hv]
      exact finished_template _ _ _ _ _ _ _

/-- A formatter changes only what it is for. -/
def finisher (formats : Formatters V) (template : Option V) (kind : FormatKind) : Finisher (Formatted V) where
  Claims answer := ∃ v, answer.1 = .ok (.value v) ∧ formats.IsFor template kind v
  finish := formats.finish template kind
  finish_of_not answer h := by
    obtain ⟨result, r⟩ := answer
    rcases result with e | v | response
    · rfl
    · exact finishValue_of_not (fun hfor => h ⟨v, rfl, hfor⟩) r
    · rfl

theorem not_claims_of_finished {answer : Formatted V} (h : Finished answer) (template : Option V) (kind : FormatKind) :
    ¬ (formats.finisher template kind).Claims answer := fun ⟨v, hv, _⟩ => h v hv

/-- No two formatters are for the same value. -/
structure Apart (formats : Formatters V) (template : Option V) : Prop where
  text : ∀ v, formats.json.typesToFormat v = true → TextFormat.encoded v = none
  template : ∀ v, (formats.json.typesToFormat v = true ∨ (TextFormat.encoded v).isSome) →
    TemplateValue.asTemplate v = none ∧ ((template.filter PyValue.truthy).isSome → TemplateValue.asDict v = none)

theorem Apart.not_both {template : Option V} (h : formats.Apart template) {kind kind' : FormatKind} (hne : kind ≠ kind')
    (v : V) : ¬ (formats.IsFor template kind v ∧ formats.IsFor template kind' v) := by
  have htext : ¬ (formats.IsFor template .json v ∧ formats.IsFor template .text v) := by
    rintro ⟨hjson, htext⟩
    rw [IsFor, h.text v hjson] at htext
    cases htext
  have htemplate : ∀ {kind : FormatKind}, kind ≠ .template →
      ¬ (formats.IsFor template kind v ∧ formats.IsFor template .template v) := by
    rintro kind hkind ⟨hfor, hv⟩
    obtain ⟨hobject, hdict⟩ := h.template v (by
      cases kind with
      | json => exact .inl hfor
      | text => exact .inr hfor
      | template => exact absurd rfl hkind)
    rcases hv with hv | ⟨ht, hv⟩
    · rw [hobject] at hv
      cases hv
    · rw [hdict ht] at hv
      cases hv
  cases kind <;> cases kind' <;>
    first
    | exact absurd rfl hne
    | exact htext
    | exact fun h => htext h.symm
    | exact htemplate (by decide)
    | exact fun h => htemplate (by decide) h.symm

theorem Apart.separate {template : Option V} (h : formats.Apart template) {order : List FormatKind} (hnodup : order.Nodup) :
    Separate (order.map (formats.finisher template)) where
  apart := by
    rw [List.pairwise_map]
    refine hnodup.imp fun hne answer => ?_
    rintro ⟨⟨v, hv, hfor⟩, ⟨v', hv', hfor'⟩⟩
    rw [hv] at hv'
    cases hv'
    exact h.not_both hne v ⟨hfor, hfor'⟩
  finished f hf answer ha g hg := by
    obtain ⟨kind, -, rfl⟩ := List.mem_map.mp hf
    obtain ⟨kind', -, rfl⟩ := List.mem_map.mp hg
    obtain ⟨result, r⟩ := answer
    obtain ⟨v, hv, hfor⟩ := ha
    cases hv
    exact not_claims_of_finished (finished_finishValue hfor r) template kind'

/-! ## The chain -/

variable {next : ScopedRequest V → η → Formatted V}

/-- The chain of the formatters in some order. -/
def chain (formats : Formatters V) (order : List FormatKind) (next : ScopedRequest V → η → Formatted V) :
    ScopedRequest V → η → Formatted V :=
  createHandler next (order.map fun kind => some (formats.middleware kind))

theorem chain_cons (kind : FormatKind) (order : List FormatKind) (r : ScopedRequest V) (handler : η) :
    formats.chain (kind :: order) next r handler = formats.middleware kind r handler (formats.chain order next) := rfl

theorem chain_append (order order' : List FormatKind) :
    formats.chain (order ++ order') next = formats.chain order (formats.chain order' next) := by
  rw [chain, chain, chain, List.map_append, createHandler, createHandler, createHandler, List.foldr_append]

/-- `JsonFormat` and `TextFormat` do something only once the handler is done. -/
theorem middleware_eq {kind : FormatKind} (h : kind ≠ .template) (template : Option V) (r : ScopedRequest V) (handler : η) :
    formats.middleware kind r handler next = formats.finish template kind (next r handler) := by
  cases kind with
  | json =>
    show formats.json.middleware formats.depth r handler next = _
    unfold JsonFormat.middleware
    rcases next r handler with ⟨_ | _ | _, r⟩ <;> rfl
  | text =>
    show formats.text.middleware formats.depth r handler next = _
    unfold TextFormat.middleware
    rcases next r handler with ⟨_ | _ | _, r⟩ <;> rfl
  | template => exact absurd rfl h

theorem chain_of_not_mem {order : List FormatKind} (h : .template ∉ order) (template : Option V) (r : ScopedRequest V)
    (handler : η) : formats.chain order next r handler = finishAll (order.map (formats.finisher template)) (next r handler) := by
  induction order with
  | nil => rfl
  | cons kind order ih =>
    rw [List.mem_cons, not_or] at h
    rw [chain_cons, middleware_eq (Ne.symm h.1) template, ih h.2]
    rfl

/-- `TemplateFormat` asks for the template first. -/
theorem middleware_template {template : Option V} {r r' : ScopedRequest V}
    (h : r.get formats.depth (ascii "template") = (.ok template, r')) (handler : η) :
    formats.middleware .template r handler next = formats.finish template .template (next r' handler) := by
  show formats.templates.middleware formats.contentType formats.status formats.depth r handler next = _
  unfold TemplateFormat.middleware
  rw [h]
  dsimp only
  rcases next r' handler with ⟨_ | _ | _, r⟩ <;> rfl

theorem middleware_template_error {e : Exc} {r r' : ScopedRequest V}
    (h : r.get formats.depth (ascii "template") = (.error e, r')) (handler : η) :
    formats.middleware .template r handler next = (.error e, r') := by
  show formats.templates.middleware formats.contentType formats.status formats.depth r handler next = _
  unfold TemplateFormat.middleware
  rw [h]

variable {before after : List FormatKind}

theorem chain_template (hbefore : .template ∉ before) (hafter : .template ∉ after) {template : Option V}
    {r r' : ScopedRequest V} (h : r.get formats.depth (ascii "template") = (.ok template, r')) (handler : η) :
    formats.chain (before ++ .template :: after) next r handler =
      finishAll ((before ++ .template :: after).map (formats.finisher template)) (next r' handler) := by
  rw [chain_append, chain_of_not_mem hbefore template, chain_cons, middleware_template h, chain_of_not_mem hafter template,
    List.map_append, finishAll, finishAll, finishAll, List.foldr_append]
  rfl

theorem chain_template_error (hbefore : .template ∉ before) {e : Exc} {r r' : ScopedRequest V}
    (h : r.get formats.depth (ascii "template") = (.error e, r')) (handler : η) :
    formats.chain (before ++ .template :: after) next r handler = (.error e, r') := by
  rw [chain_append, chain_of_not_mem hbefore none, chain_cons, middleware_template_error h]
  refine finishAll_of_not fun f hf => ?_
  obtain ⟨kind, -, rfl⟩ := List.mem_map.mp hf
  exact not_claims_of_finished (fun v hv => by cases hv) none kind

/-- The one place of `TemplateFormat` in the order. -/
theorem exists_template {order : List FormatKind} (h : order.Perm [.json, .text, .template]) :
    ∃ before after, order = before ++ .template :: after ∧ .template ∉ before ∧ .template ∉ after := by
  have hnodup : order.Nodup := h.nodup_iff.mpr (by decide)
  obtain ⟨before, after, rfl⟩ := List.append_of_mem (h.mem_iff.mpr (by decide : FormatKind.template ∈ _))
  rw [List.nodup_append, List.nodup_cons] at hnodup
  exact ⟨before, after, rfl, fun hmem => hnodup.2.2 _ hmem _ List.mem_cons_self rfl, hnodup.2.1.1⟩

end Formatters

/-- Whatever comes back from the handler, the formatter that is for it formats it, if there is one, in whichever order the
three of them stand. -/
theorem formatters_perm (formats : Formatters V) {order : List FormatKind} (horder : order.Perm [.json, .text, .template])
    (next : ScopedRequest V → η → Formatted V) (r : ScopedRequest V) (handler : η) :
    (∀ e r', r.get formats.depth (ascii "template") = (.error e, r') → formats.chain order next r handler = (.error e, r')) ∧
    ∀ template r', r.get formats.depth (ascii "template") = (.ok template, r') → formats.Apart template →
      (∀ kind v r'', next r' handler = (.ok (.value v), r'') → formats.IsFor template kind v →
        formats.chain order next r handler = formats.finishValue template kind v r'') ∧
      ((∀ v, (next r' handler).1 = .ok (.value v) → ∀ kind, ¬ formats.IsFor template kind v) →
        formats.chain order next r handler = next r' handler) := by
  have hnodup : order.Nodup := horder.nodup_iff.mpr (by decide)
  obtain ⟨before, after, rfl, hbefore, hafter⟩ := Formatters.exists_template horder
  refine ⟨fun e r' hget => Formatters.chain_template_error hbefore hget handler, fun template r' hget happart => ⟨?_, ?_⟩⟩
  · intro kind v r'' hnext hfor
    rw [Formatters.chain_template hbefore hafter hget handler, hnext]
    have hkind : kind ∈ [FormatKind.json, .text, .template] := by cases kind <;> decide
    exact finishAll_of_claims (happart.separate hnodup) (List.mem_map_of_mem (horder.mem_iff.mpr hkind)) ⟨v, rfl, hfor⟩
  · intro hnone
    rw [Formatters.chain_template hbefore hafter hget handler]
    refine finishAll_of_not fun f hf => ?_
    obtain ⟨kind, -, rfl⟩ := List.mem_map.mp hf
    rintro ⟨v, hv, hfor⟩
    exact hnone v hv kind hfor

/-- Object 1 is an empty `dict`, object 2 an empty `list`, and object 3 a surrogate. -/
instance : TemplateValue AttrValue where
  hasSurrogate v := v = .object 3
  asStr_of_hasSurrogate h := by rw [of_decide_eq_true h]; rfl
  asBytes_of_hasSurrogate h := by rw [of_decide_eq_true h]; rfl
  asTemplate _ := none
  asDict v := if v = .object 1 then some [] else none

def pageFormats : Formatters AttrValue where
  json :=
    { jsonDumps := fun v _ => .ok (Text.decodeLatin1 (if v = .object 1 then ascii "\x7b\x7d" else ascii "[]"))
      default := none
      typesToFormat := fun v => v = .object 1 ∨ v = .object 2
      status := fun _ => 200 }
  text := { status := fun _ => 200 }
  templates := { templates := [], str := fun _ => .error .TypeError }
  status _ := 200
  depth := 1

/-- A handler that returns an empty list. -/
def listHandler (r : ScopedRequest AttrValue) (_ : Unit) : Formatted AttrValue := (.ok (.value (.object 2)), r)

/-- `TemplateFormat` first, and the list is formatted all the same. -/
theorem list_formatted :
    pageFormats.chain [.template, .json, .text] listHandler { request := getRequest [], scope := [] } () =
      (.ok (.response { status := 200, body := ascii "[]", headers := [(ascii "content-type", ascii "application/json")] }),
        { request := getRequest [], scope := [] }) := by
  have happart : pageFormats.Apart none := by
    refine ⟨fun v hv => ?_, fun v _ => ⟨rfl, fun h => nomatch h⟩⟩
    rcases of_decide_eq_true hv with rfl | rfl <;> rfl
  have horder : [FormatKind.template, .json, .text].Perm [.json, .text, .template] := by decide
  exact ((formatters_perm pageFormats horder listHandler { request := getRequest [], scope := [] } ()).2 none _ rfl
    happart).1 .json (.object 2) _ rfl rfl

end Levin
