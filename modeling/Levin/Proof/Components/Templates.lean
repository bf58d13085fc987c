import Levin.Components.Formating
import Levin.Proof.Components.PatchRequest
import Mathlib.Data.List.Nodup

/-!
# Templates of several requests

`render` updates the context it is given with the scope of its request, and a context may
be given more than once. Each call leaves the context as it was, and renders what it
would for a fresh one, if and only if every scope is a part of the context already
(`renderAll_iff`).
-/

namespace Levin

open Framework Bytes

variable {V : Type}

namespace TemplateFormat

/-! ## Updating -/

/-- An update with what is there already changes nothing. -/
theorem update_of_subset {context scope : Context V} (h : ∀ kv ∈ scope, context.get? kv.1 = some kv.2) :
    update context scope = context := by
  induction scope with
  | nil => rfl
  | cons kv scope ih =>
    rw [update, List.foldl_cons, Dict.set_of_get? (h kv List.mem_cons_self)]
    exact ih fun kv' hkv' => h kv' (List.mem_cons_of_mem _ hkv')

/-- What a context is updated with is there afterwards. -/
theorem get?_update {context scope : Context V} (hnodup : (scope.map Prod.fst).Nodup) {kv : Bytes × Slot V} (h : kv ∈ scope) :
    (update context scope).get? kv.1 = some kv.2 := by
  have hreverse : (scope.reverse.map Prod.fst).Nodup := by
    rw [List.map_reverse]
    exact List.nodup_reverse.mpr hnodup
  rw [update, Dict.get?_foldl_set, Dict.get?_of_mem hreverse (List.mem_reverse.mpr h), Option.some_or]

theorem update_eq_self {context scope : Context V} (hnodup : (scope.map Prod.fst).Nodup) :
    update context scope = context ↔ ∀ kv ∈ scope, context.get? kv.1 = some kv.2 := by
  refine ⟨fun h kv hkv => ?_, update_of_subset⟩
  have hget : (update context scope).get? kv.1 = some kv.2 := get?_update hnodup hkv
  rwa [h] at hget

/-! ## Rendering -/

variable [RequestValue V] (format : TemplateFormat V)

/-- There is a template with this name, and it is not empty. -/
def Finds (path : Bytes) : Prop := ∃ template, format.getTemplate path = some template ∧ template ≠ []

variable {format} {path : Bytes} {context : Context V}

omit [RequestValue V] in
theorem getTemplate_of_not (h : ¬ format.Finds path) :
    format.getTemplate path = none ∨ format.getTemplate path = some [] := by
  cases htemplate : format.getTemplate path with
  | none => exact .inl rfl
  | some template =>
    right
    by_contra hne
    exact h ⟨template, htemplate, fun hnil => hne (congrArg some hnil)⟩

/-- Without a template nothing is updated. -/
theorem render_of_not (h : ¬ format.Finds path) (request : Option (ScopedRequest V)) :
    (format.render path context request).2 = context := by
  unfold render
  rcases getTemplate_of_not h with hnone | hempty
  · rw [hnone]
  · rw [hempty]

/-- With a template, the context is what the template was filled in with. -/
theorem render_of_finds (h : format.Finds path) (request : Option (ScopedRequest V)) :
    (format.render path context request).2 = contextWith context request := by
  obtain ⟨template, htemplate, hne⟩ := h
  obtain ⟨c, template, rfl⟩ := List.exists_cons_of_ne_nil hne
  unfold render
  rw [htemplate]

end TemplateFormat

/-- A call of `render`. -/
structure RenderCall (V : Type) where
  path : Bytes
  request : Option (ScopedRequest V)
  keys : ∀ r, request = some r → r.NodupKeys

namespace TemplateFormat

variable [RequestValue V] (format : TemplateFormat V)

/-- Calls with the same dictionary: what each returns or raises, and the dictionary after it. -/
def renderAll : List (RenderCall V) → Context V → List (Except Exc Bytes × Context V)
  | [], _ => []
  | call :: calls, context =>
    format.render call.path context call.request :: renderAll calls (format.render call.path context call.request).2

/-- Each call returns what it returns for the context as it was first, and leaves it so. -/
def Isolated (calls : List (RenderCall V)) (context : Context V) : Prop :=
  format.renderAll calls context = calls.map fun call => ((format.render call.path context call.request).1, context)

/-- The call does not find its template, or has no request, or everything in its request's scope is in the context. -/
def Harmless (context : Context V) (call : RenderCall V) : Prop :=
  format.Finds call.path → ∀ r, call.request = some r → ∀ kv ∈ r.scope, context.get? kv.1 = some kv.2

variable {format}

/-- One call leaves the context as it is exactly then. -/
theorem render_snd_eq_self (call : RenderCall V) (context : Context V) :
    (format.render call.path context call.request).2 = context ↔ format.Harmless context call := by
  by_cases hfinds : format.Finds call.path
  · rw [render_of_finds hfinds]
    cases hrequest : call.request with
    | none =>
      refine ⟨fun _ _ r hr => ?_, fun _ => rfl⟩
      rw [hrequest] at hr
      cases hr
    | some r =>
      rw [contextWith, update_eq_self (call.keys r hrequest)]
      refine ⟨fun h _ r' hr' => ?_, fun h => h hfinds r hrequest⟩
      rw [hrequest] at hr'
      exact Option.some.inj hr' ▸ h
  · exact ⟨fun _ hf => absurd hf hfinds, fun _ => render_of_not hfinds call.request⟩

end TemplateFormat

/-- Calls of `render` with the same context do not affect each other, and leave it as it is, if and only if every scope of
a request whose template is found is a part of it. -/
theorem renderAll_iff [RequestValue V] (format : TemplateFormat V) (calls : List (RenderCall V)) (context : Context V) :
    format.Isolated calls context ↔ ∀ call ∈ calls, format.Harmless context call := by
  induction calls with
  | nil => exact ⟨fun _ call h => absurd h List.not_mem_nil, fun _ => rfl⟩
  | cons call calls ih =>
    rw [List.forall_mem_cons, ← TemplateFormat.render_snd_eq_self, ← ih]
    unfold TemplateFormat.Isolated
    rw [TemplateFormat.renderAll, List.map_cons, List.cons.injEq]
    constructor
    · rintro ⟨hcall, hcalls⟩
      have hcontext := congrArg Prod.snd hcall
      rw [hcontext] at hcalls
      exact ⟨hcontext, hcalls⟩
    · rintro ⟨hcontext, hcalls⟩
      rw [hcontext]
      exact ⟨Prod.ext rfl hcontext, hcalls⟩

/-- A template with one placeholder. -/
def tokenFormat : TemplateFormat AttrValue where
  templates := [((ascii "./templates", ascii "token.html"), Text.decodeLatin1 (ascii "$token"))]
  str _ := .error .TypeError

/-- A call for a request that has these values in its scope. -/
def tokenCall (request : ScopedRequest AttrValue) (keys : request.NodupKeys) : RenderCall AttrValue where
  path := ascii "token.html"
  request := some request
  keys _ h := Option.some.inj h ▸ keys

/-- A request with a token, and one without. -/
def tokenCalls : List (RenderCall AttrValue) :=
  [tokenCall (((getRequest []).connected ⟨.none, rfl⟩).set (ascii "token") (.value (.bytes (ascii "secret"))))
      ((Request.nodupKeys_connected _ _).set _ _),
    tokenCall ((getRequest []).connected ⟨.none, rfl⟩) (Request.nodupKeys_connected _ _)]

/-- The second call renders the token of the first one. -/
theorem token_leaks : (tokenFormat.renderAll tokenCalls []).map Prod.fst = [.ok (ascii "secret"), .ok (ascii "secret")] ∧
    tokenCalls.map (fun call => (tokenFormat.render call.path [] call.request).1) =
      [.ok (ascii "secret"), .ok (ascii "$token")] ∧
    ¬ tokenFormat.Isolated tokenCalls [] := by
  have hall : (tokenFormat.renderAll tokenCalls []).map Prod.fst = [.ok (ascii "secret"), .ok (ascii "secret")] := by decide
  have heach : tokenCalls.map (fun call => (tokenFormat.render call.path [] call.request).1) =
      [.ok (ascii "secret"), .ok (ascii "$token")] := by decide
  refine ⟨hall, heach, fun h => ?_⟩
  have hfst := congrArg (List.map Prod.fst) h
  rw [hall, List.map_map] at hfst
  exact absurd (hfst.trans heach) (by decide)

end Levin
