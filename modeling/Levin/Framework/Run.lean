import Mathlib.Data.List.Induction

/-!
# Runs of a transition system

A transition system is a relation `R s e s'`: event `e` takes the state `s` to
`s'`. `Run R s₀ es s` is a run of `R` from `s₀` to `s` with the events `es`, in
order. `Run.invariant` proves a property of every state a run reaches from one
step; `Run.good_iff` says exactly which runs keep a property that no later step
can repair: those whose steps all meet a condition (`Throughout`).
-/

namespace Levin.Framework

variable {S E : Type*}

/-- Where an element of a list is that has grown by one: it is the new one, or was there before. -/
theorem snoc_eq_append_cons {l l₁ l₂ : List E} {a e : E} :
    l ++ [e] = l₁ ++ a :: l₂ ↔ (l = l₁ ∧ e = a ∧ l₂ = []) ∨ ∃ l₂', l = l₁ ++ a :: l₂' ∧ l₂ = l₂' ++ [e] := by
  constructor
  · intro h
    rcases List.eq_nil_or_concat l₂ with rfl | ⟨l₂', e', rfl⟩
    · obtain ⟨rfl, he⟩ := List.append_inj' h rfl
      exact .inl ⟨rfl, List.singleton_inj.mp he, rfl⟩
    · rw [List.concat_eq_append, ← List.cons_append, ← List.append_assoc] at h
      obtain ⟨rfl, he⟩ := List.append_inj' h rfl
      exact .inr ⟨l₂', rfl, by rw [List.concat_eq_append, List.singleton_inj.mp he]⟩
  · rintro (⟨rfl, rfl, rfl⟩ | ⟨l₂', rfl, rfl⟩)
    · rfl
    · simp

/-- What holds at each place of a list that has grown by one. -/
theorem forall_split_concat {P : List E → E → Prop} {l : List E} {a : E} :
    (∀ before e after, l ++ [a] = before ++ e :: after → P before e) ↔
      (∀ before e after, l = before ++ e :: after → P before e) ∧ P l a := by
  constructor
  · intro h
    refine ⟨fun before e after heq => h before e (after ++ [a]) ?_, h l a [] rfl⟩
    rw [heq, List.append_assoc, List.cons_append]
  · rintro ⟨h, ha⟩ before e after heq
    rcases snoc_eq_append_cons.mp heq with ⟨rfl, rfl, -⟩ | ⟨after', hl, -⟩
    · exact ha
    · exact h before e after' hl

/-- The runs of `R` from `s₀`: the events so far, and the state they lead to. -/
inductive Run (R : S → E → S → Prop) (s₀ : S) : List E → S → Prop
  | nil : Run R s₀ [] s₀
  | snoc {es : List E} {s s' : S} {e : E} : Run R s₀ es s → R s e s' → Run R s₀ (es ++ [e]) s'

/-- Every step of a run from `s₀` with the events `es` meets `ok`, a condition on the events
before it, the state it is taken in and its own event. -/
def Throughout (R : S → E → S → Prop) (s₀ : S) (ok : List E → S → E → Prop) (es : List E) : Prop :=
  ∀ es₁ e es₂ s, es = es₁ ++ e :: es₂ → Run R s₀ es₁ s → ok es₁ s e

/-- Some step of a run from `s₀` with the events `es` meets `ok`. -/
def Sometime (R : S → E → S → Prop) (s₀ : S) (ok : S → E → Prop) (es : List E) : Prop :=
  ∃ es₁ e es₂ s, es = es₁ ++ e :: es₂ ∧ Run R s₀ es₁ s ∧ ok s e

namespace Run

variable {R : S → E → S → Prop} {s₀ s s' : S} {es : List E}

/-- A property of the events and the state they lead to that holds at first and that every
step keeps holds of every run. -/
theorem history {I : List E → S → Prop} (h₀ : I [] s₀)
    (hstep : ∀ ⦃es s e s'⦄, I es s → R s e s' → I (es ++ [e]) s') (h : Run R s₀ es s) : I es s := by
  induction h with
  | nil => exact h₀
  | snoc _ hR ih => exact hstep ih hR

/-- A property of the first state that every step keeps holds in every state reached. -/
theorem invariant {I : S → Prop} (h₀ : I s₀) (hstep : ∀ ⦃s e s'⦄, I s → R s e s' → I s')
    (h : Run R s₀ es s) : I s :=
  h.history (I := fun _ s => I s) h₀ fun _ _ _ _ hI hR => hstep hI hR

theorem mono {R' : S → E → S → Prop} (hR : ∀ ⦃s e s'⦄, R s e s' → R' s e s') (h : Run R s₀ es s) :
    Run R' s₀ es s := by
  induction h with
  | nil => exact .nil
  | snoc _ hs ih => exact .snoc ih (hR hs)

theorem single {e : E} (h : R s₀ e s) : Run R s₀ [e] s := .snoc .nil h

theorem append {es' : List E} (h : Run R s₀ es s) (h' : Run R s es' s') : Run R s₀ (es ++ es') s' := by
  induction h' with
  | nil => rwa [List.append_nil]
  | snoc _ hs ih => rw [← List.append_assoc]; exact .snoc ih hs

theorem cons {e : E} (hs : R s₀ e s) (h : Run R s es s') : Run R s₀ (e :: es) s' :=
  append (single hs) h

/-- A run with no event stays where it is. -/
theorem nil_iff : Run R s₀ [] s ↔ s = s₀ := by
  refine ⟨fun h => ?_, fun h => h ▸ .nil⟩
  generalize he : ([] : List E) = es at h
  cases h with
  | nil => rfl
  | snoc _ _ => simp at he

/-- The last step of a run. -/
theorem snoc_iff {e : E} : Run R s₀ (es ++ [e]) s' ↔ ∃ s, Run R s₀ es s ∧ R s e s' := by
  refine ⟨fun h => ?_, fun ⟨s, h, hs⟩ => .snoc h hs⟩
  generalize he : es ++ [e] = es' at h
  cases h with
  | nil => simp at he
  | snoc h hs =>
    obtain ⟨rfl, he'⟩ := List.append_inj' he rfl
    obtain rfl := List.singleton_inj.mp he'
    exact ⟨_, h, hs⟩

/-- The first step of a run. -/
theorem cons_iff {e : E} : Run R s₀ (e :: es) s' ↔ ∃ s, R s₀ e s ∧ Run R s es s' := by
  refine ⟨fun h => ?_, fun ⟨s, hs, h⟩ => cons hs h⟩
  induction es using List.reverseRecOn generalizing s' with
  | nil =>
    obtain ⟨s, h, hs⟩ := snoc_iff.mp (show Run R s₀ ([] ++ [e]) s' from h)
    exact ⟨s', nil_iff.mp h ▸ hs, .nil⟩
  | append_singleton es e' ih =>
    obtain ⟨s, h, hs⟩ := snoc_iff.mp (show Run R s₀ ((e :: es) ++ [e']) s' from h)
    obtain ⟨s₁, h₁, h₂⟩ := ih h
    exact ⟨s₁, h₁, .snoc h₂ hs⟩

/-- A run through `es` and then `es'`. -/
theorem append_iff {es' : List E} : Run R s₀ (es ++ es') s' ↔ ∃ s, Run R s₀ es s ∧ Run R s es' s' := by
  refine ⟨fun h => ?_, fun ⟨s, h, h'⟩ => append h h'⟩
  induction es' using List.reverseRecOn generalizing s' with
  | nil => exact ⟨s', by rwa [List.append_nil] at h, .nil⟩
  | append_singleton es' e ih =>
    rw [← List.append_assoc] at h
    obtain ⟨s₁, h, hs⟩ := snoc_iff.mp h
    obtain ⟨s, h₁, h₂⟩ := ih h
    exact ⟨s, h₁, .snoc h₂ hs⟩

/-- One of the steps of a run. -/
theorem step_of_split {es₁ es₂ : List E} {e : E} (h : Run R s₀ (es₁ ++ e :: es₂) s') :
    ∃ s s₁, Run R s₀ es₁ s ∧ R s e s₁ := by
  obtain ⟨s, h₁, h₂⟩ := append_iff.mp h
  obtain ⟨s₁, hs, -⟩ := cons_iff.mp h₂
  exact ⟨s, s₁, h₁, hs⟩

/-- Of a deterministic system, a run's events determine the state it reaches. -/
theorem det (hdet : ∀ ⦃s e a b⦄, R s e a → R s e b → a = b) (h : Run R s₀ es s)
    (h' : Run R s₀ es s') : s = s' := by
  induction h generalizing s' with
  | nil => exact (nil_iff.mp h').symm
  | snoc _ hs ih =>
    obtain ⟨s₁, h₁, hs₁⟩ := snoc_iff.mp h'
    rw [← ih h₁] at hs₁
    exact hdet hs hs₁

theorem throughout_nil {ok : List E → S → E → Prop} : Throughout R s₀ ok [] := by
  intro es₁ e es₂ s h
  simp at h

/-- Steps that meet it in any state. -/
theorem throughout_of_forall_mem {ok : List E → S → E → Prop} (h : ∀ e ∈ es, ∀ es₁ s, ok es₁ s e) :
    Throughout R s₀ ok es := by
  rintro es₁ e es₂ s rfl -
  exact h e (List.mem_append_right _ List.mem_cons_self) es₁ s

/-- The last of the steps. -/
theorem throughout_snoc {ok : List E → S → E → Prop} {e : E} :
    Throughout R s₀ ok (es ++ [e]) ↔ Throughout R s₀ ok es ∧ ∀ s, Run R s₀ es s → ok es s e := by
  refine ⟨fun h => ⟨fun es₁ e' es₂ s he => h es₁ e' (es₂ ++ [e]) s (by simp [he]), fun s => h es e [] s rfl⟩, ?_⟩
  rintro ⟨h, hl⟩ es₁ e' es₂ s he
  rcases snoc_eq_append_cons.mp he with ⟨rfl, rfl, rfl⟩ | ⟨es₂', rfl, rfl⟩
  · exact hl s
  · exact h es₁ e' es₂' s rfl

/-- Of a condition on states and events alone: the steps of the first part, and then the others. -/
theorem throughout_append {ok : S → E → Prop} {es' : List E} (h : Throughout R s₀ (fun _ => ok) (es ++ es')) :
    Throughout R s₀ (fun _ => ok) es ∧ ∀ s, Run R s₀ es s → Throughout R s (fun _ => ok) es' := by
  constructor
  · rintro es₁ e es₂ s rfl
    exact h es₁ e (es₂ ++ es') s (by simp)
  · rintro s hs es₁ e es₂ s' rfl hs'
    exact h (es ++ es₁) e es₂ s' (by simp) (hs.append hs')

theorem throughout_cons {ok : S → E → Prop} {e : E} :
    Throughout R s₀ (fun _ => ok) (e :: es) ↔ ok s₀ e ∧ ∀ s, R s₀ e s → Throughout R s (fun _ => ok) es := by
  constructor
  · intro h
    have happend : Throughout R s₀ (fun _ => ok) ([e] ++ es) := h
    exact ⟨h [] e es s₀ rfl .nil, fun s hs => (throughout_append happend).2 s (single hs)⟩
  · rintro ⟨hfirst, hrest⟩ es₁ e' es₂ s heq hrun
    cases es₁ with
    | nil =>
      cases heq
      rwa [nil_iff.mp hrun]
    | cons e₁ es₁ =>
      cases heq
      obtain ⟨s₁, hs₁, hrun⟩ := cons_iff.mp hrun
      exact hrest s₁ hs₁ es₁ e' es₂ s rfl hrun

theorem not_sometime_nil {ok : S → E → Prop} : ¬ Sometime R s₀ ok [] := by
  rintro ⟨es₁, e, es₂, s, h, -⟩
  simp at h

theorem sometime_append {ok : S → E → Prop} (h : Sometime R s₀ ok es) (es' : List E) : Sometime R s₀ ok (es ++ es') := by
  obtain ⟨es₁, e, es₂, s, rfl, hs, hok⟩ := h
  exact ⟨es₁, e, es₂ ++ es', s, by simp, hs, hok⟩

/-- Some step does, if it is one of the others or the last. -/
theorem sometime_snoc {ok : S → E → Prop} {e : E} (hdet : ∀ ⦃s e a b⦄, R s e a → R s e b → a = b)
    (h : Run R s₀ es s) : Sometime R s₀ ok (es ++ [e]) ↔ Sometime R s₀ ok es ∨ ok s e := by
  constructor
  · rintro ⟨es₁, e', es₂, s₁, heq, h₁, hok⟩
    rcases snoc_eq_append_cons.mp heq with ⟨rfl, rfl, -⟩ | ⟨es₂', rfl, -⟩
    · exact .inr (h.det hdet h₁ ▸ hok)
    · exact .inl ⟨es₁, e', es₂', s₁, rfl, h₁, hok⟩
  · rintro (hok | hok)
    · exact sometime_append hok [e]
    · exact ⟨es, e, [], s, rfl, h, hok⟩

/-- A property of the first state that every step which meets `ok` keeps holds at the end of a run
whose steps all meet it. -/
theorem invariant_of {I : S → Prop} {ok : List E → S → E → Prop} (h₀ : I s₀)
    (hstep : ∀ ⦃es s e s'⦄, Run R s₀ es s → I s → ok es s e → R s e s' → I s') (h : Run R s₀ es s)
    (hok : Throughout R s₀ ok es) : I s := by
  induction h with
  | nil => exact h₀
  | snoc h hR ih =>
    obtain ⟨hok, hl⟩ := throughout_snoc.mp hok
    exact hstep h (ih hok) (hl _ h) hR

/-- The runs that keep a property `G` which holds at first and, once lost, stays lost: those
whose steps all meet `ok`, if `ok` says exactly which steps keep `G`. -/
theorem good_iff {G : S → Prop} {ok : List E → S → E → Prop}
    (hdet : ∀ ⦃s e a b⦄, R s e a → R s e b → a = b) (h₀ : G s₀)
    (hmono : ∀ ⦃es s e s'⦄, Run R s₀ es s → R s e s' → G s' → G s)
    (hstep : ∀ ⦃es s e s'⦄, Run R s₀ es s → R s e s' → G s → (G s' ↔ ok es s e))
    (h : Run R s₀ es s) : G s ↔ Throughout R s₀ ok es := by
  induction h with
  | nil => exact iff_of_true h₀ throughout_nil
  | @snoc es s s' e h hs ih =>
    rw [throughout_snoc, ← ih]
    constructor
    · intro hg
      have hgs := hmono h hs hg
      refine ⟨hgs, fun s₁ h₁ => ?_⟩
      obtain rfl := h.det hdet h₁
      exact (hstep h hs hgs).mp hg
    · rintro ⟨hgs, hl⟩
      exact (hstep h hs hgs).mpr (hl s h)

end Run

variable {s₀ s : S} {es : List E}

/-- A run of a system given by a function. -/
theorem run_iff_foldlM {R : S → E → S → Prop} {next : S → E → Option S}
    (hR : ∀ s e s', R s e s' ↔ next s e = some s') : Run R s₀ es s ↔ es.foldlM next s₀ = some s := by
  induction es generalizing s₀ with
  | nil => rw [Run.nil_iff]; exact ⟨fun h => h ▸ rfl, fun h => (Option.some.inj h).symm⟩
  | cons e es ih =>
    rw [Run.cons_iff, List.foldlM_cons]
    simp only [hR, ih, Option.bind_eq_bind, Option.bind_eq_some_iff]

theorem Run.of_foldlM {next : S → E → Option S} (h : es.foldlM next s₀ = some s) :
    Run (fun s e s' => next s e = some s') s₀ es s :=
  (run_iff_foldlM fun _ _ _ => Iff.rfl).mpr h

end Levin.Framework
