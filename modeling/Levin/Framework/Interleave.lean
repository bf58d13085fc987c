import Levin.Framework.Run

/-!
# Interleaved sessions

One sequence carries the events of many sessions, told apart by a key. `on key k es` are
those of session `k`, in order, and `Interleaved key R s₀ es` says that each session's
are a run of `R` from `s₀`, whatever comes between them. A system that takes the
whole sequence tracks its sessions (`Tracks`) if what it holds for a key is
determined by that key's run alone; `Tracks.snoc` proves it from one event: the
system follows `R` for the event's own key and leaves every other one alone.
-/

namespace Levin.Framework

variable {κ E S X : Type*} [DecidableEq κ]

/-- The events of session `k`. -/
def on (key : E → Option κ) (k : κ) (es : List E) : List E := es.filter fun e => key e = some k

/-- The events of every session are a run of `R` from `s₀`. -/
def Interleaved (key : E → Option κ) (R : S → E → S → Prop) (s₀ : S) (es : List E) : Prop :=
  ∀ k, ∃ s, Run R s₀ (on key k es) s

/-- What `x` holds for a key is what the key's run calls for. -/
def Tracks (key : E → Option κ) (R : S → E → S → Prop) (s₀ : S) (sim : κ → X → S → Prop)
    (es : List E) (x : X) : Prop :=
  ∀ ⦃k s⦄, Run R s₀ (on key k es) s → sim k x s

variable {key : E → Option κ} {R : S → E → S → Prop} {s₀ s : S} {k : κ} {e : E} {es es' : List E}

theorem on_append (es es' : List E) : on key k (es ++ es') = on key k es ++ on key k es' :=
  List.filter_append _ _

theorem on_snoc_own (h : key e = some k) (es : List E) : on key k (es ++ [e]) = on key k es ++ [e] := by
  simp [on, h]

theorem on_snoc_other (h : key e ≠ some k) (es : List E) : on key k (es ++ [e]) = on key k es := by
  simp [on, h]

theorem mem_on (h : key e = some k) : e ∈ on key k es ↔ e ∈ es := by
  simp [on, h]

/-- An event takes its session's run a step further. -/
theorem Run.on_snoc {s' : S} (hk : key e = some k) (h : Run R s₀ (on key k es) s) (hR : R s e s') :
    Run R s₀ (on key k (es ++ [e])) s' := by
  rw [on_snoc_own hk]
  exact .snoc h hR

namespace Interleaved

theorem of_append (h : Interleaved key R s₀ (es ++ es')) : Interleaved key R s₀ es := by
  intro k
  obtain ⟨s, hs⟩ := h k
  rw [on_append] at hs
  obtain ⟨s', hs', -⟩ := Run.append_iff.mp hs
  exact ⟨s', hs'⟩

/-- Where an event finds its session. -/
theorem step (h : Interleaved key R s₀ (es ++ [e])) (hk : key e = some k) :
    ∃ s s', Run R s₀ (on key k es) s ∧ R s e s' := by
  obtain ⟨s', hs'⟩ := h k
  rw [on_snoc_own hk] at hs'
  obtain ⟨s, hs, hR⟩ := Run.snoc_iff.mp hs'
  exact ⟨s, s', hs, hR⟩

end Interleaved

/-- Only the sessions that occur need to be looked at. -/
theorem interleaved_iff {next : S → E → Option S} (hR : ∀ s e s', R s e s' ↔ next s e = some s') :
    Interleaved key R s₀ es ↔ ∀ k ∈ es.filterMap key, ((on key k es).foldlM next s₀).isSome := by
  simp only [Interleaved, run_iff_foldlM hR, Option.isSome_iff_exists]
  refine ⟨fun h k _ => h k, fun h k => ?_⟩
  by_cases hk : k ∈ es.filterMap key
  · exact h k hk
  · have hnone : on key k es = [] := by
      simp only [List.mem_filterMap, not_exists, not_and] at hk
      simpa [on, List.filter_eq_nil_iff] using hk
    exact ⟨s₀, by rw [hnone]; rfl⟩

namespace Tracks

variable {sim : κ → X → S → Prop} {x x' : X}

theorem nil (h : ∀ k, sim k x s₀) : Tracks key R s₀ sim [] x := by
  intro k s hs
  rw [Run.nil_iff.mp hs]
  exact h k

/-- One event more: the system follows it for its own session, and leaves every other as it is. -/
theorem snoc (h : Tracks key R s₀ sim es x)
    (hown : ∀ k s s', key e = some k → sim k x s → R s e s' → sim k x' s')
    (hother : ∀ k s, key e ≠ some k → sim k x s → sim k x' s) : Tracks key R s₀ sim (es ++ [e]) x' := by
  intro k s hs
  by_cases hk : key e = some k
  · rw [on_snoc_own hk] at hs
    obtain ⟨s', hs', hR⟩ := Run.snoc_iff.mp hs
    exact hown k s' s hk (h hs') hR
  · rw [on_snoc_other hk] at hs
    exact hother k s hk (h hs)

end Tracks

/-! ## Systems that are their sessions -/

/-- A system `T` whose steps are the steps of one session each: an event does to its own session what
`R` does, and nothing to the others. -/
structure Splits (key : E → Option κ) (R : S → E → S → Prop) (T : X → E → X → Prop) (J : X → Prop)
    (sim : κ → X → S → Prop) : Prop where
  det ⦃s : S⦄ ⦃e : E⦄ ⦃a b : S⦄ (ha : R s e a) (hb : R s e b) : a = b
  total (e : E) : (key e).isSome
  keeps ⦃x : X⦄ ⦃e : E⦄ ⦃x' : X⦄ (h : J x) (hT : T x e x') : J x'
  forth ⦃k : κ⦄ ⦃x : X⦄ ⦃s : S⦄ ⦃e : E⦄ ⦃x' : X⦄ (hJ : J x) (hk : key e = some k) (h : sim k x s) (hT : T x e x') :
    ∃ s', R s e s' ∧ sim k x' s'
  back ⦃k : κ⦄ ⦃x : X⦄ ⦃s : S⦄ ⦃e : E⦄ ⦃s' : S⦄ (hJ : J x) (hk : key e = some k) (h : sim k x s) (hR : R s e s') :
    ∃ x', T x e x'
  frame ⦃k : κ⦄ ⦃x : X⦄ ⦃s : S⦄ ⦃e : E⦄ ⦃x' : X⦄ (hk : key e ≠ some k) (h : sim k x s) (hT : T x e x') : sim k x' s

namespace Splits

variable {T : X → E → X → Prop} {J : X → Prop} {sim : κ → X → S → Prop} {x₀ x : X}

theorem tracks_snoc {x' : X} (h : Splits key R T J sim) (hJ : J x) (ht : Tracks key R s₀ sim es x) (hT : T x e x') :
    Tracks key R s₀ sim (es ++ [e]) x' := by
  refine ht.snoc (fun k s s' hk hs hR => ?_) fun k s hk hs => h.frame hk hs hT
  obtain ⟨s₁, h₁, hs₁⟩ := h.forth hJ hk hs hT
  rwa [h.det hR h₁]

/-- In every run of the system, the events of each session are a run of it alone, and the system holds for it what
that run leads to. -/
theorem of_run (h : Splits key R T J sim) (h₀ : J x₀) (hsim : ∀ k, sim k x₀ s₀) (hr : Run T x₀ es x) :
    J x ∧ Interleaved key R s₀ es ∧ Tracks key R s₀ sim es x := by
  refine hr.history (I := fun es x => J x ∧ Interleaved key R s₀ es ∧ Tracks key R s₀ sim es x)
    ⟨h₀, fun k => ⟨s₀, .nil⟩, .nil hsim⟩ ?_
  rintro es x e x' ⟨hJ, hi, ht⟩ hT
  refine ⟨h.keeps hJ hT, fun k => ?_, h.tracks_snoc hJ ht hT⟩
  obtain ⟨s, hs⟩ := hi k
  by_cases hk : key e = some k
  · obtain ⟨s', hR, -⟩ := h.forth hJ hk (ht hs) hT
    exact ⟨s', hs.on_snoc hk hR⟩
  · exact ⟨s, by rwa [on_snoc_other hk]⟩

/-- The runs of the system are the interleavings of its sessions' runs, and no others. -/
theorem run_iff (h : Splits key R T J sim) (h₀ : J x₀) (hsim : ∀ k, sim k x₀ s₀) :
    (∃ x, Run T x₀ es x) ↔ Interleaved key R s₀ es := by
  refine ⟨fun ⟨x, hr⟩ => (h.of_run h₀ hsim hr).2.1, fun hi => ?_⟩
  induction es using List.reverseRecOn with
  | nil => exact ⟨x₀, .nil⟩
  | append_singleton es e ih =>
    obtain ⟨x, hr⟩ := ih hi.of_append
    obtain ⟨hJ, -, ht⟩ := h.of_run h₀ hsim hr
    obtain ⟨k, hk⟩ := Option.isSome_iff_exists.mp (h.total e)
    obtain ⟨s, s', hs, hR⟩ := hi.step hk
    obtain ⟨x', hT⟩ := h.back hJ hk (ht hs) hR
    exact ⟨x', .snoc hr hT⟩

end Splits

end Levin.Framework
