import Mathlib.Data.List.Basic

/-!
# Chains of programs that call the next one

A link of a chain is given a request and a handler, and may call the next link any
number of times, with other requests and handlers, before it ends (`Program`).
`Chain.Runs` is what a chain does: the events of a run, in order, and its result.
-/

namespace Levin.Framework

/-- What a link does: it ends, or calls the next link and goes on with what that returns. -/
inductive Program (ρ η α : Type)
  | done (result : α)
  | next (request : ρ) (handler : η) (k : α → Program ρ η α)

variable {ι ρ η ε α : Type}

namespace Program

/-- The events of a program that calls `next`, and its result. -/
def run (next : ρ → η → List ε × α) : Program ρ η α → List ε × α
  | done a => ([], a)
  | .next request handler k =>
    let called := next request handler
    let rest := run next (k called.2)
    (called.1 ++ rest.1, rest.2)

/-- A program that calls what runs as `next` says, runs with these events and this result. -/
inductive Runs (next : ρ → η → List ε → α → Prop) : Program ρ η α → List ε → α → Prop
  | done (a : α) : Runs next (done a) [] a
  | next {request : ρ} {handler : η} {k : α → Program ρ η α} {es es' : List ε} {b a : α} :
      next request handler es b → Runs next (k b) es' a → Runs next (.next request handler k) (es ++ es') a

variable {next : ρ → η → List ε → α → Prop} {p : Program ρ η α} {es : List ε} {a : α}

/-- A program that does not call the next link does nothing but end. -/
theorem runs_done {b : α} : Runs next (done b) es a ↔ es = [] ∧ a = b := by
  constructor
  · intro h
    cases h
    exact ⟨rfl, rfl⟩
  · rintro ⟨rfl, rfl⟩
    exact .done a

/-- Events that no call of the next link has, no run has. -/
theorem Runs.forall_mem {P : ε → Prop} (hnext : ∀ {request handler es b}, next request handler es b → ∀ e ∈ es, P e)
    (h : Runs next p es a) : ∀ e ∈ es, P e := by
  induction h with
  | done a => exact fun e he => absurd he List.not_mem_nil
  | next hb _ ih =>
    intro e he
    exact (List.mem_append.mp he).elim (hnext hb e) (ih e)

/-- Where the next link is a function, `run` is the only run. -/
theorem runs_iff {f : ρ → η → List ε × α} (hnext : ∀ request handler es b,
    next request handler es b ↔ f request handler = (es, b)) : Runs next p es a ↔ run f p = (es, a) := by
  constructor
  · intro h
    induction h with
    | done a => rfl
    | next hb _ ih => simp only [run, (hnext _ _ _ _).mp hb, ih]
  · intro h
    induction p generalizing es a with
    | done b =>
      obtain ⟨rfl, rfl⟩ := Prod.mk.inj h
      exact .done b
    | next request handler k ih =>
      obtain ⟨rfl, rfl⟩ := Prod.mk.inj h
      exact .next ((hnext _ _ _ _).mpr rfl) (ih _ rfl)

end Program

namespace Chain

variable (enter : ι → ρ → η → ε) (body : ι → ρ → η → Program ρ η α) (inner : ρ → η → List ε → α → Prop)

/-- The runs of a chain: each link enters with the request and the handler it is called with, and its program
runs with the rest of the chain as its next link. After the last link comes `inner`. -/
def Runs : List ι → ρ → η → List ε → α → Prop
  | [], request, handler, es, a => inner request handler es a
  | i :: is, request, handler, es, a =>
    ∃ es', es = enter i request handler :: es' ∧ Program.Runs (Runs is) (body i request handler) es' a

variable {enter body inner} {is : List ι} {request : ρ} {handler : η} {es : List ε} {a : α}

/-- What runs is the links of the chain and what comes after the last. -/
theorem Runs.forall_mem {P : ε → Prop} (henter : ∀ i ∈ is, ∀ request handler, P (enter i request handler))
    (hinner : ∀ {request handler es a}, inner request handler es a → ∀ e ∈ es, P e)
    (h : Runs enter body inner is request handler es a) : ∀ e ∈ es, P e := by
  induction is generalizing request handler es a with
  | nil => exact hinner h
  | cons i is ih =>
    obtain ⟨es', rfl, h⟩ := h
    have hrest := h.forall_mem fun hb => ih (fun j hj => henter j (List.mem_cons_of_mem _ hj)) hb
    intro e he
    rcases List.mem_cons.mp he with rfl | he
    · exact henter i List.mem_cons_self request handler
    · exact hrest e he

/-- A link that never calls the next one hides all that comes after it. -/
theorem runs_hide {i : ι} (hi : ∀ request handler, ∃ b, body i request handler = .done b) (before after : List ι) :
    Runs enter body inner (before ++ i :: after) = Runs enter body (fun _ _ _ _ => False) (before ++ [i]) := by
  induction before with
  | nil =>
    funext request handler es a
    obtain ⟨b, hb⟩ := hi request handler
    simp only [List.nil_append, Runs, hb, Program.runs_done]
  | cons j before ih =>
    funext request handler es a
    simp only [List.cons_append, Runs, ih]

/-- A chain of functions: the result and the events of each link with the rest of the chain. -/
theorem runs_iff {f : List ι → ρ → η → List ε × α}
    (hinner : ∀ request handler es a, inner request handler es a ↔ f [] request handler = (es, a))
    (hcons : ∀ i is request handler, f (i :: is) request handler =
      (enter i request handler :: ((body i request handler).run (f is)).1, ((body i request handler).run (f is)).2)) :
    Runs enter body inner is request handler es a ↔ f is request handler = (es, a) := by
  induction is generalizing request handler es a with
  | nil => exact hinner request handler es a
  | cons i is ih =>
    have hprogram : ∀ es', Program.Runs (Runs enter body inner is) (body i request handler) es' a ↔
        (body i request handler).run (f is) = (es', a) :=
      fun es' => Program.runs_iff fun request handler es b => ih
    rw [hcons]
    constructor
    · rintro ⟨es', rfl, h⟩
      rw [(hprogram es').mp h]
    · intro h
      obtain ⟨rfl, rfl⟩ := Prod.mk.inj h
      exact ⟨_, rfl, (hprogram _).mpr rfl⟩

end Chain

end Levin.Framework
