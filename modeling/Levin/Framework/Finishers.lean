import Mathlib.Data.List.Basic
import Mathlib.Tactic.Common

/-!
# Finishers

A finisher changes only what it claims. If of several no two claim the same, and what
one has finished is claimed by none, then going through all of them is the same as
letting the one finish that claims it (`finishAll_of_claims`), in whichever order they
stand.
-/

namespace Levin.Framework

structure Finisher (α : Type) where
  Claims : α → Prop
  finish : α → α
  finish_of_not : ∀ a, ¬ Claims a → finish a = a

variable {α : Type} {f : Finisher α} {fs : List (Finisher α)} {a : α}

/-- Going through finishers, from the last one on. -/
def finishAll (fs : List (Finisher α)) (a : α) : α := fs.foldr Finisher.finish a

theorem finishAll_cons (f : Finisher α) (fs : List (Finisher α)) (a : α) :
    finishAll (f :: fs) a = f.finish (finishAll fs a) := rfl

theorem finishAll_of_not (h : ∀ f ∈ fs, ¬ f.Claims a) : finishAll fs a = a := by
  induction fs with
  | nil => rfl
  | cons f fs ih =>
    rw [List.forall_mem_cons] at h
    rw [finishAll_cons, ih h.2, f.finish_of_not a h.1]

/-- No two finishers claim the same, and what one has finished none claims. -/
structure Separate (fs : List (Finisher α)) : Prop where
  apart : fs.Pairwise fun f g => ∀ a, ¬ (f.Claims a ∧ g.Claims a)
  finished : ∀ f ∈ fs, ∀ a, f.Claims a → ∀ g ∈ fs, ¬ g.Claims (f.finish a)

theorem Separate.tail (h : Separate (f :: fs)) : Separate fs where
  apart := (List.pairwise_cons.mp h.apart).2
  finished g hg a ha g' hg' := h.finished g (List.mem_cons_of_mem _ hg) a ha g' (List.mem_cons_of_mem _ hg')

/-- The one that claims it finishes it. -/
theorem finishAll_of_claims (h : Separate fs) (hf : f ∈ fs) (ha : f.Claims a) : finishAll fs a = f.finish a := by
  induction fs with
  | nil => exact absurd hf List.not_mem_nil
  | cons g fs ih =>
    rw [finishAll_cons]
    rcases List.mem_cons.mp hf with rfl | hmem
    · have hnone : ∀ g ∈ fs, ¬ g.Claims a := fun g hg hga => (List.pairwise_cons.mp h.apart).1 g hg a ⟨ha, hga⟩
      rw [finishAll_of_not hnone]
    · rw [ih h.tail hmem, g.finish_of_not _ (h.finished f hf a ha g List.mem_cons_self)]

end Levin.Framework
