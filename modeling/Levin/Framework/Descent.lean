import Mathlib.Data.Multiset.DershowitzManna

/-!
# Work that makes smaller work

Work is a multiset of tasks with sizes in a well-founded order. What is done to it
makes it less in the order of Dershowitz and Manna: a task is taken away
(`less_cons`), or gives way to smaller ones (`cons_less_cons`, `cons_cons_less`).
-/

namespace Levin.Framework

variable {α : Type*} [Preorder α] {M N : Multiset α} {a b c : α}

open Multiset

theorem less_cons (a : α) (M : Multiset α) : IsDershowitzMannaLT M (a ::ₘ M) :=
  ⟨M, 0, {a}, by simp, by simp, by rw [add_comm, singleton_add], by simp⟩

/-- A task is replaced by a smaller one, and the others become less. -/
theorem cons_less_cons (hab : a < b) (h : IsDershowitzMannaLT M N) : IsDershowitzMannaLT (a ::ₘ M) (b ::ₘ N) := by
  obtain ⟨X, Y, Z, -, rfl, rfl, hYZ⟩ := h
  refine ⟨X, a ::ₘ Y, b ::ₘ Z, by simp, by simp, by simp, fun y hy => ?_⟩
  rcases mem_cons.mp hy with rfl | hy
  · exact ⟨b, by simp, hab⟩
  · obtain ⟨z, hz, hlt⟩ := hYZ y hy
    exact ⟨z, by simp [hz], hlt⟩

/-- A task is replaced by a smaller one. -/
theorem cons_less (hab : a < b) (M : Multiset α) : IsDershowitzMannaLT (a ::ₘ M) (b ::ₘ M) :=
  ⟨M, {a}, {b}, by simp, by rw [add_comm, singleton_add], by rw [add_comm, singleton_add], by simpa using hab⟩

/-- A task is replaced by two smaller ones. -/
theorem cons_cons_less (hac : a < c) (hbc : b < c) (M : Multiset α) :
    IsDershowitzMannaLT (a ::ₘ b ::ₘ M) (c ::ₘ M) := by
  refine ⟨M, a ::ₘ {b}, {c}, by simp, by rw [add_comm, cons_add, singleton_add], by rw [add_comm, singleton_add], ?_⟩
  simp [hac, hbc]

/-- Induction on the work left. -/
@[elab_as_elim]
theorem work_induction [WellFoundedLT α] {P : Multiset α → Prop}
    (step : ∀ M, (∀ N, IsDershowitzMannaLT N M → P N) → P M) (M : Multiset α) : P M :=
  wellFounded_isDershowitzMannaLT.induction M step

end Levin.Framework
