import Mathlib.Data.List.Basic
import Mathlib.Data.List.Nodup
import Mathlib.Logic.Function.Basic

/-!
# Loops over a list that their body changes

`for x in xs: body(x)` takes, at its `i`-th turn, the element at position `i` of
the list as it is then. `forEach` is that loop over a list which is part of the
state. A body that removes the very element it is called on makes the loop skip
(`forEach_removing`): it calls its body on the elements at even positions
(`evens`), and leaves those at odd positions (`odds`).
-/

namespace Levin.Framework

variable {S α ε : Type*}

/-- `for x in xs: body(x)`, from position `i`, where `xs` is part of the state and an
exception of the body ends the loop. The body may only shrink the list, so a loop has at
most as many turns as the list had elements: `n` is a bound on the turns left. -/
def forEach (xs : S → List α) (body : α → S → S × Option ε) : Nat → Nat → S → S × Option ε
  | 0, _, s => (s, none)
  | n + 1, i, s =>
    match (xs s)[i]? with
    | none => (s, none)
    | some x =>
      match body x s with
      | (s', some e) => (s', some e)
      | (s', none) => forEach xs body n (i + 1) s'

/-- The loop `forEach xs body n i s` calls its body on `x` in the state `t`. -/
inductive Visits (xs : S → List α) (body : α → S → S × Option ε) : Nat → Nat → S → α → S → Prop
  | here {n i : Nat} {s : S} {x : α} : (xs s)[i]? = some x → Visits xs body (n + 1) i s x s
  | later {n i : Nat} {s s' t : S} {x y : α} :
    (xs s)[i]? = some y → body y s = (s', none) → Visits xs body n (i + 1) s' x t → Visits xs body (n + 1) i s x t

section Rules

variable {xs : S → List α} {body : α → S → S × Option ε}

/-- What the body keeps holds wherever it is called, and it is called on elements of the list. -/
theorem Visits.invariant {I : S → Prop} (h : ∀ x s, x ∈ xs s → I s → I (body x s).1) {n i : Nat} {s t : S} {x : α}
    (hv : Visits xs body n i s x t) (hs : I s) : x ∈ xs t ∧ I t := by
  induction hv with
  | here hx => exact ⟨List.mem_of_getElem? hx, hs⟩
  | later hy hbody _ ih =>
    have hI := h _ _ (List.mem_of_getElem? hy) hs
    rw [hbody] at hI
    exact ih hI

/-- What the body keeps, the loop keeps. -/
theorem forEach_invariant {I : S → Prop} (h : ∀ x s, x ∈ xs s → I s → I (body x s).1) :
    ∀ (n i : Nat) (s : S), I s → I (forEach xs body n i s).1
  | 0, _, _, hs => hs
  | n + 1, i, s, hs => by
    simp only [forEach]
    split
    · exact hs
    · rename_i x hx
      have hb := h x s (List.mem_of_getElem? hx) hs
      split
      · rename_i s' e hbs
        rwa [hbs] at hb
      · rename_i s' hbs
        rw [hbs] at hb
        exact forEach_invariant h n (i + 1) s' hb

/-- If the body raises nothing where `I` holds, the loop raises nothing. -/
theorem forEach_no_exc {I : S → Prop} (h : ∀ x s, x ∈ xs s → I s → I (body x s).1 ∧ (body x s).2 = none) :
    ∀ (n i : Nat) (s : S), I s → (forEach xs body n i s).2 = none
  | 0, _, _, _ => rfl
  | n + 1, i, s, hs => by
    simp only [forEach]
    split
    · rfl
    · rename_i x hx
      obtain ⟨hb, he⟩ := h x s (List.mem_of_getElem? hx) hs
      split
      · rename_i s' e hbs
        rw [hbs] at he
        cases he
      · rename_i s' hbs
        rw [hbs] at hb
        exact forEach_no_exc h n (i + 1) s' hb

/-- Two loops over the same list, whose bodies keep a relation between their states and raise the same, keep it and
raise the same. -/
theorem forEach_rel {T : Type*} {ys : T → List α} {body' : α → T → T × Option ε} {r : S → T → Prop}
    (hlist : ∀ s t, r s t → xs s = ys t)
    (hbody : ∀ x s t, r s t → r (body x s).1 (body' x t).1 ∧ (body x s).2 = (body' x t).2) :
    ∀ (n i : Nat) (s : S) (t : T), r s t →
      r (forEach xs body n i s).1 (forEach ys body' n i t).1 ∧ (forEach xs body n i s).2 = (forEach ys body' n i t).2
  | 0, _, _, _, h => ⟨h, rfl⟩
  | n + 1, i, s, t, h => by
    simp only [forEach, ← hlist s t h]
    split
    · exact ⟨h, rfl⟩
    · rename_i x hx
      have hb := hbody x s t h
      split <;> rename_i hs <;> rw [hs] at hb <;> split <;> rename_i ht <;> rw [ht] at hb
      · exact ⟨hb.1, hb.2⟩
      · cases hb.2
      · cases hb.2
      · exact forEach_rel hlist hbody n (i + 1) _ _ hb.1

/-- An element before the loop's position stays before it, as long as the list only
shrinks: it is never visited. -/
theorem mem_take_of_sublist {l l' : List α} {x : α} {i : Nat} (hl : l.Nodup) (hs : l'.Sublist l)
    (hx : x ∈ l.take i) (hx' : x ∈ l') : x ∈ l'.take i := by
  rw [← List.take_append_drop i l] at hs hl
  obtain ⟨l₁, l₂, rfl, h₁, h₂⟩ := List.sublist_append_iff.mp hs
  have hd := (List.nodup_append.mp hl).2.2
  have hx₁ : x ∈ l₁ := by
    rcases List.mem_append.mp hx' with h | h
    · exact h
    · exact absurd rfl (hd x hx x (h₂.subset h))
  have hlen : l₁.length ≤ i := Nat.le_trans h₁.length_le (List.length_take_le i l)
  rw [List.take_append, List.take_of_length_le hlen]
  exact List.mem_append_left _ hx₁

/-- An element before the loop's position is skipped: what holds of it and is kept by the
body's calls on the other elements holds after the loop. -/
theorem forEach_skip {I Q : S → Prop} {x : α} (hnd : ∀ s, I s → (xs s).Nodup)
    (hI : ∀ y s, y ∈ xs s → I s → I (body y s).1 ∧ (xs (body y s).1).Sublist (xs s))
    (hQ : ∀ y s, y ∈ xs s → I s → y ≠ x → Q s → Q (body y s).1) :
    ∀ (n i : Nat) (s : S), I s → (x ∈ xs s → x ∈ (xs s).take i) → Q s → Q (forEach xs body n i s).1
  | 0, _, _, _, _, hs => hs
  | n + 1, i, s, hIs, hx, hs => by
    simp only [forEach]
    split
    · exact hs
    · rename_i y hy
      have hmem := List.mem_of_getElem? hy
      have hne : y ≠ x := by
        rintro rfl
        obtain ⟨j, hj, e⟩ := List.mem_take_iff_getElem.mp (hx hmem)
        obtain ⟨hi, e'⟩ := List.getElem?_eq_some_iff.mp hy
        have := (List.Nodup.getElem_inj_iff (hnd s hIs)).mp (e.trans e'.symm)
        omega
      obtain ⟨hI', hsub⟩ := hI y s hmem hIs
      have hs' := hQ y s hmem hIs hne hs
      have hx' : x ∈ xs (body y s).1 → x ∈ (xs (body y s).1).take (i + 1) := fun h =>
        List.take_subset_take_left _ (Nat.le_succ i)
          (mem_take_of_sublist (hnd s hIs) hsub (hx (hsub.subset h)) h)
      generalize body y s = r at hI' hs' hx'
      obtain ⟨s', _ | e⟩ := r
      · exact forEach_skip hnd hI hQ n (i + 1) s' hI' hx' hs'
      · exact hs'

end Rules

/-! ## A body that removes the element it is called on -/

/-- The elements at even positions. -/
def evens : List α → List α
  | [] => []
  | [x] => [x]
  | x :: _ :: xs => x :: evens xs

/-- The elements at odd positions. -/
def odds (xs : List α) : List α := evens xs.tail

@[simp] theorem odds_nil : odds ([] : List α) = [] := rfl

@[simp] theorem odds_cons_cons (x y : α) (xs : List α) : odds (x :: y :: xs) = y :: odds xs := by
  cases xs <;> rfl

theorem mem_of_mem_evens {x : α} : ∀ {xs : List α}, x ∈ evens xs → x ∈ xs
  | [_], h => h
  | _ :: _ :: _, h => by
    rcases List.mem_cons.mp h with rfl | h
    · exact List.mem_cons_self
    · exact List.mem_cons_of_mem _ (List.mem_cons_of_mem _ (mem_of_mem_evens h))

theorem odds_eq_nil_iff {xs : List α} : odds xs = [] ↔ xs.length ≤ 1 := by
  match xs with
  | [] => simp
  | [x] => simp [odds, evens]
  | x :: y :: xs => simp

/-- A loop whose body removes the element it is called on, and does `v` to that element
alone, does `v` to every second element and leaves the others in the list. -/
theorem forEach_removing [DecidableEq α] {β : Type*} {xs : S → List α}
    {body : α → S → S × Option ε} {I : S → Prop} (view : S → α → β) (v : β)
    (hbody : ∀ x s, x ∈ xs s → I s → (body x s).2 = none ∧ I (body x s).1 ∧
      xs (body x s).1 = (xs s).erase x ∧ view (body x s).1 = Function.update (view s) x v) :
    ∀ (n : Nat) (p q : List α) (s : S), I s → xs s = p ++ q → (p ++ q).Nodup → q.length ≤ n →
      xs (forEach xs body n p.length s).1 = p ++ odds q ∧
        ∀ y, view (forEach xs body n p.length s).1 y = if y ∈ evens q then v else view s y
  | 0, p, q, s, _, hxs, _, hn => by
    obtain rfl := List.length_eq_zero_iff.mp (Nat.le_zero.mp hn)
    simp [forEach, hxs, evens]
  | n + 1, p, [], s, _, hxs, _, _ => by
    simp [forEach, hxs, evens]
  | n + 1, p, x :: q, s, hI, hxs, hnd, hn => by
    have hget : (xs s)[p.length]? = some x := by simp [hxs]
    obtain ⟨hexc, hI', hxs', hview⟩ := hbody x s (List.mem_of_getElem? hget) hI
    generalize hs' : body x s = r at hexc hI' hxs' hview
    obtain ⟨s', e⟩ := r
    obtain rfl : e = none := hexc
    simp only [forEach, hget, hs']
    have hxp : x ∉ p := fun h => (List.nodup_append.mp hnd).2.2 x h x List.mem_cons_self rfl
    have hxs'' : xs s' = p ++ q := by
      rw [hxs', hxs, List.erase_append_right _ hxp, List.erase_cons_head]
    have hnd' : (p ++ q).Nodup :=
      hnd.sublist ((List.sublist_cons_self x q).append_left p)
    match q, hxs'', hnd', hn with
    | [], hxs'', _, _ =>
      -- The loop's position is past the end of what is left.
      have hstop : forEach xs body n (p.length + 1) s' = (s', none) := by
        cases n with
        | zero => rfl
        | succ n => simp [forEach, hxs'']
      simp only [hstop, hxs'', hview]
      refine ⟨by simp [odds, evens], fun y => ?_⟩
      simp [evens, Function.update_apply]
    | y :: q, hxs'', hnd', hn =>
      -- `y` has moved to the position just visited, and is skipped.
      have ih := forEach_removing view v hbody n (p ++ [y]) q s' hI' (by simp [hxs'']) (by simpa using hnd')
        (by simp only [List.length_cons] at hn; omega)
      simp only [List.length_append, List.length_singleton] at ih
      refine ⟨by rw [ih.1]; simp, fun z => ?_⟩
      rw [ih.2 z, hview]
      simp only [evens, List.mem_cons, Function.update_apply]
      by_cases hz : z = x
      · subst hz
        simp
      · simp [hz]

end Levin.Framework
