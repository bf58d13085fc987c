import Mathlib.Data.List.Sort
import Mathlib.Tactic.Common

/-!
# Headings

A list that is gone through once, with a heading before each item whose key is not the
one of the item before (`headed`). If the items are sorted by their keys each key is a
heading once, in order, and what stands under it are all the items that have it
(`headed_sorted`).
-/

namespace Levin.Framework

variable {α β : Type} [DecidableEq β]

/-- Headings and items, after an item with some key. -/
def headed (key : α → β) : Option β → List α → List (β ⊕ α)
  | _, [] => []
  | last, a :: as =>
    if last = some (key a) then .inr a :: headed key last as else .inl (key a) :: .inr a :: headed key (some (key a)) as

/-- The part of a key: a heading, and the items that have it. -/
def part (key : α → β) (as : List α) (k : β) : List (β ⊕ α) := .inl k :: (as.filter fun a => key a = k).map .inr

/-- An item is in no part of another key. -/
theorem part_cons_of_ne {key : α → β} {a : α} {k : β} (h : key a ≠ k) (as : List α) : part key (a :: as) k = part key as k := by
  rw [part, part, List.filter_cons_of_neg (by simpa using h)]

section Sorted

variable [LinearOrder β] {key : α → β}

/-- The headings that follow, where an item of some key comes first. -/
structure KeysAfter (key : α → β) (as : List α) (k : β) (keys : List β) : Prop where
  increasing : keys.Pairwise (· < ·)
  mem_iff : ∀ k', k' ∈ keys ↔ k < k' ∧ k' ∈ as.map key

theorem KeysAfter.flatMap_part {a : α} {as : List α} {keys : List β} (h : KeysAfter key as (key a) keys) :
    keys.flatMap (part key (a :: as)) = keys.flatMap (part key as) :=
  List.flatMap_congr fun k hk => part_cons_of_ne ((h.mem_iff k).mp hk).1.ne as

/-- An item with a new key, and what comes after it. -/
theorem headed_new {a : α} {as : List α} (ha : ∀ b ∈ as, key a ≤ key b) {keys : List β} (h : KeysAfter key as (key a) keys)
    (heq : headed key (some (key a)) as = (as.filter fun b => key b = key a).map .inr ++ keys.flatMap (part key as)) :
    (key a :: keys).Pairwise (· < ·) ∧ (∀ k, k ∈ key a :: keys ↔ k ∈ (a :: as).map key) ∧
      .inl (key a) :: .inr a :: headed key (some (key a)) as = (key a :: keys).flatMap (part key (a :: as)) := by
  refine ⟨List.pairwise_cons.mpr ⟨fun k hk => ((h.mem_iff k).mp hk).1, h.increasing⟩, fun k => ?_, ?_⟩
  · rw [List.mem_cons, h.mem_iff, List.map_cons, List.mem_cons]
    constructor
    · rintro (rfl | ⟨-, hmem⟩)
      · exact .inl rfl
      · exact .inr hmem
    · rintro (rfl | hmem)
      · exact .inl rfl
      · obtain ⟨b, hb, rfl⟩ := List.mem_map.mp hmem
        exact (ha b hb).eq_or_lt.imp Eq.symm fun hlt => ⟨hlt, hmem⟩
  · rw [heq, List.flatMap_cons, h.flatMap_part, part, List.filter_cons_of_pos (by simp)]
    rfl

/-- After an item of a key, the others of this key come first. -/
theorem headed_after {as : List α} (h : as.Pairwise fun a b => key a ≤ key b) {k : β} (hk : ∀ a ∈ as, k ≤ key a) :
    ∃ keys, KeysAfter key as k keys ∧
      headed key (some k) as = (as.filter fun a => key a = k).map .inr ++ keys.flatMap (part key as) := by
  induction as generalizing k with
  | nil => exact ⟨[], ⟨List.Pairwise.nil, by simp⟩, rfl⟩
  | cons a as ih =>
    rw [List.pairwise_cons] at h
    rw [headed]
    by_cases ha : key a = k
    · subst ha
      obtain ⟨keys, hkeys, heq⟩ := ih h.2 h.1
      refine ⟨keys, ⟨hkeys.increasing, fun k' => ?_⟩, ?_⟩
      · rw [hkeys.mem_iff, List.map_cons, List.mem_cons]
        exact and_congr_right fun hlt => ⟨.inr, fun h => h.resolve_left hlt.ne'⟩
      · rw [if_pos rfl, heq, hkeys.flatMap_part, List.filter_cons_of_pos (by simp)]
        rfl
    · -- The items of `k` are over, and those of the next key begin.
      have hlt : ∀ b ∈ a :: as, k < key b := by
        have hlt : k < key a := lt_of_le_of_ne (hk a List.mem_cons_self) (Ne.symm ha)
        exact List.forall_mem_cons.mpr ⟨hlt, fun b hb => hlt.trans_le (h.1 b hb)⟩
      obtain ⟨keys, hkeys, heq⟩ := ih h.2 h.1
      obtain ⟨hincreasing, hmem, heq⟩ := headed_new h.1 hkeys heq
      refine ⟨key a :: keys, ⟨hincreasing, fun k' => ?_⟩, ?_⟩
      · rw [hmem, List.mem_map]
        refine ⟨fun hk' => ⟨?_, hk'⟩, fun hk' => hk'.2⟩
        obtain ⟨b, hb, rfl⟩ := hk'
        exact hlt b hb
      · have hnone : (a :: as).filter (fun b => key b = k) = [] :=
          List.filter_eq_nil_iff.mpr fun b hb => by simpa using (hlt b hb).ne'
        rw [if_neg (fun h => ha (Option.some.inj h).symm), heq, hnone]
        rfl

/-- Of sorted items each key is a heading once, in order, and the items of the key are under it. -/
theorem headed_sorted {as : List α} (h : as.Pairwise fun a b => key a ≤ key b) :
    ∃ keys : List β, keys.Pairwise (· < ·) ∧ (∀ k, k ∈ keys ↔ k ∈ as.map key) ∧
      headed key none as = keys.flatMap (part key as) := by
  cases as with
  | nil => exact ⟨[], List.Pairwise.nil, by simp, rfl⟩
  | cons a as =>
    rw [List.pairwise_cons] at h
    obtain ⟨keys, hkeys, heq⟩ := headed_after h.2 h.1
    exact ⟨key a :: keys, headed_new h.1 hkeys heq⟩

end Sorted

end Levin.Framework
