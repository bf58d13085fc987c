import Levin.Framework.Dict
import Mathlib.Data.List.Nodup
import Mathlib.Data.List.Sort

/-!
# Values under their own keys

In a dictionary that is `Keyed` each value is under the key that is read off the value
itself. Two of them that have the same values are the same up to their order
(`Keyed.perm`), and so are the same once sorted by what tells their values apart
(`sortBy_perm`). To change the values of some keys, as `Updated` says, in a way that
does nothing more the second time gives the same values again (`Updated.again`).
-/

namespace Levin.Framework

variable {κ ν α : Type} [DecidableEq κ] {key : ν → κ} {d d' : Dict κ ν}

/-- Each value is under its own key, and no key is there twice. -/
structure Keyed (key : ν → κ) (d : Dict κ ν) : Prop where
  nodup : (d.map Prod.fst).Nodup
  own : ∀ kv ∈ d, key kv.2 = kv.1

namespace Keyed

theorem set (h : Keyed key d) (v : ν) : Keyed key (d.set (key v) v) where
  nodup := Dict.nodup_set h.nodup
  own kv hkv := by
    rcases Dict.mem_set hkv with rfl | hkv
    · rfl
    · exact h.own kv hkv

omit [DecidableEq κ] in
theorem ofValues {vs : List ν} (h : (vs.map key).Nodup) : Keyed key (vs.map fun v => (key v, v)) where
  nodup := by rwa [List.map_map]
  own kv hkv := by
    obtain ⟨v, -, rfl⟩ := List.mem_map.mp hkv
    rfl

theorem mem_iff (h : Keyed key d) {k : κ} {v : ν} : (k, v) ∈ d ↔ d.get? k = some v :=
  ⟨Dict.get?_of_mem h.nodup, Dict.mem_of_get?⟩

theorem key_of_get? (h : Keyed key d) {k : κ} {v : ν} (hv : d.get? k = some v) : key v = k :=
  h.own (k, v) (Dict.mem_of_get? hv)

/-- The values, each of which is under its own key. -/
theorem mem_values (h : Keyed key d) {v : ν} : v ∈ d.map Prod.snd ↔ d.get? (key v) = some v := by
  rw [List.mem_map, ← h.mem_iff]
  constructor
  · rintro ⟨⟨k, v⟩, hmem, rfl⟩
    rwa [h.own (k, v) hmem]
  · intro hmem
    exact ⟨(key v, v), hmem, rfl⟩

omit [DecidableEq κ] in
theorem nodup_values (h : Keyed key d) : ((d.map Prod.snd).map key).Nodup := by
  have hkeys : (d.map Prod.snd).map key = d.map Prod.fst := by
    rw [List.map_map]
    exact List.map_congr_left h.own
  rw [hkeys]
  exact h.nodup

/-- The same values in another order. -/
theorem perm (h : Keyed key d) (h' : Keyed key d') (hget : ∀ k, d.get? k = d'.get? k) :
    (d.map Prod.snd).Perm (d'.map Prod.snd) := by
  refine (List.perm_ext_iff_of_nodup h.nodup_values.of_map h'.nodup_values.of_map).mpr fun v => ?_
  rw [h.mem_values, h'.mem_values, hget]

end Keyed

/-! ## Changing the values of some keys -/

/-- The values of the keys in `S`, there or not, are what `f` makes of them, and the others are the same. -/
structure Updated (S : κ → Prop) (f : κ → Option ν → ν) (d d' : Dict κ ν) : Prop where
  changed : ∀ k, S k → d'.get? k = some (f k (d.get? k))
  same : ∀ k, ¬ S k → d'.get? k = d.get? k

namespace Updated

variable {S T U : κ → Prop} {f g : κ → Option ν → ν} {d₁ d₂ d₃ : Dict κ ν}

theorem refl (hS : ∀ k, ¬ S k) : Updated S f d d where
  changed k hk := absurd hk (hS k)
  same _ _ := rfl

theorem set {k : κ} (hS : ∀ k', S k' ↔ k' = k) : Updated S f d (d.set k (f k (d.get? k))) where
  changed k' hk' := by
    rw [(hS k').mp hk', Dict.get?_set_self]
  same k' hk' := Dict.get?_set_of_ne _ _ fun heq => hk' ((hS k').mpr heq)

/-- One set of keys after the other, which have none in common. -/
theorem trans (h : Updated S f d₁ d₂) (h' : Updated T f d₂ d₃) (hU : ∀ k, U k ↔ S k ∨ T k)
    (hdisjoint : ∀ k, S k → ¬ T k) : Updated U f d₁ d₃ where
  changed k hk := by
    rcases (hU k).mp hk with hS | hT
    · rw [h'.same k (hdisjoint k hS), h.changed k hS]
    · rw [h'.changed k hT, h.same k fun hS => hdisjoint k hS hT]
  same k hk := by
    rw [h'.same k fun hT => hk ((hU k).mpr (.inr hT)), h.same k fun hS => hk ((hU k).mpr (.inl hS))]

theorem congr (h : Updated S f d d') (hST : ∀ k, S k ↔ T k) (hfg : ∀ k v, T k → f k v = g k v) : Updated T g d d' where
  changed k hk := by
    rw [h.changed k ((hST k).mpr hk), hfg k _ hk]
  same k hk := h.same k fun hS => hk ((hST k).mp hS)

/-- Once more, of what has been changed already or is not there either: the result is the same. -/
theorem again (h : Updated S f d₁ d₂) (h' : Updated S f d d₃) (hf : ∀ k v, f k (some (f k v)) = f k v)
    (hd : ∀ k, d.get? k = d₂.get? k ∨ d.get? k = d₁.get? k) (k : κ) : d₃.get? k = d₂.get? k := by
  by_cases hk : S k
  · rw [h'.changed k hk, h.changed k hk]
    rcases hd k with heq | heq
    · rw [heq, h.changed k hk, hf]
    · rw [heq]
  · rw [h'.same k hk]
    rcases hd k with heq | heq
    · exact heq
    · rw [heq, h.same k hk]

end Updated

/-! ## Sorting -/

section Sorting

variable {β : Type} [LinearOrder β] {rank : α → β}

/-- `sorted(values, key=rank)` -/
def sortBy (rank : α → β) (values : List α) : List α := values.insertionSort fun a b => rank a ≤ rank b

theorem mem_sortBy {values : List α} {a : α} : a ∈ sortBy rank values ↔ a ∈ values :=
  (List.perm_insertionSort _ values).mem_iff

theorem sortBy_pairwise (rank : α → β) (values : List α) : (sortBy rank values).Pairwise fun a b => rank a ≤ rank b := by
  have htotal : Std.Total fun a b : α => rank a ≤ rank b := ⟨fun a b => le_total (rank a) (rank b)⟩
  have htrans : IsTrans α fun a b => rank a ≤ rank b := ⟨fun _ _ _ => le_trans⟩
  exact List.pairwise_insertionSort _ values

/-- Values of different ranks are strictly increasing once sorted. -/
theorem sortBy_strict {values : List α} (h : (values.map rank).Nodup) :
    (sortBy rank values).Pairwise fun a b => rank a < rank b := by
  have hnodup : ((sortBy rank values).map rank).Nodup :=
    ((List.perm_insertionSort _ values).map rank).nodup_iff.mpr h
  exact ((sortBy_pairwise rank values).and (List.pairwise_map.mp hnodup)).imp fun h => lt_of_le_of_ne h.1 h.2

/-- The order before sorting makes no difference to values of different ranks. -/
theorem sortBy_perm {values values' : List α} (hperm : values.Perm values') (h : (values.map rank).Nodup) :
    sortBy rank values = sortBy rank values' := by
  refine List.Perm.eq_of_pairwise ?_ (sortBy_pairwise rank values) (sortBy_pairwise rank values')
    ((List.perm_insertionSort _ values).trans (hperm.trans (List.perm_insertionSort _ values').symm))
  intro a b ha hb hab hba
  exact List.inj_on_of_nodup_map h (mem_sortBy.mp ha) (hperm.mem_iff.mpr (mem_sortBy.mp hb)) (le_antisymm hab hba)

end Sorting

end Levin.Framework
