import Mathlib.Data.List.Induction

/-!
# Insertion-ordered dictionaries

Python's `dict`: at most one value a key, and `items()` in the order in which
the keys were first set.
-/

namespace Levin.Framework

/-- The items of a dictionary, in the order of insertion. -/
abbrev Dict (κ ν : Type) := List (κ × ν)

namespace Dict

variable {κ ν : Type} [DecidableEq κ]

/-- `d.get(k)` -/
def get? (d : Dict κ ν) (k : κ) : Option ν := (d.find? fun kv => kv.1 = k).map Prod.snd

/-- `d[k] = v` -/
def set (k : κ) (v : ν) : Dict κ ν → Dict κ ν
  | [] => [(k, v)]
  | (k', v') :: d => if k' = k then (k', v) :: d else (k', v') :: set k v d

/-- `d.setdefault(k, []).append(v)` -/
def appendAt (k : κ) (v : ν) : Dict κ (List ν) → Dict κ (List ν)
  | [] => [(k, [v])]
  | (k', vs) :: d => if k' = k then (k', vs ++ [v]) :: d else (k', vs) :: appendAt k v d

/-- `d.pop(k)`: the value and what is left; `none` if there is no `k`. -/
def pop? (k : κ) (d : Dict κ ν) : Option (ν × Dict κ ν) :=
  (d.get? k).map fun v => (v, d.filter fun kv => kv.1 ≠ k)

/-- `{k: v for k, v in items}` -/
def ofItems (items : List (κ × ν)) : Dict κ ν := items.foldl (fun d kv => d.set kv.1 kv.2) []

@[simp] theorem get?_set_self (k : κ) (v : ν) (d : Dict κ ν) : (d.set k v).get? k = some v := by
  induction d with
  | nil => simp [set, get?]
  | cons kv d ih =>
    simp only [set]
    split
    · rename_i h
      simp [get?, h]
    · rename_i h
      simpa [get?, h] using ih

theorem get?_set_of_ne {k k' : κ} (v : ν) (d : Dict κ ν) (h : k' ≠ k) : (d.set k v).get? k' = d.get? k' := by
  induction d with
  | nil => simp [set, get?, Ne.symm h]
  | cons kv d ih =>
    simp only [set]
    split
    · rename_i hk
      simp [get?, hk, Ne.symm h]
    · by_cases hk : kv.1 = k'
      · simp [get?, hk]
      · simpa [get?, hk] using ih

theorem get?_map {ν' : Type} (f : ν → ν') (d : Dict κ ν) (k : κ) :
    get? (d.map fun kv => (kv.1, f kv.2)) k = (d.get? k).map f := by
  simp only [get?, List.find?_map, Option.map_map, Function.comp_def]

/-- After a number of items have been set, a key has the last value set, or the one it had. -/
theorem get?_foldl_set (items : List (κ × ν)) (d : Dict κ ν) (k : κ) :
    get? (items.foldl (fun d kv => d.set kv.1 kv.2) d) k = (get? items.reverse k).or (d.get? k) := by
  induction items generalizing d with
  | nil => rfl
  | cons kv items ih =>
    rw [List.foldl_cons, ih, List.reverse_cons]
    by_cases hk : kv.1 = k
    · subst hk
      rw [get?_set_self]
      cases h : items.reverse.find? fun kv' => kv'.1 = kv.1 <;> simp [get?, List.find?_append, h]
    · rw [get?_set_of_ne kv.2 d (Ne.symm hk)]
      simp [get?, List.find?_append, hk]

theorem pop?_of_get? {k : κ} {v : ν} {d : Dict κ ν} (h : d.get? k = some v) :
    d.pop? k = some (v, d.filter fun kv => kv.1 ≠ k) := by
  rw [pop?, h, Option.map_some]

/-- A popped key is gone. -/
theorem get?_filter_self (k : κ) (d : Dict κ ν) : get? (d.filter fun kv => kv.1 ≠ k) k = none := by
  simp only [get?, Option.map_eq_none_iff, List.find?_eq_none, List.mem_filter]
  intro kv hkv
  simpa using hkv.2

/-- The others stay. -/
theorem get?_filter_of_ne {k k' : κ} (d : Dict κ ν) (h : k' ≠ k) :
    get? (d.filter fun kv => kv.1 ≠ k) k' = d.get? k' := by
  induction d with
  | nil => rfl
  | cons kv d ih =>
    by_cases hk : kv.1 = k
    · rw [List.filter_cons_of_neg (by simp [hk]), ih]
      simp [get?, hk, Ne.symm h]
    · rw [List.filter_cons_of_pos (by simp [hk])]
      by_cases hk' : kv.1 = k'
      · simp [get?, hk']
      · simpa [get?, hk'] using ih

theorem get?_ne_none {k : κ} {d : Dict κ ν} : d.get? k ≠ none ↔ k ∈ d.map Prod.fst := by
  simp [get?]

theorem get?_eq_none {k : κ} {d : Dict κ ν} : d.get? k = none ↔ k ∉ d.map Prod.fst := by
  rw [← get?_ne_none, not_not]

/-- Setting a key adds its item, and no other. -/
theorem mem_set {k : κ} {v : ν} {kv : κ × ν} {d : Dict κ ν} (h : kv ∈ d.set k v) : kv = (k, v) ∨ kv ∈ d := by
  induction d with
  | nil => exact .inl (List.mem_singleton.mp h)
  | cons kv' d ih =>
    simp only [set] at h
    split at h
    · rename_i hk
      subst hk
      exact (List.mem_cons.mp h).imp_right (List.mem_cons_of_mem _)
    · rcases List.mem_cons.mp h with rfl | h
      · exact .inr List.mem_cons_self
      · exact (ih h).imp_right (List.mem_cons_of_mem _)

theorem nodup_set {k : κ} {v : ν} {d : Dict κ ν} (h : (d.map Prod.fst).Nodup) : ((d.set k v).map Prod.fst).Nodup := by
  induction d with
  | nil => exact List.nodup_cons.mpr ⟨List.not_mem_nil, List.nodup_nil⟩
  | cons kv d ih =>
    obtain ⟨hkv, hd⟩ := List.nodup_cons.mp h
    rw [set]
    split
    · next hk => exact List.nodup_cons.mpr ⟨hk ▸ hkv, hd⟩
    · next hk =>
      refine List.nodup_cons.mpr ⟨fun hmem => ?_, ih hd⟩
      obtain ⟨kv', hkv', heq⟩ := List.mem_map.mp hmem
      rcases mem_set hkv' with rfl | hmem'
      · exact hk heq.symm
      · exact hkv (heq ▸ List.mem_map_of_mem hmem')

theorem set_ne_nil (k : κ) (v : ν) (d : Dict κ ν) : d.set k v ≠ [] := by
  cases d with
  | nil => simp [set]
  | cons kv d =>
    simp only [set]
    split <;> simp

/-- A key that is there keeps its place. -/
theorem exists_of_get? {k : κ} {old : ν} {d : Dict κ ν} (h : d.get? k = some old) :
    ∃ before after : Dict κ ν, d = before ++ (k, old) :: after ∧ ∀ v, d.set k v = before ++ (k, v) :: after := by
  induction d with
  | nil => simp [get?] at h
  | cons kv d ih =>
    by_cases hk : kv.1 = k
    · simp only [get?, List.find?_cons, hk, decide_true, Option.map_some, Option.some.injEq] at h
      exact ⟨[], d, by rw [← hk, ← h, List.nil_append], fun v => by simp [set, hk]⟩
    · obtain ⟨before, after, hd, hset⟩ := ih (by simpa [get?, hk] using h)
      exact ⟨kv :: before, after, by rw [hd, List.cons_append], fun v => by simp [set, hk, hset v]⟩

theorem mem_of_get? {k : κ} {v : ν} {d : Dict κ ν} (h : d.get? k = some v) : (k, v) ∈ d := by
  obtain ⟨before, after, rfl, -⟩ := exists_of_get? h
  exact List.mem_append_right _ List.mem_cons_self

/-- Setting a key to the value it has changes nothing. -/
theorem set_of_get? {k : κ} {v : ν} {d : Dict κ ν} (h : d.get? k = some v) : d.set k v = d := by
  obtain ⟨before, after, hd, hset⟩ := exists_of_get? h
  rw [hset v, ← hd]

/-- A new key comes last. -/
theorem set_of_get?_none {k : κ} (v : ν) {d : Dict κ ν} (h : d.get? k = none) : d.set k v = d ++ [(k, v)] := by
  induction d with
  | nil => rfl
  | cons kv d ih =>
    by_cases hk : kv.1 = k
    · simp [get?, hk] at h
    · simp only [set, hk, if_false]
      rw [ih (by simpa [get?, hk] using h), List.cons_append]

/-- What has one item a key. -/
theorem get?_of_mem {k : κ} {v : ν} {d : Dict κ ν} (hd : (d.map Prod.fst).Nodup) (h : (k, v) ∈ d) :
    d.get? k = some v := by
  induction d with
  | nil => cases h
  | cons kv d ih =>
    rw [List.map_cons, List.nodup_cons] at hd
    rcases List.mem_cons.mp h with rfl | h
    · simp [get?]
    · have hne : kv.1 ≠ k := fun hk => hd.1 (List.mem_map.mpr ⟨_, h, hk.symm⟩)
      simpa [get?, hne] using ih hd.2 h

/-- Items with different keys make up the dictionary in their order. -/
theorem ofItems_of_nodup {items : List (κ × ν)} (h : (items.map Prod.fst).Nodup) : ofItems items = items := by
  induction items using List.reverseRecOn with
  | nil => rfl
  | append_singleton items kv ih =>
    rw [List.map_append, List.nodup_append] at h
    have hnew : get? items kv.1 = none := get?_eq_none.mpr fun hmem => h.2.2 _ hmem _ (by simp) rfl
    have ih := ih h.1
    rw [ofItems] at ih ⊢
    rw [List.foldl_append, ih]
    exact set_of_get?_none kv.2 hnew

/-- Two keys, one of which is there, may be set in either order. -/
theorem set_comm {k k' : κ} (v v' : ν) {d : Dict κ ν} (hne : k ≠ k') (h : d.get? k ≠ none) :
    (d.set k' v').set k v = (d.set k v).set k' v' := by
  induction d with
  | nil => simp [get?] at h
  | cons kv d ih =>
    by_cases hk : kv.1 = k
    · have hk' : kv.1 ≠ k' := hk ▸ hne
      simp [set, hk, hne]
    · have hd : Dict.get? d k ≠ none := by simpa [get?, hk] using h
      by_cases hk' : kv.1 = k'
      · simp [set, hk', Ne.symm hne]
      · simp [set, hk, hk', ih hd]

/-! ## Grouping -/

/-- The values of the items with key `k`, in order. -/
def valuesOf (k : κ) (items : List (κ × ν)) : List ν := (items.filter fun kv => kv.1 = k).map Prod.snd

/-- The values of each key, in order, under the key. -/
def group (items : List (κ × ν)) : Dict κ (List ν) := items.foldl (fun d kv => d.appendAt kv.1 kv.2) []

theorem valuesOf_cons_self (k : κ) (v : ν) (items : List (κ × ν)) :
    valuesOf k ((k, v) :: items) = v :: valuesOf k items := by
  simp [valuesOf]

theorem valuesOf_cons_of_ne {k : κ} {kv : κ × ν} (h : kv.1 ≠ k) (items : List (κ × ν)) :
    valuesOf k (kv :: items) = valuesOf k items := by
  simp [valuesOf, h]

theorem get?_appendAt_self (k : κ) (v : ν) (d : Dict κ (List ν)) :
    (d.appendAt k v).get? k = some ((d.get? k).getD [] ++ [v]) := by
  induction d with
  | nil => simp [appendAt, get?]
  | cons kv d ih =>
    simp only [appendAt]
    split
    · rename_i h
      simp [get?, h]
    · rename_i h
      simpa [get?, h] using ih

theorem get?_appendAt_of_ne {k k' : κ} (v : ν) (d : Dict κ (List ν)) (h : k' ≠ k) :
    (d.appendAt k v).get? k' = d.get? k' := by
  induction d with
  | nil => simp [appendAt, get?, Ne.symm h]
  | cons kv d ih =>
    simp only [appendAt]
    split
    · rename_i hk
      simp [get?, hk, Ne.symm h]
    · by_cases hk : kv.1 = k'
      · simp [get?, hk]
      · simpa [get?, hk] using ih

/-- A new key comes last. -/
theorem appendAt_of_get?_none {k : κ} (v : ν) {d : Dict κ (List ν)} (h : d.get? k = none) :
    d.appendAt k v = d ++ [(k, [v])] := by
  induction d with
  | nil => rfl
  | cons kv d ih =>
    by_cases hk : kv.1 = k
    · simp [get?, hk] at h
    · simp only [appendAt, hk, if_false]
      rw [ih (by simpa [get?, hk] using h), List.cons_append]

/-- Appending at a key that is there keeps the keys. -/
theorem keys_appendAt {k : κ} (v : ν) {d : Dict κ (List ν)} (h : d.get? k ≠ none) :
    (d.appendAt k v).map Prod.fst = d.map Prod.fst := by
  induction d with
  | nil => exact absurd rfl h
  | cons kv d ih =>
    by_cases hk : kv.1 = k
    · simp [appendAt, hk]
    · simp only [appendAt, hk, if_false, List.map_cons]
      rw [ih (by simpa [get?, hk] using h)]

theorem nodup_appendAt {k : κ} {v : ν} {d : Dict κ (List ν)} (h : (d.map Prod.fst).Nodup) :
    ((d.appendAt k v).map Prod.fst).Nodup := by
  by_cases hk : d.get? k = none
  · rw [appendAt_of_get?_none v hk, List.map_append, List.nodup_append]
    refine ⟨h, by simp, fun k' hk' k'' hk'' heq => get?_eq_none.mp hk ?_⟩
    obtain rfl : k'' = k := by simpa using hk''
    exact heq ▸ hk'
  · rwa [keys_appendAt v hk]

theorem get?_foldl_appendAt (items : List (κ × ν)) (d : Dict κ (List ν)) (k : κ) :
    get? (items.foldl (fun d kv => d.appendAt kv.1 kv.2) d) k =
      if valuesOf k items = [] then d.get? k else some ((d.get? k).getD [] ++ valuesOf k items) := by
  induction items generalizing d with
  | nil => rfl
  | cons kv items ih =>
    obtain ⟨k', v⟩ := kv
    rw [List.foldl_cons, ih]
    by_cases hk : k' = k
    · subst hk
      rw [valuesOf_cons_self, get?_appendAt_self]
      by_cases hnil : valuesOf k' items = [] <;> simp [hnil]
    · rw [get?_appendAt_of_ne v d (Ne.symm hk), valuesOf_cons_of_ne hk]

/-- A group has the values of its key. -/
theorem get?_group (items : List (κ × ν)) (k : κ) :
    (group items).get? k = if valuesOf k items = [] then none else some (valuesOf k items) := by
  rw [group, get?_foldl_appendAt]
  rfl

theorem nodup_group (items : List (κ × ν)) : ((group items).map Prod.fst).Nodup := by
  induction items using List.reverseRecOn with
  | nil => exact List.nodup_nil
  | append_singleton items kv ih =>
    rw [group, List.foldl_append]
    exact nodup_appendAt ih

/-- Items with different keys are groups of their own. -/
theorem group_of_nodup {items : List (κ × ν)} (h : (items.map Prod.fst).Nodup) :
    group items = items.map fun kv => (kv.1, [kv.2]) := by
  induction items using List.reverseRecOn with
  | nil => rfl
  | append_singleton items kv ih =>
    rw [List.map_append, List.nodup_append] at h
    have ih := ih h.1
    rw [group] at ih ⊢
    have hnew : get? (items.map fun kv => (kv.1, [kv.2])) kv.1 = none := by
      rw [get?_eq_none, List.map_map]
      exact fun hmem => h.2.2 _ hmem _ (by simp) rfl
    rw [List.foldl_append, ih, List.map_append]
    exact appendAt_of_get?_none kv.2 hnew

end Dict

end Levin.Framework
