import Levin.Core.Scope

/-!
# What getting an attribute leaves as it is

What `set` and the storing of a computed value keep, a `get` keeps, however many
attributes it computes on its way (`get_keeps`). So an attribute whose value is settled
has that value after any gets (`get_gets_of_settled`).
-/

namespace Levin

open Framework

variable {V : Type}

namespace ScopedRequest

theorem set_of_present {key : Bytes} {r : ScopedRequest V} (h : r.scope.get? key ≠ none) (slot : Slot V) :
    r.set key slot = r :=
  if_neg (by simp [h])

@[simp] theorem set_request (key : Bytes) (slot : Slot V) (r : ScopedRequest V) : (r.set key slot).request = r.request := by
  unfold set
  split <;> rfl

/-- The first to set a key wins. -/
theorem get?_set (key item : Bytes) (slot : Slot V) (r : ScopedRequest V) :
    (r.set key slot).scope.get? item = (r.scope.get? item).or (if item = key then some slot else none) := by
  by_cases hkey : r.scope.get? key = none
  · have hset : r.set key slot = { r with scope := r.scope.set key slot } := if_pos (.inl hkey)
    rw [hset]
    by_cases hitem : item = key
    · subst hitem
      rw [Dict.get?_set_self, hkey, if_pos rfl, Option.none_or]
    · rw [Dict.get?_set_of_ne _ _ hitem, if_neg hitem, Option.or_none]
  · rw [set_of_present hkey]
    by_cases hitem : item = key
    · subst hitem
      obtain ⟨old, hold⟩ := Option.ne_none_iff_exists'.mp hkey
      rw [hold, Option.some_or]
    · rw [if_neg hitem, Option.or_none]

/-- Setting attributes that are not there yet. -/
theorem foldl_set_of_nodup {slots : Dict Bytes (Slot V)} {r : ScopedRequest V}
    (h : ((r.scope ++ slots).map Prod.fst).Nodup) :
    slots.foldl (fun r kv => r.set kv.1 kv.2) r = { r with scope := r.scope ++ slots } := by
  induction slots generalizing r with
  | nil =>
    rw [List.append_nil]
    rfl
  | cons kv slots ih =>
    have hnone : r.scope.get? kv.1 = none := by
      refine Dict.get?_eq_none.mpr fun hmem => ?_
      rw [List.map_append, List.nodup_append] at h
      exact h.2.2 kv.1 hmem kv.1 List.mem_cons_self rfl
    have hset : r.set kv.1 kv.2 = { r with scope := r.scope ++ [kv] } := by
      unfold set
      rw [if_pos (.inl hnone), Dict.set_of_get?_none _ hnone]
    rw [List.foldl_cons, hset, ih (by rwa [List.append_assoc])]
    simp

/-- Setting a number of attributes: each is there if nothing was before. -/
theorem get?_foldl_set (slots : Dict Bytes (Slot V)) (r : ScopedRequest V) (item : Bytes) :
    (slots.foldl (fun r kv => r.set kv.1 kv.2) r).scope.get? item = (r.scope.get? item).or (slots.get? item) := by
  induction slots generalizing r with
  | nil => exact (Option.or_none).symm
  | cons kv slots ih =>
    rw [List.foldl_cons, ih, get?_set, Option.or_assoc]
    by_cases hitem : item = kv.1
    · simp [hitem, Dict.get?]
    · simp [hitem, Dict.get?, Ne.symm hitem]

theorem foldl_set_request (slots : Dict Bytes (Slot V)) (r : ScopedRequest V) :
    (slots.foldl (fun r kv => r.set kv.1 kv.2) r).request = r.request := by
  induction slots generalizing r with
  | nil => rfl
  | cons kv slots ih => exact (ih _).trans (set_request ..)

theorem get_of_none {depth : Nat} {item : Bytes} {r : ScopedRequest V} (h : r.scope.get? item = none) :
    r.get depth item = (.ok none, r) := by
  unfold get
  rw [h]

theorem get_of_value {depth : Nat} {item : Bytes} {r : ScopedRequest V} {v : V}
    (h : r.scope.get? item = some (.value v)) : r.get depth item = (.ok (some v), r) := by
  unfold get
  rw [h]

theorem get_of_lazy_zero {item : Bytes} {r : ScopedRequest V} {func : Request → LazyFunc V}
    (h : r.scope.get? item = some (.lazy func)) : r.get 0 item = (.error recursionError, r) := by
  unfold get
  rw [h]

theorem get_of_lazy {depth : Nat} {item : Bytes} {r : ScopedRequest V} {func : Request → LazyFunc V}
    (h : r.scope.get? item = some (.lazy func)) :
    r.get (depth + 1) item = store item (run (get depth) (func r.request) r) := by
  rw [get, h]

/-! ## Invariants of `get` -/

section Keeps

variable {Inv : ScopedRequest V → Prop}

theorem run_keeps {get : Bytes → ScopedRequest V → Except Exc (Option V) × ScopedRequest V}
    (hset : ∀ key slot r, Inv r → Inv (r.set key slot)) (hget : ∀ item r, Inv r → Inv (get item r).2) (func : LazyFunc V) :
    ∀ r, Inv r → Inv (run get func r).2 := by
  induction func with
  | ret v => exact fun r h => h
  | raise e => exact fun r h => h
  | get item next ih =>
    intro r h
    have hr := hget item r h
    unfold run
    split
    · next v r' heq =>
      rw [heq] at hr
      exact ih v r' hr
    · next e r' heq =>
      rw [heq] at hr
      exact hr
  | set key value next ih => exact fun r h => ih _ (hset key _ r h)
  | setLazy key func next _ ih => exact fun r h => ih _ (hset key _ r h)

/-- What every `set` keeps, and the storing of what was computed, every `get` keeps. -/
theorem get_keeps (hset : ∀ key slot r, Inv r → Inv (r.set key slot))
    (hstore : ∀ depth item func r v r', Inv r → r.scope.get? item = some (.lazy func) →
      run (get depth) (func r.request) r = (.ok v, r') → Inv r' → Inv { r' with scope := r'.scope.set item (.value v) })
    (depth : Nat) : ∀ item r, Inv r → Inv (r.get depth item).2 := by
  intro item
  induction depth generalizing item with
  | zero =>
    intro r h
    rcases hslot : r.scope.get? item with _ | ⟨v⟩ | ⟨func⟩
    · rwa [get_of_none hslot]
    · rwa [get_of_value hslot]
    · rwa [get_of_lazy_zero hslot]
  | succ depth ih =>
    intro r h
    rcases hslot : r.scope.get? item with _ | ⟨v⟩ | ⟨func⟩
    · rwa [get_of_none hslot]
    · rwa [get_of_value hslot]
    · rw [get_of_lazy hslot]
      have hrun := run_keeps hset (fun other r => ih other r) (func r.request) r h
      rcases hr : run (get depth) (func r.request) r with ⟨e | v, r'⟩ <;> rw [hr] at hrun
      · exact hrun
      · exact hstore depth item func r _ r' h hslot hr hrun

end Keeps

/-! ## Keys -/

/-- A scope has each key once. -/
def NodupKeys (r : ScopedRequest V) : Prop := (r.scope.map Prod.fst).Nodup

theorem NodupKeys.set {r : ScopedRequest V} (h : r.NodupKeys) (key : Bytes) (slot : Slot V) : (r.set key slot).NodupKeys := by
  unfold ScopedRequest.set
  split
  · exact Dict.nodup_set h
  · exact h

theorem NodupKeys.get {r : ScopedRequest V} (h : r.NodupKeys) (depth : Nat) (item : Bytes) : (r.get depth item).2.NodupKeys :=
  @get_keeps V NodupKeys (fun key slot _ h => h.set key slot) (fun _ _ _ _ _ _ _ _ _ h => Dict.nodup_set h) depth item r h

/-! ## Settled attributes -/

/-- The item has this value, or a function that only returns it. -/
def Settled (request : Request) (item : Bytes) (v : V) (r : ScopedRequest V) : Prop :=
  r.request = request ∧
    (r.scope.get? item = some (.value v) ∨ ∃ func, r.scope.get? item = some (.lazy func) ∧ func request = .ret v)

variable {request : Request} {item : Bytes} {v : V} {r : ScopedRequest V}

theorem Settled.get (h : Settled request item v r) (depth : Nat) (other : Bytes) : Settled request item v (r.get depth other).2 := by
  refine @get_keeps V (Settled request item v) (fun key slot r h => ?_) (fun depth key func r v' r' h hslot hrun h' => ?_)
    depth other r h
  · obtain ⟨hr, hvalue | ⟨func, hlazy, hfunc⟩⟩ := h
    · exact ⟨(set_request ..).trans hr, .inl (by rw [get?_set, hvalue, Option.some_or])⟩
    · exact ⟨(set_request ..).trans hr, .inr ⟨func, by rw [get?_set, hlazy, Option.some_or], hfunc⟩⟩
  · refine ⟨h'.1, ?_⟩
    by_cases hkey : key = item
    · -- The function of the item itself only returns its value.
      subst hkey
      obtain ⟨hr, hvalue | ⟨func', hlazy, hfunc⟩⟩ := h
      · rw [hvalue] at hslot
        cases hslot
      · rw [hlazy] at hslot
        cases hslot
        rw [hr, hfunc] at hrun
        cases hrun
        exact .inl (Dict.get?_set_self ..)
    · have hother : ∀ slot, Dict.get? (Dict.set key slot r'.scope) item = r'.scope.get? item :=
        fun slot => Dict.get?_set_of_ne _ _ (Ne.symm hkey)
      obtain ⟨-, hvalue | ⟨func', hlazy, hfunc⟩⟩ := h'
      · exact .inl ((hother _).trans hvalue)
      · exact .inr ⟨func', (hother _).trans hlazy, hfunc⟩

theorem get_of_settled (h : Settled request item v r) (depth : Nat) : (r.get (depth + 1) item).1 = .ok (some v) := by
  obtain ⟨hr, hvalue | ⟨func, hlazy, hfunc⟩⟩ := h
  · rw [get_of_value hvalue]
  · rw [get_of_lazy hlazy, hr, hfunc]
    rfl

/-- A function that asks for a settled attribute gets its value. -/
theorem run_attr_of_settled (h : Settled request item v r) (depth : Nat) (next : V → LazyFunc V) :
    run (ScopedRequest.get (depth + 1)) (.attr item next) r =
      run (ScopedRequest.get (depth + 1)) (next v) (r.get (depth + 1) item).2 := by
  have hget := get_of_settled h depth
  rw [LazyFunc.attr, run]
  cases hr : r.get (depth + 1) item with
  | mk out r' =>
    rw [hr] at hget
    obtain rfl : out = .ok (some v) := hget
    rfl

/-- A request after these gets. -/
def gets (depth : Nat) (items : List Bytes) (r : ScopedRequest V) : ScopedRequest V :=
  items.foldl (fun r item => (r.get depth item).2) r

/-- A settled attribute has its value, whatever was asked for before. -/
theorem get_gets_of_settled (h : Settled request item v r) (depth depth' : Nat) (items : List Bytes) :
    ((r.gets depth items).get (depth' + 1) item).1 = .ok (some v) := by
  induction items generalizing r with
  | nil => exact get_of_settled h depth'
  | cons other items ih => exact ih (h.get depth other)

end ScopedRequest

/-! ## What a lazy attribute may be -/

/-- Whatever the function returns has this property. -/
def LazyFunc.Returns (P : V → Prop) : LazyFunc V → Prop
  | .ret v => P v
  | .raise _ => True
  | .get _ next => ∀ v, (next v).Returns P
  | .set _ _ next => next.Returns P
  | .setLazy _ _ next => next.Returns P

theorem LazyFunc.returns_attr {P : V → Prop} {item : Bytes} {next : V → LazyFunc V} (h : ∀ v, (next v).Returns P) :
    (LazyFunc.attr item next).Returns P := by
  intro v
  cases v with
  | none => exact trivial
  | some v => exact h v

/-- What is under a key has this property, or will have it. -/
def Slot.Gives (P : V → Prop) (request : Request) : Slot V → Prop
  | .value v => P v
  | .lazy func => (func request).Returns P

namespace ScopedRequest

theorem run_returns {P : V → Prop} {get : Bytes → ScopedRequest V → Except Exc (Option V) × ScopedRequest V}
    {func : LazyFunc V} (h : func.Returns P) :
    ∀ {r : ScopedRequest V} {v : V}, (run get func r).1 = .ok v → P v := by
  induction func with
  | ret v =>
    intro r v' hrun
    exact Except.ok.inj hrun ▸ h
  | raise e => exact fun hrun => by cases hrun
  | get item next ih =>
    intro r v' hrun
    unfold run at hrun
    split at hrun
    · exact ih _ (h _) hrun
    · cases hrun
  | set key value next ih => exact ih h
  | setLazy key func next _ ih => exact ih h

theorem get_gives {P : V → Prop} {depth : Nat} {item : Bytes} {r : ScopedRequest V} {slot : Slot V}
    (hslot : r.scope.get? item = some slot) (h : slot.Gives P r.request) {v : V}
    (hget : (r.get depth item).1 = .ok (some v)) : P v := by
  cases slot with
  | value v' =>
    rw [get_of_value hslot] at hget
    exact Option.some.inj (Except.ok.inj hget) ▸ h
  | lazy func =>
    cases depth with
    | zero =>
      rw [get_of_lazy_zero hslot] at hget
      cases hget
    | succ depth =>
      rw [get_of_lazy hslot] at hget
      rcases hr : run (ScopedRequest.get depth) (func r.request) r with ⟨e | v', r'⟩ <;> rw [hr] at hget
      · cases hget
      · obtain rfl := Option.some.inj (Except.ok.inj hget)
        exact run_returns h (congrArg Prod.fst hr)

end ScopedRequest

end Levin
