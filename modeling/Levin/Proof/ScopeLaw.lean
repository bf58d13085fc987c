import Levin.Framework.Run
import Levin.Proof.ScopeTrace

/-!
# Attributes are computed once

As long as a request is used without a cycle, its log determines its scope
(`Inv.scope`): the first `set` of a key wins, and once the function of a lazy
attribute has returned, what it returned is the value from then on. Every `get` is
according to that (`lawful_calls`).
-/

namespace Levin

open Framework

variable {V : Type}

namespace ScopeEvent

def slotOf? (key : Bytes) : ScopeEvent V → Option (Slot V)
  | .set k slot => if k = key then some slot else none
  | _ => none

def returnedOf? (key : Bytes) : ScopeEvent V → Option V
  | .returned k v => if k = key then some v else none
  | _ => none

def startedKey? : ScopeEvent V → Option Bytes
  | .started key _ => some key
  | _ => none

end ScopeEvent

/-- What `key` is set to first. -/
def firstSet (key : Bytes) (log : List (ScopeEvent V)) : Option (Slot V) := log.findSome? (·.slotOf? key)

/-- What the function of `key` has returned. -/
def returnedBy (key : Bytes) (log : List (ScopeEvent V)) : Option V := log.findSome? (·.returnedOf? key)

/-- The keys whose functions have been called, each as often as it has been. -/
def startedKeys (log : List (ScopeEvent V)) : List Bytes := log.filterMap ScopeEvent.startedKey?

/-- A `get` that returns `out` after the events `log`: the default and an unchanged scope where the key
has not been set, the value it was first set to, or what the function returned that it was first set to. -/
def GotRight (key : Bytes) (out : Option V) (before after : Dict Bytes (Slot V)) (log : List (ScopeEvent V)) : Prop :=
  match firstSet key log with
  | none => out = none ∧ after = before
  | some (.value v) => out = some v
  | some (.lazy _) => ∃ v, out = some v ∧ returnedBy key log = some v

/-- What is asked of the scope of a request. -/
structure Lawful (log : List (ScopeEvent V)) : Prop where
  /-- The function of an attribute is called once. -/
  once : (startedKeys log).Nodup
  /-- It is the one that the key was first set to. -/
  own (key : Bytes) (func : Request → LazyFunc V) (h : .started key func ∈ log) : firstSet key log = some (.lazy func)
  got (l₁ : List (ScopeEvent V)) (key : Bytes) (out : Option V) (before after : Dict Bytes (Slot V))
    (l₂ : List (ScopeEvent V)) (h : log = l₁ ++ .got key out before after :: l₂) : GotRight key out before after l₁
  /-- What has been got of a key is the same each time. -/
  same (key : Bytes) (v v' : V) (b a b' a' : Dict Bytes (Slot V)) (h : .got key (some v) b a ∈ log)
    (h' : .got key (some v') b' a' ∈ log) : v = v'

/-! ## Logs -/

section Logs

variable (key : Bytes) (log : List (ScopeEvent V)) (e : ScopeEvent V)

theorem firstSet_snoc : firstSet key (log ++ [e]) = (firstSet key log).or (e.slotOf? key) := by
  rw [firstSet, List.findSome?_append, List.findSome?_cons]
  cases e.slotOf? key <;> rfl

theorem returnedBy_snoc : returnedBy key (log ++ [e]) = (returnedBy key log).or (e.returnedOf? key) := by
  rw [returnedBy, List.findSome?_append, List.findSome?_cons]
  cases e.returnedOf? key <;> rfl

theorem startedKeys_snoc : startedKeys (log ++ [e]) = startedKeys log ++ e.startedKey?.toList := by
  rw [startedKeys, List.filterMap_append]
  cases h : e.startedKey? <;> simp [startedKeys, h]

variable {e}

theorem firstSet_snoc_of_none (h : e.slotOf? key = none) : firstSet key (log ++ [e]) = firstSet key log := by
  rw [firstSet_snoc, h, Option.or_none]

theorem returnedBy_snoc_of_none (h : e.returnedOf? key = none) : returnedBy key (log ++ [e]) = returnedBy key log := by
  rw [returnedBy_snoc, h, Option.or_none]

theorem startedKeys_snoc_of_none (h : e.startedKey? = none) : startedKeys (log ++ [e]) = startedKeys log := by
  rw [startedKeys_snoc, h, Option.toList_none, List.append_nil]

end Logs

/-- What is in the scope under `key`, going by the log. -/
def scopeOf (key : Bytes) (log : List (ScopeEvent V)) : Option (Slot V) :=
  match firstSet key log with
  | some (.lazy func) => some ((returnedBy key log).elim (.lazy func) .value)
  | slot => slot

namespace Traced

/-- What holds of a request that has been used without a cycle. -/
structure Inv (t : Traced V) : Prop where
  scope (key : Bytes) : t.target.scope.get? key = scopeOf key t.log
  running (key : Bytes) : key ∈ t.running ↔ key ∈ startedKeys t.log ∧ returnedBy key t.log = none
  nodup : t.running.Nodup
  returned (key : Bytes) (v : V) (h : returnedBy key t.log = some v) : key ∈ startedKeys t.log
  once : (startedKeys t.log).Nodup
  own (key : Bytes) (func : Request → LazyFunc V) (h : .started key func ∈ t.log) :
    firstSet key t.log = some (.lazy func)
  got (l₁ : List (ScopeEvent V)) (key : Bytes) (out : Option V) (before after : Dict Bytes (Slot V))
    (l₂ : List (ScopeEvent V)) (h : t.log = l₁ ++ .got key out before after :: l₂) : GotRight key out before after l₁

variable {t t' : Traced V} {item key : Bytes}

theorem mem_startedKeys {log : List (ScopeEvent V)} : key ∈ startedKeys log ↔ ∃ func, .started key func ∈ log := by
  rw [startedKeys, List.mem_filterMap]
  constructor
  · rintro ⟨e, he, hkey⟩
    cases e with
    | started key' func =>
      obtain rfl := Option.some.inj hkey
      exact ⟨func, he⟩
    | set | cycle | returned | raised | got => cases hkey
  · exact fun ⟨func, h⟩ => ⟨_, h, rfl⟩

/-- What has returned has been set. -/
theorem Inv.returnedBy_eq_none (h : Inv t) (hset : firstSet key t.log = none) : returnedBy key t.log = none := by
  by_contra hne
  obtain ⟨v, hv⟩ := Option.ne_none_iff_exists'.mp hne
  obtain ⟨func, hfunc⟩ := mem_startedKeys.mp (h.returned key v hv)
  rw [h.own key func hfunc] at hset
  cases hset

/-- A key with a function in the scope has been set to it, and it has not returned. -/
theorem Inv.lazy (h : Inv t) {func : Request → LazyFunc V} (hslot : t.target.scope.get? key = some (.lazy func)) :
    firstSet key t.log = some (.lazy func) ∧ returnedBy key t.log = none := by
  rw [h.scope, scopeOf] at hslot
  split at hslot
  · rename_i func' hfirst
    cases hreturned : returnedBy key t.log with
    | none =>
      rw [hreturned] at hslot
      cases hslot
      exact ⟨hfirst, rfl⟩
    | some v =>
      rw [hreturned] at hslot
      cases hslot
  · rename_i hne
    exact absurd hslot (hne func)

/-- What is in the scope is what a `get` should return. -/
theorem Inv.gotRight (h : Inv t) {out : Option V} (hslot : t.target.scope.get? item = out.map .value)
    (scope : Dict Bytes (Slot V)) : GotRight item out scope scope t.log := by
  rw [h.scope, scopeOf] at hslot
  unfold GotRight
  cases hfirst : firstSet item t.log with
  | none =>
    rw [hfirst] at hslot
    exact ⟨by simpa using hslot.symm, rfl⟩
  | some slot =>
    rw [hfirst] at hslot
    cases slot with
    | value v => simpa [Option.map_eq_some_iff, eq_comm] using hslot
    | lazy func =>
      cases hreturned : returnedBy item t.log with
      | none => simp [hreturned, eq_comm] at hslot
      | some v =>
        rw [hreturned] at hslot
        exact ⟨v, by simpa [Option.map_eq_some_iff, eq_comm] using hslot, rfl⟩

/-- One event more, with which no function is called and none returns. -/
theorem Inv.snoc (h : Inv t) {e : ScopeEvent V} (hlog : t'.log = t.log ++ [e]) (hrunning : t'.running = t.running)
    (hstarted : e.startedKey? = none) (hreturned : ∀ key, e.returnedOf? key = none)
    (hscope : ∀ key, t'.target.scope.get? key = scopeOf key (t.log ++ [e]))
    (hgot : ∀ (l₁ : List (ScopeEvent V)) (key : Bytes) (out : Option V) (before after : Dict Bytes (Slot V))
      (l₂ : List (ScopeEvent V)), t.log ++ [e] = l₁ ++ .got key out before after :: l₂ →
        GotRight key out before after l₁) : Inv t' := by
  have hkeys := startedKeys_snoc_of_none t.log hstarted
  have hsame : ∀ key, returnedBy key (t.log ++ [e]) = returnedBy key t.log :=
    fun key => returnedBy_snoc_of_none key t.log (hreturned key)
  refine ⟨fun key => ?_, fun key => ?_, ?_, fun key v hv => ?_, ?_, fun key func hf => ?_, ?_⟩
  · rw [hlog]
    exact hscope key
  · rw [hrunning, hlog, hkeys, hsame]
    exact h.running key
  · rw [hrunning]
    exact h.nodup
  · rw [hlog] at hv ⊢
    rw [hkeys]
    exact h.returned key v (hsame key ▸ hv)
  · rw [hlog, hkeys]
    exact h.once
  · rw [hlog] at hf ⊢
    rcases List.mem_append.mp hf with hf | hf
    · rw [firstSet_snoc, h.own key func hf]
      rfl
    · cases List.mem_singleton.mp hf
      cases hstarted
  · rw [hlog]
    exact hgot

theorem Inv.add_got (h : Inv t) {out : Option V} {before after : Dict Bytes (Slot V)}
    (hgot : GotRight item out before after t.log) : Inv (t.add (.got item out before after)) := by
  refine h.snoc rfl rfl rfl (fun _ => rfl) (fun key => ?_) fun l₁ key out' before' after' l₂ heq => ?_
  · rw [scopeOf, firstSet_snoc_of_none key t.log rfl, returnedBy_snoc_of_none key t.log rfl]
    exact h.scope key
  · rcases snoc_eq_append_cons.mp heq with ⟨rfl, hsame, rfl⟩ | ⟨l₂', hlog, rfl⟩
    · cases hsame
      exact hgot
    · exact h.got l₁ key out' before' after' l₂' hlog

/-- Any other event leaves the gets before it as they are. -/
theorem Inv.got_snoc (h : Inv t) {e : ScopeEvent V} (he : ∀ key out before after, e ≠ .got key out before after)
    (l₁ : List (ScopeEvent V)) (key : Bytes) (out : Option V) (before after : Dict Bytes (Slot V))
    (l₂ : List (ScopeEvent V)) (heq : t.log ++ [e] = l₁ ++ .got key out before after :: l₂) :
    GotRight key out before after l₁ := by
  rcases snoc_eq_append_cons.mp heq with ⟨-, rfl, -⟩ | ⟨l₂', hlog, -⟩
  · exact absurd rfl (he key out before after)
  · exact h.got l₁ key out before after l₂' hlog

theorem Inv.set (h : Inv t) (key : Bytes) (slot : Slot V) : Inv (t.set key slot) := by
  refine h.snoc rfl rfl rfl (fun _ => rfl) (fun item => ?_) (h.got_snoc nofun)
  have hget : (t.set key slot).target.scope.get? item =
      (t.target.scope.get? item).or (if item = key then some slot else none) := ScopedRequest.get?_set key item slot _
  have hfirst : firstSet item (t.log ++ [.set key slot]) =
      (firstSet item t.log).or (if key = item then some slot else none) := firstSet_snoc item t.log _
  rw [hget, scopeOf, hfirst, returnedBy_snoc_of_none item t.log rfl, h.scope, scopeOf]
  cases hset : firstSet item t.log with
  | none =>
    rw [h.returnedBy_eq_none hset]
    by_cases hitem : item = key
    · cases slot <;> simp [hitem]
    · simp [hitem, Ne.symm hitem]
  | some slot' => cases slot' <;> rfl

theorem Inv.start (h : Inv t) {func : Request → LazyFunc V} (hslot : t.target.scope.get? item = some (.lazy func))
    (hrunning : item ∉ t.running) : Inv (t.start item func) := by
  obtain ⟨hset, hnone⟩ := h.lazy hslot
  have hnew : item ∉ startedKeys t.log := fun hmem => hrunning ((h.running item).mpr ⟨hmem, hnone⟩)
  have hlog := start_log_of_not_mem hrunning func
  have hfirst : ∀ key, firstSet key (t.log ++ [.started item func]) = firstSet key t.log :=
    fun key => firstSet_snoc_of_none key t.log rfl
  have hreturned : ∀ key, returnedBy key (t.log ++ [.started item func]) = returnedBy key t.log :=
    fun key => returnedBy_snoc_of_none key t.log rfl
  have hstarted : startedKeys (t.log ++ [.started item func]) = startedKeys t.log ++ [item] := startedKeys_snoc _ _
  refine ⟨fun key => ?_, fun key => ?_, ?_, fun key v hv => ?_, ?_, fun key func' hf => ?_, ?_⟩
  · rw [start_target, hlog, scopeOf, hfirst, hreturned]
    exact h.scope key
  · rw [start_running, hlog, hstarted, hreturned, List.mem_cons, List.mem_append, List.mem_singleton, h.running key]
    constructor
    · rintro (rfl | ⟨hmem, hkey⟩)
      · exact ⟨.inr rfl, hnone⟩
      · exact ⟨.inl hmem, hkey⟩
    · rintro ⟨hmem | rfl, hkey⟩
      · exact .inr ⟨hmem, hkey⟩
      · exact .inl rfl
  · exact List.nodup_cons.mpr ⟨hrunning, h.nodup⟩
  · rw [hlog] at hv ⊢
    rw [hstarted]
    exact List.mem_append_left _ (h.returned key v (hreturned key ▸ hv))
  · rw [hlog, hstarted, List.nodup_append]
    refine ⟨h.once, List.nodup_singleton _, fun key hkey key' hkey' heq => hnew ?_⟩
    rwa [← List.mem_singleton.mp hkey', ← heq]
  · rw [hlog] at hf ⊢
    rw [hfirst]
    rcases List.mem_append.mp hf with hf | hf
    · exact h.own key func' hf
    · cases List.mem_singleton.mp hf
      exact hset
  · rw [hlog]
    exact h.got_snoc nofun

/-- The function of `item` returns `v`, which is stored. -/
theorem Inv.return {rest : List Bytes} {v : V} (h : Inv t) (hrunning : t.running = item :: rest) :
    Inv { target := { t.target with scope := t.target.scope.set item (.value v) }, running := rest,
          log := t.log ++ [.returned item v] } := by
  obtain ⟨hstarted, hnone⟩ := (h.running item).mp (hrunning ▸ List.mem_cons_self)
  obtain ⟨func, hfunc⟩ := mem_startedKeys.mp hstarted
  have hnodup := hrunning ▸ h.nodup
  have hfirst : ∀ key, firstSet key (t.log ++ [.returned item v]) = firstSet key t.log :=
    fun key => firstSet_snoc_of_none key t.log rfl
  have hreturned : ∀ key, returnedBy key (t.log ++ [.returned item v]) =
      (returnedBy key t.log).or (if item = key then some v else none) := fun key => returnedBy_snoc key t.log _
  have hother : ∀ key, key ≠ item → returnedBy key (t.log ++ [.returned item v]) = returnedBy key t.log :=
    fun key hkey => by rw [hreturned, if_neg (Ne.symm hkey), Option.or_none]
  have hkeys : startedKeys (t.log ++ [.returned item v]) = startedKeys t.log :=
    startedKeys_snoc_of_none t.log rfl
  refine ⟨fun key => ?_, fun key => ?_, (List.nodup_cons.mp hnodup).2, fun key v' hv => ?_, ?_, fun key func' hf => ?_,
    h.got_snoc nofun⟩
  · by_cases hkey : key = item
    · subst hkey
      rw [scopeOf, hfirst, h.own key func hfunc, hreturned, hnone, if_pos rfl]
      exact Dict.get?_set_self ..
    · rw [scopeOf, hfirst, hother key hkey]
      exact (Dict.get?_set_of_ne _ _ hkey).trans (h.scope key)
  · by_cases hkey : key = item
    · subst hkey
      rw [hreturned, hnone, if_pos rfl]
      exact iff_of_false (List.nodup_cons.mp hnodup).1 fun h => nomatch h.2
    · rw [hkeys, hother key hkey, ← h.running key, hrunning, List.mem_cons, or_iff_right hkey]
  · rw [hkeys]
    by_cases hkey : key = item
    · exact hkey ▸ hstarted
    · exact h.returned key v' (hother key hkey ▸ hv)
  · rw [hkeys]
    exact h.once
  · rw [hfirst]
    exact h.own key func' (by simpa using hf)

/-! ## Clean runs -/

/-- There has been neither a cycle nor an exception. -/
def Clean (t : Traced V) : Prop := ∀ e ∈ t.log, e.clean = true

theorem Clean.of_grows (h : Clean t') (hgrows : t.log <+: t'.log) : Clean t := fun e he => h e (hgrows.subset he)

theorem Clean.not_running {func : Request → LazyFunc V} (h : Clean (t.start item func)) : item ∉ t.running :=
  fun hrunning => absurd (h _ (cycle_mem_start hrunning func)) Bool.false_ne_true

theorem Inv.finish {v : V} (h : Inv t') (hrunning : t'.running = item :: t.running) : Inv (finish item t v t') := by
  obtain ⟨hstarted, hnone⟩ := (h.running item).mp (hrunning ▸ List.mem_cons_self)
  obtain ⟨func, hfunc⟩ := mem_startedKeys.mp hstarted
  refine (h.return hrunning).add_got ?_
  rw [GotRight, firstSet_snoc_of_none item _ rfl, h.own item func hfunc]
  refine ⟨v, rfl, ?_⟩
  rw [returnedBy_snoc, hnone]
  exact if_pos rfl

theorem get_inv (depth : Nat) (item : Bytes) (t : Traced V) (out : Option V) (t' : Traced V)
    (h : Clean t → Inv t) (hget : t.get depth item = (.ok out, t')) : Clean t' → Inv t' := by
  refine @get_ok_keeps V (fun t => Clean t → Inv t) (fun key slot t h hclean => ?_) (fun item out t h hslot hclean => ?_)
    (fun depth item func t v t' h hslot hrun hstart hclean => ?_) depth item t out t' h hget
  · exact (h (hclean.of_grows (List.prefix_append _ _))).set key slot
  · have hinv := h (hclean.of_grows (add_grows _ t))
    exact hinv.add_got (hinv.gotRight hslot _)
  · have hclean' : Clean t' := hclean.of_grows (finish_grows item t v t')
    have hgrows := run_grows (get_grows depth) (func t.target.request) (t.start item func)
    rw [hrun] at hgrows
    have hbefore : Clean (t.start item func) := hclean'.of_grows hgrows
    have hinv := h (hbefore.of_grows (start_grows item func t))
    exact (hstart (fun _ => hinv.start hslot hbefore.not_running) hclean').finish (run_running hrun)

theorem inv_new (request : Request) : Inv ({ target := { request, scope := [] } } : Traced V) :=
  ⟨fun _ => rfl, fun _ => by simp [startedKeys], List.nodup_nil, nofun, List.nodup_nil, nofun, by simp⟩

theorem calls_inv {depth : Nat} {prog : LazyFunc V} {request : Request} {v : V}
    (h : calls depth prog request = (.ok v, t)) (hclean : Clean t) : Inv t := by
  refine @run_ok_keeps V (fun t => Clean t → Inv t) (get depth) (fun key slot t h hclean => ?_)
    (fun item t out t' => get_inv depth item t out t') prog _ v t (fun _ => inv_new request) h hclean
  exact (h (hclean.of_grows (List.prefix_append _ _))).set key slot

/-- What a key that has been set has for a value, once it is known. -/
def valueOf (key : Bytes) (log : List (ScopeEvent V)) : Option V :=
  match firstSet key log with
  | some (.value v) => some v
  | some (.lazy _) => returnedBy key log
  | none => none

/-- What has been got is the value from then on. -/
theorem valueOf_of_gotRight {v : V} {before after : Dict Bytes (Slot V)} {log : List (ScopeEvent V)}
    (h : GotRight key (some v) before after log) (log' : List (ScopeEvent V)) : valueOf key (log ++ log') = some v := by
  unfold GotRight at h
  unfold valueOf
  rw [firstSet, returnedBy, List.findSome?_append, List.findSome?_append]
  split at h
  · cases h.1
  · rename_i v' hfirst
    rw [firstSet] at hfirst
    rw [hfirst]
    exact h.symm
  · rename_i func hfirst
    obtain ⟨v', hv, hreturned⟩ := h
    rw [firstSet] at hfirst
    rw [returnedBy] at hreturned
    rw [hfirst, hreturned]
    exact hv.symm

theorem Inv.valueOf {v : V} {before after : Dict Bytes (Slot V)} (h : Inv t)
    (hgot : .got key (some v) before after ∈ t.log) : Traced.valueOf key t.log = some v := by
  obtain ⟨l₁, l₂, hlog⟩ := List.append_of_mem hgot
  rw [hlog]
  exact valueOf_of_gotRight (h.got l₁ key _ _ _ l₂ hlog) _

theorem Inv.lawful (h : Inv t) : Lawful t.log :=
  ⟨h.once, h.own, h.got, fun _ _ _ _ _ _ _ hgot hgot' => Option.some.inj ((h.valueOf hgot).symm.trans (h.valueOf hgot'))⟩

end Traced

open Traced

/-- A sequence of calls without cycles and exceptions returns if there is enough depth, and its scope is
as it should be. -/
theorem lawful_calls (prog : LazyFunc V) (request : Request)
    (h : ∀ depth, ∀ e ∈ (calls depth prog request).2.log, e.clean = true) :
    ∃ N v t, (∀ depth ≥ N, calls depth prog request = (.ok v, t)) ∧ Lawful t.log := by
  have hcovers : Covers 0 ({ target := { request, scope := [] } } : Traced V) := fun _ _ hslot => nomatch hslot
  obtain ⟨N, v, t, -, hreturns, -, -⟩ := run_terminates prog _ 0 hcovers ⟨0, fun depth _ => h depth⟩
  have hcalls : calls N prog request = (.ok v, t) := hreturns N (Nat.le_refl N)
  have hclean : Clean t := fun e he => h N e (by rwa [hcalls])
  exact ⟨N, v, t, hreturns, (calls_inv hcalls hclean).lawful⟩

/-- `a` is computed from `b`, and its function tries to set it; both are got, and `c`, which is not set. -/
def computeTwo : LazyFunc Nat :=
  .setLazy [97] (fun _ => .set [97] 5 (.get [98] fun b => .ret (b.getD 0 + 1))) <| .setLazy [98] (fun _ => .ret 1) <|
    .get [97] fun a => .get [99] fun c => .get [97] fun a' => .ret (a.getD 0 + c.getD 0 + a'.getD 0)

theorem computeTwo_lawful : ∃ N v t, (∀ depth ≥ N, calls depth computeTwo (.create [] [] none [] []) = (.ok v, t)) ∧
    Lawful t.log := by
  refine lawful_calls computeTwo _ fun depth => List.all_eq_true.mp ?_
  match depth with
  | 0 => rfl
  | 1 => rfl
  | n + 2 => rfl

/-- The calls do to the request what they do without the trace. -/
theorem calls_target (depth : Nat) (prog : LazyFunc V) (request : Request) :
    forget (calls depth prog request) = ScopedRequest.run (ScopedRequest.get depth) prog { request, scope := [] } :=
  run_target (get_target depth) prog _

end Levin
