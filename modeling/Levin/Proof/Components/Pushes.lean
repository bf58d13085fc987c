import Levin.Components.H2
import Levin.Proof.Scope
import Mathlib.Data.List.Perm.Subperm

/-!
# The pushes of a response

A response gets its pushes from the handler, from `add_push` and from its route. Those
added with `add_push` are the value of `_pushes` (`get?_handle`), and where there are any
they replace what the handler had put on its response: all are carried exactly if one of
the two has none (`pushes_iff`).
-/

namespace Levin.H2

open Framework Bytes

variable {V H R : Type} [PushValue V]

/-- What is done with a request while it is handled. -/
inductive Act (V : Type)
  | addPush (path method : StrOrBytes)
  /-- Anything else; `_pushes` stays as it is. -/
  | other (f : ScopedRequest V → ScopedRequest V) (keeps : ∀ r, (f r).scope.get? scopeValue = r.scope.get? scopeValue)

namespace Act

def run (depth : Nat) (r : ScopedRequest V) : Act V → ScopedRequest V
  | addPush path method => (add depth path method r).2
  | other f _ => f r

/-- The push that an act adds. -/
def push? : Act V → Option Push
  | addPush path method => some { path := path.encoded, method }
  | other _ _ => none

end Act

/-- The request after some acts. -/
def handle (depth : Nat) (acts : List (Act V)) (r : ScopedRequest V) : ScopedRequest V := acts.foldl (Act.run depth) r

/-- The pushes that some acts add, in the order of the calls. -/
def added (acts : List (Act V)) : List Push := acts.filterMap Act.push?

/-- The push of a route, where its template is in the scope. -/
def RoutePushes (formatter : Formatter V) (depth : Nat) (r : ScopedRequest V) (route : List Push) : Prop :=
  ∃ push r', r.get depth (ascii "push") = (.ok push, r') ∧
    if push.any PyValue.truthy then ∃ v path, push = some v ∧ formatter.format v r' = .ok path ∧ route = [{ path }]
    else route = []

/-- All of them are there, those of the handler and those added in their order. -/
structure Carries (own added route result : List Push) : Prop where
  all : (own ++ added ++ route).Subperm result
  own_order : own.Sublist result
  added_order : added.Sublist result

/-! ## What is added -/

section Added

variable {r : ScopedRequest V}

omit [PushValue V] in
theorem get?_set_rewrite (key : Bytes) (slot : Slot V) (r : ScopedRequest V) :
    (r.set key slot true).scope.get? key = some slot := by
  rw [ScopedRequest.set, if_pos (.inr rfl)]
  exact Dict.get?_set_self ..

/-- The pushes in the scope. -/
def Holds (pushes : List Push) (r : ScopedRequest V) : Prop :=
  r.scope.get? scopeValue = if pushes = [] then none else some (.value (PushValue.pushes pushes))

theorem Holds.get {pushes : List Push} (h : Holds pushes r) (depth : Nat) : r.get depth scopeValue =
    (.ok (if pushes = [] then none else some (PushValue.pushes pushes)), r) := by
  by_cases hnil : pushes = []
  · rw [Holds, if_pos hnil] at h
    rw [if_pos hnil, ScopedRequest.get_of_none h]
  · rw [Holds, if_neg hnil] at h
    rw [if_neg hnil, ScopedRequest.get_of_value h]

/-- One more push. -/
theorem Holds.add {pushes : List Push} (h : Holds pushes r) (depth : Nat) (path method : StrOrBytes) :
    Holds (pushes ++ [{ path := path.encoded, method }]) (H2.add depth path method r).2 := by
  have hlist : PushValue.asPushes ((if pushes = [] then none else some (PushValue.pushes pushes)).getD
      (PushValue.pushes (V := V) [])) = some pushes := by
    split
    · next hnil => rw [Option.getD_none, PushValue.asPushes_pushes, hnil]
    · rw [Option.getD_some, PushValue.asPushes_pushes]
  rw [H2.add, h.get]
  simp only [hlist]
  rw [Holds, if_neg (by simp), get?_set_rewrite]

/-- What has been added is in the scope. -/
theorem holds_handle (depth : Nat) (acts : List (Act V)) (hfresh : r.scope.get? scopeValue = none) : Holds (added acts) (handle depth acts r) := by
  induction acts using List.reverseRecOn with
  | nil => exact hfresh
  | append_singleton acts act ih =>
    rw [added, handle, List.foldl_concat, List.filterMap_append, ← added, ← handle]
    cases act with
    | addPush path method => exact ih.add depth path method
    | other f keeps =>
      rw [List.filterMap_cons_none rfl, List.filterMap_nil, List.append_nil, Act.run, Holds, keeps]
      exact ih

end Added

theorem carries_iff {own added route : List Push} :
    Carries own added route ((if added = [] then own else added) ++ route) ↔ own = [] ∨ added = [] := by
  constructor
  · intro h
    by_contra hboth
    obtain ⟨hown, hadded⟩ := not_or.mp hboth
    have hlength := h.all.length_le
    have hpos := List.length_pos_iff.mpr hown
    rw [if_neg hadded] at hlength
    simp only [List.length_append] at hlength
    omega
  · rintro (rfl | rfl)
    · have hadded : (if added = [] then [] else added) = added := by
        split
        · next hnil => exact hnil.symm
        · rfl
      rw [hadded]
      exact ⟨List.Subperm.refl _, List.nil_sublist _, List.sublist_append_left _ _⟩
    · rw [if_pos rfl]
      refine ⟨?_, List.sublist_append_left own route, List.nil_sublist _⟩
      rw [List.append_nil]

theorem appendRoute_eq {formatter : Formatter V} {depth : Nat} {r : ScopedRequest V} {route : List Push}
    (h : RoutePushes formatter depth r route) {response : Response V R} {pushes : List Push}
    (hpushes : response.pushes = PushValue.pushes pushes) :
    (appendRoute formatter depth response r).1 = .ok { response with pushes := PushValue.pushes (pushes ++ route) } := by
  have hself : response = { response with pushes := PushValue.pushes pushes } := by rw [← hpushes]
  obtain ⟨push, r', hget, hroute⟩ := h
  rw [appendRoute, hget]
  cases push with
  | none =>
    cases hroute
    rw [List.append_nil, ← hself]
  | some v =>
    by_cases htruthy : PyValue.truthy v = true
    · rw [if_pos (by exact htruthy)] at hroute
      obtain ⟨v', path, hv, hformat, rfl⟩ := hroute
      cases hv
      simp only [htruthy, if_true, hpushes, PushValue.asPushes_pushes, hformat]
    · rw [if_neg (by exact htruthy)] at hroute
      subst hroute
      simp only [htruthy, List.append_nil]
      exact congrArg _ hself

/-- What has been added is put in the place of what the handler had, and the route's push behind it. -/
theorem finish_eq {formatter : Formatter V} {depth : Nat} {r : ScopedRequest V} {own added route : List Push}
    {response : Response V R} (hown : response.pushes = PushValue.pushes own) (hadded : Holds added r)
    (hroute : RoutePushes formatter depth r route) : (finish formatter depth (.ok response, r)).1 =
      .ok { response with pushes := PushValue.pushes ((if added = [] then own else added) ++ route) } := by
  rw [finish, hadded.get]
  by_cases hnil : added = []
  · rw [if_pos hnil, if_pos hnil]
    exact appendRoute_eq hroute hown
  · have htruthy : PyValue.truthy (PushValue.pushes (V := V) added) = true := by
      rw [PushValue.truthy_pushes]
      simpa using hnil
    rw [if_neg hnil, if_neg hnil]
    simp only [htruthy, if_true]
    exact appendRoute_eq hroute rfl

/-- All pushes of a handled request are carried by the response exactly if the handler has put none on it, or none
has been added. -/
theorem pushes_iff (formatter : Formatter V) (depth : Nat) (addPush : Request → V) (acts : List (Act V)) (own : List Push)
    (rest : R) (handler : H) {r : ScopedRequest V} (hfresh : r.scope.get? scopeValue = none) {route : List Push}
    (hroute : RoutePushes formatter depth
      (handle depth acts (r.set (ascii "add_push") (.lazy fun request => .ret (addPush request)))) route) :
    ∃ result, (middleware formatter depth addPush r handler fun r _ =>
        (.ok { rest, pushes := PushValue.pushes own }, handle depth acts r)).1 =
          .ok ({ rest, pushes := PushValue.pushes result } : Response V R) ∧
      (Carries own (added acts) route result ↔ own = [] ∨ added acts = []) := by
  have hset : (r.set (ascii "add_push") (.lazy fun request => .ret (addPush request))).scope.get? scopeValue = none := by
    rw [ScopedRequest.get?_set, hfresh, Option.none_or, if_neg (by decide)]
  exact ⟨(if added acts = [] then own else added acts) ++ route, finish_eq rfl (holds_handle depth acts hset) hroute,
    carries_iff⟩

/-- Values of attributes, with lists of pushes. -/
inductive Value
  | none
  | bytes (b : Bytes)
  | str (s : Bytes)
  | pushes (ps : List Push)
  | object (n : Nat)
  deriving DecidableEq

instance : PushValue Value where
  none := .none
  truthy
    | .none => false
    | .bytes b | .str b => !b.isEmpty
    | .pushes ps => !ps.isEmpty
    | .object _ => true
  str := .str
  bytes := .bytes
  bytes_inj h := Value.bytes.inj h
  asBytes
    | .bytes b => some b
    | _ => Option.none
  asStr
    | .str s => some s
    | _ => Option.none
  asBytes_bytes _ := rfl
  asBytes_str _ := rfl
  asBytes_none := rfl
  asStr_str _ := rfl
  pushes := .pushes
  asPushes
    | .pushes ps => some ps
    | _ => Option.none
  asPushes_pushes _ := rfl
  truthy_pushes _ := rfl
  truthy_str _ := rfl

/-- Texts for values of other types. -/
def valueFormatter : Formatter Value where
  value
    | .none => ascii "None"
    | .bytes b => bytesRepr b
    | .str s => s
    | .pushes _ => ascii "[...]"
    | .object _ => ascii "<object>"
  lazy _ := ascii "<_LazyAttr>"
  other _ _ := .error .ValueError
  value_str _ := rfl
  value_bytes _ := rfl

def getIndex : ScopedRequest Value where
  request := { rawPath := ascii "/", method := ascii "GET", body := none, headers := [], stream := 1,
               protocol := ascii "HTTP/2", scheme := ascii "https", transportInfo := none }
  scope := []

/-- One push is added. -/
def addStyle : Act Value := .addPush (.str (ascii "/style.css")) (.bytes (ascii "GET"))

theorem addStyle_carried : ∃ result, (middleware valueFormatter 0 (fun _ => .object 1) getIndex () fun r _ =>
      (.ok { rest := 200, pushes := PushValue.pushes [] }, handle 0 [addStyle] r)).1 =
        .ok ({ rest := 200, pushes := PushValue.pushes result } : Response Value Nat) ∧
    Carries [] (added [addStyle]) [] result := by
  obtain ⟨result, hresult, hiff⟩ := pushes_iff (r := getIndex) valueFormatter 0 (fun _ => .object 1) [addStyle] []
    200 () rfl ⟨none, _, rfl, rfl⟩
  exact ⟨result, hresult, hiff.mpr (.inl rfl)⟩

/-- A push of the handler's own is lost if another one is added. -/
theorem own_not_carried : ¬ ∀ (acts : List (Act Value)) (own : List Push) (response : Response Value Nat),
    (middleware valueFormatter 0 (fun _ => .object 1) getIndex () fun r _ =>
        (.ok { rest := 200, pushes := PushValue.pushes own }, handle 0 acts r)).1 = .ok response →
      ∃ result, response.pushes = PushValue.pushes result ∧ Carries own (added acts) [] result := by
  intro h
  obtain ⟨result, hresult, hcarries⟩ := h [addStyle] [{ path := ascii "/script.js" }] _ rfl
  cases hresult
  exact absurd (hcarries.own_order.subset List.mem_cons_self) (by decide)

end Levin.H2
