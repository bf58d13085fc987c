import Levin.Framework.Dict

/-!
# Calls

How Python binds the arguments of a call to a function's parameters: positional
arguments to the parameters that take them, in order, keyword arguments by name,
and defaults to what is left. `Signature.bind` is `none` where the call is a `TypeError`.
`Signature.ofPartial` is what `inspect.signature` says of a `functools.partial`.
-/

namespace Levin.Framework

/-- `inspect.Parameter.kind` -/
inductive Kind
  | positionalOnly
  | positionalOrKeyword
  | varPositional
  | keywordOnly
  | varKeyword
  deriving DecidableEq, Repr

/-- `inspect.Parameter`, for values in `V` and annotations in `A`. -/
structure Param (V A : Type) where
  name : String
  kind : Kind := .positionalOrKeyword
  default : Option V := none
  annotation : Option A := none

variable {V A : Type}

def Param.takesPosition (p : Param V A) : Bool := p.kind = .positionalOnly || p.kind = .positionalOrKeyword

def Param.takesKeyword (p : Param V A) : Bool := p.kind = .positionalOrKeyword || p.kind = .keywordOnly

/-- The parameter takes one argument: it is neither `*args` nor `**kwargs`. -/
def Param.Single (p : Param V A) : Prop := p.kind ≠ .varPositional ∧ p.kind ≠ .varKeyword

/-- `inspect.Signature.parameters` -/
abbrev Signature (V A : Type) := List (Param V A)

namespace Signature

/-- The parameters that take positional arguments. -/
def positionals (params : Signature V A) : Signature V A := params.filter Param.takesPosition

/-- There are not too many positional arguments, and each keyword argument names a parameter that is
not bound yet. -/
def accepts (params : Signature V A) (args : List V) (kwargs : Dict String V) : Bool :=
  (decide (args.length ≤ (positionals params).length) || params.any fun p => p.kind = .varPositional) &&
  kwargs.all fun kv =>
    if params.any fun p => decide (p.name = kv.1) && p.takesKeyword then
      !((positionals params).take args.length).any fun p => decide (p.name = kv.1)
    else params.any fun p => p.kind = .varKeyword

/-- What a parameter is bound to, if anything. -/
def argument? (params : Signature V A) (args : List V) (kwargs : Dict String V) (p : Param V A) : Option V :=
  (Dict.get? (((positionals params).map Param.name).zip args) p.name).or ((Dict.get? kwargs p.name).or p.default)

/-- The arguments of a call in the order of the parameters, each of which takes one. -/
def bind (params : Signature V A) (args : List V) (kwargs : Dict String V) : Option (List V) :=
  if accepts params args kwargs then params.mapM (argument? params args kwargs) else none

/-- The parameters that a partial leaves: those not bound by position, with its keyword arguments as
their defaults. -/
def unbound (params : Signature V A) (args : List V) (kwargs : Dict String V) : Signature V A :=
  (params.filter fun p => p.name ∉ ((positionals params).take args.length).map Param.name).map fun p =>
    { p with default := (Dict.get? kwargs p.name).or p.default }

/-- From the first parameter on that has a keyword argument, arguments are passed by keyword. -/
def passByKeyword (kwargs : Dict String V) (params : Signature V A) : Signature V A :=
  let isBefore := fun p : Param V A => !(decide (p.kind = .positionalOrKeyword) && (Dict.get? kwargs p.name).isSome)
  let after := params.dropWhile isBefore
  params.takeWhile isBefore ++
    after.filter (fun p => p.kind ≠ .positionalOrKeyword ∧ p.kind ≠ .varPositional) ++
    (after.filter fun p => p.kind = .positionalOrKeyword).map fun p => { p with kind := .keywordOnly }

/-- `inspect.signature(partial(func, *args, **kwargs)).parameters`, for a `func` with the parameters
`params`; `none` where it is a `ValueError`. -/
def ofPartial (params : Signature V A) (args : List V) (kwargs : Dict String V) :
    Option (Signature V A) :=
  if accepts params args kwargs then some (passByKeyword kwargs (unbound params args kwargs)) else none

variable {params : Signature V A} {args : List V} {kwargs : Dict String V} {p q : Param V A} {v : V}

theorem mapM_eq_some_map {α β : Type} {f : α → Option β} {g : α → β} {xs : List α} :
    xs.mapM f = some (xs.map g) ↔ ∀ x ∈ xs, f x = some (g x) := by
  induction xs with
  | nil => simp
  | cons x xs ih =>
    rw [List.mapM_cons, List.forall_mem_cons, ← ih]
    constructor
    · intro h
      simp only [Option.bind_eq_bind, Option.bind_eq_some_iff, Option.pure_def, Option.some.injEq, List.map_cons,
        List.cons.injEq] at h
      obtain ⟨y, hy, ys, hys, rfl, rfl⟩ := h
      exact ⟨hy, hys⟩
    · rintro ⟨hx, hxs⟩
      simp [hx, hxs]

theorem mapM_eq_none {α β : Type} {f : α → Option β} {xs : List α} :
    xs.mapM f = none ↔ ∃ x ∈ xs, f x = none := by
  induction xs with
  | nil => simp
  | cons x xs ih =>
    simp only [List.mem_cons, exists_eq_or_imp, ← ih]
    rw [List.mapM_cons]
    cases f x with
    | none => simp
    | some y => cases xs.mapM f <;> simp

/-- A call binds the values `want` exactly if it is accepted and each parameter is bound to its own. -/
theorem bind_eq_some_iff {want : Param V A → V} : bind params args kwargs = some (params.map want) ↔
    accepts params args kwargs = true ∧ ∀ p ∈ params, argument? params args kwargs p = some (want p) := by
  unfold bind
  split
  · rename_i h
    simp [mapM_eq_some_map, h]
  · rename_i h
    simp [h]

/-- The check of a call to a function without `*args` and `**kwargs`. -/
theorem accepts_iff (hs : ∀ p ∈ params, p.Single) : accepts params args kwargs = true ↔
    args.length ≤ (positionals params).length ∧ ∀ kv ∈ kwargs,
      (∃ p ∈ params, p.name = kv.1 ∧ p.takesKeyword = true) ∧
        ∀ p ∈ (positionals params).take args.length, p.name ≠ kv.1 := by
  have hpos : (params.any fun p => decide (p.kind = .varPositional)) = false := by
    simpa using fun p hp => (hs p hp).1
  have hkey : (params.any fun p => decide (p.kind = .varKeyword)) = false := by
    simpa using fun p hp => (hs p hp).2
  simp only [accepts, hpos, hkey, Bool.or_false, Bool.and_eq_true, decide_eq_true_eq, List.all_eq_true]
  refine and_congr_right fun _ => forall₂_congr fun kv _ => ?_
  split
  · rename_i h
    have h : ∃ p ∈ params, p.name = kv.1 ∧ p.takesKeyword = true := by simpa using h
    simp [h]
  · rename_i h
    have h : ¬ ∃ p ∈ params, p.name = kv.1 ∧ p.takesKeyword = true := by simpa using h
    simp [h]

/-- One positional argument is accepted if a parameter takes it that no keyword argument names. -/
theorem accepts_first (hs : ∀ p ∈ params, p.Single) : accepts params [v] kwargs = true ↔
    ∃ p ∈ params, (positionals params).head? = some p ∧ ∀ kv ∈ kwargs,
      (∃ q ∈ params, q.name = kv.1 ∧ q.takesKeyword = true) ∧ p.name ≠ kv.1 := by
  rw [accepts_iff hs]
  constructor
  · rintro ⟨hlength, hkeys⟩
    obtain ⟨p, ps, hps⟩ := List.exists_cons_of_ne_nil (List.ne_nil_of_length_pos hlength)
    have hp : p ∈ positionals params := hps ▸ List.mem_cons_self
    refine ⟨p, (List.mem_filter.mp hp).1, by rw [hps, List.head?_cons], fun kv hkv => ?_⟩
    exact ⟨(hkeys kv hkv).1, (hkeys kv hkv).2 p (by simp [hps])⟩
  · rintro ⟨p, -, hhead, hkeys⟩
    obtain ⟨ps, hps⟩ := List.head?_eq_some_iff.mp hhead
    refine ⟨by simp [hps], fun kv hkv => ⟨(hkeys kv hkv).1, fun q hq => ?_⟩⟩
    obtain rfl : q = p := by simpa [hps] using hq
    exact (hkeys kv hkv).2

/-- A call without positional arguments binds by keyword and by default. -/
theorem argument?_keywords (params : Signature V A) (kwargs : Dict String V) (p : Param V A) :
    argument? params [] kwargs p = (Dict.get? kwargs p.name).or p.default := by
  simp [argument?, Dict.get?]

/-- A call without arguments binds the defaults. -/
theorem bind_nil (hs : ∀ p ∈ params, p.Single) : params.bind [] [] = params.mapM Param.default := by
  have haccepts : params.accepts [] [] = true := (accepts_iff hs).mpr ⟨Nat.zero_le _, fun kv hkv => nomatch hkv⟩
  rw [bind, if_pos haccepts]
  congr 1
  funext p
  rw [argument?_keywords]
  rfl

/-- A single positional argument goes to the first parameter that takes one. -/
theorem argument?_first (h : (positionals params).head? = some p) (v : V) (kwargs : Dict String V) (q : Param V A) :
    argument? params [v] kwargs q =
      if q.name = p.name then some v else (Dict.get? kwargs q.name).or q.default := by
  obtain ⟨ps, hps⟩ := List.head?_eq_some_iff.mp h
  simp only [argument?, hps, List.map_cons, List.zip_cons_cons, List.zip_nil_right, Dict.get?, List.find?_cons,
    List.find?_nil]
  by_cases hq : q.name = p.name
  · simp [hq]
  · simp [hq, Ne.symm hq]

theorem passByKeyword_names (hs : ∀ p ∈ params, p.kind ≠ .varPositional) (kwargs : Dict String V) (name : String) :
    name ∈ (passByKeyword kwargs params).map Param.name ↔ name ∈ params.map Param.name := by
  simp only [passByKeyword]
  generalize (fun p : Param V A => !(decide (p.kind = .positionalOrKeyword) && (Dict.get? kwargs p.name).isSome)) =
    isBefore
  have hsplit := List.takeWhile_append_dropWhile (p := isBefore) (l := params)
  generalize params.takeWhile isBefore = before at hsplit ⊢
  generalize params.dropWhile isBefore = after at hsplit ⊢
  subst hsplit
  simp only [List.map_append, List.mem_append, or_assoc]
  apply or_congr_right
  simp only [List.mem_map, List.mem_filter]
  constructor
  · rintro (⟨p, ⟨hp, -⟩, rfl⟩ | ⟨_, ⟨p, ⟨hp, -⟩, rfl⟩, rfl⟩) <;> exact ⟨p, hp, rfl⟩
  · rintro ⟨p, hp, rfl⟩
    have hvar := hs p (List.mem_append_right _ hp)
    by_cases hk : p.kind = .positionalOrKeyword
    · exact .inr ⟨_, ⟨p, ⟨hp, by simpa using hk⟩, rfl⟩, rfl⟩
    · exact .inl ⟨p, ⟨hp, by simp [hk, hvar]⟩, rfl⟩

/-- A partial of keyword arguments has parameters of the names that its function has. -/
theorem ofPartial_names {params' : Signature V A} (hs : ∀ p ∈ params, p.Single)
    (h : ofPartial params [] kwargs = some params') (name : String) :
    name ∈ params'.map Param.name ↔ name ∈ params.map Param.name := by
  unfold ofPartial at h
  split at h
  · obtain rfl := Option.some.inj h
    have hnames : (unbound params [] kwargs).map Param.name = params.map Param.name := by
      have hall : params.filter (fun _ => true) = params := List.filter_eq_self.mpr fun _ _ => rfl
      simp [unbound, Function.comp_def, hall]
    rw [passByKeyword_names, hnames]
    intro p hp
    obtain ⟨q, hq, rfl⟩ := List.mem_map.mp hp
    exact (hs q (List.mem_filter.mp hq).1).1
  · cases h

end Signature

end Levin.Framework
