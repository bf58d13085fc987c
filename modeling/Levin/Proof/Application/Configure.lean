import Levin.Proof.Application.Chain

/-!
# Configuration

`Component.configure` sets the attributes that the component's own class defines, and
of these only those whose value at that moment is no bound method; `enable` it always
sets. `configured_iff` says which attributes have the values they were last given
after any sequence of calls of `configure`.
-/

namespace Levin

open Framework

namespace Component

variable {V M : Type} [PyObject V]

/-- A public attribute of a class other than `name` and `middleware` that is no method: neither a function, a
`classmethod` nor a `property`. -/
def Configurable (cls : ComponentClass V) (a : String) : Prop :=
  "_".toList.isPrefixOf a.toList = false ∧ a ≠ "name" ∧ a ≠ "middleware" ∧ ∃ v, cls.lookup a = some (.value v)

/-- A value that is there and is a bound method. -/
def IsMethod (current : Option V) : Prop := current.any PyObject.ismethod = true

instance (current : Option V) : Decidable (IsMethod current) := inferInstanceAs (Decidable (_ = _))

/-! ## One call -/

section One

variable {self : Component V M} {a b : String} {v : V} {kwargs : Dict String V}

@[simp] theorem setattr_cls : (self.setattr a v).cls = self.cls := rfl

theorem Configurable.not_property (h : Configurable self.cls a) : self.isProperty a = false := by
  obtain ⟨-, -, -, v, hv⟩ := h
  rw [isProperty, hv]

theorem getattr_setattr_self (h : Configurable self.cls a) : (self.setattr a v).getattr? a = some v := by
  obtain ⟨-, -, -, v₀, hv₀⟩ := h
  rw [getattr?, setattr_cls, hv₀]
  simp [setattr]

theorem getattr_setattr_of_ne (hp : self.isProperty b = false) (hne : b ≠ a) :
    (self.setattr a v).getattr? b = self.getattr? b := by
  have hget : (self.setattr a v).attrs.get? b = self.attrs.get? b := Dict.get?_set_of_ne v self.attrs hne
  simp only [getattr?, setattr_cls, hget]
  cases hl : self.cls.lookup b with
  | none => rfl
  | some attr =>
    cases attr with
    | method => rfl
    | value v => rfl
    | property get => simp [isProperty, hl] at hp

theorem skips_iff (h : Configurable self.cls a) : self.skips a = true ↔ IsMethod (self.getattr? a) := by
  rw [skips, h.1, h.not_property, decide_eq_false h.2.1, decide_eq_false h.2.2.1]
  rfl

@[simp] theorem configureParam_cls : (configureParam kwargs self a).cls = self.cls := by
  unfold configureParam
  split <;> rfl

theorem getattr_configureParam_self (h : Configurable self.cls a) :
    (configureParam kwargs self a).getattr? a = (kwargs.get? a).or (self.getattr? a) := by
  unfold configureParam
  cases kwargs.get? a with
  | none => rfl
  | some v => exact getattr_setattr_self h

theorem getattr_configureParam_of_ne (hp : self.isProperty b = false) (hne : b ≠ a) :
    (configureParam kwargs self a).getattr? b = self.getattr? b := by
  unfold configureParam
  cases kwargs.get? a with
  | none => rfl
  | some v => exact getattr_setattr_of_ne hp hne

/-- A name that is not given is not set. -/
theorem configureParam_of_not_given (h : kwargs.get? a = none) : configureParam kwargs self a = self := by
  rw [configureParam, h]

/-- One turn of the loop of `configure`. -/
def turn (kwargs : Dict String V) (self : Component V M) (param : String) : Component V M :=
  if self.skips param then self else configureParam kwargs self param

@[simp] theorem turn_cls : (turn kwargs self a).cls = self.cls := by
  unfold turn
  split
  · rfl
  · exact configureParam_cls

theorem isProperty_congr {self' : Component V M} (h : self'.cls = self.cls) : self'.isProperty a = self.isProperty a := by
  rw [isProperty, isProperty, h]

theorem getattr_turn_self (kwargs : Dict String V) (h : Configurable self.cls a) : (turn kwargs self a).getattr? a =
    if IsMethod (self.getattr? a) then self.getattr? a else (kwargs.get? a).or (self.getattr? a) := by
  by_cases hm : IsMethod (self.getattr? a)
  · rw [turn, if_pos ((skips_iff h).mpr hm), if_pos hm]
  · rw [turn, if_neg (mt (skips_iff h).mp hm), if_neg hm, getattr_configureParam_self h]

theorem getattr_turn_of_ne (hp : self.isProperty b = false) (hne : b ≠ a) :
    (turn kwargs self a).getattr? b = self.getattr? b := by
  unfold turn
  split
  · rfl
  · exact getattr_configureParam_of_ne hp hne

/-- The loop over the names of the class: the given ones get their values, but for those that have a bound method
for a value. -/
theorem loop_spec (kwargs : Dict String V) (params : List String) (self : Component V M) :
    (params.foldl (turn kwargs) self).cls = self.cls ∧
      (∀ b, self.isProperty b = false → b ∉ params → (params.foldl (turn kwargs) self).getattr? b = self.getattr? b) ∧
      ∀ a, Configurable self.cls a → a ∈ params → (params.foldl (turn kwargs) self).getattr? a =
        if IsMethod (self.getattr? a) then self.getattr? a else (kwargs.get? a).or (self.getattr? a) := by
  induction params generalizing self with
  | nil => exact ⟨rfl, fun b _ _ => rfl, fun a _ ha => absurd ha List.not_mem_nil⟩
  | cons param params ih =>
    obtain ⟨hcls, hother, hparam⟩ := ih (turn kwargs self param)
    have hturn : (turn kwargs self param).cls = self.cls := turn_cls
    refine ⟨hcls.trans hturn, fun b hp hb => ?_, fun a ha hmem => ?_⟩
    · rw [List.mem_cons, not_or] at hb
      rw [List.foldl_cons, hother b ((isProperty_congr hturn).trans hp) hb.2, getattr_turn_of_ne hp hb.1]
    · rw [List.foldl_cons]
      by_cases hpa : a = param
      · -- The name may come once more: then it is set to what it is.
        subst hpa
        have hself := getattr_turn_self kwargs ha
        by_cases hin : a ∈ params
        · rw [hparam a (hturn ▸ ha) hin, hself]
          by_cases hm : IsMethod (self.getattr? a)
          · simp only [if_pos hm]
          · simp only [if_neg hm]
            cases kwargs.get? a <;> split <;> rfl
        · rw [hother a ((isProperty_congr hturn).trans ha.not_property) hin, hself]
      · have hin := (List.mem_cons.mp hmem).resolve_left hpa
        rw [hparam a (hturn ▸ ha) hin, getattr_turn_of_ne ha.not_property hpa]

/-- Whether `configure` sets an attribute. -/
def Sets (self : Component V M) (a : String) : Prop :=
  a = "enable" ∨ a ∈ self.cls.own.map Prod.fst ∧ ¬ IsMethod (self.getattr? a)

instance (self : Component V M) (a : String) : Decidable (self.Sets a) := inferInstanceAs (Decidable (_ ∨ _))

@[simp] theorem configure_cls : (self.configure kwargs).cls = self.cls :=
  configureParam_cls.trans (loop_spec kwargs (self.cls.own.map Prod.fst) self).1

/-- What one call makes of an attribute that can be configured. -/
theorem getattr_configure (h : Configurable self.cls a) : (self.configure kwargs).getattr? a =
    if self.Sets a then (kwargs.get? a).or (self.getattr? a) else self.getattr? a := by
  obtain ⟨hcls, hother, hparam⟩ := loop_spec kwargs (self.cls.own.map Prod.fst) self
  show (configureParam kwargs ((self.cls.own.map Prod.fst).foldl (turn kwargs) self) "enable").getattr? a = _
  generalize (self.cls.own.map Prod.fst).foldl (turn kwargs) self = looped at hcls hother hparam ⊢
  by_cases henable : a = "enable"
  · subst henable
    rw [getattr_configureParam_self (hcls ▸ h), if_pos (.inl rfl)]
    cases hgiven : kwargs.get? "enable" with
    | some v => rfl
    | none =>
      by_cases hown : "enable" ∈ self.cls.own.map Prod.fst
      · rw [hparam "enable" h hown, hgiven, Option.none_or]
        split <;> rfl
      · rw [hother "enable" h.not_property hown]
  · rw [getattr_configureParam_of_ne ((isProperty_congr hcls).trans h.not_property) henable]
    by_cases hown : a ∈ self.cls.own.map Prod.fst
    · rw [hparam a h hown]
      by_cases hm : IsMethod (self.getattr? a)
      · rw [if_pos hm, if_neg (by simp [Sets, henable, hm])]
      · rw [if_neg hm, if_pos (.inr ⟨hown, hm⟩)]
    · rw [hother a h.not_property hown, if_neg (by simp only [Sets, henable, hown]; simp)]

/-- An attribute that is not given is as it was, if it is not computed from others. -/
theorem getattr_configure_of_not_given (hp : self.isProperty b = false) (h : kwargs.get? b = none) :
    (self.configure kwargs).getattr? b = self.getattr? b := by
  have hloop : ∀ (params : List String) (self : Component V M), self.isProperty b = false →
      (params.foldl (turn kwargs) self).getattr? b = self.getattr? b := by
    intro params
    induction params with
    | nil => exact fun self _ => rfl
    | cons param params ih =>
      intro self hp
      rw [List.foldl_cons, ih _ ((isProperty_congr turn_cls).trans hp)]
      by_cases hb : b = param
      · subst hb
        rw [turn, configureParam_of_not_given h, ite_self]
      · exact getattr_turn_of_ne hp hb
  show (configureParam kwargs ((self.cls.own.map Prod.fst).foldl (turn kwargs) self) "enable").getattr? b = _
  by_cases hb : b = "enable"
  · subst hb
    rw [configureParam_of_not_given h, hloop _ _ hp]
  · have hcls := (loop_spec kwargs (self.cls.own.map Prod.fst) self).1
    rw [getattr_configureParam_of_ne ((isProperty_congr hcls).trans hp) hb, hloop _ _ hp]

end One

/-! ## Any number of calls -/

section Calls

variable {self : Component V M} {a : String} {calls : List (Dict String V)}

/-- The component after calls of `configure`. -/
def afterCalls (self : Component V M) (calls : List (Dict String V)) : Component V M :=
  calls.foldl (fun self kwargs => self.configure kwargs) self

/-- The values that the calls give for an attribute. -/
def given (a : String) (calls : List (Dict String V)) : List V := calls.filterMap fun kwargs => kwargs.get? a

omit [PyObject V] in
theorem given_cons (a : String) (kwargs : Dict String V) (calls : List (Dict String V)) :
    given a (kwargs :: calls) = (kwargs.get? a).toList ++ given a calls := by
  cases h : kwargs.get? a with
  | none => simp [given, h]
  | some v => simp [given, h]

theorem getattr_of_not_given (hp : self.isProperty a = false) (h : given a calls = []) :
    (self.afterCalls calls).getattr? a = self.getattr? a := by
  induction calls generalizing self with
  | nil => rfl
  | cons kwargs calls ih =>
    rw [given, List.filterMap_eq_nil_iff] at h
    have hrest : ((self.configure kwargs).afterCalls calls).getattr? a = (self.configure kwargs).getattr? a :=
      ih ((isProperty_congr configure_cls).trans hp)
        (List.filterMap_eq_nil_iff.mpr fun kwargs hk => h kwargs (List.mem_cons_of_mem _ hk))
    exact hrest.trans (getattr_configure_of_not_given hp (h kwargs List.mem_cons_self))

/-- An attribute that can be configured has a value. -/
theorem Configurable.exists_getattr (h : Configurable self.cls a) : ∃ v, self.getattr? a = some v := by
  obtain ⟨-, -, -, v, hv⟩ := h
  exact ⟨_, by rw [getattr?, hv]⟩

/-- What a given value makes of the value an attribute has. -/
def settle (cls : ComponentClass V) (a : String) (current v : V) : V :=
  if a = "enable" ∨ a ∈ cls.own.map Prod.fst ∧ PyObject.ismethod current = false then v else current

theorem getattr_afterCalls (h : Configurable self.cls a) {v : V} (hv : self.getattr? a = some v) :
    (self.afterCalls calls).getattr? a = some ((given a calls).foldl (settle self.cls a) v) := by
  induction calls generalizing self v with
  | nil => exact hv
  | cons kwargs calls ih =>
    have hcls : (self.configure kwargs).cls = self.cls := configure_cls
    have hone : (self.configure kwargs).getattr? a =
        some ((kwargs.get? a).toList.foldl (settle self.cls a) v) := by
      rw [getattr_configure h, hv]
      cases kwargs.get? a with
      | none =>
        rw [Option.none_or, ite_self]
        rfl
      | some g =>
        have hsets : self.Sets a ↔ a = "enable" ∨ a ∈ self.cls.own.map Prod.fst ∧ PyObject.ismethod v = false := by
          rw [Sets, IsMethod, hv, Option.any_some, Bool.not_eq_true]
        rw [Option.some_or, Option.toList_some, List.foldl_cons, List.foldl_nil, settle]
        by_cases hs : self.Sets a
        · rw [if_pos hs, if_pos (hsets.mp hs)]
        · rw [if_neg hs, if_neg (mt hsets.mpr hs)]
    have hrest := ih (hcls ▸ h) hone
    rw [hcls, ← List.foldl_append, ← given_cons] at hrest
    exact hrest

/-! ## When the last value is there -/

theorem foldl_settle_enable (cls : ComponentClass V) (vs : List V) (v : V) :
    vs.foldl (settle cls "enable") v = vs.getLastD v := by
  induction vs generalizing v with
  | nil => rfl
  | cons g vs ih =>
    rw [List.foldl_cons, settle, if_pos (.inl rfl), ih, List.getLastD_cons]

/-- An inherited attribute is as it was. -/
theorem foldl_settle_inherited {cls : ComponentClass V} (ha : a ≠ "enable") (h : a ∉ cls.own.map Prod.fst) (vs : List V)
    (v : V) : vs.foldl (settle cls a) v = v := by
  induction vs generalizing v with
  | nil => rfl
  | cons g vs ih =>
    rw [List.foldl_cons, settle, if_neg (by simp only [ha, h]; simp), ih]

/-- An attribute of the component's own class has the last value given if no other one, once it was there, was a
bound method. -/
theorem foldl_settle_own {cls : ComponentClass V} (ha : a ≠ "enable") (h : a ∈ cls.own.map Prod.fst) (vs : List V)
    (v : V) : vs.foldl (settle cls a) v = vs.getLastD v ↔
      ∀ m, (v :: vs).find? PyObject.ismethod = some m → m = vs.getLastD v := by
  induction vs generalizing v with
  | nil =>
    refine iff_of_true rfl fun m hm => ?_
    exact List.mem_singleton.mp (List.mem_of_find?_eq_some hm)
  | cons g vs ih =>
    rw [List.foldl_cons, List.getLastD_cons]
    cases hv : PyObject.ismethod v with
    | true =>
      have hstays : ∀ vs : List V, vs.foldl (settle cls a) v = v := by
        intro vs
        induction vs with
        | nil => rfl
        | cons g vs ih => rw [List.foldl_cons, settle, if_neg (by simp [ha, hv]), ih]
      rw [settle, if_neg (by simp [ha, hv]), hstays, List.find?_cons_of_pos hv]
      exact ⟨fun h m hm => Option.some.inj hm ▸ h, fun h => h v rfl⟩
    | false =>
      have hnext : (v :: g :: vs).find? PyObject.ismethod = (g :: vs).find? PyObject.ismethod :=
        List.find?_cons_of_neg (by simp [hv])
      rw [settle, if_pos (.inr ⟨h, hv⟩), ih g, hnext]

/-- Every attribute that can be configured and was given has the value it was last given, and the attributes that
were not given are as they were. -/
def Configured (self : Component V M) (calls : List (Dict String V)) (after : Component V M) : Prop :=
  (∀ a, Configurable self.cls a → ∀ v, (given a calls).getLast? = some v → after.getattr? a = some v) ∧
    ∀ a, self.isProperty a = false → given a calls = [] → after.getattr? a = self.getattr? a

/-- The attributes that were given are `enable`, attributes of the component's own class of whose values, the first
one and those that were given, the first that is a bound method, if there is one, is the last one given, and
inherited ones given the value that they had. -/
def Accepted (self : Component V M) (calls : List (Dict String V)) : Prop :=
  ∀ a, Configurable self.cls a → a ≠ "enable" → ∀ v, (given a calls).getLast? = some v →
    if a ∈ self.cls.own.map Prod.fst then
      ∀ m, ((self.getattr? a).toList ++ given a calls).find? PyObject.ismethod = some m → m = v
    else self.getattr? a = some v

theorem configured_afterCalls_iff : Configured self calls (self.afterCalls calls) ↔ Accepted self calls := by
  have hlast : ∀ {vs : List V} {v w : V}, vs.getLast? = some v → vs.getLastD w = v := by
    intro vs v w h
    rw [List.getLastD_eq_getLast?, h, Option.getD_some]
  rw [Configured, and_iff_left fun a hp h => getattr_of_not_given hp h]
  refine forall₂_congr fun a ha => ?_
  obtain ⟨c, hc⟩ := ha.exists_getattr
  rw [getattr_afterCalls ha hc, hc]
  by_cases henable : a = "enable"
  · subst henable
    refine iff_of_true (fun v hv => ?_) fun h => absurd rfl h
    rw [foldl_settle_enable, hlast hv]
  · rw [forall_prop_of_true henable]
    refine forall₂_congr fun v hv => ?_
    rw [Option.some_inj]
    split
    · rename_i hown
      have hiff := foldl_settle_own henable hown (given a calls) c
      rwa [hlast hv] at hiff
    · rename_i hown
      rw [foldl_settle_inherited henable hown, Option.some_inj]

end Calls

end Component

/-! ## Through the application -/

namespace Application

variable {V ρ η α : Type} [PyObject V]

/-- A call of `configure`: the application's, or that of one of the components. -/
inductive ConfigureCall (V : Type)
  | application (config : Dict String (Dict String V))
  | component (c : Nat) (kwargs : Dict String V)

/-- The application after a call, which may have raised. -/
def afterConfigure (app : Application V ρ η α) : ConfigureCall V → Application V ρ η α
  | .application config => (app.configure config).1
  | .component c kwargs => app.configureObject c kwargs

/-- What the application's `configure` passes on to a component: what is given under its name, up to the first name
that no component has. -/
def passedOn (app : Application V ρ η α) (c : Nat) : Dict String (Dict String V) → List (Dict String V)
  | [] => []
  | (name, kwargs) :: config =>
    match app.getComponent? name with
    | none => []
    | some d => (if d = c then [kwargs] else []) ++ passedOn app c config

/-- The calls of a component's own `configure`. -/
def received (app : Application V ρ η α) (c : Nat) : ConfigureCall V → List (Dict String V)
  | .application config => passedOn app c config
  | .component d kwargs => if d = c then [kwargs] else []

/-- Applications that find the same components under the same names. -/
def SameNames (app app' : Application V ρ η α) : Prop :=
  app'.components = app.components ∧ ∀ c, (app'.object c).name = (app.object c).name

theorem SameNames.getComponent? {app app' : Application V ρ η α} (h : SameNames app app') (name : String) :
    app'.getComponent? name = app.getComponent? name := by
  simp only [Application.getComponent?, h.1, h.2]

theorem SameNames.trans {app app' app'' : Application V ρ η α} (h : SameNames app app') (h' : SameNames app' app'') :
    SameNames app app'' :=
  ⟨h'.1.trans h.1, fun c => (h'.2 c).trans (h.2 c)⟩

theorem configure_name {M : Type} (self : Component V M) (kwargs : Dict String V) :
    (self.configure kwargs).name = self.name := by
  have hparam : ∀ (self : Component V M) param, (Component.configureParam kwargs self param).name = self.name := by
    intro self param
    unfold Component.configureParam
    split <;> rfl
  have hloop : ∀ (params : List String) (self : Component V M),
      (params.foldl (Component.turn kwargs) self).name = self.name := by
    intro params
    induction params with
    | nil => exact fun self => rfl
    | cons param params ih =>
      intro self
      rw [List.foldl_cons, ih, Component.turn]
      split
      · rfl
      · exact hparam self param
  exact (hparam _ _).trans (hloop _ self)

theorem configureObject_sameNames (app : Application V ρ η α) (c : Nat) (kwargs : Dict String V) :
    SameNames app (app.configureObject c kwargs) := by
  refine ⟨rfl, fun d => ?_⟩
  simp only [configureObject, Function.update_apply]
  split
  · rename_i hd
    rw [configure_name, hd]
  · rfl

theorem configureObject_object (app : Application V ρ η α) (c d : Nat) (kwargs : Dict String V) :
    (app.configureObject d kwargs).object c = (app.object c).afterCalls (if d = c then [kwargs] else []) := by
  simp only [configureObject, Function.update_apply]
  by_cases h : d = c
  · subst h
    rw [if_pos rfl, if_pos rfl]
    rfl
  · rw [if_neg (Ne.symm h), if_neg h]
    rfl

theorem passedOn_congr {app app' : Application V ρ η α} (h : SameNames app app') (c : Nat)
    (config : Dict String (Dict String V)) : passedOn app' c config = passedOn app c config := by
  induction config with
  | nil => rfl
  | cons item config ih => simp only [passedOn, h.getComponent?, ih]

theorem configure_spec (config : Dict String (Dict String V)) (app : Application V ρ η α) :
    SameNames app (app.configure config).1 ∧
      ∀ c, (app.configure config).1.object c = (app.object c).afterCalls (passedOn app c config) := by
  induction config generalizing app with
  | nil => exact ⟨⟨rfl, fun _ => rfl⟩, fun _ => rfl⟩
  | cons item config ih =>
    obtain ⟨name, kwargs⟩ := item
    cases hc : app.getComponent? name with
    | none =>
      have hnone : app.configure ((name, kwargs) :: config) = (app, .error .ValueError) := by rw [configure, hc]
      rw [hnone]
      refine ⟨⟨rfl, fun _ => rfl⟩, fun c => ?_⟩
      rw [passedOn, hc]
      rfl
    | some d =>
      have hsome : app.configure ((name, kwargs) :: config) = (app.configureObject d kwargs).configure config := by
        rw [configure, hc]
      obtain ⟨hsame, hobject⟩ := ih (app.configureObject d kwargs)
      rw [hsome]
      refine ⟨(configureObject_sameNames app d kwargs).trans hsame, fun c => ?_⟩
      rw [hobject, configureObject_object, passedOn_congr (configureObject_sameNames app d kwargs), passedOn, hc]
      exact List.foldl_append.symm

theorem afterConfigure_spec (app : Application V ρ η α) (call : ConfigureCall V) :
    SameNames app (app.afterConfigure call) ∧
      ∀ c, (app.afterConfigure call).object c = (app.object c).afterCalls (app.received c call) := by
  cases call with
  | application config => exact configure_spec config app
  | component d kwargs =>
    exact ⟨configureObject_sameNames app d kwargs, fun c => configureObject_object app c d kwargs⟩

theorem received_congr {app app' : Application V ρ η α} (h : SameNames app app') (c : Nat) :
    app'.received c = app.received c := by
  funext call
  cases call with
  | application config => exact passedOn_congr h c config
  | component d kwargs => rfl

/-- A component, after calls of `configure`: what it has received has been configured, in order. -/
theorem object_afterConfigure (app : Application V ρ η α) (calls : List (ConfigureCall V)) (c : Nat) :
    (calls.foldl afterConfigure app).object c = (app.object c).afterCalls (calls.flatMap (app.received c)) := by
  induction calls generalizing app with
  | nil => rfl
  | cons call calls ih =>
    obtain ⟨hsame, hobject⟩ := afterConfigure_spec app call
    rw [List.foldl_cons, ih, hobject, received_congr hsame]
    exact List.foldl_append.symm

/-- After any calls of `configure`, a component is configured as it was told to exactly if all that it was given was
accepted. -/
theorem configured_iff (app : Application V ρ η α) (calls : List (ConfigureCall V)) (c : Nat) :
    (app.object c).Configured (calls.flatMap (app.received c)) ((calls.foldl afterConfigure app).object c) ↔
      (app.object c).Accepted (calls.flatMap (app.received c)) := by
  rw [object_afterConfigure]
  exact Component.configured_afterCalls_iff

/-! ## The executor of processes (`levin/components/concurrent.py`) -/

/-- `vars(_Executor)`, on a machine with four processors. -/
def executorVars : Dict String (ClassAttr Object) :=
  [("__module__", .value (.str "levin.components.concurrent")), ("executor_class", .value (.str "ThreadPoolExecutor")),
    ("executor_kwargs", .value (.str "{}")), ("max_workers", .value (.number 9)), ("start", .method), ("stop", .method),
    ("condition", .value (.str "condition")), ("_call", .method), ("middleware", .method)]

def runProcess : ComponentClass Object where
  own := [("__module__", .value (.str "levin.components.concurrent")), ("name", .value (.str "process_executor")),
    ("executor_class", .value (.str "ProcessPoolExecutor")), ("condition", .value (.str "condition"))]
  bases := [executorVars]
  inherits := List.forall_mem_cons.mpr ⟨⟨rfl, rfl⟩, List.forall_mem_singleton.mpr ⟨rfl, rfl⟩⟩
  enable := ⟨.bool true, rfl⟩

def executors : Application Object Unit Unit Unit where
  object _ := { cls := runProcess, name := "process_executor" }
  components := [0]
  defaultHandler := ()

/-- `app.configure({"process_executor": {"max_workers": 1}})` leaves the number of workers as it is. -/
theorem maxWorkers_not_configured :
    ¬ (executors.object 0).Configured
        ([ConfigureCall.application [("process_executor", [("max_workers", .number 1)])]].flatMap (executors.received 0))
        (([ConfigureCall.application [("process_executor", [("max_workers", .number 1)])]].foldl afterConfigure
          executors).object 0) := by
  intro h
  have hworkers := h.1 "max_workers" ⟨rfl, by decide, by decide, .number 9, rfl⟩ (.number 1) rfl
  exact absurd hworkers (by decide)

end Application

end Levin
