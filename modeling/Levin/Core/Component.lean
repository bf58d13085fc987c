import Levin.Core.App

/-!
# Components (`levin/core/component.py`)

A component is an object of a class that inherits from `Component`. Which of its
attributes `configure` sets is read from the dictionary of its own class, and from
the values the attributes have at that moment.
-/

namespace Levin

open Framework

/-- What is asked of the values of attributes. -/
class PyObject (V : Type) extends PyValue V where
  bool : Bool → V
  str : String → V
  /-- `inspect.ismethod(v)` -/
  ismethod : V → Bool
  /-- The function of that name, bound to the object it is read from. -/
  boundMethod : String → V
  ismethod_boundMethod (name : String) : ismethod (boundMethod name) = true

variable {V : Type} [PyObject V]

/-- What a name is bound to in the body of a class. -/
inductive ClassAttr (V : Type)
  /-- A function or a `classmethod`. -/
  | method
  /-- A `property`, which is computed from the attributes of the object. -/
  | property (get : Dict String V → V)
  /-- Anything else; of a `staticmethod`, the function it wraps. -/
  | value (v : V)

/-- `vars(Component)` -/
def componentVars : Dict String (ClassAttr V) :=
  [("name", .value (PyObject.str "levin.core.component")), ("middleware", .value PyValue.none),
    ("enable", .value (PyObject.bool true)), ("__init__", .method), ("init", .method), ("configure", .method),
    ("get_configure_params", .method), ("start", .method), ("_start", .method), ("stop", .method)]

/-- A class that inherits from `Component`, with the dictionaries of the classes of its `__mro__` up to, and
without, `Component`. It configures itself as `Component` does. -/
structure ComponentClass (V : Type) [PyObject V] where
  /-- `vars(self.__class__)` -/
  own : Dict String (ClassAttr V)
  bases : List (Dict String (ClassAttr V)) := []
  /-- Neither `configure` nor `get_configure_params` is redefined. -/
  inherits : ∀ d ∈ own :: bases, Dict.get? d "configure" = none ∧ Dict.get? d "get_configure_params" = none
  /-- `enable` is an attribute as in `Component`, no method and no property. -/
  enable : ∃ v, (own :: bases ++ [componentVars]).findSome? (fun d => Dict.get? d "enable") = some (.value v)

/-- The attribute of a class: that of the first class of its `__mro__` that has it. -/
def ComponentClass.lookup (cls : ComponentClass V) (a : String) : Option (ClassAttr V) :=
  (cls.own :: cls.bases ++ [componentVars]).findSome? fun d => Dict.get? d a

/-- An object of a component class. -/
structure Component (V M : Type) [PyObject V] where
  cls : ComponentClass V
  /-- `vars(self)` -/
  attrs : Dict String V := []
  name : String
  middleware : Option M := none
  /-- What calling, and awaiting, its own `start` does: it returns or raises. -/
  start : Except Exc Unit := .ok ()
  /-- What calling its `stop` does. -/
  stop : Except Exc Unit := .ok ()

namespace Component

variable {M : Type}

/-- `getattr(self, a)` -/
def getattr? (self : Component V M) (a : String) : Option V :=
  match self.cls.lookup a with
  | some .method => some ((self.attrs.get? a).getD (PyObject.boundMethod a))
  | some (.property get) => some (get self.attrs)
  | some (.value v) => some ((self.attrs.get? a).getD v)
  | none => self.attrs.get? a

/-- `setattr(self, a, v)`, for an attribute that is no property. -/
def setattr (a : String) (v : V) (self : Component V M) : Component V M :=
  { self with attrs := self.attrs.set a v }

/-- `isinstance(getattr(self.__class__, a), property)` -/
def isProperty (self : Component V M) (a : String) : Bool :=
  match self.cls.lookup a with
  | some (.property _) => true
  | _ => false

/-- `get_configure_params` goes on to the next name at this one. -/
def skips (self : Component V M) (param : String) : Bool :=
  "_".toList.isPrefixOf param.toList || param = "name" || param = "middleware" || self.isProperty param ||
    (self.getattr? param).any PyObject.ismethod

/-- One turn of the loop of `configure`, for a name that `get_configure_params` yields. -/
def configureParam (kwargs : Dict String V) (self : Component V M) (param : String) : Component V M :=
  match kwargs.get? param with
  | none => self
  | some v => self.setattr param v

/-- `configure(**kwargs)`. `get_configure_params` is a generator: it looks at a name of the class when the loop
has set the parameters before it. -/
def configure (kwargs : Dict String V) (self : Component V M) : Component V M :=
  configureParam kwargs
    ((self.cls.own.map Prod.fst).foldl
      (fun self param => if self.skips param then self else configureParam kwargs self param) self)
    "enable"

/-- `self.enable`, as a condition. -/
def enabled (self : Component V M) : Bool := (self.getattr? "enable").any PyValue.truthy

/-- `DisableComponentError` -/
def DisableComponentError : Exc := .other "DisableComponentError"

/-- `_start(app)` -/
def _start (self : Component V M) : Except Exc Unit :=
  if self.enabled then self.start else .error DisableComponentError

end Component

end Levin
