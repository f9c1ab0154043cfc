import AnnotationResolution.Members

/-!
# Type references

A type as it is written in a declaration: a named type with its type arguments, a type parameter, or
an array.  A `Substitution` binds type parameters; `substitute` puts the bound types in their place.

* `sameErasure` compares two types without their type arguments.
* `binaryName` is the name of the erased type, `com.foo.Bar` or `[Lcom.foo.Bar;`, and `display` the
  form in which a type is shown.
-/

namespace AnnotationResolution

inductive TypeRef where
  | named (name : String) (args : List TypeRef)
  | param (name : String)
  | array (component : TypeRef)
deriving BEq, Repr

/-- The types that type parameters are bound to. -/
abbrev Substitution := Members TypeRef

namespace TypeRef

def void : TypeRef := named "void" []

instance : Inhabited TypeRef := ⟨void⟩

def isArray : TypeRef → Bool
  | array _ => true
  | _ => false

/-- The name of a named type, without its arguments. -/
def rawName? : TypeRef → Option String
  | named name _ => some name
  | _ => none

mutual

/-- Whether a type parameter occurs anywhere. -/
def hasParams : TypeRef → Bool
  | named _ args => anyHasParams args
  | param _ => true
  | array component => hasParams component

def anyHasParams : List TypeRef → Bool
  | [] => false
  | ty :: rest => hasParams ty || anyHasParams rest

end

def sameErasure : TypeRef → TypeRef → Bool
  | named a _, named b _ => a == b
  | param a, param b => a == b
  | array a, array b => sameErasure a b
  | _, _ => false

mutual

/-- A type parameter that is not bound stays. -/
def substitute (bindings : Substitution) : TypeRef → TypeRef
  | named name args => named name (substituteAll bindings args)
  | param name => (bindings.get? name).getD (param name)
  | array component => array (substitute bindings component)

def substituteAll (bindings : Substitution) : List TypeRef → List TypeRef
  | [] => []
  | ty :: rest => substitute bindings ty :: substituteAll bindings rest

end

def binaryName : TypeRef → String
  | named name _ => name
  | param name => name
  | array (array component) => "[" ++ binaryName (array component)
  | array component => "[L" ++ binaryName component ++ ";"

mutual

def display : TypeRef → String
  | named name [] => name
  | named name (arg :: args) => name ++ "<" ++ ", ".intercalate (displayAll (arg :: args)) ++ ">"
  | param name => name
  | array component => display component ++ "[]"

def displayAll : List TypeRef → List String
  | [] => []
  | ty :: rest => display ty :: displayAll rest

end

theorem anyHasParams_eq (types : List TypeRef) : anyHasParams types = types.any hasParams := by
  induction types with
  | nil => rfl
  | cons ty rest ih => simp [anyHasParams, ih]

theorem substituteAll_eq (bindings : Substitution) (types : List TypeRef) :
    substituteAll bindings types = types.map (substitute bindings) := by
  induction types with
  | nil => rfl
  | cons ty rest ih => simp [substituteAll, ih]

end TypeRef

end AnnotationResolution
