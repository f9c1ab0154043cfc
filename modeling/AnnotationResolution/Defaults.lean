import AnnotationResolution.Reading

/-!
# Defaults of annotation members

A compiled annotation type gives the default of a member as a host value, one known from its source
only as the literal that is the whole body of the member.  An empty string is no default.

A `DefaultCache` keeps the defaults of each annotation type by its name; what is stored first stays.
-/

namespace AnnotationResolution

/-- The literal that a body of one statement consists of. -/
def literalBody? : List Statement → Option Expr
  | [.returned (some (.literal constant))] => some (.literal constant)
  | [.expression (.literal constant)] => some (.literal constant)
  | _ => none

namespace Environment

variable (env : Environment)

/-- The default of a member of a type that is `resolved` or not. -/
def memberDefault? (resolved : Bool) (member : DeclId) (info : MethodInfo) : Option Value :=
  let raw :=
    if resolved then info.defaultValue.map RawValue.host
    else (literalBody? info.defaultBody).map RawValue.expr
  (raw.bind (env.readValue (some member))).filter fun value => !value.isEmptyString

/-- The defaults of the members of an annotation type, in the order of declaration. -/
def defaultValues (annotationType : DeclId) : Members Value :=
  match env.model.typeInfo? annotationType with
  | none => ∅
  | some info =>
    Members.ofList <| info.methods.filterMap fun member => do
      let d ← env.model.declaration? member
      let value ← env.memberDefault? info.resolved member (← d.methodInfo?)
      return (d.name, value)

end Environment

structure DefaultCache where
  entries : Members (Members Value) := ∅

instance : Inhabited DefaultCache := ⟨{}⟩

namespace DefaultCache

def get? (cache : DefaultCache) (name : String) : Option (Members Value) := cache.entries.get? name

def contains (cache : DefaultCache) (name : String) : Bool := cache.entries.contains name

def size (cache : DefaultCache) : Nat := cache.entries.size

/-- The cache with the defaults of a type under a name, if nothing is stored there yet. -/
def store (env : Environment) (cache : DefaultCache) (name : String) (annotationType : DeclId) :
    DefaultCache :=
  if cache.contains name then cache
  else ⟨cache.entries.insert name (env.defaultValues annotationType)⟩

/-- The cache with the defaults of the type of that name, if there is one. -/
def ensure (env : Environment) (cache : DefaultCache) (name : String) : DefaultCache :=
  match env.model.typeNamed? name with
  | some annotationType => cache.store env name annotationType
  | none => cache

/-- The stored defaults of a name that a type has. -/
def defaultsOf (env : Environment) (cache : DefaultCache) (name : String) : Members Value :=
  match env.model.typeNamed? name with
  | some _ => (cache.get? name).getD ∅
  | none => ∅

end DefaultCache

end AnnotationResolution
