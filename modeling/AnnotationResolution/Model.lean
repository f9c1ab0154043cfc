import AnnotationResolution.Declaration
import AnnotationResolution.DepthFirst

/-!
# Models

A model is an array of declarations together with an index of its types by name.  The queries below
follow the references between declarations; a reference that leads nowhere gives no answer.

`superclasses` is the chain of superclasses of a type, nearest first.  It ends at a superclass that
does not resolve, and before one that is on the chain already.
-/

namespace AnnotationResolution

structure Model where
  declarations : Array Declaration := #[]
  types : Members DeclId := ∅

instance : Inhabited Model := ⟨{}⟩

/-- Why a model cannot be loaded, or a query has no answer. -/
inductive ModelError where
  | malformed
  | duplicateType (name : String)
  | danglingReference (owner target : DeclId)
  | wrongReferenceKind (owner target : DeclId) (expected found : ElementKind)
  | unknownDeclaration (id : DeclId)
  | noDeclaringType (id : DeclId)
deriving Repr, DecidableEq

def ModelError.message : ModelError → String
  | malformed => "Failed to parse declaration model"
  | duplicateType name => "Type '" ++ name ++ "' is declared more than once"
  | danglingReference owner target =>
    "Declaration " ++ owner.display ++ " references unknown declaration " ++ target.display
  | wrongReferenceKind owner target expected found =>
    "Declaration " ++ owner.display ++ " references " ++ target.display ++ " as a " ++ expected.name
      ++ ", but it is a " ++ found.name
  | unknownDeclaration id => "Unknown declaration " ++ id.display
  | noDeclaringType id => "Declaration " ++ id.display ++ " has no declaring type"

namespace Model

variable (m : Model)

def size : Nat := m.declarations.size

def ids : List DeclId := (List.range m.size).map DeclId.mk

def declaration? (id : DeclId) : Option Declaration := m.declarations[id.index]?

def typeNamed? (name : String) : Option DeclId := m.types.get? name

def kind? (id : DeclId) : Option ElementKind := (m.declaration? id).map Declaration.kind

def isType (id : DeclId) : Bool := m.kind? id = some .type

def typeInfo? (id : DeclId) : Option TypeInfo := (m.declaration? id).bind Declaration.typeInfo?

def methodInfo? (id : DeclId) : Option MethodInfo :=
  (m.declaration? id).bind Declaration.methodInfo?

def annotations (id : DeclId) : List AnnotationInstance :=
  match m.declaration? id with
  | some d => d.annotations
  | none => []

def annotationsOfType (id : DeclId) (annotationType : String) : List AnnotationInstance :=
  (m.annotations id).filter (·.annotationType == annotationType)

def superType? (id : DeclId) : Option DeclId := do
  let ref ← (← m.typeInfo? id).superType
  m.typeNamed? (← ref.rawName?)

/-- The types that the interfaces of a type resolve to. -/
def interfaces (id : DeclId) : List DeclId :=
  match m.typeInfo? id with
  | some info => info.interfaces.filterMap fun ref => ref.rawName?.bind m.typeNamed?
  | none => []

def methodsNamed (id : DeclId) (name : String) : List DeclId :=
  match m.typeInfo? id with
  | some info => info.methods.filter fun method => (m.declaration? method).any (·.name == name)
  | none => []

def parameterAt? (method : DeclId) (index : Nat) : Option DeclId :=
  (m.methodInfo? method).bind fun info => info.parameters[index]?

/-- The types of the parameters of a method that are there and are parameters. -/
def parameterTypes (method : DeclId) : List TypeRef :=
  match m.methodInfo? method with
  | some info =>
    info.parameters.filterMap fun p =>
      ((m.declaration? p).bind Declaration.parameterInfo?).map ParameterInfo.ty
  | none => []

/-- The method that declares a member of an annotation type. -/
def annotationMember? (annotationType member : String) : Option DeclId :=
  (m.typeNamed? annotationType).bind fun ty => (m.methodsNamed ty member).head?

def staticField? (id : DeclId) (name : String) : Option DeclId :=
  (m.typeInfo? id).bind fun info =>
    info.fields.find? fun field =>
      (m.declaration? field).any fun d => d.name == name && d.fieldInfo?.any FieldInfo.isStatic

def declaringTypeName (id : DeclId) : Except ModelError String :=
  match m.declaration? id with
  | none => throw (.unknownDeclaration id)
  | some d =>
    match d.declaringType with
    | none => throw (.noDeclaringType id)
    | some owner =>
      match m.declaration? owner with
      | some ownerDecl => pure ownerDecl.name
      | none => throw (.danglingReference id owner)

/-- The name of a declaration, reached through at most `owners` methods that own it. -/
def qualifiedNameWithin (owners : Nat) (id : DeclId) : String :=
  match m.declaration? id with
  | none => id.display
  | some d =>
    match d.element with
    | .type _ | .package => d.name
    | .parameter info =>
      match owners with
      | 0 => d.name
      | owners + 1 => qualifiedNameWithin owners info.method ++ "/" ++ d.name
    | .method _ | .field _ | .property _ =>
      match m.declaringTypeName id with
      | .ok owner => owner ++ "#" ++ d.name
      | .error _ => d.name

/-- `com.foo.Bar`, `com.foo.Bar#run` or `com.foo.Bar#run/arg`.  The owners of a parameter end
within as many steps as there are declarations, unless they go round in a circle. -/
def qualifiedName (id : DeclId) : String := m.qualifiedNameWithin m.size id

/-- All superclasses of a type, nearest first. -/
def superclasses (id : DeclId) : List DeclId :=
  let next := fun id (_ : Unit) => (m.superType? id).toList.map (·, ())
  freshKeys (depthFirst m.ids next (next id ()) [id])

end Model

end AnnotationResolution
