import AnnotationResolution.Expr

/-!
# Declarations

The named elements of a program: types, methods, fields, properties, parameters and packages.  A
declaration refers to others by their position in the model (`DeclId`); `Declaration.references`
lists these references with the kind of element each of them must lead to.
-/

namespace AnnotationResolution

/-- The position of a declaration in a model. -/
structure DeclId where
  index : Nat
deriving DecidableEq, Repr, Inhabited

def DeclId.display (id : DeclId) : String := "#" ++ toString id.index

inductive TypeKind where
  | classType
  | interface
  | enum
  | annotationType
deriving DecidableEq, Repr

inductive Visibility where
  | publicAccess
  | protectedAccess
  | packageAccess
  | privateAccess
deriving DecidableEq, Repr

structure TypeInfo where
  kind : TypeKind := .classType
  params : List String := []
  superType : Option TypeRef := none
  interfaces : List TypeRef := []
  /-- For an annotation type, its members. -/
  methods : List DeclId := []
  fields : List DeclId := []
  /-- Compiled, and not known from its source only. -/
  resolved : Bool := false
  enumConstants : List String := []

structure MethodInfo where
  parameters : List DeclId := []
  returnType : TypeRef := .void
  visibility : Visibility := .publicAccess
  /-- Marked as overriding another method. -/
  overrides : Bool := false
  /-- The default of a member of a compiled annotation type. -/
  defaultValue : Option HostValue := none
  /-- The body that gives a member of a source-only annotation type its default. -/
  defaultBody : List Statement := []

structure FieldInfo where
  ty : TypeRef := .void
  visibility : Visibility := .publicAccess
  isStatic : Bool := false
  constantValue : Option HostValue := none
  initializer : Option Expr := none

structure ParameterInfo where
  ty : TypeRef
  method : DeclId
  /-- The position among the parameters of the method. -/
  index : Nat

/-- What kind of element a declaration is. -/
inductive ElementKind where
  | type
  | method
  | field
  | property
  | parameter
  | package
deriving DecidableEq, Repr

def ElementKind.name : ElementKind → String
  | type => "type"
  | method => "method"
  | field => "field"
  | property => "property"
  | parameter => "parameter"
  | package => "package"

inductive Element where
  | type (info : TypeInfo)
  | method (info : MethodInfo)
  | field (info : FieldInfo)
  | property (ty : TypeRef)
  | parameter (info : ParameterInfo)
  | package

def Element.kind : Element → ElementKind
  | type _ => .type
  | method _ => .method
  | field _ => .field
  | property _ => .property
  | parameter _ => .parameter
  | package => .package

structure Declaration where
  /-- The qualified name of a type or package, the simple name of anything else. -/
  name : String
  declaringType : Option DeclId := none
  annotations : List AnnotationInstance := []
  element : Element

instance : Inhabited Declaration := ⟨⟨"", none, [], .package⟩⟩

namespace Declaration

def kind (d : Declaration) : ElementKind := d.element.kind

def typeInfo? (d : Declaration) : Option TypeInfo :=
  match d.element with
  | .type info => some info
  | _ => none

def methodInfo? (d : Declaration) : Option MethodInfo :=
  match d.element with
  | .method info => some info
  | _ => none

def fieldInfo? (d : Declaration) : Option FieldInfo :=
  match d.element with
  | .field info => some info
  | _ => none

def parameterInfo? (d : Declaration) : Option ParameterInfo :=
  match d.element with
  | .parameter info => some info
  | _ => none

def isType (d : Declaration) : Bool := d.kind = .type

def isAnnotationType (d : Declaration) : Bool :=
  match d.element with
  | .type info => info.kind = .annotationType
  | _ => false

/-- The references of the element itself, in the order in which they are checked. -/
def elementReferences (d : Declaration) : List (DeclId × ElementKind) :=
  match d.element with
  | .type info =>
    info.methods.map (·, ElementKind.method) ++ info.fields.map (·, ElementKind.field)
  | .method info => info.parameters.map (·, ElementKind.parameter)
  | .parameter info => [(info.method, .method)]
  | _ => []

/-- Every declaration this one refers to and the kind it must be of, the declaring type first. -/
def references (d : Declaration) : List (DeclId × ElementKind) :=
  d.declaringType.toList.map (·, ElementKind.type) ++ d.elementReferences

end Declaration

end AnnotationResolution
