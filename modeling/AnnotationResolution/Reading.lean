import AnnotationResolution.Hierarchy
import AnnotationResolution.Value.Inference
import AnnotationResolution.Value.Raw

/-!
# Reading raw values

`Environment.readValue` turns a raw value into a canonical one, or finds that it has none.  The
member that the value is for matters in two ways: a single annotation for an array member becomes a
list of one, and a list for an array member takes the declared kind when it has no items, or when
it holds integers and floats are declared.

A value may nest as deep as the configuration allows.  Reading goes down one level inside a list, an
annotation, a variable and a constant, and what lies too deep is absent.
-/

namespace AnnotationResolution

/-- What a constant of a type stands for. -/
inductive TypeConstant where
  /-- A constant of an enum, known by its name alone. -/
  | enumName
  | stored (value : RawValue)

def FieldInfo.stored? (field : FieldInfo) : Option RawValue :=
  match field.constantValue with
  | some host => some (.host host)
  | none => field.initializer.map RawValue.expr

/-- The constant of a type: any name of an enum, and the stored value of a static field of another
type. -/
def Model.constant? (m : Model) (owner member : String) : Option TypeConstant := do
  let ty ← m.typeNamed? owner
  let info ← m.typeInfo? ty
  if info.kind = .enum then some .enumName
  else
    let field ← m.declaration? (← m.staticField? ty member)
    (← field.fieldInfo?).stored?.map TypeConstant.stored

/-! ## Declared kinds -/

def stringTypeNames : List String := ["java.lang.String", "String", "kotlin.String"]

def intTypeNames : List String :=
  ["int", "long", "short", "byte", "java.lang.Integer", "java.lang.Long", "java.lang.Short",
    "java.lang.Byte"]

def floatTypeNames : List String := ["float", "double", "java.lang.Float", "java.lang.Double"]

def boolTypeNames : List String := ["boolean", "java.lang.Boolean"]

def charTypeNames : List String := ["char", "java.lang.Character"]

def classTypeNames : List String := ["java.lang.Class", "kotlin.reflect.KClass"]

/-- The kind of the values of a built-in type. -/
def builtinComponent? (name : String) : Option Component :=
  if name ∈ stringTypeNames then some .string
  else if name ∈ intTypeNames then some .int
  else if name ∈ floatTypeNames then some .float
  else if name ∈ boolTypeNames then some .bool
  else if name ∈ charTypeNames then some .char
  else if name ∈ classTypeNames then some .classRef
  else none

namespace Model

variable (m : Model)

def declaredComponent (ty : TypeRef) : Component :=
  match ty.rawName? with
  | none => .unknown
  | some name =>
    match builtinComponent? name with
    | some component => component
    | none =>
      match ((m.typeNamed? name).bind m.typeInfo?).map TypeInfo.kind with
      | some .enum => .enumConstant
      | some .annotationType => .nested
      | _ => .unknown

/-- The type of the items of an array member. -/
def itemType? (member : Option DeclId) : Option TypeRef :=
  match (member.bind m.methodInfo?).map MethodInfo.returnType with
  | some (.array item) => some item
  | _ => none

/-- An annotation that stands alone where an array is declared is a list of one. -/
def wrapAnnotation (member : Option DeclId) (inList : Bool) (a : NestedAnnotation) : Value :=
  if !inList && (m.itemType? member).isSome then .list ⟨.nested, [.nested a]⟩
  else .nested a

def listFor (member : Option DeclId) (values : List Value) : ValueList :=
  let list := ValueList.infer values
  match m.itemType? member with
  | none => list
  | some item =>
    let declared := m.declaredComponent item
    if list.component = .unknown then { list with component := declared }
    else if list.component = .int ∧ declared = .float then ValueList.ofKind .float list.items
    else list

/-- The members that have a value, each read by `read` for the method that declares it. -/
def nestedAnnotation (read : Option DeclId → RawValue → Option Value) (a : AnnotationInstance) :
    NestedAnnotation :=
  ⟨a.annotationType, Members.ofList <| a.members.entries.filterMap fun (name, e) =>
    (read (m.annotationMember? a.annotationType name) (.expr e)).map (name, ·)⟩

/-- The value of a raw value in which at most `levels` levels are read. -/
def readWithin : Nat → Option DeclId → Bool → RawValue → Option Value
  | 0, _, _, _ => none
  | levels + 1, member, inList, raw =>
    match raw.shape with
    | .absent => none
    | .complete value => some value
    | .nested a =>
      some (m.wrapAnnotation member inList
        (m.nestedAnnotation (fun member raw => readWithin levels member false raw) a))
    | .list items =>
      some (.list (m.listFor member (items.filterMap fun item => readWithin levels member true item)))
    | .named value => readWithin levels member inList value
    | .constant owner name =>
      match m.constant? owner name with
      | none => none
      | some .enumName => some (.str name)
      | some (.stored value) => readWithin levels none false value

end Model

namespace Environment

variable (env : Environment)

def readValue (member : Option DeclId) (raw : RawValue) : Option Value :=
  env.model.readWithin env.config.maxValueDepth member false raw

/-- The value of a member of an annotation. -/
def readMember (annotationType member : String) (e : Expr) : Option Value :=
  env.readValue (env.model.annotationMember? annotationType member) (.expr e)

def readAnnotation (a : AnnotationInstance) : NestedAnnotation :=
  env.model.nestedAnnotation env.readValue a

end Environment

end AnnotationResolution
