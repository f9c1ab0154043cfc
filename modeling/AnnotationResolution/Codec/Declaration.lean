import AnnotationResolution.Codec.Expr
import AnnotationResolution.Json.Reader
import AnnotationResolution.Model.Loading

/-!
# Declarations and models in JSON

A declaration is a record whose field `kind` holds its element: there the tag `kind` is the kind of the
element, and `info` holds what belongs to it.  The parts of a statement lie beside its tag `stmt`.
What has a default may be left out.

`Model.parse` reads a model from a text.
-/

namespace AnnotationResolution

namespace DeclId

def toJson (id : DeclId) : Json := .int id.index

def ofJson? (j : Json) : Option DeclId := j.nat?.map DeclId.mk

end DeclId

namespace TypeKind

def name : TypeKind → String
  | classType => "class"
  | interface => "interface"
  | enum => "enum"
  | annotationType => "annotation"

def ofJson? : Json.Access → Json → Option TypeKind :=
  Json.word? ([classType, interface, enum, annotationType].map fun kind => (kind.name, kind))

end TypeKind

namespace Visibility

def name : Visibility → String
  | publicAccess => "public"
  | protectedAccess => "protected"
  | packageAccess => "package"
  | privateAccess => "private"

def ofJson? : Json.Access → Json → Option Visibility :=
  Json.word? ([publicAccess, protectedAccess, packageAccess, privateAccess].map fun visibility =>
    (visibility.name, visibility))

end Visibility

namespace Statement

def toJson : Statement → Json
  | returned expr =>
    .obj [("stmt", .str "return"), ("expr", Json.ofOption Expr.toJson expr)]
  | expression expr => .obj [("stmt", .str "expression"), ("expr", expr.toJson)]
  | other source => .obj [("stmt", .str "other"), ("source", .str source)]

def forms : List (String × List String × List String) :=
  [("return", ["expr"], []), ("expression", ["expr"], []), ("other", ["source"], [])]

def ofFields? (access : Json.Access) (j : Json) : Option Statement := do
  match ← j.variant? "stmt" forms access with
  | ⟨record, "return"⟩ =>
    return returned (← Json.optional record.fields "expr" (Expr.ofJson? .setAside))
  | ⟨record, "expression"⟩ =>
    return expression (← Json.required record.fields "expr" (Expr.ofJson? .setAside))
  | ⟨record, "other"⟩ => return other (← Json.required record.fields "source" Json.str?)
  | _ => none

def ofJson? (access : Json.Access) (j : Json) : Option Statement :=
  if j.canSetAside access then ofFields? access j else none

end Statement

namespace TypeInfo

def toJson (info : TypeInfo) : Json :=
  .obj [
    ("type_kind", .str info.kind.name),
    ("type_params", Json.ofList Json.str info.params),
    ("super_type", Json.ofOption TypeRef.toJson info.superType),
    ("interfaces", Json.ofList TypeRef.toJson info.interfaces),
    ("methods", Json.ofList DeclId.toJson info.methods),
    ("fields", Json.ofList DeclId.toJson info.fields),
    ("resolved", .bool info.resolved),
    ("enum_constants", Json.ofList Json.str info.enumConstants)]

def keys : List String :=
  ["type_kind", "type_params", "super_type", "interfaces", "methods", "fields", "resolved",
    "enum_constants"]

def ofJson? (access : Json.Access) (j : Json) : Option TypeInfo := do
  let fields := (← j.record? [] keys).fields
  return {
    kind := ← Json.orElse fields "type_kind" (TypeKind.ofJson? access) .classType
    params := ← Json.orElse fields "type_params" (Json.list? Json.str?) []
    superType := ← Json.optional fields "super_type" (TypeRef.ofJson? access)
    interfaces := ← Json.orElse fields "interfaces" (Json.list? (TypeRef.ofJson? access)) []
    methods := ← Json.orElse fields "methods" (Json.list? DeclId.ofJson?) []
    fields := ← Json.orElse fields "fields" (Json.list? DeclId.ofJson?) []
    resolved := ← Json.orElse fields "resolved" Json.bool? false
    enumConstants := ← Json.orElse fields "enum_constants" (Json.list? Json.str?) [] }

end TypeInfo

namespace MethodInfo

def toJson (info : MethodInfo) : Json :=
  .obj [
    ("parameters", Json.ofList DeclId.toJson info.parameters),
    ("return_type", info.returnType.toJson),
    ("visibility", .str info.visibility.name),
    ("overrides", .bool info.overrides),
    ("default_value", Json.ofOption HostValue.toJson info.defaultValue),
    ("default_body", Json.ofList Statement.toJson info.defaultBody)]

def keys : List String :=
  ["parameters", "return_type", "visibility", "overrides", "default_value", "default_body"]

def ofJson? (access : Json.Access) (j : Json) : Option MethodInfo := do
  let fields := (← j.record? [] keys).fields
  return {
    parameters := ← Json.orElse fields "parameters" (Json.list? DeclId.ofJson?) []
    returnType := ← Json.orElse fields "return_type" (TypeRef.ofJson? access) .void
    visibility := ← Json.orElse fields "visibility" (Visibility.ofJson? access) .publicAccess
    overrides := ← Json.orElse fields "overrides" Json.bool? false
    defaultValue := ← Json.optional fields "default_value" (HostValue.ofJson? access)
    defaultBody := ← Json.orElse fields "default_body" (Json.list? (Statement.ofJson? access)) [] }

end MethodInfo

namespace FieldInfo

def toJson (info : FieldInfo) : Json :=
  .obj [
    ("ty", info.ty.toJson),
    ("visibility", .str info.visibility.name),
    ("is_static", .bool info.isStatic),
    ("constant_value", Json.ofOption HostValue.toJson info.constantValue),
    ("initializer", Json.ofOption Expr.toJson info.initializer)]

def keys : List String := ["ty", "visibility", "is_static", "constant_value", "initializer"]

def ofJson? (access : Json.Access) (j : Json) : Option FieldInfo := do
  let fields := (← j.record? [] keys).fields
  return {
    ty := ← Json.orElse fields "ty" (TypeRef.ofJson? access) .void
    visibility := ← Json.orElse fields "visibility" (Visibility.ofJson? access) .publicAccess
    isStatic := ← Json.orElse fields "is_static" Json.bool? false
    constantValue := ← Json.optional fields "constant_value" (HostValue.ofJson? access)
    initializer := ← Json.optional fields "initializer" (Expr.ofJson? access) }

end FieldInfo

namespace ParameterInfo

def toJson (info : ParameterInfo) : Json :=
  .obj [("ty", info.ty.toJson), ("method", info.method.toJson), ("index", .int info.index)]

def ofJson? (access : Json.Access) (j : Json) : Option ParameterInfo := do
  let fields := (← j.record? ["ty", "method", "index"] []).fields
  return {
    ty := ← Json.required fields "ty" (TypeRef.ofJson? access)
    method := ← Json.required fields "method" DeclId.ofJson?
    index := ← Json.required fields "index" Json.nat? }

end ParameterInfo

namespace Element

def infoToJson : Element → Option Json
  | type info => some info.toJson
  | method info => some info.toJson
  | field info => some info.toJson
  | property ty => some (.obj [("ty", ty.toJson)])
  | parameter info => some info.toJson
  | package => none

def toJson (element : Element) : Json :=
  .obj (("kind", .str element.kind.name) :: (element.infoToJson.map (("info", ·))).toList)

def propertyOfJson? (access : Json.Access) (j : Json) : Option Element := do
  return property (← Json.orElse (← j.record? [] ["ty"]).fields "ty" (TypeRef.ofJson? access) .void)

def forms : List String := ["type", "method", "field", "property", "parameter", "package"]

/-- Nothing but a null may stand beside the kind `package`. -/
def ofJson? (access : Json.Access) (j : Json) : Option Element := do
  match ← j.tagged? "kind" "info" forms access with
  | ⟨"type", access, some content, _⟩ => return type (← TypeInfo.ofJson? access content)
  | ⟨"method", access, some content, _⟩ => return method (← MethodInfo.ofJson? access content)
  | ⟨"field", access, some content, _⟩ => return field (← FieldInfo.ofJson? access content)
  | ⟨"property", access, some content, _⟩ => propertyOfJson? access content
  | ⟨"parameter", access, some content, _⟩ => return parameter (← ParameterInfo.ofJson? access content)
  | ⟨"package", _, none, _⟩ => some package
  | ⟨"package", _, some .null, _⟩ => some package
  | _ => none

end Element

namespace Declaration

def toJson (d : Declaration) : Json :=
  .obj [
    ("name", .str d.name),
    ("declaring_type", Json.ofOption DeclId.toJson d.declaringType),
    ("annotations", Json.ofList AnnotationInstance.toJson d.annotations),
    ("kind", d.element.toJson)]

def ofJson? (access : Json.Access) (j : Json) : Option Declaration := do
  let fields := (← j.record? ["name", "declaring_type", "annotations", "kind"] []).fields
  return {
    name := ← Json.required fields "name" Json.str?
    declaringType := ← Json.optional fields "declaring_type" DeclId.ofJson?
    annotations :=
      ← Json.orElse fields "annotations" (Json.list? (AnnotationInstance.ofJson? access)) []
    element := ← Json.required fields "kind" (Element.ofJson? access) }

end Declaration

namespace Model

def toJson (m : Model) : Json :=
  .obj [("declarations", Json.ofList Declaration.toJson m.declarations.toList)]

def declarationsOfJson? (j : Json) : Option (List Declaration) := do
  let fields := (← j.record? ["declarations"] []).fields
  Json.required fields "declarations" (Json.list? (Declaration.ofJson? .direct))

def ofJson (j : Json) : Except ModelError Model :=
  match declarationsOfJson? j with
  | some declarations => ofDeclarations declarations
  | none => throw .malformed

def parse (text : String) : Except ModelError Model :=
  match Json.parse? text with
  | some j => ofJson j
  | none => throw .malformed

end Model

end AnnotationResolution
