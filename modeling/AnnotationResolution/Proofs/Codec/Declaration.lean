import AnnotationResolution.Codec.Declaration
import AnnotationResolution.Proofs.Codec.Expr

/-!
# Declarations and models are read back

Every part of a declaration is written, so what has a default when it is left out is not left to it.

* `Statement.ofJson?_toJson`, `TypeInfo.ofJson?_toJson`, `MethodInfo.ofJson?_toJson`,
  `FieldInfo.ofJson?_toJson`, `Element.ofJson?_toJson`: the parts of a declaration.
* `Declaration.ofJson?_toJson`: a declaration.
* `Model.ofJson_toJson`: an accepted model.
-/

namespace AnnotationResolution

/-! ## Words and positions -/

@[simp] theorem DeclId.ofJson?_toJson (id : DeclId) : DeclId.ofJson? id.toJson = some id := by
  simp [DeclId.toJson, DeclId.ofJson?]

@[simp] theorem DeclId.list?_ofList (ids : List DeclId) :
    Json.list? DeclId.ofJson? (Json.ofList DeclId.toJson ids) = some ids :=
  Json.list?_ofList fun id _ => id.ofJson?_toJson

@[simp] theorem TypeKind.ofJson?_name (access : Json.Access) (kind : TypeKind) :
    TypeKind.ofJson? access (.str kind.name) = some kind := by
  cases kind <;> simp [TypeKind.ofJson?, Json.word?, TypeKind.name, List.lookup_cons]

@[simp] theorem Visibility.ofJson?_name (access : Json.Access) (visibility : Visibility) :
    Visibility.ofJson? access (.str visibility.name) = some visibility := by
  cases visibility <;> simp [Visibility.ofJson?, Json.word?, Visibility.name, List.lookup_cons]

/-! ## Optional values -/

section Optional

variable {access : Json.Access} {key : String} {rest : List (String × Json)}

@[simp] theorem TypeRef.optional_toJson (ty : Option TypeRef) :
    Json.optional ((key, Json.ofOption TypeRef.toJson ty) :: rest) key (TypeRef.ofJson? access) =
      some ty :=
  Json.optional_ofOption (fun ty _ => ty.ofJson?_toJson access) fun ty _ => ty.toJson_ne_null

theorem Expr.optional_toJson {e : Option Expr} (h : e.all Expr.wellNamed = true) :
    Json.optional ((key, Json.ofOption Expr.toJson e) :: rest) key (Expr.ofJson? access) =
      some e := by
  rw [Option.all_eq_true] at h
  exact Json.optional_ofOption (fun e he => Expr.ofJson?_toJson access (h e he))
    fun e _ => e.toJson_ne_null

theorem HostValue.optional_toJson {host : Option HostValue}
    (h : host.all HostValue.wellNamed = true) :
    Json.optional ((key, Json.ofOption HostValue.toJson host) :: rest) key
      (HostValue.ofJson? access) = some host := by
  rw [Option.all_eq_true] at h
  exact Json.optional_ofOption (fun host hh => HostValue.ofJson?_toJson access (h host hh))
    fun host _ => host.toJson_ne_null

end Optional

/-! ## Parts of a declaration -/

theorem Statement.isReadable_toJson (s : Statement) : s.toJson.isReadable = true := by
  cases s with
  | returned e => cases e <;> simp [Statement.toJson, Json.ofOption, Expr.isReadable_toJson]
  | expression e => simp [Statement.toJson, e.isReadable_toJson]
  | other source => simp [Statement.toJson]

theorem Statement.ofJson?_toJson (access : Json.Access) {s : Statement}
    (h : s.wellNamed = true) : Statement.ofJson? access s.toJson = some s := by
  have hread : s.toJson.canSetAside access = true := by
    simp [Json.canSetAside, s.isReadable_toJson]
  rw [Statement.ofJson?, if_pos hread]
  cases s with
  | returned e =>
    have he : e.all Expr.wellNamed = true := by cases e <;> exact h
    simp [Statement.toJson, Statement.ofFields?, Statement.forms, Expr.optional_toJson he]
  | expression e =>
    simp [Statement.toJson, Statement.ofFields?, Statement.forms, List.lookup_cons,
      Expr.ofJson?_toJson .setAside h]
  | other source =>
    simp [Statement.toJson, Statement.ofFields?, Statement.forms, List.lookup_cons]

@[simp] theorem TypeInfo.ofJson?_toJson (access : Json.Access) (info : TypeInfo) :
    TypeInfo.ofJson? access info.toJson = some info := by
  have hinterfaces : Json.list? (TypeRef.ofJson? access)
      (Json.ofList TypeRef.toJson info.interfaces) = some info.interfaces :=
    Json.list?_ofList fun ty _ => ty.ofJson?_toJson access
  simp [TypeInfo.toJson, TypeInfo.ofJson?, hinterfaces]

theorem MethodInfo.ofJson?_toJson (access : Json.Access) {info : MethodInfo}
    (h : (Element.method info).wellNamed = true) :
    MethodInfo.ofJson? access info.toJson = some info := by
  rw [Element.wellNamed, Bool.and_eq_true, List.all_eq_true] at h
  have hbody : Json.list? (Statement.ofJson? access)
      (Json.ofList Statement.toJson info.defaultBody) = some info.defaultBody :=
    Json.list?_ofList fun s hs => Statement.ofJson?_toJson access (h.2 s hs)
  simp [MethodInfo.toJson, MethodInfo.ofJson?, HostValue.optional_toJson h.1, hbody]

theorem FieldInfo.ofJson?_toJson (access : Json.Access) {info : FieldInfo}
    (h : (Element.field info).wellNamed = true) :
    FieldInfo.ofJson? access info.toJson = some info := by
  rw [Element.wellNamed, Bool.and_eq_true] at h
  simp [FieldInfo.toJson, FieldInfo.ofJson?, HostValue.optional_toJson h.1,
    Expr.optional_toJson h.2]

@[simp] theorem ParameterInfo.ofJson?_toJson (access : Json.Access) (info : ParameterInfo) :
    ParameterInfo.ofJson? access info.toJson = some info := by
  simp [ParameterInfo.toJson, ParameterInfo.ofJson?]

theorem Element.ofJson?_toJson (access : Json.Access) {element : Element}
    (h : element.wellNamed = true) : Element.ofJson? access element.toJson = some element := by
  cases element with
  | type info => simp [Element.toJson, Element.ofJson?, infoToJson, Element.kind, ElementKind.name]
  | method info =>
    simp [Element.toJson, Element.ofJson?, infoToJson, Element.kind, ElementKind.name,
      MethodInfo.ofJson?_toJson access h]
  | field info =>
    simp [Element.toJson, Element.ofJson?, infoToJson, Element.kind, ElementKind.name,
      FieldInfo.ofJson?_toJson access h]
  | property ty =>
    simp [Element.toJson, Element.ofJson?, infoToJson, Element.kind, ElementKind.name,
      propertyOfJson?]
  | parameter info =>
    simp [Element.toJson, Element.ofJson?, infoToJson, Element.kind, ElementKind.name]
  | package =>
    simp [Element.toJson, Element.ofJson?, infoToJson, Element.kind, ElementKind.name]

/-! ## Declarations and models -/

theorem Declaration.ofJson?_toJson (access : Json.Access) {d : Declaration}
    (h : d.wellNamed = true) : Declaration.ofJson? access d.toJson = some d := by
  rw [Declaration.wellNamed, Bool.and_eq_true, List.all_eq_true] at h
  have happlied : Json.list? (AnnotationInstance.ofJson? access)
      (Json.ofList AnnotationInstance.toJson d.annotations) = some d.annotations :=
    Json.list?_ofList fun a ha => AnnotationInstance.ofJson?_toJson access (h.1 a ha)
  have howner : Json.optional (("declaring_type", Json.ofOption DeclId.toJson d.declaringType) ::
      [("annotations", Json.ofList AnnotationInstance.toJson d.annotations),
        ("kind", d.element.toJson)]) "declaring_type" DeclId.ofJson? = some d.declaringType :=
    Json.optional_ofOption (fun id _ => id.ofJson?_toJson) fun id _ => by simp [DeclId.toJson]
  simp [Declaration.toJson, Declaration.ofJson?, happlied, howner,
    Element.ofJson?_toJson access h.2]

theorem Declaration.list?_ofList {declarations : List Declaration}
    (h : declarations.all Declaration.wellNamed = true) :
    Json.list? (Declaration.ofJson? .direct) (Json.ofList Declaration.toJson declarations) =
      some declarations := by
  rw [List.all_eq_true] at h
  exact Json.list?_ofList fun d hd => Declaration.ofJson?_toJson .direct (h d hd)

/-- **An accepted model is loaded again from what it is written as.** -/
theorem Model.ofJson_toJson {m : Model} (h : m.Accepted) : Model.ofJson m.toJson = .ok m := by
  obtain ⟨hload, hnamed⟩ := Model.accepted_iff.mp h
  have hread : Model.declarationsOfJson? m.toJson = some m.declarations.toList := by
    simp [Model.declarationsOfJson?, Model.toJson, Declaration.list?_ofList hnamed]
  rw [Model.ofJson, hread]
  exact hload

end AnnotationResolution
