import Mathlib.Logic.Equiv.Basic
import AnnotationResolution.Defaults
import AnnotationResolution.Proofs.Model.Index

/-!
# Renumbering a model

The ids of declarations are their positions, so they change when declarations are moved.
`Declaration.renumber` replaces every id that a declaration refers to, and one model *renumbers*
another (`Model.Renumbers`) when it has the declarations of the other under their new ids.  That the
types keep their names is all that else is asked for.

Here we go through the queries: each of them answers in the new model what it answers in the old
one, with new ids where the answer has ids.  Where it has none, as with every value that is read
(`Model.SameShape.readWithin`) and every default (`Environment.SameShape.defaultValues`), the answer
is the same.  Few queries look at annotations, and for all others it is enough that the two models
have the same shape (`Model.SameShape`), whatever annotations their declarations carry.
-/

namespace AnnotationResolution

/-! ## Declarations under new ids -/

def TypeInfo.renumber (f : DeclId → DeclId) (info : TypeInfo) : TypeInfo :=
  { info with methods := info.methods.map f, fields := info.fields.map f }

def MethodInfo.renumber (f : DeclId → DeclId) (info : MethodInfo) : MethodInfo :=
  { info with parameters := info.parameters.map f }

def ParameterInfo.renumber (f : DeclId → DeclId) (info : ParameterInfo) : ParameterInfo :=
  { info with method := f info.method }

def Element.renumber (f : DeclId → DeclId) : Element → Element
  | .type info => .type (info.renumber f)
  | .method info => .method (info.renumber f)
  | .field info => .field info
  | .property ty => .property ty
  | .parameter info => .parameter (info.renumber f)
  | .package => .package

/-- The declaration with new ids for the declarations that it refers to. -/
def Declaration.renumber (f : DeclId → DeclId) (d : Declaration) : Declaration :=
  { d with declaringType := d.declaringType.map f, element := d.element.renumber f }

/-- The declaration with other annotations. -/
def Declaration.withAnnotations (annotations : List AnnotationInstance) (d : Declaration) :
    Declaration :=
  { d with annotations }

namespace Declaration

section

variable (annotations : List AnnotationInstance) (d : Declaration)

@[simp] theorem name_withAnnotations : (d.withAnnotations annotations).name = d.name := rfl

@[simp] theorem declaringType_withAnnotations :
    (d.withAnnotations annotations).declaringType = d.declaringType := rfl

@[simp] theorem element_withAnnotations :
    (d.withAnnotations annotations).element = d.element := rfl

@[simp] theorem kind_withAnnotations : (d.withAnnotations annotations).kind = d.kind := rfl

@[simp] theorem isType_withAnnotations : (d.withAnnotations annotations).isType = d.isType := rfl

@[simp] theorem typeInfo?_withAnnotations :
    (d.withAnnotations annotations).typeInfo? = d.typeInfo? := rfl

@[simp] theorem methodInfo?_withAnnotations :
    (d.withAnnotations annotations).methodInfo? = d.methodInfo? := rfl

@[simp] theorem fieldInfo?_withAnnotations :
    (d.withAnnotations annotations).fieldInfo? = d.fieldInfo? := rfl

@[simp] theorem parameterInfo?_withAnnotations :
    (d.withAnnotations annotations).parameterInfo? = d.parameterInfo? := rfl

@[simp] theorem isAnnotationType_withAnnotations :
    (d.withAnnotations annotations).isAnnotationType = d.isAnnotationType := rfl

end

variable (f : DeclId → DeclId) (d : Declaration)

@[simp] theorem name_renumber : (d.renumber f).name = d.name := rfl

@[simp] theorem declaringType_renumber :
    (d.renumber f).declaringType = d.declaringType.map f := rfl

@[simp] theorem annotations_renumber : (d.renumber f).annotations = d.annotations := rfl

@[simp] theorem element_renumber : (d.renumber f).element = d.element.renumber f := rfl

@[simp] theorem kind_renumber : (d.renumber f).kind = d.kind := by
  rw [kind, kind, element_renumber]
  cases d.element <;> rfl

@[simp] theorem isType_renumber : (d.renumber f).isType = d.isType := by
  rw [isType, isType, kind_renumber]

@[simp] theorem typeInfo?_renumber :
    (d.renumber f).typeInfo? = d.typeInfo?.map (TypeInfo.renumber f) := by
  rw [typeInfo?, typeInfo?, element_renumber]
  cases d.element <;> rfl

@[simp] theorem methodInfo?_renumber :
    (d.renumber f).methodInfo? = d.methodInfo?.map (MethodInfo.renumber f) := by
  rw [methodInfo?, methodInfo?, element_renumber]
  cases d.element <;> rfl

@[simp] theorem fieldInfo?_renumber : (d.renumber f).fieldInfo? = d.fieldInfo? := by
  rw [fieldInfo?, fieldInfo?, element_renumber]
  cases d.element <;> rfl

@[simp] theorem parameterInfo?_renumber :
    (d.renumber f).parameterInfo? = d.parameterInfo?.map (ParameterInfo.renumber f) := by
  rw [parameterInfo?, parameterInfo?, element_renumber]
  cases d.element <;> rfl

@[simp] theorem isAnnotationType_renumber :
    (d.renumber f).isAnnotationType = d.isAnnotationType := by
  rw [isAnnotationType, isAnnotationType, element_renumber]
  cases d.element <;> rfl

theorem references_renumber :
    (d.renumber f).references = d.references.map (Prod.map f id) := by
  rw [references, references, elementReferences, elementReferences, element_renumber,
    declaringType_renumber]
  cases d.declaringType <;> cases d.element <;>
    simp [Element.renumber, TypeInfo.renumber, MethodInfo.renumber, ParameterInfo.renumber,
      Function.comp_def]

/-- New ids change no annotation. -/
theorem holds_of_holds_renumber {a : AnnotationInstance} (h : (d.renumber f).Holds a) :
    d.Holds a := by
  cases h with
  | applied ha hi => exact .applied ha hi
  | defaultValue hm hv hi =>
    rw [methodInfo?_renumber] at hm
    obtain ⟨info, hd, rfl⟩ := Option.map_eq_some_iff.mp hm
    exact .defaultValue hd hv hi
  | defaultBody hm hs he hi =>
    rw [methodInfo?_renumber] at hm
    obtain ⟨info, hd, rfl⟩ := Option.map_eq_some_iff.mp hm
    exact .defaultBody hd hs he hi
  | constantValue hf hv hi =>
    rw [fieldInfo?_renumber] at hf
    exact .constantValue hf hv hi
  | initializer hf hv hi =>
    rw [fieldInfo?_renumber] at hf
    exact .initializer hf hv hi

end Declaration

/-! ## Models under new ids -/

/-- The second model has the declarations of the first one under new ids, its types under the same
names. -/
structure Model.Renumbers (σ : Equiv.Perm DeclId) (m moved : Model) : Prop where
  declaration? : ∀ id, moved.declaration? (σ id) = (m.declaration? id).map (Declaration.renumber σ)
  typeNamed? : ∀ name, moved.typeNamed? name = (m.typeNamed? name).map σ

/-- The second model has the declarations of the first one under new ids, whatever annotations they
have, and its types under the same names. -/
structure Model.SameShape (σ : Equiv.Perm DeclId) (m moved : Model) : Prop where
  declaration? : ∀ id, moved.declaration? (σ id) = (m.declaration? id).map fun d =>
    (d.renumber σ).withAnnotations (moved.annotations (σ id))
  typeNamed? : ∀ name, moved.typeNamed? name = (m.typeNamed? name).map σ

namespace Model.Renumbers

variable {σ : Equiv.Perm DeclId} {m moved : Model} (h : m.Renumbers σ moved)

include h

theorem annotations (id : DeclId) : moved.annotations (σ id) = m.annotations id := by
  rw [Model.annotations, Model.annotations, h.declaration?]
  cases m.declaration? id <;> rfl

theorem sameShape : m.SameShape σ moved where
  declaration? id := by
    rw [h.annotations, h.declaration?, Model.annotations]
    cases m.declaration? id <;> rfl
  typeNamed? := h.typeNamed?

end Model.Renumbers

namespace Model.SameShape

variable {σ : Equiv.Perm DeclId} {m moved : Model} (h : m.SameShape σ moved)

include h

theorem mem_ids_iff (id : DeclId) : σ id ∈ moved.ids ↔ id ∈ m.ids := by
  rw [Model.mem_ids_iff, Model.mem_ids_iff, h.declaration?]
  simp

theorem mem_types_names_iff (name : String) :
    name ∈ moved.types.names ↔ name ∈ m.types.names := by
  have hn := h.typeNamed? name
  rw [Model.typeNamed?, Model.typeNamed?] at hn
  rw [← Members.isSome_get?_iff, ← Members.isSome_get?_iff, hn, Option.isSome_map]

theorem kind? (id : DeclId) : moved.kind? (σ id) = m.kind? id := by
  rw [Model.kind?, Model.kind?, h.declaration?, Option.map_map]
  congr 1
  funext d
  exact d.kind_renumber σ

theorem isType (id : DeclId) : moved.isType (σ id) = m.isType id := by
  rw [Model.isType, Model.isType, h.kind?]

theorem typeInfo? (id : DeclId) :
    moved.typeInfo? (σ id) = (m.typeInfo? id).map (TypeInfo.renumber σ) := by
  rw [Model.typeInfo?, Model.typeInfo?, h.declaration?]
  cases m.declaration? id <;> simp

theorem methodInfo? (id : DeclId) :
    moved.methodInfo? (σ id) = (m.methodInfo? id).map (MethodInfo.renumber σ) := by
  rw [Model.methodInfo?, Model.methodInfo?, h.declaration?]
  cases m.declaration? id <;> simp

theorem superType? (id : DeclId) : moved.superType? (σ id) = (m.superType? id).map σ := by
  rw [Model.superType?, Model.superType?, h.typeInfo?]
  cases m.typeInfo? id with
  | none => rfl
  | some info =>
    simp only [Option.map_some, bind, Option.bind_some, TypeInfo.renumber, h.typeNamed?,
      Option.map_bind, Function.comp_def]

/-- The named declarations among those listed. -/
theorem filter_named (ids : List DeclId) (name : String) :
    (ids.map σ).filter (fun id => (moved.declaration? id).any (·.name == name)) =
      (ids.filter fun id => (m.declaration? id).any (·.name == name)).map σ := by
  rw [List.filter_map]
  congr 1
  refine List.filter_congr fun id _ => ?_
  rw [Function.comp_apply, h.declaration?]
  cases m.declaration? id <;> rfl

theorem methodsNamed (id : DeclId) (name : String) :
    moved.methodsNamed (σ id) name = (m.methodsNamed id name).map σ := by
  rw [Model.methodsNamed, Model.methodsNamed, h.typeInfo?]
  cases m.typeInfo? id with
  | none => rfl
  | some info => exact h.filter_named info.methods name

theorem parameterAt? (method : DeclId) (index : Nat) :
    moved.parameterAt? (σ method) index = (m.parameterAt? method index).map σ := by
  rw [Model.parameterAt?, Model.parameterAt?, h.methodInfo?]
  cases m.methodInfo? method with
  | none => rfl
  | some info => exact List.getElem?_map

theorem parameterTypes (method : DeclId) :
    moved.parameterTypes (σ method) = m.parameterTypes method := by
  rw [Model.parameterTypes, Model.parameterTypes, h.methodInfo?]
  cases m.methodInfo? method with
  | none => rfl
  | some info =>
    show (info.parameters.map σ).filterMap _ = _
    rw [List.filterMap_map]
    refine List.filterMap_congr fun p _ => ?_
    rw [Function.comp_apply, h.declaration?]
    cases m.declaration? p with
    | none => rfl
    | some d =>
      simp only [Option.map_some, Option.bind_some, Declaration.parameterInfo?_withAnnotations,
        Declaration.parameterInfo?_renumber, Option.map_map]
      rfl

theorem annotationMember? (annotationType member : String) :
    moved.annotationMember? annotationType member =
      (m.annotationMember? annotationType member).map σ := by
  rw [Model.annotationMember?, Model.annotationMember?, h.typeNamed?]
  cases m.typeNamed? annotationType with
  | none => rfl
  | some ty =>
    rw [Option.map_some, Option.bind_some, Option.bind_some, h.methodsNamed, List.head?_map]

theorem staticField? (id : DeclId) (name : String) :
    moved.staticField? (σ id) name = (m.staticField? id name).map σ := by
  rw [Model.staticField?, Model.staticField?, h.typeInfo?]
  cases m.typeInfo? id with
  | none => rfl
  | some info =>
    show (info.fields.map σ).find? _ = _
    rw [List.find?_map]
    congr 2
    funext field
    rw [Function.comp_apply, h.declaration?]
    cases m.declaration? field with
    | none => rfl
    | some d => simp

/-! ## Values -/

theorem constant? (owner member : String) :
    moved.constant? owner member = m.constant? owner member := by
  simp only [Model.constant?, bind, h.typeNamed?]
  cases m.typeNamed? owner with
  | none => rfl
  | some ty =>
    simp only [Option.map_some, Option.bind_some, h.typeInfo?, h.staticField?]
    cases m.typeInfo? ty with
    | none => rfl
    | some info =>
      simp only [Option.map_some, Option.bind_some, TypeInfo.renumber]
      cases m.staticField? ty member with
      | none => rfl
      | some field =>
        simp only [Option.map_some, Option.bind_some, h.declaration?]
        cases m.declaration? field with
        | none => rfl
        | some d => simp

theorem declaredComponent (ty : TypeRef) : moved.declaredComponent ty = m.declaredComponent ty := by
  rw [Model.declaredComponent, Model.declaredComponent]
  cases ty.rawName? with
  | none => rfl
  | some name =>
    dsimp only
    cases builtinComponent? name with
    | some component => rfl
    | none =>
      have hk : (((moved.typeNamed? name).bind moved.typeInfo?).map TypeInfo.kind) =
          ((m.typeNamed? name).bind m.typeInfo?).map TypeInfo.kind := by
        rw [h.typeNamed?]
        cases m.typeNamed? name with
        | none => rfl
        | some id =>
          rw [Option.map_some, Option.bind_some, Option.bind_some, h.typeInfo?, Option.map_map]
          rfl
      dsimp only
      rw [hk]

theorem itemType? (member : Option DeclId) :
    moved.itemType? (member.map σ) = m.itemType? member := by
  have hr : ((member.map σ).bind moved.methodInfo?).map MethodInfo.returnType =
      (member.bind m.methodInfo?).map MethodInfo.returnType := by
    cases member with
    | none => rfl
    | some id =>
      rw [Option.map_some, Option.bind_some, Option.bind_some, h.methodInfo?, Option.map_map]
      rfl
  rw [Model.itemType?, Model.itemType?, hr]

theorem wrapAnnotation (member : Option DeclId) (inList : Bool) (a : NestedAnnotation) :
    moved.wrapAnnotation (member.map σ) inList a = m.wrapAnnotation member inList a := by
  rw [Model.wrapAnnotation, Model.wrapAnnotation, h.itemType?]

theorem listFor (member : Option DeclId) (values : List Value) :
    moved.listFor (member.map σ) values = m.listFor member values := by
  simp only [Model.listFor, h.itemType?, h.declaredComponent]

theorem nestedAnnotation {read readMoved : Option DeclId → RawValue → Option Value}
    (hr : ∀ member raw, readMoved (member.map σ) raw = read member raw) (a : AnnotationInstance) :
    moved.nestedAnnotation readMoved a = m.nestedAnnotation read a := by
  simp only [Model.nestedAnnotation, h.annotationMember?, hr]

/-- **A value reads the same under new ids.** -/
theorem readWithin (levels : Nat) (member : Option DeclId) (inList : Bool) (raw : RawValue) :
    moved.readWithin levels (member.map σ) inList raw = m.readWithin levels member inList raw := by
  induction levels generalizing member inList raw with
  | zero => rw [Model.readWithin, Model.readWithin]
  | succ levels ih =>
    rw [Model.readWithin, Model.readWithin]
    cases raw.shape with
    | absent => rfl
    | complete value => rfl
    | nested a =>
      dsimp only
      rw [h.wrapAnnotation, h.nestedAnnotation fun member raw => ih member false raw]
    | list items =>
      dsimp only
      rw [h.listFor]
      simp only [ih]
    | named value => exact ih member inList value
    | constant owner name =>
      dsimp only
      rw [h.constant?]
      cases m.constant? owner name with
      | none => rfl
      | some constant =>
        cases constant with
        | enumName => rfl
        | stored value => exact ih none false value

end Model.SameShape

/-! ## Environments under new ids -/

/-- The second environment has a renumbered model and the same configuration. -/
structure Environment.Renumbers (σ : Equiv.Perm DeclId) (env moved : Environment) : Prop where
  model : env.model.Renumbers σ moved.model
  config : moved.config = env.config

/-- The second environment has a model of the same shape and the same configuration. -/
structure Environment.SameShape (σ : Equiv.Perm DeclId) (env moved : Environment) : Prop where
  model : env.model.SameShape σ moved.model
  config : moved.config = env.config

theorem Environment.Renumbers.sameShape {σ : Equiv.Perm DeclId} {env moved : Environment}
    (h : env.Renumbers σ moved) : env.SameShape σ moved :=
  ⟨h.model.sameShape, h.config⟩

namespace Environment.SameShape

variable {σ : Equiv.Perm DeclId} {env moved : Environment} (h : env.SameShape σ moved)

include h

theorem readValue (member : Option DeclId) (raw : RawValue) :
    moved.readValue (member.map σ) raw = env.readValue member raw := by
  rw [Environment.readValue, Environment.readValue, h.config, h.model.readWithin]

theorem memberDefault? (resolved : Bool) (member : DeclId) (info : MethodInfo) :
    moved.memberDefault? resolved (σ member) (info.renumber σ) =
      env.memberDefault? resolved member info := by
  have hr : moved.readValue (some (σ member)) = env.readValue (some member) := by
    funext raw
    exact h.readValue (some member) raw
  rw [Environment.memberDefault?, Environment.memberDefault?, hr]
  rfl

/-- **The defaults of an annotation type are the same under new ids.** -/
theorem defaultValues (ty : DeclId) : moved.defaultValues (σ ty) = env.defaultValues ty := by
  rw [Environment.defaultValues, Environment.defaultValues, h.model.typeInfo?]
  cases env.model.typeInfo? ty with
  | none => rfl
  | some info =>
    show Members.ofList ((info.methods.map σ).filterMap _) = Members.ofList _
    rw [List.filterMap_map]
    congr 1
    refine List.filterMap_congr fun member _ => ?_
    rw [Function.comp_apply, h.model.declaration?]
    cases env.model.declaration? member with
    | none => rfl
    | some d =>
      simp only [Option.map_some, bind, Option.bind_some, Declaration.methodInfo?_withAnnotations,
        Declaration.methodInfo?_renumber]
      cases d.methodInfo? with
      | none => rfl
      | some method =>
        simp only [Option.map_some, Option.bind_some, h.memberDefault?]
        rfl

theorem ensure (cache : DefaultCache) (name : String) :
    cache.ensure moved name = cache.ensure env name := by
  rw [DefaultCache.ensure, DefaultCache.ensure, h.model.typeNamed?]
  cases env.model.typeNamed? name with
  | none => rfl
  | some ty =>
    show cache.store moved name (σ ty) = cache.store env name ty
    rw [DefaultCache.store, DefaultCache.store, h.defaultValues]

theorem defaultsOf (cache : DefaultCache) (name : String) :
    cache.defaultsOf moved name = cache.defaultsOf env name := by
  rw [DefaultCache.defaultsOf, DefaultCache.defaultsOf, h.model.typeNamed?]
  cases env.model.typeNamed? name <;> rfl

end Environment.SameShape

end AnnotationResolution
