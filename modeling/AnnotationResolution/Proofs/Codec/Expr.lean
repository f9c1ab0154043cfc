import AnnotationResolution.Codec.Expr
import AnnotationResolution.Proofs.Json.Fields
import AnnotationResolution.Proofs.Members
import AnnotationResolution.Proofs.Model.Accepted

/-!
# Raw values are read back

A type reference, a literal, an expression, a host value and an annotation are read back as they
were written, at any depth and whether or not they were set aside.  The members of an annotation go
into a map, so no two of them may share a name.

* `TypeRef.isReadable_toJson`, `Expr.isReadable_toJson`: what is written can be set aside.
* `TypeRef.ofJson?_toJson`, `Literal.ofJson?_toJson`, `Expr.ofJson?_toJson`,
  `HostValue.ofJson?_toJson`, `AnnotationInstance.ofJson?_toJson`: what is written is read back.
-/

namespace AnnotationResolution

attribute [simp] Json.tagged Json.isReadable Json.areReadable Json.haveReadableValues

/-- A map of pairs with different names holds just these pairs. -/
theorem Members.ofList_of_nodup {α : Type} {entries : List (String × α)}
    (h : (entries.map (·.1)).Nodup) : Members.ofList entries = ⟨entries⟩ := by
  have := Members.entries_insertAll (m := ∅) h (fun entry _ => by simp)
  exact congrArg Members.mk this

/-! ## Type references -/

mutual

theorem TypeRef.isReadable_toJson : ∀ ty : TypeRef, ty.toJson.isReadable = true
  | .named name args => by
    simp [TypeRef.toJson, TypeRef.areReadable_listToJson args]
  | .param name => by simp [TypeRef.toJson]
  | .array component => by simp [TypeRef.toJson, TypeRef.isReadable_toJson component]

theorem TypeRef.areReadable_listToJson : ∀ types : List TypeRef,
    Json.areReadable (TypeRef.listToJson types) = true
  | [] => rfl
  | ty :: rest => by
    simp [TypeRef.listToJson, TypeRef.isReadable_toJson ty, TypeRef.areReadable_listToJson rest]

end

mutual

theorem TypeRef.ofFields?_toJson (access : Json.Access) : ∀ ty : TypeRef,
    TypeRef.ofFields? access ty.toJson = some ty
  | .named name args => by
    rw [TypeRef.toJson, TypeRef.ofFields?]
    simp [TypeRef.forms, TypeRef.listOfJson?_listToJson args]
  | .param name => by
    rw [TypeRef.toJson, TypeRef.ofFields?]
    simp [TypeRef.forms, List.lookup_cons]
  | .array component => by
    rw [TypeRef.toJson, TypeRef.ofFields?]
    simp [TypeRef.forms, List.lookup_cons, TypeRef.ofFields?_toJson .setAside component]

theorem TypeRef.listOfJson?_listToJson : ∀ types : List TypeRef,
    TypeRef.listOfJson? (TypeRef.listToJson types) = some types
  | [] => by simp [TypeRef.listToJson, TypeRef.listOfJson?]
  | ty :: rest => by
    simp [TypeRef.listToJson, TypeRef.listOfJson?, TypeRef.ofFields?_toJson .setAside ty,
      TypeRef.listOfJson?_listToJson rest]

end

@[simp] theorem TypeRef.ofJson?_toJson (access : Json.Access) (ty : TypeRef) :
    TypeRef.ofJson? access ty.toJson = some ty := by
  simp [TypeRef.ofJson?, Json.canSetAside, TypeRef.isReadable_toJson, TypeRef.ofFields?_toJson]

theorem TypeRef.toJson_ne_null (ty : TypeRef) : ty.toJson ≠ .null := by
  cases ty <;> simp [TypeRef.toJson]

/-! ## Literals -/

@[simp] theorem Literal.ofJson?_toJson (access : Json.Access) (value : Literal) :
    Literal.ofJson? access value.toJson = some value := by
  cases value <;> simp [Literal.toJson, Literal.ofJson?]

@[simp] theorem Literal.isReadable_toJson (value : Literal) : value.toJson.isReadable = true := by
  cases value <;> simp [Literal.toJson]

/-! ## Expressions, host values and annotations -/

mutual

theorem Expr.isReadable_toJson : ∀ e : Expr, e.toJson.isReadable = true
  | .literal constant => by simp [Expr.toJson]
  | .nested a => by simp [Expr.toJson, AnnotationInstance.isReadable_toJson a]
  | .qualified owner member => by simp [Expr.toJson]
  | .typeLiteral ty => by simp [Expr.toJson, ty.isReadable_toJson]
  | .list items => by simp [Expr.toJson, Expr.areReadable_listToJson items]
  | .variableRef name none => by simp [Expr.toJson]
  | .variableRef name (some e) => by simp [Expr.toJson, Expr.isReadable_toJson e]
  | .value host => by simp [Expr.toJson, HostValue.isReadable_toJson host]
  | .unsupported source => by simp [Expr.toJson]

theorem HostValue.isReadable_toJson : ∀ host : HostValue, host.toJson.isReadable = true
  | .str s => by simp [HostValue.toJson]
  | .int n => by simp [HostValue.toJson]
  | .float x => by simp [HostValue.toJson]
  | .bool b => by simp [HostValue.toJson]
  | .char c => by simp [HostValue.toJson]
  | .classOf ty => by simp [HostValue.toJson, ty.isReadable_toJson]
  | .enumConstant typeName constant => by simp [HostValue.toJson]
  | .nested a => by simp [HostValue.toJson, AnnotationInstance.isReadable_toJson a]
  | .array items => by simp [HostValue.toJson, HostValue.areReadable_listToJson items]

theorem AnnotationInstance.isReadable_toJson : ∀ a : AnnotationInstance, a.toJson.isReadable = true
  | ⟨annotationType, ⟨entries⟩⟩ => by
    simp [AnnotationInstance.toJson, Expr.areReadable_entriesToJson entries]

theorem Expr.areReadable_listToJson : ∀ items : List Expr,
    Json.areReadable (Expr.listToJson items) = true
  | [] => rfl
  | e :: rest => by
    simp [Expr.listToJson, Expr.isReadable_toJson e, Expr.areReadable_listToJson rest]

theorem HostValue.areReadable_listToJson : ∀ items : List HostValue,
    Json.areReadable (HostValue.listToJson items) = true
  | [] => rfl
  | host :: rest => by
    simp [HostValue.listToJson, HostValue.isReadable_toJson host,
      HostValue.areReadable_listToJson rest]

theorem Expr.areReadable_entriesToJson : ∀ entries : List (String × Expr),
    Json.areReadable (Expr.entriesToJson entries) = true
  | [] => rfl
  | (name, e) :: rest => by
    simp [Expr.entriesToJson, Expr.isReadable_toJson e, Expr.areReadable_entriesToJson rest]

end

theorem Expr.exists_fields_toJson (e : Expr) : ∃ fields, e.toJson = .obj fields := by
  cases e with
  | variableRef name initializer => cases initializer <;> exact ⟨_, rfl⟩
  | _ => exact ⟨_, rfl⟩

theorem Expr.toJson_ne_null (e : Expr) : e.toJson ≠ .null := by
  obtain ⟨fields, he⟩ := e.exists_fields_toJson
  simp [he]

theorem HostValue.toJson_ne_null (host : HostValue) : host.toJson ≠ .null := by
  cases host <;> simp [HostValue.toJson]

mutual

theorem Expr.ofJson?_toJson (access : Json.Access) : ∀ {e : Expr}, e.wellNamed = true →
    Expr.ofJson? access e.toJson = some e
  | .literal constant, _ => by simp [Expr.toJson, Expr.ofJson?]
  | .nested a, h => by
    rw [Expr.wellNamed] at h
    simp [Expr.toJson, Expr.ofJson?, AnnotationInstance.ofJson?_toJson access h]
  | .qualified owner member, _ => by simp [Expr.toJson, Expr.ofJson?]
  | .typeLiteral ty, _ => by simp [Expr.toJson, Expr.ofJson?]
  | .list items, h => by
    rw [Expr.wellNamed] at h
    simp [Expr.toJson, Expr.ofJson?, Expr.listOfJson?_listToJson access h]
  | .variableRef name none, _ => by simp [Expr.toJson, Expr.ofJson?]
  | .variableRef name (some e), h => by
    rw [Expr.wellNamed] at h
    have ih := Expr.ofJson?_toJson access h
    -- an initializer is told from a missing one by its being an object
    obtain ⟨fields, he⟩ := e.exists_fields_toJson
    rw [he] at ih
    simp [Expr.toJson, Expr.ofJson?, he, ih]
  | .value host, h => by
    rw [Expr.wellNamed] at h
    simp [Expr.toJson, Expr.ofJson?, HostValue.ofJson?_toJson access h]
  | .unsupported source, _ => by simp [Expr.toJson, Expr.ofJson?]

theorem HostValue.ofJson?_toJson (access : Json.Access) : ∀ {host : HostValue},
    host.wellNamed = true → HostValue.ofJson? access host.toJson = some host
  | .str s, _ => by simp [HostValue.toJson, HostValue.ofJson?]
  | .int n, _ => by simp [HostValue.toJson, HostValue.ofJson?]
  | .float x, _ => by simp [HostValue.toJson, HostValue.ofJson?]
  | .bool b, _ => by simp [HostValue.toJson, HostValue.ofJson?]
  | .char c, _ => by simp [HostValue.toJson, HostValue.ofJson?]
  | .classOf ty, _ => by simp [HostValue.toJson, HostValue.ofJson?]
  | .enumConstant typeName constant, _ => by simp [HostValue.toJson, HostValue.ofJson?]
  | .nested a, h => by
    rw [HostValue.wellNamed] at h
    simp [HostValue.toJson, HostValue.ofJson?, AnnotationInstance.ofJson?_toJson access h]
  | .array items, h => by
    rw [HostValue.wellNamed] at h
    simp [HostValue.toJson, HostValue.ofJson?, HostValue.listOfJson?_listToJson access h]

theorem AnnotationInstance.ofJson?_toJson (access : Json.Access) : ∀ {a : AnnotationInstance},
    a.wellNamed = true → AnnotationInstance.ofJson? access a.toJson = some a
  | ⟨annotationType, ⟨entries⟩⟩, h => by
    rw [AnnotationInstance.wellNamed, Bool.and_eq_true, decide_eq_true_iff] at h
    simp [AnnotationInstance.toJson, AnnotationInstance.ofJson?,
      Expr.entriesOfJson?_entriesToJson access h.2, Members.ofList_of_nodup h.1]

theorem Expr.listOfJson?_listToJson (access : Json.Access) : ∀ {items : List Expr},
    Expr.allWellNamed items = true → Expr.listOfJson? access (Expr.listToJson items) = some items
  | [], _ => by simp [Expr.listToJson, Expr.listOfJson?]
  | e :: rest, h => by
    rw [Expr.allWellNamed, Bool.and_eq_true] at h
    simp [Expr.listToJson, Expr.listOfJson?, Expr.ofJson?_toJson access h.1,
      Expr.listOfJson?_listToJson access h.2]

theorem HostValue.listOfJson?_listToJson (access : Json.Access) : ∀ {items : List HostValue},
    HostValue.allWellNamed items = true →
      HostValue.listOfJson? access (HostValue.listToJson items) = some items
  | [], _ => by simp [HostValue.listToJson, HostValue.listOfJson?]
  | host :: rest, h => by
    rw [HostValue.allWellNamed, Bool.and_eq_true] at h
    simp [HostValue.listToJson, HostValue.listOfJson?, HostValue.ofJson?_toJson access h.1,
      HostValue.listOfJson?_listToJson access h.2]

theorem Expr.entriesOfJson?_entriesToJson (access : Json.Access) :
    ∀ {entries : List (String × Expr)}, Expr.entriesWellNamed entries = true →
      Expr.entriesOfJson? access (Expr.entriesToJson entries) = some entries
  | [], _ => by simp [Expr.entriesToJson, Expr.entriesOfJson?]
  | (name, e) :: rest, h => by
    rw [Expr.entriesWellNamed, Bool.and_eq_true] at h
    simp [Expr.entriesToJson, Expr.entriesOfJson?, Expr.ofJson?_toJson access h.1,
      Expr.entriesOfJson?_entriesToJson access h.2]

end

end AnnotationResolution
