import AnnotationResolution.Proofs.Codec.Declaration
import AnnotationResolution.Proofs.Codec.Metadata
import AnnotationResolution.Proofs.Json.Texts

/-!
# Documents lose nothing

Declarations, metadata and models are read back from the texts they are written as, on one line or
indented.  The values of a document may lie in one another at any depth.  In a text the reader takes
no more than 127 arrays and objects in one another, so a model may hold a type that does not come
back from its text.

* `Json.Restores`: a document gives the value back, and so does its text unless it lies too deep.
* `documents_lossless`: declarations, metadata and accepted models are given back.
* `gridModel_not_reloaded`: an accepted model whose text is not loaded.
-/

namespace AnnotationResolution

/-- The document gives the value back, and so do both of its texts unless it lies too deep. -/
def Json.Restores {α : Type} (read : Json → Option α) (j : Json) (a : α) : Prop :=
  read j = some a ∧
    (j.depth ≤ maxDepth →
      (parse? j.pretty).bind read = some a ∧ (parse? j.compact).bind read = some a)

theorem Json.restores_of_read {α : Type} {read : Json → Option α} {j : Json} {a : α}
    (hj : j.Carried) (h : read j = some a) : Restores read j a := by
  refine ⟨h, fun hd => ?_⟩
  have hlimit : limitDepth maxDepth j = j := limitDepth_of_depth_le hd
  rw [parse?_pretty hj, parse?_compact hj, hlimit]
  exact ⟨h, h⟩

theorem Model.parse_eq_ofJson {text : String} {j : Json} (h : Json.parse? text = some j) :
    Model.parse text = Model.ofJson j := by
  rw [Model.parse, h]

/-- **Declarations, metadata and models are read back as they were written.**  Integers have 64 bits
and doubles are those that a text carries exactly; members are maps, so no name is there twice.  A
model that is loaded again is the same model, with its declarations and its index of types. -/
theorem documents_lossless :
    (∀ declarations : List Declaration, declarations.all Declaration.wellNamed = true →
      (Json.ofList Declaration.toJson declarations).Carried →
      Json.Restores (Json.list? (Declaration.ofJson? .direct))
        (Json.ofList Declaration.toJson declarations) declarations) ∧
    (∀ md : Metadata, md.wellNamed = true → md.toJson.Carried →
      Json.Restores (Metadata.ofJson? .direct) md.toJson md) ∧
    (∀ m : Model, m.Accepted → m.toJson.Carried → m.toJson.depth ≤ Json.maxDepth →
      Model.parse m.toJson.pretty = .ok m ∧ Model.parse m.toJson.compact = .ok m) := by
  refine ⟨fun declarations hn hc => ?_, fun md hn hc => ?_, fun m hm hc hd => ?_⟩
  · exact Json.restores_of_read hc (Declaration.list?_ofList hn)
  · exact Json.restores_of_read hc (Metadata.ofJson?_toJson .direct hn)
  · have hlimit : Json.limitDepth Json.maxDepth m.toJson = m.toJson :=
      Json.limitDepth_of_depth_le hd
    rw [Model.parse_eq_ofJson (Json.parse?_pretty hc),
      Model.parse_eq_ofJson (Json.parse?_compact hc), hlimit, Model.ofJson_toJson hm]
    exact ⟨rfl, rfl⟩

/-- A service with a method and a constant, and an annotation inside another one. -/
def serviceDeclarations : List Declaration :=
  [⟨"a.Service", none,
      [⟨"a.Roles", ⟨[("value", .list [.nested ⟨"a.Role", ⟨[("name", .literal (.str "\"x\"\n"))]⟩⟩]),
        ("level", .value (.array [.int Int64.minValue, .enumConstant "a.Level" "LOW"]))]⟩⟩],
      .type
        { superType := some (.named "a.Base" [.param "T"])
          methods := [⟨1⟩]
          fields := [⟨2⟩] }⟩,
    ⟨"limit", some ⟨0⟩, [],
      .method { defaultBody := [.returned (some (.variableRef "LIMIT" none))] }⟩,
    ⟨"LIMIT", some ⟨0⟩, [],
      .field
        { ty := .array (.named "int" [])
          isStatic := true
          constantValue := some (.char 'c') }⟩]

def serviceModel : Model := ⟨serviceDeclarations.toArray, ⟨[("a.Service", ⟨0⟩)]⟩⟩

def serviceMetadata : Metadata where
  annotations := ⟨[("a.Named", ⟨"a.Named", .declared, .runtime,
    ⟨[("value", ⟨.list ⟨.nested, [.nested ⟨"a.Mark", ⟨[("on", .bool true)]⟩⟩]⟩, .declared⟩)]⟩⟩)]⟩
  repeated := ⟨[("a.Role", ⟨"a.Role", "a.Roles", .classFile,
    [⟨.inherited, ⟨[("name", ⟨.str "x", .default⟩)]⟩⟩]⟩)]⟩

theorem documents_lossless_service :
    Json.Restores (Json.list? (Declaration.ofJson? .direct))
        (Json.ofList Declaration.toJson serviceDeclarations) serviceDeclarations ∧
      Json.Restores (Metadata.ofJson? .direct) serviceMetadata.toJson serviceMetadata ∧
      Model.parse serviceModel.toJson.pretty = .ok serviceModel ∧
      Model.parse serviceModel.toJson.compact = .ok serviceModel := by
  -- no document here has a double in it, so what `Carried` asks for can be checked part by part
  have hc : (Json.ofList Declaration.toJson serviceDeclarations).Carried := by
    repeat' first | exact True.intro | apply And.intro | decide
  have hm : serviceModel.Accepted := Model.accepted_iff.mpr ⟨rfl, by decide⟩
  have hmd : serviceMetadata.toJson.Carried := by
    repeat' first | exact True.intro | apply And.intro
  exact ⟨documents_lossless.1 serviceDeclarations (by decide) hc,
    documents_lossless.2.1 serviceMetadata (by decide) hmd,
    documents_lossless.2.2 serviceModel hm ⟨hc, trivial⟩ (by decide)⟩

/-! ## What does not come back -/

/-- Numbers in an array of that many dimensions. -/
def TypeRef.grid : Nat → TypeRef
  | 0 => .named "int" []
  | n + 1 => .array (grid n)

theorem TypeRef.carried_grid (n : Nat) : (grid n).toJson.Carried := by
  induction n with
  | zero => exact ⟨trivial, trivial, trivial, trivial⟩
  | succ n ih => exact ⟨trivial, ih, trivial⟩

/-- Each dimension is an object in the one around it, and the arguments of a type are an array. -/
theorem TypeRef.isReadable_limitDepth_grid {n levels : Nat} (h : levels ≤ n + 1) :
    (Json.limitDepth levels (grid n).toJson).isReadable = false := by
  induction n generalizing levels with
  | zero =>
    obtain rfl | rfl := Nat.le_one_iff_eq_zero_or_eq_one.mp h <;> rfl
  | succ n ih =>
    cases levels with
    | zero => rfl
    | succ levels =>
      have hcomponent := ih (Nat.le_of_succ_le_succ h)
      rw [grid, toJson, Json.limitDepth, Json.limitFields, Json.limitFields, Json.limitFields]
      simp [hcomponent]

/-- A class with a property whose type has that many dimensions. -/
def gridModel (dimensions : Nat) : Model :=
  ⟨#[⟨"a.Box", none, [], .type {}⟩,
      ⟨"cells", some ⟨0⟩, [], .property (.grid dimensions)⟩],
    ⟨[("a.Box", ⟨0⟩)]⟩⟩

theorem carried_gridModel (dimensions : Nat) : (gridModel dimensions).toJson.Carried := by
  have hty := TypeRef.carried_grid dimensions
  repeat' first | exact hty | exact True.intro | apply And.intro | decide

/-- Five arrays and objects lie around the type. -/
theorem ofJson_limitDepth_gridModel {dimensions : Nat} (h : 120 < dimensions) :
    Model.ofJson (Json.limitDepth Json.maxDepth (gridModel dimensions).toJson) =
      .error .malformed := by
  have hty : (Json.limitDepth 122 (TypeRef.grid dimensions).toJson).isReadable = false :=
    TypeRef.isReadable_limitDepth_grid (Nat.succ_le_succ h)
  have hread : Model.declarationsOfJson?
      (Json.limitDepth Json.maxDepth (gridModel dimensions).toJson) = none := by
    simp [Model.declarationsOfJson?, gridModel, Model.toJson, Json.ofList, Declaration.toJson,
      Element.toJson, Element.infoToJson, Element.kind, ElementKind.name, Json.maxDepth,
      Json.limitDepth, Json.limitItems, Json.limitFields, Json.list?, Declaration.ofJson?,
      Element.ofJson?, Element.propertyOfJson?, TypeRef.ofJson?, Json.canSetAside, hty]
  rw [Model.ofJson, hread]
  rfl

/-- **An accepted model need not come back from its text**: its types may lie too deep. -/
theorem gridModel_not_reloaded :
    (gridModel 121).Accepted ∧ (gridModel 121).toJson.Carried ∧
      Model.parse (gridModel 121).toJson.pretty = .error .malformed ∧
      Model.parse (gridModel 121).toJson.compact = .error .malformed := by
  have hm : (gridModel 121).Accepted := Model.accepted_iff.mpr ⟨rfl, by decide⟩
  have hc := carried_gridModel 121
  have hread := ofJson_limitDepth_gridModel (Nat.lt_succ_self 120)
  rw [Model.parse_eq_ofJson (Json.parse?_pretty hc),
    Model.parse_eq_ofJson (Json.parse?_compact hc)]
  exact ⟨hm, hc, hread, hread⟩

end AnnotationResolution
