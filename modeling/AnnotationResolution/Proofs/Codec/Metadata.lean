import AnnotationResolution.Codec.Metadata
import AnnotationResolution.Proofs.Codec.Expr

/-!
# Values and metadata are read back

Members are a map, so a document can stand for them only if no name is there twice.  `wellNamed`
says so of every map in a value and in the metadata of a declaration, at any depth.

* `Members.ofJson?_eq`, `Members.ofJson?_toJson`: the pairs that are listed are inserted one by one, and
  a map is read back if its values are.
* `Value.ofJson?_toJson`, `NestedAnnotation.ofJson?_toJson`, `ValueList.ofJson?_toJson`: values.
* `Metadata.ofJson?_toJson`: metadata.
-/

namespace AnnotationResolution

/-! ## Maps -/

section Members

variable {α : Type}

/-- No name is there twice, and each value passes the check. -/
def Members.wellNamed (check : α → Bool) (m : Members α) : Bool :=
  decide m.names.Nodup && m.values.all check

/-- The pairs that a document lists, also those with a name that comes again. -/
def Members.listedPairs? (read : Json → Option α) (document : Json) :
    Option (List (String × α)) :=
  document.list? fun item => do
    let record ← item.record? ["name", "value"] []
    return (← Json.required record.fields "name" Json.str?,
      ← Json.required record.fields "value" read)

theorem Members.ofJson?_eq (read : Json → Option α) (document : Json) :
    Members.ofJson? read document = (Members.listedPairs? read document).map Members.ofList :=
  (Option.map_eq_bind ..).symm

theorem Members.listedPairs?_toJson {read : Json → Option α} {write : α → Json}
    {pairs : List (String × α)} (hr : ∀ pair ∈ pairs, read (write pair.2) = some pair.2) :
    Members.listedPairs? read (Members.toJson write ⟨pairs⟩) = some pairs := by
  have hwritten : Members.toJson write ⟨pairs⟩ =
      Json.ofList (fun pair => .obj [("name", .str pair.1), ("value", write pair.2)]) pairs := rfl
  rw [hwritten, Members.listedPairs?, Json.list?_ofList fun pair hp => ?_]
  simp [hr pair hp]

theorem Members.ofJson?_toJson {read : Json → Option α} {write : α → Json} {check : α → Bool}
    (hr : ∀ a, check a = true → read (write a) = some a) {m : Members α}
    (h : m.wellNamed check = true) : Members.ofJson? read (m.toJson write) = some m := by
  rw [Members.wellNamed, Bool.and_eq_true, decide_eq_true_iff, List.all_eq_true] at h
  have hread : ∀ pair ∈ m.entries, read (write pair.2) = some pair.2 := fun pair hp =>
    hr pair.2 (h.2 pair.2 (List.mem_map_of_mem (f := (·.2)) hp))
  rw [Members.ofJson?_eq, Members.listedPairs?_toJson hread, Option.map_some]
  exact congrArg some (Members.ofList_of_nodup h.1)

end Members

/-! ## Values -/

mutual

/-- Each annotation in the value names its members once. -/
def Value.wellNamed : Value → Bool
  | .nested a => a.wellNamed
  | .list items => items.wellNamed
  | .str _ | .int _ | .float _ | .bool _ | .char _ | .enumConstant _ _ | .classRef _ => true

def NestedAnnotation.wellNamed : NestedAnnotation → Bool
  | ⟨_, ⟨entries⟩⟩ => decide (entries.map (·.1)).Nodup && Value.entriesWellNamed entries

def ValueList.wellNamed : ValueList → Bool
  | ⟨_, items⟩ => Value.allWellNamed items

def Value.allWellNamed : List Value → Bool
  | [] => true
  | value :: rest => value.wellNamed && Value.allWellNamed rest

def Value.entriesWellNamed : List (String × Value) → Bool
  | [] => true
  | (_, value) :: rest => value.wellNamed && Value.entriesWellNamed rest

end

@[simp] theorem Component.ofJson?_name (access : Json.Access) (component : Component) :
    Component.ofJson? access (.str component.name) = some component := by
  cases component <;> simp [Component.ofJson?, Json.word?, Component.name, List.lookup_cons]

mutual

theorem Value.ofJson?_toJson (access : Json.Access) : ∀ {value : Value},
    value.wellNamed = true → Value.ofJson? access value.toJson = some value
  | .str s, _ => by simp [Value.toJson, Value.ofJson?]
  | .int n, _ => by simp [Value.toJson, Value.ofJson?]
  | .float x, _ => by simp [Value.toJson, Value.ofJson?]
  | .bool b, _ => by simp [Value.toJson, Value.ofJson?]
  | .char c, _ => by simp [Value.toJson, Value.ofJson?]
  | .enumConstant typeName constant, _ => by simp [Value.toJson, Value.ofJson?]
  | .classRef name, _ => by simp [Value.toJson, Value.ofJson?]
  | .nested a, h => by
    rw [Value.wellNamed] at h
    simp [Value.toJson, Value.ofJson?, NestedAnnotation.ofJson?_toJson access h]
  | .list items, h => by
    rw [Value.wellNamed] at h
    simp [Value.toJson, Value.ofJson?, ValueList.ofJson?_toJson access h]

theorem NestedAnnotation.ofJson?_toJson (access : Json.Access) : ∀ {a : NestedAnnotation},
    a.wellNamed = true → NestedAnnotation.ofJson? access a.toJson = some a
  | ⟨annotationType, ⟨entries⟩⟩, h => by
    unfold NestedAnnotation.wellNamed at h
    rw [Bool.and_eq_true, decide_eq_true_iff] at h
    simp [Members.ofList_of_nodup h.1, Value.entriesOfJson?_entriesToJson access h.2,
      NestedAnnotation.toJson, NestedAnnotation.ofJson?]

theorem ValueList.ofJson?_toJson (access : Json.Access) : ∀ {items : ValueList},
    items.wellNamed = true → ValueList.ofJson? access items.toJson = some items
  | ⟨component, items⟩, h => by
    rw [ValueList.wellNamed] at h
    simp [ValueList.toJson, ValueList.ofJson?, Value.listOfJson?_listToJson access h]

theorem Value.listOfJson?_listToJson (access : Json.Access) : ∀ {items : List Value},
    Value.allWellNamed items = true →
      Value.listOfJson? access (Value.listToJson items) = some items
  | [], _ => by simp [Value.listToJson, Value.listOfJson?]
  | value :: rest, h => by
    rw [Value.allWellNamed, Bool.and_eq_true] at h
    simp [Value.listToJson, Value.listOfJson?, Value.ofJson?_toJson access h.1,
      Value.listOfJson?_listToJson access h.2]

theorem Value.entriesOfJson?_entriesToJson (access : Json.Access) :
    ∀ {entries : List (String × Value)}, Value.entriesWellNamed entries = true →
      Value.entriesOfJson? access (Value.entriesToJson entries) = some entries
  | [], _ => by simp [Value.entriesToJson, Value.entriesOfJson?]
  | (name, value) :: rest, h => by
    rw [Value.entriesWellNamed, Bool.and_eq_true] at h
    simp [Value.entriesToJson, Value.entriesOfJson?, Value.ofJson?_toJson access h.1,
      Value.entriesOfJson?_entriesToJson access h.2]

end

/-! ## Metadata -/

def SourcedValue.wellNamed (v : SourcedValue) : Bool := v.value.wellNamed

def AnnotationEntry.wellNamed (entry : AnnotationEntry) : Bool :=
  entry.values.wellNamed SourcedValue.wellNamed

def RepeatedInstance.wellNamed (use : RepeatedInstance) : Bool :=
  use.values.wellNamed SourcedValue.wellNamed

def RepeatedEntry.wellNamed (entry : RepeatedEntry) : Bool :=
  entry.instances.all RepeatedInstance.wellNamed

def StereotypeEntry.wellNamed (stereotype : StereotypeEntry) : Bool := stereotype.entry.wellNamed

/-- No annotation, and no member of one, is named twice where it is looked up by its name. -/
def Metadata.wellNamed (md : Metadata) : Bool :=
  md.annotations.wellNamed AnnotationEntry.wellNamed
    && md.repeated.wellNamed RepeatedEntry.wellNamed
    && md.stereotypes.wellNamed StereotypeEntry.wellNamed

section

variable (access : Json.Access)

@[simp] theorem ValueSource.ofJson?_toJson (source : ValueSource) :
    ValueSource.ofJson? access source.toJson = some source := by
  cases source <;>
    simp [ValueSource.ofJson?, Json.word?, ValueSource.toJson, ValueSource.name, List.lookup_cons]

@[simp] theorem Retention.ofJson?_toJson (retention : Retention) :
    Retention.ofJson? access retention.toJson = some retention := by
  cases retention <;>
    simp [Retention.ofJson?, Json.word?, Retention.toJson, Retention.name, List.lookup_cons]

theorem SourcedValue.ofJson?_toJson {v : SourcedValue} (h : v.wellNamed = true) :
    SourcedValue.ofJson? access v.toJson = some v := by
  simp [SourcedValue.toJson, SourcedValue.ofJson?, Value.ofJson?_toJson access h]

theorem SourcedValue.membersOfJson?_membersToJson {values : Members SourcedValue}
    (h : values.wellNamed SourcedValue.wellNamed = true) :
    membersOfJson? access (membersToJson values) = some values :=
  Members.ofJson?_toJson (fun _ => SourcedValue.ofJson?_toJson access) h

theorem AnnotationEntry.ofJson?_toJson {entry : AnnotationEntry} (h : entry.wellNamed = true) :
    AnnotationEntry.ofJson? access entry.toJson = some entry := by
  simp [AnnotationEntry.toJson, AnnotationEntry.ofJson?,
    SourcedValue.membersOfJson?_membersToJson access h]

theorem RepeatedInstance.ofJson?_toJson {use : RepeatedInstance} (h : use.wellNamed = true) :
    RepeatedInstance.ofJson? access use.toJson = some use := by
  simp [RepeatedInstance.toJson, RepeatedInstance.ofJson?,
    SourcedValue.membersOfJson?_membersToJson access h]

theorem RepeatedEntry.ofJson?_toJson {entry : RepeatedEntry} (h : entry.wellNamed = true) :
    RepeatedEntry.ofJson? access entry.toJson = some entry := by
  rw [RepeatedEntry.wellNamed, List.all_eq_true] at h
  have hinstances : Json.list? (RepeatedInstance.ofJson? access)
      (Json.ofList RepeatedInstance.toJson entry.instances) = some entry.instances :=
    Json.list?_ofList fun use hu => RepeatedInstance.ofJson?_toJson access (h use hu)
  simp [RepeatedEntry.toJson, RepeatedEntry.ofJson?, hinstances]

theorem StereotypeEntry.ofJson?_toJson {stereotype : StereotypeEntry}
    (h : stereotype.wellNamed = true) :
    StereotypeEntry.ofJson? access stereotype.toJson = some stereotype := by
  simp [StereotypeEntry.toJson, StereotypeEntry.ofJson?, AnnotationEntry.ofJson?_toJson access h]

/-- **Metadata is read back as it was written.** -/
theorem Metadata.ofJson?_toJson {md : Metadata} (h : md.wellNamed = true) :
    Metadata.ofJson? access md.toJson = some md := by
  rw [Metadata.wellNamed, Bool.and_eq_true, Bool.and_eq_true] at h
  obtain ⟨⟨hannotations, hrepeated⟩, hstereotypes⟩ := h
  simp [Metadata.toJson, Metadata.ofJson?,
    Members.ofJson?_toJson (fun _ => AnnotationEntry.ofJson?_toJson access) hannotations,
    Members.ofJson?_toJson (fun _ => RepeatedEntry.ofJson?_toJson access) hrepeated,
    Members.ofJson?_toJson (fun _ => StereotypeEntry.ofJson?_toJson access) hstereotypes]

end

end AnnotationResolution
