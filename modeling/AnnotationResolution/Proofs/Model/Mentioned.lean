import AnnotationResolution.Proofs.Model.Accepted

/-!
# The annotation types that a model mentions

A model mentions a type when some annotation is of this type, be it on a declaration or inside of a
value: `Model.MentionsType`.  `Model.annotationTypes` goes through a model and lists what it mentions,
and it leaves nothing out (`MentionsType.mem_annotationTypes`).
-/

namespace AnnotationResolution

/-- Some annotation in the model, on a declaration or inside a value, is of this type. -/
def Model.MentionsType (m : Model) (name : String) : Prop :=
  ∃ d ∈ m.declarations, ∃ a, d.Holds a ∧ a.annotationType = name

theorem Model.mentionsType_of_holds {m : Model} {id : DeclId} {a inner : AnnotationInstance}
    (ha : a ∈ m.annotations id) (hi : a.Holds inner) : m.MentionsType inner.annotationType := by
  obtain ⟨d, hd, ha⟩ := Model.exists_declaration_of_mem_annotations ha
  exact ⟨d, Array.mem_of_getElem? hd, inner, .applied ha hi, rfl⟩

/-! ## Listing annotations -/

mutual

/-- The annotations in an expression, at any depth. -/
def Expr.allHeld : Expr → List AnnotationInstance
  | .nested a => a.allHeld
  | .list items => Expr.allHeldIn items
  | .variableRef _ (some e) => e.allHeld
  | .value host => host.allHeld
  | .literal _ | .qualified _ _ | .typeLiteral _ | .variableRef _ none | .unsupported _ => []

def HostValue.allHeld : HostValue → List AnnotationInstance
  | .nested a => a.allHeld
  | .array items => HostValue.allHeldIn items
  | .str _ | .int _ | .float _ | .bool _ | .char _ | .classOf _ | .enumConstant _ _ => []

/-- The annotation and those inside of it. -/
def AnnotationInstance.allHeld : AnnotationInstance → List AnnotationInstance
  | ⟨annotationType, ⟨entries⟩⟩ => ⟨annotationType, ⟨entries⟩⟩ :: Expr.allHeldInEntries entries

def Expr.allHeldIn : List Expr → List AnnotationInstance
  | [] => []
  | e :: rest => e.allHeld ++ Expr.allHeldIn rest

def HostValue.allHeldIn : List HostValue → List AnnotationInstance
  | [] => []
  | host :: rest => host.allHeld ++ HostValue.allHeldIn rest

def Expr.allHeldInEntries : List (String × Expr) → List AnnotationInstance
  | [] => []
  | (_, e) :: rest => e.allHeld ++ Expr.allHeldInEntries rest

end

theorem Expr.allHeldIn_eq (items : List Expr) : allHeldIn items = items.flatMap allHeld := by
  induction items with
  | nil => rfl
  | cons e rest ih => rw [allHeldIn, ih, List.flatMap_cons]

theorem HostValue.allHeldIn_eq (items : List HostValue) :
    allHeldIn items = items.flatMap allHeld := by
  induction items with
  | nil => rfl
  | cons host rest ih => rw [allHeldIn, ih, List.flatMap_cons]

theorem AnnotationInstance.allHeld_eq (a : AnnotationInstance) :
    a.allHeld = a :: a.members.entries.flatMap fun entry => entry.2.allHeld := by
  obtain ⟨annotationType, ⟨entries⟩⟩ := a
  rw [allHeld, List.cons.injEq]
  refine ⟨rfl, ?_⟩
  induction entries with
  | nil => rfl
  | cons entry rest ih => rw [Expr.allHeldInEntries, ih, List.flatMap_cons]

def Statement.allHeld : Statement → List AnnotationInstance
  | .returned (some e) => e.allHeld
  | .expression e => e.allHeld
  | .returned none | .other _ => []

def Element.allHeld : Element → List AnnotationInstance
  | .method info =>
    info.defaultValue.toList.flatMap HostValue.allHeld ++
      info.defaultBody.flatMap Statement.allHeld
  | .field info =>
    info.constantValue.toList.flatMap HostValue.allHeld ++
      info.initializer.toList.flatMap Expr.allHeld
  | .type _ | .property _ | .parameter _ | .package => []

/-- All annotations in the declaration. -/
def Declaration.allHeld (d : Declaration) : List AnnotationInstance :=
  d.annotations.flatMap AnnotationInstance.allHeld ++ d.element.allHeld

/-- The types of all annotations in the model. -/
def Model.annotationTypes (m : Model) : List String :=
  m.declarations.toList.flatMap fun d => d.allHeld.map (·.annotationType)

/-! ## Nothing is left out -/

mutual

theorem Expr.mem_allHeld_of_holds : ∀ {e : Expr} {a : AnnotationInstance}, e.Holds a →
    a ∈ e.allHeld
  | _, _, .nested h => AnnotationInstance.mem_allHeld_of_holds h
  | _, _, .list he h => by
    rw [Expr.allHeld, Expr.allHeldIn_eq]
    exact List.mem_flatMap_of_mem he (Expr.mem_allHeld_of_holds h)
  | _, _, .initializer h => by
    rw [Expr.allHeld]
    exact Expr.mem_allHeld_of_holds h
  | _, _, .value h => HostValue.mem_allHeld_of_holds h

theorem HostValue.mem_allHeld_of_holds : ∀ {host : HostValue} {a : AnnotationInstance},
    host.Holds a → a ∈ host.allHeld
  | _, _, .nested h => AnnotationInstance.mem_allHeld_of_holds h
  | _, _, .array hh h => by
    rw [HostValue.allHeld, HostValue.allHeldIn_eq]
    exact List.mem_flatMap_of_mem hh (HostValue.mem_allHeld_of_holds h)

theorem AnnotationInstance.mem_allHeld_of_holds : ∀ {a inner : AnnotationInstance},
    a.Holds inner → inner ∈ a.allHeld
  | _, _, .self a => by
    rw [AnnotationInstance.allHeld_eq]
    exact List.mem_cons_self
  | _, _, .member he h => by
    rw [AnnotationInstance.allHeld_eq]
    exact List.mem_cons_of_mem _ (List.mem_flatMap_of_mem he (Expr.mem_allHeld_of_holds h))

end

theorem Declaration.mem_allHeld_of_holds {d : Declaration} {a : AnnotationInstance}
    (h : d.Holds a) : a ∈ d.allHeld := by
  rw [allHeld, List.mem_append]
  cases h with
  | applied ha hi =>
    exact Or.inl (List.mem_flatMap_of_mem ha (AnnotationInstance.mem_allHeld_of_holds hi))
  | defaultValue hm hv hi =>
    rw [element_of_methodInfo? hm, Element.allHeld, hv, List.mem_append]
    exact Or.inr (Or.inl (List.mem_flatMap_of_mem List.mem_cons_self
      (HostValue.mem_allHeld_of_holds hi)))
  | defaultBody hm hs he hi =>
    rw [element_of_methodInfo? hm, Element.allHeld, List.mem_append]
    refine Or.inr (Or.inr (List.mem_flatMap_of_mem hs ?_))
    cases he <;> exact Expr.mem_allHeld_of_holds hi
  | constantValue hf hv hi =>
    rw [element_of_fieldInfo? hf, Element.allHeld, hv, List.mem_append]
    exact Or.inr (Or.inl (List.mem_flatMap_of_mem List.mem_cons_self
      (HostValue.mem_allHeld_of_holds hi)))
  | initializer hf hv hi =>
    rw [element_of_fieldInfo? hf, Element.allHeld, hv, List.mem_append]
    exact Or.inr (Or.inr (List.mem_flatMap_of_mem List.mem_cons_self
      (Expr.mem_allHeld_of_holds hi)))

/-- **What a model mentions is listed.** -/
theorem Model.MentionsType.mem_annotationTypes {m : Model} {name : String}
    (h : m.MentionsType name) : name ∈ m.annotationTypes := by
  obtain ⟨d, hd, a, ha, rfl⟩ := h
  exact List.mem_flatMap_of_mem (Array.mem_toList_iff.mpr hd)
    (List.mem_map_of_mem (Declaration.mem_allHeld_of_holds ha))

end AnnotationResolution
