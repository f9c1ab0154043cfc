import AnnotationResolution.Proofs.Model.Linked

/-!
# Models that are built step by step

Steps that name existing declarations of the right kind keep a model linked, whatever their order
(`Model.perform_cases` says what a step can do).  So the loader accepts what is built from nothing,
and every id goes on to stand for what it was given for.

* `Linked.perform`, `Linked.performAll`: a step and a run keep a model linked and add to it.
* `built_valid`: the loader accepts the result, and its lists are in order.
-/

namespace AnnotationResolution

namespace Model

variable {m : Model}

/-! ## Steps as entries -/

theorem modify_congr {f g : Declaration → Declaration} (id : DeclId)
    (h : ∀ name declaringType annotations element,
      f ⟨name, declaringType, annotations, element⟩ =
        g ⟨name, declaringType, annotations, element⟩) : m.modify id f = m.modify id g :=
  congrArg (m.modify id) (funext fun _ => h _ _ _ _)

theorem addMethod_eq (m : Model) (owner : DeclId) (name : String) (info : MethodInfo) :
    m.addMethod owner name info =
      (m.enter { name, declaringType := some owner, element := .method info }, ⟨m.size⟩) :=
  Prod.ext (modify_congr owner fun _ _ _ element => by cases element <;> rfl) rfl

theorem addField_eq (m : Model) (owner : DeclId) (name : String) (info : FieldInfo) :
    m.addField owner name info =
      (m.enter { name, declaringType := some owner, element := .field info }, ⟨m.size⟩) :=
  Prod.ext (modify_congr owner fun _ _ _ element => by cases element <;> rfl) rfl

theorem addParameter_eq {method : DeclId} {e : Declaration} (he : m.declaration? method = some e)
    (hkind : e.kind = .method) (name : String) (ty : TypeRef) :
    m.addParameter method name ty =
      (m.enter
        { name
          declaringType := e.declaringType
          element := .parameter { ty, method, index := (e.listed .parameter).length } },
        ⟨m.size⟩) := by
  have hinfo : ∃ info, e.element = .method info := by
    obtain ⟨name, declaringType, annotations, element⟩ := e
    cases element with
    | method info => exact ⟨info, rfl⟩
    | type _ | field _ | property _ | parameter _ | package => cases hkind
  obtain ⟨info, hinfo⟩ := hinfo
  have hmethod : m.methodInfo? method = some info := by
    rw [methodInfo?, he, Option.bind_some, Declaration.methodInfo?, hinfo]
  rw [addParameter, hmethod, he, Declaration.listed, hinfo]
  exact Prod.ext (modify_congr method fun _ _ _ element => by cases element <;> rfl) rfl

end Model

/-! ## Runs -/

inductive BuildingStep where
  | type (name : String) (info : TypeInfo)
  | package (name : String)
  | method (owner : DeclId) (name : String) (info : MethodInfo)
  | field (owner : DeclId) (name : String) (info : FieldInfo)
  | property (owner : DeclId) (name : String) (ty : TypeRef)
  | parameter (method : DeclId) (name : String) (ty : TypeRef)
  | annotate (id : DeclId) (a : AnnotationInstance)

namespace Model

/-- The model after a step, and the id that the step gives. -/
def perform (m : Model) : BuildingStep → Model × Option DeclId
  | .type name info => (m.addType name info).map id some
  | .package name => (m.addPackage name).map id some
  | .method owner name info => (m.addMethod owner name info).map id some
  | .field owner name info => (m.addField owner name info).map id some
  | .property owner name ty => (m.addProperty owner name ty).map id some
  | .parameter method name ty => (m.addParameter method name ty).map id some
  | .annotate id a => (m.annotate id a, none)

/-- New types have new names and new owners list nothing; owners are there and of the right kind. -/
def Allows (m : Model) : BuildingStep → Prop
  | .type name info =>
    (∀ d ∈ m.declarations, d.isType = true → d.name ≠ name) ∧ info.methods = [] ∧ info.fields = []
  | .package _ => True
  | .method owner _ info => m.isType owner = true ∧ info.parameters = []
  | .field owner _ _ => m.isType owner = true
  | .property owner _ _ => m.isType owner = true
  | .parameter method _ _ => m.kind? method = some .method
  | .annotate _ _ => True

/-- **What a step can do**: it enters a declaration that fits, or annotates. -/
theorem perform_cases {m : Model} (hm : m.Linked) {step : BuildingStep} (h : m.Allows step) :
    (∃ d, m.Fits d ∧ m.perform step = (m.enter d, some ⟨m.size⟩)) ∨
      ∃ id a, m.perform step = (m.annotate id a, none) := by
  have howner : ∀ {owner}, m.isType owner = true → m.kind? owner = some .type :=
    fun ho => of_decide_eq_true ho
  cases step with
  | annotate id a => exact Or.inr ⟨id, a, rfl⟩
  | type name info =>
    obtain ⟨hname, hmethods, hfields⟩ := h
    refine Or.inl ⟨{ name, element := .type info }, ⟨fun _ => hname, ?_, ?_, ?_, ?_⟩, rfl⟩
    · simp [Declaration.references, Declaration.elementReferences, hmethods, hfields]
    · intro kind
      cases kind <;> first | rfl | exact hmethods | exact hfields
    · rintro (hkind | hkind) <;> cases hkind
    · intro info hinfo
      cases hinfo
  | package name =>
    refine Or.inl ⟨{ name, element := .package }, ⟨?_, ?_, fun _ => rfl, ?_, ?_⟩, rfl⟩
    · intro ht
      cases ht
    · simp [Declaration.references, Declaration.elementReferences]
    · rintro (hkind | hkind) <;> cases hkind
    · intro info hinfo
      cases hinfo
  | method owner name info =>
    refine Or.inl ⟨{ name, declaringType := some owner, element := .method info },
      ⟨?_, ?_, ?_, fun _ => rfl, ?_⟩, ?_⟩
    · intro ht
      cases ht
    · simp [Declaration.references, Declaration.elementReferences, h.2, howner h.1]
    · intro kind
      cases kind <;> first | rfl | exact h.2
    · intro info hinfo
      cases hinfo
    · rw [perform, addMethod_eq]
      rfl
  | field owner name info =>
    refine Or.inl ⟨{ name, declaringType := some owner, element := .field info },
      ⟨?_, ?_, fun _ => rfl, fun _ => rfl, ?_⟩, ?_⟩
    · intro ht
      cases ht
    · simp [Declaration.references, Declaration.elementReferences, howner h]
    · intro info hinfo
      cases hinfo
    · rw [perform, addField_eq]
      rfl
  | property owner name ty =>
    refine Or.inl ⟨{ name, declaringType := some owner, element := .property ty },
      ⟨?_, ?_, fun _ => rfl, fun _ => rfl, ?_⟩, rfl⟩
    · intro ht
      cases ht
    · simp [Declaration.references, Declaration.elementReferences, howner h]
    · intro info hinfo
      cases hinfo
  | parameter method name ty =>
    obtain ⟨e, he, hkind⟩ := Option.map_eq_some_iff.mp h
    refine Or.inl ⟨_, ⟨?_, ?_, fun _ => rfl, ?_, ?_⟩,
      by rw [perform, addParameter_eq he hkind name ty]; rfl⟩
    · intro ht
      cases ht
    · intro reference hr
      rcases List.mem_append.mp hr with hdeclaring | hmethod
      · exact hm.references method e he reference (List.mem_append_left _ hdeclaring)
      · obtain rfl := List.mem_singleton.mp hmethod
        exact h
    · rintro (hk | hk) <;> cases hk
    · intro info hinfo
      cases hinfo
      exact ⟨e, he, rfl, rfl⟩

instance (m : Model) (step : BuildingStep) : Decidable (m.Allows step) :=
  match step with
  | .type _ _ => inferInstanceAs (Decidable (_ ∧ _ ∧ _))
  | .package _ | .annotate _ _ => .isTrue trivial
  | .method _ _ _ => inferInstanceAs (Decidable (_ ∧ _))
  | .field _ _ _ | .property _ _ _ => inferInstanceAs (Decidable (_ = true))
  | .parameter _ _ _ => inferInstanceAs (Decidable (_ = _))

def performAll (m : Model) (steps : List BuildingStep) : Model :=
  steps.foldl (fun m step => (m.perform step).1) m

def AllowsAll : Model → List BuildingStep → Prop
  | _, [] => True
  | m, step :: rest => m.Allows step ∧ (m.perform step).1.AllowsAll rest

def decidableAllowsAll : ∀ (m : Model) (steps : List BuildingStep), Decidable (m.AllowsAll steps)
  | _, [] => .isTrue trivial
  | m, step :: rest =>
    have := decidableAllowsAll (m.perform step).1 rest
    inferInstanceAs (Decidable (_ ∧ _))

instance (m : Model) (steps : List BuildingStep) : Decidable (m.AllowsAll steps) :=
  decidableAllowsAll m steps

variable {m : Model}

/-- **A step keeps a model linked, adds to it, and gives the id of what is new.** -/
theorem Linked.perform (hm : m.Linked) {step : BuildingStep} (h : m.Allows step) :
    (m.perform step).1.Linked ∧ m.Extends (m.perform step).1 ∧
      ∀ id, (m.perform step).2 = some id → m.declaration? id = none ∧
        ∃ d, (m.perform step).1.declaration? id = some d := by
  rcases perform_cases hm h with ⟨d, hfits, hp⟩ | ⟨target, a, hp⟩
  · rw [hp]
    refine ⟨hm.enter hfits, hfits.extends_enter, fun id hid => ?_⟩
    obtain rfl := Option.some.inj hid
    exact ⟨declaration?_size m, d, declaration?_enter_self hfits⟩
  · rw [hp]
    exact ⟨hm.annotate target a, extends_annotate m target a, fun id hid => by cases hid⟩

/-- **So do any number of steps.** -/
theorem Linked.performAll (hm : m.Linked) {steps : List BuildingStep} (h : m.AllowsAll steps) :
    (m.performAll steps).Linked ∧ m.Extends (m.performAll steps) := by
  induction steps generalizing m with
  | nil => exact ⟨hm, .refl m⟩
  | cons step rest ih =>
    obtain ⟨hlinked, hextends, -⟩ := hm.perform h.1
    obtain ⟨hall, hrest⟩ := ih hlinked h.2
    exact ⟨hall, hextends.trans hrest⟩

theorem allowsAll_append {before after : List BuildingStep} (h : m.AllowsAll (before ++ after)) :
    m.AllowsAll before ∧ (m.performAll before).AllowsAll after := by
  induction before generalizing m with
  | nil => exact ⟨trivial, h⟩
  | cons step rest ih =>
    obtain ⟨hrest, hafter⟩ := ih h.2
    exact ⟨⟨h.1, hrest⟩, hafter⟩

theorem Linked.loads (hm : m.Linked) : ofDeclarations m.declarations.toList = .ok m :=
  ofDeclarations_eq_ok_iff.mpr
    ⟨hm.indexed, m.declarations.toArray_toList.symm, checkReferences_eq_ok_iff.mpr hm.references⟩

/-- The lists of that kind have the declaration once, in the list of `owner`. -/
def ListedOnceBy (m : Model) (owner : DeclId) (kind : ElementKind) (id : DeclId) : Prop :=
  ∀ other d, m.declaration? other = some d →
    (d.listed kind).count id = if other = owner then 1 else 0

theorem Linked.listedOnceBy (hm : m.Linked) {id owner : DeclId} {d : Declaration}
    (hd : m.declaration? id = some d) (ho : d.owner? = some owner) :
    m.ListedOnceBy owner d.kind id := by
  intro other e he
  rw [hm.listed id d hd other e he, ho]
  refine if_congr ?_ rfl rfl
  rw [Option.some_inj, eq_comm (a := owner)]
  exact and_iff_right rfl

/-- A method or field is listed by its declaring type, and by that alone. -/
theorem Linked.exists_declaringType (hm : m.Linked) {id : DeclId} {d : Declaration}
    (hd : m.declaration? id = some d) (hk : d.kind = .method ∨ d.kind = .field) :
    ∃ owner, d.declaringType = some owner ∧ m.isType owner = true ∧
      m.ListedOnceBy owner d.kind id := by
  obtain ⟨owner, howner⟩ := Option.isSome_iff_exists.mp (hm.declared id d hd hk)
  have hmem : (owner, ElementKind.type) ∈ d.references := by
    refine List.mem_append_left _ ?_
    rw [howner]
    exact List.mem_singleton_self _
  have ho : d.owner? = some owner := by
    rw [← howner]
    rw [Declaration.kind] at hk
    rw [Declaration.owner?]
    cases he : d.element with
    | method _ | field _ => rfl
    | type _ | property _ | parameter _ | package =>
      rw [he] at hk
      rcases hk with hk | hk <;> cases hk
  exact ⟨owner, howner, decide_eq_true (hm.references id d hd _ hmem), hm.listedOnceBy hd ho⟩

/-- A parameter is listed by its method alone, at the position that it names. -/
theorem Linked.exists_method (hm : m.Linked) {id : DeclId} {d : Declaration} {info : ParameterInfo}
    (hd : m.declaration? id = some d) (hinfo : d.element = .parameter info) :
    ∃ method methodInfo, m.declaration? info.method = some method ∧
      method.element = .method methodInfo ∧ methodInfo.parameters[info.index]? = some id ∧
      d.declaringType = method.declaringType ∧ m.ListedOnceBy info.method .parameter id := by
  obtain ⟨method, hmethod, hindex, hdeclaring⟩ := hm.position id d info hd hinfo
  have ho : d.owner? = some info.method := by rw [Declaration.owner?, hinfo]
  have hkind : d.kind = .parameter := by rw [Declaration.kind, hinfo, Element.kind]
  have hlisted := hm.listedOnceBy hd ho
  rw [hkind] at hlisted
  rw [Declaration.listed] at hindex
  cases he : method.element with
  | method methodInfo =>
    rw [he] at hindex
    exact ⟨method, methodInfo, hmethod, he, hindex, hdeclaring, hlisted⟩
  | type _ | field _ | property _ | parameter _ | package =>
    rw [he] at hindex
    cases hindex

def built (steps : List BuildingStep) : Model := ({} : Model).performAll steps

/-- **What is built by allowed steps loads as it is, its lists are in order, and an id goes on to
stand for what it was given for.** -/
theorem built_valid {steps : List BuildingStep} (h : ({} : Model).AllowsAll steps) :
    ofDeclarations (built steps).declarations.toList = .ok (built steps) ∧
      (∀ id d, (built steps).declaration? id = some d → d.kind = .method ∨ d.kind = .field →
        ∃ owner, d.declaringType = some owner ∧ (built steps).isType owner = true ∧
          (built steps).ListedOnceBy owner d.kind id) ∧
      (∀ id d info, (built steps).declaration? id = some d → d.element = .parameter info →
        ∃ method methodInfo, (built steps).declaration? info.method = some method ∧
          method.element = .method methodInfo ∧ methodInfo.parameters[info.index]? = some id ∧
          d.declaringType = method.declaringType ∧
          (built steps).ListedOnceBy info.method .parameter id) ∧
      ∀ before step after, steps = before ++ step :: after →
        ∀ id, ((built before).perform step).2 = some id → (built before).declaration? id = none ∧
          ∃ d later, ((built before).perform step).1.declaration? id = some d ∧
            (built steps).declaration? id = some later ∧ d.GrowsTo later := by
  have hlinked : (built steps).Linked := (linked_empty.performAll h).1
  refine ⟨hlinked.loads, fun id d hd hk => hlinked.exists_declaringType hd hk,
    fun id d info hd hinfo => hlinked.exists_method hd hinfo, ?_⟩
  rintro before step after rfl id hid
  obtain ⟨hbefore, hstep, hafter⟩ := allowsAll_append h
  obtain ⟨hlinkedStep, -, hnew⟩ := (linked_empty.performAll hbefore).1.perform hstep
  obtain ⟨hfresh, d, hd⟩ := hnew id hid
  have hextends := (hlinkedStep.performAll hafter).2
  have hrun : built (before ++ step :: after) =
      ((built before).perform step).1.performAll after := by
    rw [built, performAll, List.foldl_append]
    rfl
  obtain ⟨later, hlater, hgrows⟩ := hextends id d hd
  exact ⟨hfresh, d, later, hd, hrun ▸ hlater, hgrows⟩

/-- Two types, a method with two parameters, a field and an annotation. -/
def serviceSteps : List BuildingStep :=
  [.type "a.Base" {}, .type "a.Service" { superType := some (.named "a.Base" []) },
    .method ⟨1⟩ "run" {}, .parameter ⟨2⟩ "task" (.named "a.Task" []), .field ⟨1⟩ "log" {},
    .parameter ⟨2⟩ "times" (.named "int" []), .annotate ⟨2⟩ ⟨"a.Mark", ∅⟩]

/-- The second parameter is the last in the list of its method. -/
theorem built_valid_serviceSteps :
    ofDeclarations (built serviceSteps).declarations.toList = .ok (built serviceSteps) ∧
      (built serviceSteps).ListedOnceBy ⟨2⟩ .parameter ⟨5⟩ ∧
      ∃ info, (built serviceSteps).methodInfo? ⟨2⟩ = some info ∧ info.parameters = [⟨3⟩, ⟨5⟩] := by
  have hall : ({} : Model).AllowsAll serviceSteps := by decide
  obtain ⟨hloads, -, hparameters, -⟩ := built_valid hall
  obtain ⟨_, _, -, -, -, -, hlisted⟩ := hparameters ⟨5⟩ _ _ rfl rfl
  exact ⟨hloads, hlisted, _, rfl, rfl⟩

end Model

end AnnotationResolution
