import AnnotationResolution.Model.Building

/-!
# Models that grow

A step that adds a declaration puts it at the end and enters it in the list of its owner, if it has
one (`Model.enter`).  What was there before stays under its id and can only gain: more in its lists,
more annotations (`Declaration.GrowsTo`, `Model.Extends`).

* `Model.Fits`: what a new declaration must be like.
* `Model.declaration?_enter`: what a step makes of every declaration.
* `Model.Fits.extends_enter`, `Model.extends_annotate`: a step takes nothing away.
-/

namespace AnnotationResolution

/-! ## Owners and their lists -/

/-- What an element lists of a kind as its own. -/
def Element.listed : Element → ElementKind → List DeclId
  | .type info, .method => info.methods
  | .type info, .field => info.fields
  | .method info, .parameter => info.parameters
  | _, _ => []

/-- The element with one more in its list of a kind, if it has such a list. -/
def Element.link (kind : ElementKind) (id : DeclId) : Element → Element
  | .type info =>
    match kind with
    | .method => .type { info with methods := info.methods ++ [id] }
    | .field => .type { info with fields := info.fields ++ [id] }
    | _ => .type info
  | .method info =>
    match kind with
    | .parameter => .method { info with parameters := info.parameters ++ [id] }
    | _ => .method info
  | element => element

namespace Declaration

def listed (d : Declaration) (kind : ElementKind) : List DeclId := d.element.listed kind

def link (kind : ElementKind) (id : DeclId) (d : Declaration) : Declaration :=
  { d with element := d.element.link kind id }

/-- The declaration in whose list this one belongs. -/
def owner? (d : Declaration) : Option DeclId :=
  match d.element with
  | .method _ | .field _ => d.declaringType
  | .parameter info => some info.method
  | .type _ | .property _ | .package => none

variable {d : Declaration} {kind : ElementKind} {id : DeclId}

theorem mem_references_of_mem_listed (h : id ∈ d.listed kind) : (id, kind) ∈ d.references := by
  refine List.mem_append_right _ ?_
  obtain ⟨name, declaringType, annotations, element⟩ := d
  cases element <;> cases kind <;> first
    | cases h
    | exact List.mem_append_left _ (List.mem_map_of_mem h)
    | exact List.mem_append_right _ (List.mem_map_of_mem h)
    | exact List.mem_map_of_mem h

theorem mem_references_of_mem_link {reference : DeclId × ElementKind}
    (h : reference ∈ (d.link kind id).references) :
    reference ∈ d.references ∨ reference = (id, kind) := by
  obtain ⟨name, declaringType, annotations, element⟩ := d
  cases element <;> cases kind <;> simp [link, Element.link, references, elementReferences] at h ⊢
  all_goals grind

end Declaration

/-- The kind of the owner of a declaration of this kind. -/
def ElementKind.owner? : ElementKind → Option ElementKind
  | .method | .field => some .type
  | .parameter => some .method
  | .type | .property | .package => none

namespace Declaration

variable {d e : Declaration} {kind : ElementKind} {id : DeclId}

theorem exists_reference_of_owner? {owner : DeclId} (h : d.owner? = some owner) :
    ∃ kind, d.kind.owner? = some kind ∧ (owner, kind) ∈ d.references := by
  obtain ⟨name, declaringType, annotations, element⟩ := d
  cases element with
  | method info | field info =>
    obtain rfl : declaringType = some owner := h
    exact ⟨.type, rfl, List.mem_cons_self⟩
  | parameter info =>
    obtain rfl := Option.some.inj h
    exact ⟨.method, rfl, List.mem_append_right _ List.mem_cons_self⟩
  | type info | property ty | package => cases h

/-- An owner of the right kind lists what is entered in it. -/
theorem listed_link (h : kind.owner? = some e.kind) (other : ElementKind) :
    (e.link kind id).listed other = e.listed other ++ if other = kind then [id] else [] := by
  obtain ⟨name, declaringType, annotations, element⟩ := e
  cases element <;> cases kind <;> cases h <;> cases other <;>
    simp [link, Element.link, listed, Element.listed]

end Declaration

/-! ## Declarations that grow -/

/-- The same element, with more in its lists. -/
inductive Element.GrowsTo : Element → Element → Prop
  | type (info : TypeInfo) (methods fields : List DeclId) : Element.GrowsTo (.type info)
      (.type { info with methods := info.methods ++ methods, fields := info.fields ++ fields })
  | method (info : MethodInfo) (parameters : List DeclId) : Element.GrowsTo (.method info)
      (.method { info with parameters := info.parameters ++ parameters })
  | same (element : Element) : Element.GrowsTo element element

/-- The same declaration, with more in its lists and more annotations. -/
structure Declaration.GrowsTo (d later : Declaration) : Prop where
  name : later.name = d.name
  declaringType : later.declaringType = d.declaringType
  annotations : ∃ more, later.annotations = d.annotations ++ more
  element : d.element.GrowsTo later.element

/-- Every declaration of the first model is in the second one, under the same id. -/
def Model.Extends (m later : Model) : Prop :=
  ∀ id d, m.declaration? id = some d →
    ∃ grown, later.declaration? id = some grown ∧ d.GrowsTo grown

theorem Element.GrowsTo.trans {a b c : Element} (h : a.GrowsTo b) (h' : b.GrowsTo c) :
    a.GrowsTo c := by
  cases h with
  | same => exact h'
  | type info methods fields =>
    cases h' with
    | same => exact .type info methods fields
    | type _ methods' fields' =>
      simpa only [List.append_assoc] using
        Element.GrowsTo.type info (methods ++ methods') (fields ++ fields')
  | method info parameters =>
    cases h' with
    | same => exact .method info parameters
    | method _ parameters' =>
      simpa only [List.append_assoc] using Element.GrowsTo.method info (parameters ++ parameters')

namespace Declaration

variable {d later : Declaration}

theorem GrowsTo.refl (d : Declaration) : d.GrowsTo d :=
  ⟨rfl, rfl, ⟨[], (List.append_nil _).symm⟩, .same _⟩

theorem GrowsTo.trans {last : Declaration} (h : d.GrowsTo later) (h' : later.GrowsTo last) :
    d.GrowsTo last := by
  obtain ⟨more, hmore⟩ := h.annotations
  obtain ⟨more', hmore'⟩ := h'.annotations
  exact ⟨h'.name.trans h.name, h'.declaringType.trans h.declaringType,
    ⟨more ++ more', by rw [hmore', hmore, List.append_assoc]⟩, h.element.trans h'.element⟩

theorem GrowsTo.kind_eq (h : d.GrowsTo later) : later.kind = d.kind := by
  have he : ∀ {a b : Element}, a.GrowsTo b → b.kind = a.kind := by
    intro a b hab
    cases hab <;> rfl
  exact he h.element

theorem GrowsTo.parameter_iff (h : d.GrowsTo later) {info : ParameterInfo} :
    later.element = .parameter info ↔ d.element = .parameter info := by
  have he : ∀ {a b : Element}, a.GrowsTo b → (b = .parameter info ↔ a = .parameter info) := by
    intro a b hab
    cases hab with
    | same => exact Iff.rfl
    | type | method => exact iff_of_false Element.noConfusion Element.noConfusion
  exact he h.element

theorem GrowsTo.owner?_eq (h : d.GrowsTo later) : later.owner? = d.owner? := by
  obtain ⟨-, hdeclaring, -, helement⟩ := h
  rw [owner?, owner?, hdeclaring]
  revert helement
  generalize d.element = a, later.element = b
  intro hab
  cases hab <;> rfl

theorem GrowsTo.exists_listed_eq (h : d.GrowsTo later) (kind : ElementKind) :
    ∃ more, later.listed kind = d.listed kind ++ more := by
  have he : ∀ {a b : Element}, a.GrowsTo b → ∃ more, b.listed kind = a.listed kind ++ more := by
    intro a b hab
    cases hab with
    | same => exact ⟨[], (List.append_nil _).symm⟩
    | type info methods fields =>
      cases kind
      case method => exact ⟨methods, rfl⟩
      case field => exact ⟨fields, rfl⟩
      all_goals exact ⟨[], rfl⟩
    | method info parameters =>
      cases kind
      case parameter => exact ⟨parameters, rfl⟩
      all_goals exact ⟨[], rfl⟩
  exact he h.element

theorem growsTo_link (d : Declaration) (kind : ElementKind) (id : DeclId) :
    d.GrowsTo (d.link kind id) := by
  refine ⟨rfl, rfl, ⟨[], (List.append_nil _).symm⟩, ?_⟩
  show d.element.GrowsTo (d.element.link kind id)
  cases d.element with
  | type info =>
    cases kind
    case method => simpa only [Element.link, List.append_nil] using Element.GrowsTo.type info [id] []
    case field => simpa only [Element.link, List.append_nil] using Element.GrowsTo.type info [] [id]
    all_goals exact .same _
  | method info =>
    cases kind
    case parameter => exact .method info [id]
    all_goals exact .same _
  | field _ | property _ | parameter _ | package => exact .same _

theorem isType_link (d : Declaration) (kind : ElementKind) (id : DeclId) :
    (d.link kind id).isType = d.isType := by
  rw [isType, (d.growsTo_link kind id).kind_eq, isType]

end Declaration

namespace Model

variable {m later : Model}

theorem Extends.refl (m : Model) : m.Extends m := fun _ d hd => ⟨d, hd, .refl d⟩

theorem Extends.trans {last : Model} (h : m.Extends later) (h' : later.Extends last) :
    m.Extends last := by
  intro id d hd
  obtain ⟨grown, hg, hgrows⟩ := h id d hd
  obtain ⟨grown', hg', hgrows'⟩ := h' id grown hg
  exact ⟨grown', hg', hgrows.trans hgrows'⟩

theorem Extends.kind? (h : m.Extends later) {id : DeclId} {kind : ElementKind}
    (hk : m.kind? id = some kind) : later.kind? id = some kind := by
  obtain ⟨d, hd, rfl⟩ := Option.map_eq_some_iff.mp hk
  obtain ⟨grown, hg, hgrows⟩ := h id d hd
  exact Option.map_eq_some_iff.mpr ⟨grown, hg, hgrows.kind_eq⟩

/-! ## One step -/

/-- Adds a declaration and enters it in the list of its owner. -/
def enter (m : Model) (d : Declaration) : Model :=
  match d.owner? with
  | none => (m.push d).1
  | some owner => (m.push d).1.modify owner (Declaration.link d.kind ⟨m.size⟩)

theorem declaration?_push (m : Model) (d : Declaration) (id : DeclId) :
    (m.push d).1.declaration? id = if id = ⟨m.size⟩ then some d else m.declaration? id := by
  have hindex : id.index = m.declarations.size ↔ id = ⟨m.size⟩ := by
    obtain ⟨i⟩ := id
    rw [DeclId.mk.injEq, size]
  simp only [declaration?, push, Array.getElem?_push, hindex]

theorem declaration?_modify (m : Model) (id other : DeclId) (f : Declaration → Declaration) :
    (m.modify id f).declaration? other =
      if id = other then (m.declaration? other).map f else m.declaration? other := by
  have hindex : id.index = other.index ↔ id = other := by
    obtain ⟨i⟩ := id
    obtain ⟨j⟩ := other
    rw [DeclId.mk.injEq]
  simp only [declaration?, modify, Array.getElem?_modify, hindex]

theorem declaration?_size (m : Model) : m.declaration? ⟨m.size⟩ = none :=
  Array.getElem?_size

/-- A declaration that may be added: it lists nothing yet, and what it names is there. -/
structure Fits (m : Model) (d : Declaration) : Prop where
  newName : d.isType = true → ∀ e ∈ m.declarations, e.isType = true → e.name ≠ d.name
  references : ∀ reference ∈ d.references, m.kind? reference.1 = some reference.2
  listed : ∀ kind, d.listed kind = []
  declared : d.kind = .method ∨ d.kind = .field → d.declaringType.isSome = true
  position : ∀ info, d.element = .parameter info → ∃ method,
    m.declaration? info.method = some method ∧ info.index = (method.listed .parameter).length ∧
      d.declaringType = method.declaringType

variable {d : Declaration}

/-- What an owner has become, and everything else as it was. -/
theorem declaration?_enter (h : m.Fits d) (id : DeclId) :
    (m.enter d).declaration? id =
      if id = ⟨m.size⟩ then some d
      else (m.declaration? id).map fun e =>
        if d.owner? = some id then e.link d.kind ⟨m.size⟩ else e := by
  rw [enter]
  cases ho : d.owner? with
  | none =>
    rw [declaration?_push]
    simp
  | some owner =>
    obtain ⟨kind, -, hr⟩ := Declaration.exists_reference_of_owner? ho
    have hne : owner ≠ ⟨m.size⟩ := by
      rintro rfl
      have hkind := h.references _ hr
      rw [kind?, declaration?_size] at hkind
      cases hkind
    dsimp only
    rw [declaration?_modify, declaration?_push]
    by_cases hid : id = ⟨m.size⟩
    · rw [if_neg (fun he => hne (he.trans hid)), if_pos hid, if_pos hid]
    · rw [if_neg hid, if_neg hid]
      by_cases he : owner = id
      · simp [he]
      · simp [he]

theorem declaration?_enter_self (h : m.Fits d) : (m.enter d).declaration? ⟨m.size⟩ = some d := by
  rw [declaration?_enter h, if_pos rfl]

theorem Fits.extends_enter (h : m.Fits d) : m.Extends (m.enter d) := by
  intro id e he
  have hne : id ≠ ⟨m.size⟩ := by
    rintro rfl
    rw [declaration?_size] at he
    cases he
  rw [declaration?_enter h, if_neg hne, he, Option.map_some]
  split
  · exact ⟨_, rfl, e.growsTo_link _ _⟩
  · exact ⟨_, rfl, .refl e⟩

/-- A declaration in the model after the step is the new one or one that was there, perhaps with the
new one in its lists. -/
theorem exists_of_declaration?_enter (h : m.Fits d) {id : DeclId} {e : Declaration}
    (he : (m.enter d).declaration? id = some e) :
    (id = ⟨m.size⟩ ∧ e = d) ∨ id ≠ ⟨m.size⟩ ∧ ∃ old, m.declaration? id = some old ∧
      old.GrowsTo e ∧ e = if d.owner? = some id then old.link d.kind ⟨m.size⟩ else old := by
  rw [declaration?_enter h] at he
  split at he
  · next hid => exact Or.inl ⟨hid, (Option.some.inj he).symm⟩
  · next hid =>
    obtain ⟨old, ho, rfl⟩ := Option.map_eq_some_iff.mp he
    refine Or.inr ⟨hid, old, ho, ?_, rfl⟩
    split
    · exact old.growsTo_link _ _
    · exact .refl old

theorem extends_annotate (m : Model) (id : DeclId) (a : AnnotationInstance) :
    m.Extends (m.annotate id a) := by
  intro other d hd
  rw [annotate, declaration?_modify, hd]
  split
  · exact ⟨_, rfl, rfl, rfl, ⟨[a], rfl⟩, .same _⟩
  · exact ⟨_, rfl, .refl d⟩

end Model

end AnnotationResolution
