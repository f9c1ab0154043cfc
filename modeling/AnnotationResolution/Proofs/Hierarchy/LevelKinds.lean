import AnnotationResolution.Proofs.Hierarchy.Overrides
import AnnotationResolution.Proofs.Model.Consistent

/-!
# What kind the levels are of

No search for levels looks at the kind of what it finds; it relies on the references that the loader
has checked.  So in a model that loads the levels of a declaration are there and are of its own
kind, except that those of a method may begin with the hierarchy of its type.

* `kind?_of_mem_typeHierarchy`: the hierarchy of a type consists of types.
* `kind?_of_mem_overriddenMethods`: what a method overrides are methods.
* `levelsTyped`: the levels of types, methods and parameters.
* `Model.ofDeclarations_exact`: what loads, what comes of it, and what is refused for which reason.
-/

namespace AnnotationResolution

namespace Model

variable {m : Model}

/-- What declares a declaration. -/
def declaringType? (m : Model) (id : DeclId) : Option DeclId :=
  (m.declaration? id).bind Declaration.declaringType

theorem exists_declaration?_of_kind? {id : DeclId} {kind : ElementKind}
    (h : m.kind? id = some kind) : ∃ d, m.declaration? id = some d ∧ d.kind = kind :=
  Option.map_eq_some_iff.mp h

section Loaded

variable (hm : ofDeclarations m.declarations.toList = .ok m)

include hm

theorem kind?_of_typeNamed? {name : String} {id : DeclId} (h : m.typeNamed? name = some id) :
    m.kind? id = some .type := by
  obtain ⟨d, hd, ht, -⟩ := (typeNamed?_eq_some_iff (ofDeclarations_eq_ok_iff.mp hm).1).mp h
  rw [kind?, hd, Option.map_some, of_decide_eq_true ht]

/-- What stands in a slot is of the kind that belongs there. -/
theorem kind?_of_mem_inSlot {id target : DeclId} {d : Declaration} {slot : Slot}
    (hd : m.declaration? id = some d) (ht : target ∈ d.inSlot slot) :
    m.kind? target = some slot.kind := by
  have hat : m.declarations.toList[id.index]? = some d := by
    rw [Array.getElem?_toList]
    exact hd
  rw [kind?_eq_kindAt?]
  exact checkReferences_eq_ok_iff_inSlot.mp (ofDeclarations_eq_ok_iff.mp hm).2.2 id d hat slot
    target ht

theorem kind?_of_declaringType? {id owner : DeclId} (h : m.declaringType? id = some owner) :
    m.kind? owner = some .type := by
  obtain ⟨d, hd, ho⟩ := Option.bind_eq_some_iff.mp h
  have hslot : owner ∈ d.inSlot .declaringType := by
    rw [Declaration.inSlot, ho]
    exact List.mem_singleton_self owner
  exact kind?_of_mem_inSlot hm hd hslot

theorem kind?_of_mem_methodsNamed {ty method : DeclId} {name : String}
    (h : method ∈ m.methodsNamed ty name) : m.kind? method = some .method := by
  rw [methodsNamed] at h
  split at h
  · next info hi =>
    obtain ⟨d, hd, hinfo⟩ := Option.bind_eq_some_iff.mp hi
    have hslot : method ∈ d.inSlot .methods := by
      rw [Declaration.inSlot, hinfo]
      exact (List.mem_filter.mp h).1
    exact kind?_of_mem_inSlot hm hd hslot
  · cases h

theorem kind?_of_parameterAt? {method parameter : DeclId} {index : Nat}
    (h : m.parameterAt? method index = some parameter) : m.kind? parameter = some .parameter := by
  obtain ⟨info, hi, hindex⟩ := Option.bind_eq_some_iff.mp h
  obtain ⟨d, hd, hinfo⟩ := Option.bind_eq_some_iff.mp hi
  have hslot : parameter ∈ d.inSlot .parameters := by
    rw [Declaration.inSlot, hinfo]
    exact List.mem_of_getElem? hindex
  exact kind?_of_mem_inSlot hm hd hslot

end Loaded

end Model

namespace Environment

variable {env : Environment}

variable (env) in
/-- **The levels of a declaration are of its kind.**  Those of a method may have the hierarchy of
its type before them. -/
structure LevelsTyped : Prop where
  types : ∀ options id, env.model.kind? id = some .type →
    ∀ level ∈ env.levels options id, env.model.kind? level = some .type
  methods : ∀ options id, env.model.kind? id = some .method →
    ∃ above own, env.levels options id = above ++ own ∧
      (∀ level ∈ own, env.model.kind? level = some .method) ∧
      (above = [] ∨ options.inheritTypeAnnotations = true ∧ options.declaredOnly = false ∧
        ∃ owner, env.model.declaringType? id = some owner ∧ above = env.typeHierarchy owner ∧
          ∀ level ∈ above, env.model.kind? level = some .type)
  parameters : ∀ options id, env.model.kind? id = some .parameter →
    ∀ level ∈ env.levels options id, env.model.kind? level = some .parameter

/-- Nothing but a method has levels from its type, and it has them only if a type declares it. -/
theorem inheritedTypeLevels_eq_nil {id : DeclId}
    (h : env.model.kind? id ≠ some .method ∨ env.model.declaringType? id = none) :
    env.inheritedTypeLevels id = [] := by
  rw [inheritedTypeLevels]
  split
  · next name annotations owner info hd =>
    simp [Model.kind?, Model.declaringType?, hd, Declaration.kind, Element.kind] at h
  · rfl

section Loaded

variable (hm : Model.ofDeclarations env.model.declarations.toList = .ok env.model)

include hm

theorem kind?_of_mem_typeHierarchy {ty level : DeclId} (ht : env.model.kind? ty = some .type)
    (h : level ∈ env.typeHierarchy ty) : env.model.kind? level = some .type := by
  rcases env.exists_typeNamed?_of_mem_typeHierarchy h with rfl | ⟨name, hn⟩
  · exact ht
  · exact Model.kind?_of_typeNamed? hm hn

theorem kind?_of_mem_overriddenMethods {method overridden : DeclId}
    (h : overridden ∈ env.overriddenMethods method) :
    env.model.kind? overridden = some .method := by
  cases ht : env.model.overriding? method with
  | none =>
    rw [overriddenMethods_of_overriding?_eq_none ht] at h
    cases h
  | some target =>
    -- Wherever it is found, a type lists it.
    have hmatch : ∃ ancestor, env.Matches target ancestor overridden := by
      rcases (mem_overriddenMethods_iff ht).mp h with ⟨c, -, hfound⟩ | ⟨c, -, hfound⟩
      · obtain ⟨-, interface, -, -, hmatch⟩ := hfound
        exact ⟨interface, hmatch⟩
      · exact ⟨c, hfound.1⟩
    obtain ⟨ancestor, hmatch⟩ := hmatch
    exact Model.kind?_of_mem_methodsNamed hm hmatch.listed

theorem kind?_of_mem_overriddenDeclarations {id overridden : DeclId} {kind : ElementKind}
    (hk : env.model.kind? id = some kind) (h : overridden ∈ env.overriddenDeclarations id) :
    env.model.kind? overridden = some kind := by
  obtain ⟨d, hd, rfl⟩ := Model.exists_declaration?_of_kind? hk
  rw [overriddenDeclarations, hd, Option.map_some] at h
  rw [Declaration.kind]
  cases he : d.element with
  | method info =>
    rw [he] at h
    dsimp only at h
    split at h
    · exact kind?_of_mem_overriddenMethods hm h
    · cases h
  | parameter info =>
    rw [he] at h
    dsimp only at h
    split at h
    · obtain ⟨method, -, hat⟩ := List.mem_filterMap.mp h
      exact Model.kind?_of_parameterAt? hm hat
    · cases h
  | _ =>
    rw [he] at h
    cases h

theorem kind?_of_mem_ownLevels {id level : DeclId} {kind : ElementKind}
    (hk : env.model.kind? id = some kind) (hkind : kind = .method ∨ kind = .parameter)
    (h : level ∈ env.ownLevels id) : env.model.kind? level = some kind := by
  obtain ⟨d, hd, rfl⟩ := Model.exists_declaration?_of_kind? hk
  rw [ownLevels_eq_overridden hd hkind] at h
  rcases List.mem_append.mp h with hover | hself
  · exact kind?_of_mem_overriddenDeclarations hm hk hover
  · obtain rfl := List.mem_singleton.mp hself
    exact hk

/-- The levels that a method has from its type are the hierarchy of the type. -/
theorem inheritedTypeLevels_of_declaringType? {id owner : DeclId}
    (hk : env.model.kind? id = some .method) (ho : env.model.declaringType? id = some owner) :
    env.inheritedTypeLevels id = env.typeHierarchy owner := by
  obtain ⟨⟨name, declaringType, annotations, element⟩, hd, hmethod⟩ :=
    Model.exists_declaration?_of_kind? hk
  obtain ⟨⟨ownerName, declaring, applied, ownerElement⟩, hdOwner, htype⟩ :=
    Model.exists_declaration?_of_kind? (Model.kind?_of_declaringType? hm ho)
  rw [Model.declaringType?, hd, Option.bind_some] at ho
  obtain rfl : declaringType = some owner := ho
  cases element with
  | method info =>
    cases ownerElement with
    | type ownerInfo =>
      rw [inheritedTypeLevels, hd]
      dsimp only
      rw [ownLevels, hdOwner]
    | _ => cases htype
  | _ => cases hmethod

/-- **In a model that loads the levels are of the kind of their declaration.** -/
theorem levelsTyped : env.LevelsTyped where
  types options id hk level h := by
    obtain ⟨d, hd, ht⟩ := Model.exists_declaration?_of_kind? hk
    rw [levels_of_isType hd (decide_eq_true ht)] at h
    split at h
    · obtain rfl := List.mem_singleton.mp h
      exact hk
    · exact kind?_of_mem_typeHierarchy hm hk h
  methods options id hk := by
    obtain ⟨d, hd, -⟩ := Model.exists_declaration?_of_kind? hk
    have hown : ∀ level ∈ env.ownLevels id, env.model.kind? level = some .method :=
      fun level => kind?_of_mem_ownLevels hm hk (Or.inl rfl)
    rw [levels]
    cases hdeclared : options.declaredOnly with
    | true =>
      rw [if_pos rfl, hd]
      refine ⟨[], [id], rfl, fun level hl => ?_, Or.inl rfl⟩
      obtain rfl := List.mem_singleton.mp hl
      exact hk
    | false =>
      rw [if_neg Bool.false_ne_true]
      refine ⟨_, _, rfl, hown, ?_⟩
      cases hinherit : options.inheritTypeAnnotations with
      | false => exact Or.inl rfl
      | true =>
        rw [if_pos rfl]
        cases ho : env.model.declaringType? id with
        | none => exact Or.inl (inheritedTypeLevels_eq_nil (Or.inr ho))
        | some owner =>
          rw [inheritedTypeLevels_of_declaringType? hm hk ho]
          exact Or.inr ⟨rfl, rfl, owner, rfl, rfl, fun level =>
            kind?_of_mem_typeHierarchy hm (Model.kind?_of_declaringType? hm ho)⟩
  parameters options id hk level h := by
    obtain ⟨d, hd, -⟩ := Model.exists_declaration?_of_kind? hk
    have hnone : env.inheritedTypeLevels id = [] :=
      inheritedTypeLevels_eq_nil (Or.inl (by rw [hk]; decide))
    rw [levels, hnone, ite_self, List.nil_append] at h
    split at h
    · rw [hd] at h
      obtain rfl := List.mem_singleton.mp h
      exact hk
    · exact kind?_of_mem_ownLevels hm hk (Or.inr rfl) h

end Loaded

end Environment

namespace Model

/-- **What the loader accepts, what it makes of it, and why it refuses the rest.**  The index leads
from a name to the one type that has it, and under each configuration the levels of a declaration
are of its kind. -/
theorem ofDeclarations_exact (declarations : List Declaration) :
    ((∃ m, ofDeclarations declarations = .ok m) ↔ Consistent declarations) ∧
    (∀ m, ofDeclarations declarations = .ok m → m.declarations.toList = declarations ∧
      (∀ name id, m.typeNamed? name = some id ↔ IsTypeNamed declarations name id) ∧
      ∀ config, (⟨m, config⟩ : Environment).LevelsTyped) ∧
    ∀ e, ofDeclarations declarations = .error e ↔ Fault declarations e := by
  refine ⟨exists_ofDeclarations_iff, fun m hm => ?_, fun e => ofDeclarations_eq_error_iff⟩
  obtain ⟨hindex, hdeclarations, -⟩ := ofDeclarations_eq_ok_iff.mp hm
  obtain rfl : m.declarations.toList = declarations := by rw [hdeclarations]
  refine ⟨rfl, fun name id => ?_, fun config => Environment.levelsTyped hm⟩
  rw [typeNamed?_eq_some_iff hindex, IsTypeNamed]
  simp only [declaration?, Array.getElem?_toList, Declaration.isType, decide_eq_true_iff]

/-- A type with a method that has a parameter, and with a field. -/
def taskDeclarations : List Declaration := [
  ⟨"a.Task", none, [], .type { methods := [⟨1⟩], fields := [⟨3⟩] }⟩,
  ⟨"run", some ⟨0⟩, [], .method { parameters := [⟨2⟩] }⟩,
  ⟨"name", some ⟨0⟩, [], .parameter ⟨.named "java.lang.String" [], ⟨1⟩, 0⟩⟩,
  ⟨"count", some ⟨0⟩, [], .field {}⟩]

/-- They load; with a parameter that belongs to itself after them they do not. -/
theorem ofDeclarations_exact_task :
    Consistent taskDeclarations ∧
      (∃ m, ofDeclarations taskDeclarations = .ok m ∧ (⟨m, {}⟩ : Environment).LevelsTyped) ∧
      Fault (taskDeclarations ++ [⟨"p", none, [], .parameter ⟨.void, ⟨4⟩, 0⟩⟩])
        (.wrongReferenceKind ⟨4⟩ ⟨4⟩ .method .parameter) := by
  have hload : ofDeclarations taskDeclarations =
      .ok ⟨taskDeclarations.toArray, ⟨[("a.Task", ⟨0⟩)]⟩⟩ := rfl
  refine ⟨(ofDeclarations_exact _).1.mp ⟨_, hload⟩, ⟨_, hload, ?_⟩, ?_⟩
  · exact ((ofDeclarations_exact _).2.1 _ hload).2.2 {}
  · exact ((ofDeclarations_exact _).2.2 _).mp rfl

end Model

end AnnotationResolution
