import AnnotationResolution.Hierarchy.Levels
import AnnotationResolution.Proofs.DepthFirst.Visits
import AnnotationResolution.Proofs.Renumbering.Model

/-!
# Levels under new ids

Hierarchies and overridden methods are found by walks that compare ids and keep lists of them.  All
that they do with an id is to look its declaration up and to ask whether it is equal to another one,
and the lists are in the order in which the declarations mention each other.  So under new ids the
same declarations are found, in the same order: `Environment.SameShape.levels`.
-/

namespace AnnotationResolution

namespace Model.SameShape

variable {σ : Equiv.Perm DeclId} {m moved : Model} (h : m.SameShape σ moved)

include h

/-- A walk along the references between types, if these are renumbered. -/
theorem freshKeys_walk (next next' : DeclId → List DeclId)
    (hn : ∀ id, next' (σ id) = (next id).map σ) (id : DeclId) (seen : List DeclId) :
    freshKeys (depthFirst moved.ids (fun id (_ : Unit) => (next' id).map (·, ()))
        ((next' (σ id)).map (·, ())) (seen.map σ)) =
      (freshKeys (depthFirst m.ids (fun id (_ : Unit) => (next id).map (·, ()))
        ((next id).map (·, ())) seen)).map σ := by
  have hedges : ∀ id, (next' (σ id)).map (·, ()) =
      ((next id).map (·, ())).map (Prod.map σ fun p => p) := by
    intro id
    rw [hn, List.map_map, List.map_map]
    rfl
  rw [hedges, depthFirst_map σ.injective (fun p => p) h.mem_ids_iff fun id _ => hedges id,
    freshKeys_map]

theorem superclasses (id : DeclId) :
    moved.superclasses (σ id) = (m.superclasses id).map σ := by
  refine h.freshKeys_walk (fun id => (m.superType? id).toList) _ (fun id => ?_) id [id]
  rw [h.superType?, Option.toList_map]

/-- The supertypes that a type names, with their type arguments. -/
theorem boundParents (id : DeclId) (bindings : Substitution) :
    moved.boundParents (σ id) bindings =
      (m.boundParents id bindings).map (Prod.map σ fun arguments => arguments) := by
  rw [Model.boundParents, Model.boundParents, h.typeInfo?]
  cases m.typeInfo? id with
  | none => rfl
  | some info =>
    show (info.superType.toList ++ info.interfaces).filterMap _ = List.map _ (List.filterMap _ _)
    rw [List.map_filterMap]
    refine List.filterMap_congr fun ref _ => ?_
    cases ref with
    | named name args =>
      simp only [bind, h.typeNamed?]
      cases m.typeNamed? name with
      | none => rfl
      | some parent =>
        simp only [Option.map_some, Option.bind_some, h.typeInfo?]
        cases m.typeInfo? parent <;> rfl
    | param name => rfl
    | array component => rfl

theorem typeArguments? (origin ancestor : DeclId) :
    moved.typeArguments? (σ origin) (σ ancestor) = m.typeArguments? origin ancestor := by
  have hwalk : depthFirst moved.ids moved.boundParents [(σ origin, ∅)] [] =
      (depthFirst m.ids m.boundParents [(origin, ∅)] []).map
        (Visit.map σ fun arguments => arguments) :=
    depthFirst_map σ.injective _ h.mem_ids_iff h.boundParents [(origin, ∅)] []
  have hkey : (fun v : Visit DeclId Substitution => decide (v.key = σ ancestor)) ∘
      Visit.map σ (fun arguments => arguments) = fun v => decide (v.key = ancestor) := by
    funext v
    exact decide_eq_decide.mpr σ.injective.eq_iff
  rw [Model.typeArguments?, Model.typeArguments?, hwalk, List.find?_map, hkey, Option.map_map]
  rfl

theorem signatureMatches (params : List TypeRef) (candidate : DeclId)
    (bindings : Option Substitution) :
    moved.signatureMatches params (σ candidate) bindings =
      m.signatureMatches params candidate bindings := by
  rw [Model.signatureMatches, Model.signatureMatches, h.parameterTypes]

end Model.SameShape

def Overriding.renumber (f : DeclId → DeclId) (target : Overriding) : Overriding :=
  { target with method := f target.method, origin := f target.origin }

theorem addNew_map {f : DeclId → DeclId} (hf : Function.Injective f) (known : List DeclId)
    (id : DeclId) : addNew (known.map f) (f id) = (addNew known id).map f := by
  rw [addNew, addNew]
  by_cases hk : id ∈ known
  · rw [if_pos hk, if_pos (List.mem_map_of_mem hk)]
  · rw [if_neg hk, if_neg (mt (List.mem_map_of_injective hf).mp hk), List.map_append]
    rfl

theorem foldl_addNew_map {f : DeclId → DeclId} (hf : Function.Injective f)
    (known new : List DeclId) :
    (new.map f).foldl addNew (known.map f) = (new.foldl addNew known).map f := by
  induction new generalizing known with
  | nil => rfl
  | cons id rest ih =>
    rw [List.map_cons, List.foldl_cons, addNew_map hf, ih]
    rfl

namespace Environment.SameShape

variable {σ : Equiv.Perm DeclId} {env moved : Environment} (h : env.SameShape σ moved)

include h

/-! ## Types -/

theorem interfaces (id : DeclId) : moved.interfaces (σ id) = (env.interfaces id).map σ := by
  rw [Environment.interfaces, Environment.interfaces, h.model.typeInfo?]
  cases env.model.typeInfo? id with
  | none => rfl
  | some info =>
    show info.interfaces.filterMap _ = List.map _ (List.filterMap _ _)
    rw [List.map_filterMap]
    refine List.filterMap_congr fun ref _ => ?_
    simp only [bind, h.config, h.model.typeNamed?, Option.map_bind]
    cases ref.rawName? with
    | none => rfl
    | some name =>
      simp only [Option.bind_some, Function.comp_apply]
      split <;> rfl

theorem interfaceClosure (id : DeclId) (seen : List DeclId) :
    moved.interfaceClosure (σ id) (seen.map σ) = (env.interfaceClosure id seen).map σ :=
  h.model.freshKeys_walk _ _ h.interfaces id seen

theorem ignoresSuperclass (id : DeclId) :
    moved.ignoresSuperclass (σ id) = env.ignoresSuperclass id := by
  rw [Environment.ignoresSuperclass, Environment.ignoresSuperclass, h.config, h.model.declaration?,
    Option.map_map]
  rfl

theorem addSuperclass (ty : DeclId) (ancestors : List DeclId) (superclass : DeclId) :
    moved.addSuperclass (σ ty) (ancestors.map σ) (σ superclass) =
      (env.addSuperclass ty ancestors superclass).map σ := by
  rw [Environment.addSuperclass, Environment.addSuperclass, h.ignoresSuperclass]
  split
  · rfl
  · have hknown : (if σ superclass ∈ ancestors.map σ then ancestors.map σ
          else ancestors.map σ ++ [σ superclass]) =
        (if superclass ∈ ancestors then ancestors else ancestors ++ [superclass]).map σ :=
      addNew_map σ.injective ancestors superclass
    dsimp only
    rw [hknown, ← List.map_cons, h.interfaceClosure, List.map_append]

theorem typeAncestors (ty : DeclId) :
    moved.typeAncestors (σ ty) = (env.typeAncestors ty).map σ := by
  have hfold : ∀ (classes ancestors : List DeclId),
      (classes.map σ).foldl (moved.addSuperclass (σ ty)) (ancestors.map σ) =
        (classes.foldl (env.addSuperclass ty) ancestors).map σ := by
    intro classes
    induction classes with
    | nil => exact fun _ => rfl
    | cons c rest ih =>
      intro ancestors
      rw [List.map_cons, List.foldl_cons, h.addSuperclass, ih]
      rfl
  have hstart : moved.interfaceClosure (σ ty) [σ ty] = (env.interfaceClosure ty [ty]).map σ :=
    h.interfaceClosure ty [ty]
  rw [Environment.typeAncestors, Environment.typeAncestors, h.model.superclasses, hstart, hfold]

theorem typeHierarchy (ty : DeclId) :
    moved.typeHierarchy (σ ty) = (env.typeHierarchy ty).map σ := by
  have halone : (moved.model.declaration? (σ ty)).any Declaration.isAnnotationType =
      (env.model.declaration? ty).any Declaration.isAnnotationType := by
    rw [h.model.declaration?]
    cases env.model.declaration? ty with
    | none => rfl
    | some d => exact d.isAnnotationType_renumber σ
  rw [Environment.typeHierarchy, Environment.typeHierarchy, halone]
  split
  · rfl
  · rw [h.typeAncestors, List.map_reverse, List.map_cons]

/-! ## Overridden methods -/

theorem matchesIn (target : Overriding) (ancestor : DeclId) :
    moved.matchesIn (target.renumber σ) (σ ancestor) = (env.matchesIn target ancestor).map σ := by
  rw [Environment.matchesIn, Environment.matchesIn]
  simp only [Overriding.renumber, h.model.typeArguments?, h.model.methodsNamed]
  rw [List.filter_map]
  congr 1
  refine List.filter_congr fun candidate _ => ?_
  exact h.model.signatureMatches target.params candidate _

theorem interfaceMatches (target : Overriding) (interface : DeclId) :
    moved.interfaceMatches (target.renumber σ) (σ interface) =
      (env.interfaceMatches target interface).map σ := by
  rw [Environment.interfaceMatches, Environment.interfaceMatches, h.matchesIn, List.filter_map]
  congr 1
  refine List.filter_congr fun candidate _ => ?_
  exact decide_eq_decide.mpr (not_congr σ.injective.eq_iff)

theorem superclassMatches (target : Overriding) (superclass : DeclId) :
    moved.superclassMatches (target.renumber σ) (σ superclass) =
      (env.superclassMatches target superclass).map σ := by
  rw [Environment.superclassMatches, Environment.superclassMatches, h.matchesIn, List.filter_map]
  congr 1
  refine List.filter_congr fun candidate _ => ?_
  rw [Function.comp_apply, h.model.methodInfo?]
  cases env.model.methodInfo? candidate <;> rfl

theorem startsChain (found : List DeclId) :
    moved.startsChain (found.map σ) = env.startsChain found := by
  rw [Environment.startsChain, Environment.startsChain, List.any_map]
  congr 1
  funext candidate
  rw [Function.comp_apply, h.model.methodInfo?]
  cases env.model.methodInfo? candidate <;> rfl

theorem flatMap_interfaceMatches (target : Overriding) (interfaces : List DeclId) :
    (interfaces.map σ).flatMap (moved.interfaceMatches (target.renumber σ)) =
      (interfaces.flatMap (env.interfaceMatches target)).map σ := by
  rw [List.flatMap_map, List.map_flatMap]
  exact List.flatMap_congr fun interface _ => h.interfaceMatches target interface

theorem overriddenAbove (target : Overriding) (superclasses : List DeclId) (current : DeclId)
    (seen found : List DeclId) :
    moved.overriddenAbove (target.renumber σ) (superclasses.map σ) (σ current) (seen.map σ)
        (found.map σ) =
      (env.overriddenAbove target superclasses current seen found).map σ := by
  induction superclasses generalizing current seen found with
  | nil =>
    rw [List.map_nil, Environment.overriddenAbove, Environment.overriddenAbove, h.interfaceClosure,
      h.flatMap_interfaceMatches, foldl_addNew_map σ.injective]
  | cons superclass rest ih =>
    rw [List.map_cons, Environment.overriddenAbove, Environment.overriddenAbove, h.interfaceClosure,
      h.superclassMatches, h.flatMap_interfaceMatches, foldl_addNew_map σ.injective,
      foldl_addNew_map σ.injective, h.startsChain, ← List.map_append, ih]
    split <;> rfl

theorem isRoot (id : DeclId) : moved.isRoot (σ id) = env.isRoot id := by
  rw [Environment.isRoot, Environment.isRoot, h.config, h.model.declaration?]
  cases env.model.declaration? id <;> rfl

theorem overriddenMethods (method : DeclId) :
    moved.overriddenMethods (σ method) = (env.overriddenMethods method).map σ := by
  rw [Environment.overriddenMethods, Environment.overriddenMethods, h.model.declaration?]
  cases env.model.declaration? method with
  | none => rfl
  | some d =>
    simp only [Option.map_some, Declaration.declaringType_withAnnotations,
      Declaration.declaringType_renumber]
    cases d.declaringType with
    | none => rfl
    | some origin =>
      simp only [Option.map_some, h.model.superclasses, h.model.parameterTypes, List.takeWhile_map,
        Declaration.name_withAnnotations, Declaration.name_renumber]
      have hroot : (fun c => !moved.isRoot c) ∘ σ = fun c => !env.isRoot c := by
        funext c
        exact congrArg not (h.isRoot c)
      rw [hroot]
      exact h.overriddenAbove ⟨method, d.name, origin, env.model.parameterTypes method⟩ _ origin
        [origin] []

/-! ## Levels -/

theorem ownLevels (id : DeclId) : moved.ownLevels (σ id) = (env.ownLevels id).map σ := by
  rw [Environment.ownLevels, Environment.ownLevels, h.model.declaration?]
  cases env.model.declaration? id with
  | none => rfl
  | some d =>
    simp only [Option.map_some, Declaration.element_withAnnotations, Declaration.element_renumber]
    cases d.element with
    | type info => exact h.typeHierarchy id
    | method info =>
      simp only [Element.renumber, MethodInfo.renumber, h.overriddenMethods, List.map_append,
        apply_ite (List.map σ), List.map_nil, List.map_cons]
    | parameter info =>
      have hoverrides : (moved.model.methodInfo? (σ info.method)).any MethodInfo.overrides =
          (env.model.methodInfo? info.method).any MethodInfo.overrides := by
        rw [h.model.methodInfo?]
        cases env.model.methodInfo? info.method <;> rfl
      have hplace : ∀ methods : List DeclId,
          (methods.map σ).filterMap (moved.model.parameterAt? · info.index) =
            (methods.filterMap (env.model.parameterAt? · info.index)).map σ := by
        intro methods
        rw [List.filterMap_map, List.map_filterMap]
        exact List.filterMap_congr fun method _ => h.model.parameterAt? method info.index
      simp only [Element.renumber, ParameterInfo.renumber, hoverrides, h.overriddenMethods,
        List.map_append, List.map_cons, List.map_nil]
      split
      · rw [hplace]
      · rfl
    | field info => rfl
    | property ty => rfl
    | package => rfl

theorem inheritedTypeLevels (id : DeclId) :
    moved.inheritedTypeLevels (σ id) = (env.inheritedTypeLevels id).map σ := by
  rw [Environment.inheritedTypeLevels, Environment.inheritedTypeLevels, h.model.declaration?]
  cases env.model.declaration? id with
  | none => rfl
  | some d =>
    obtain ⟨name, declaringType, annotations, element⟩ := d
    cases declaringType with
    | none => cases element <;> rfl
    | some owner =>
      cases element with
      | method info => exact h.ownLevels owner
      | _ => rfl

/-- **The levels are the same declarations in the same order.** -/
theorem levels (options : BuildOptions) (id : DeclId) :
    moved.levels options (σ id) = (env.levels options id).map σ := by
  rw [Environment.levels, Environment.levels, h.model.declaration?]
  split
  · cases env.model.declaration? id <;> rfl
  · rw [h.ownLevels, h.inheritedTypeLevels, List.map_append]
    split <;> rfl

end Environment.SameShape

end AnnotationResolution
