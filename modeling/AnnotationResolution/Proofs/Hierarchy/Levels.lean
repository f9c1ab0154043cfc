import AnnotationResolution.Hierarchy.Levels
import AnnotationResolution.Proofs.DepthFirst

/-!
# The order of the levels

The levels of a declaration end with the declaration itself (`exists_levels_eq_append`).  For a type
they are its hierarchy (`levels_of_isType`).  For a method or a parameter those of the overridden
methods stand right before it, in the order in which the methods are found: the nearest one first,
and so farthest from the declaration (`exists_levels_eq_overridden`).
-/

namespace AnnotationResolution.Environment

variable {env : Environment} {id : DeclId} {d : Declaration}

variable (env) in
/-- The methods that a method overrides, or the parameters at the place of a parameter in the
methods that its own overrides.  The nearest comes first. -/
def overriddenDeclarations (id : DeclId) : List DeclId :=
  match (env.model.declaration? id).map Declaration.element with
  | some (.method info) => if info.overrides then env.overriddenMethods id else []
  | some (.parameter info) =>
    if (env.model.methodInfo? info.method).any MethodInfo.overrides then
      (env.overriddenMethods info.method).filterMap (env.model.parameterAt? · info.index)
    else []
  | _ => []

variable (env) in
/-- Those of the overridden declarations that count: all of them or none. -/
def overriddenLevels (options : BuildOptions) (id : DeclId) : List DeclId :=
  if options.declaredOnly then [] else env.overriddenDeclarations id

theorem ownLevels_eq_overridden (hd : env.model.declaration? id = some d)
    (hk : d.kind = .method ∨ d.kind = .parameter) :
    env.ownLevels id = env.overriddenDeclarations id ++ [id] := by
  rw [ownLevels, overriddenDeclarations, hd, Option.map_some]
  dsimp only
  cases he : d.element with
  | method info => rfl
  | parameter info =>
    dsimp only
    split
    · rfl
    · rfl
  | _ =>
    rw [Declaration.kind, he] at hk
    rcases hk with hk | hk <;> cases hk

/-- A type has the levels of its hierarchy, if any but itself count. -/
theorem levels_of_isType (hd : env.model.declaration? id = some d) (ht : d.isType = true)
    (options : BuildOptions) :
    env.levels options id = if options.declaredOnly then [id] else env.typeHierarchy id := by
  obtain ⟨name, declaringType, annotations, element⟩ := d
  cases element with
  | type info =>
    have howner : env.inheritedTypeLevels id = [] := by
      rw [inheritedTypeLevels, hd]
      cases declaringType <;> rfl
    rw [levels, hd, ownLevels, hd, howner, ite_self]
    rfl
  | _ => cases ht

/-- The simplest hierarchy: a type without a superclass, and above it interfaces without any. -/
theorem levels_of_interfaces {above : List DeclId} (hd : env.model.declaration? id = some d)
    (ht : d.isType = true) (hplain : d.isAnnotationType = false)
    (hs : env.model.superType? id = none) (hi : env.interfaces id = above)
    (htop : ∀ interface ∈ above, env.interfaces interface = []) (hnodup : (id :: above).Nodup) :
    env.levels {} id = above.reverse ++ [id] := by
  obtain ⟨hid, hnodup⟩ := List.nodup_cons.mp hnodup
  have hsuper : env.model.superclasses id = [] := by
    rw [Model.superclasses]
    dsimp only
    rw [hs]
    exact walkOrder_nil [id]
  have hclosure : env.interfaceClosure id [id] = above := by
    show walkOrder env.model.ids env.interfaces (env.interfaces id) [id] = above
    rw [hi]
    refine walkOrder_eq_self htop hnodup fun interface hm h => ?_
    rw [List.mem_singleton] at h
    exact hid (h ▸ hm)
  have hancestors : env.typeAncestors id = above := by
    rw [typeAncestors, hsuper, hclosure]
    rfl
  rw [levels_of_isType hd ht, typeHierarchy, hd, Option.any_some, hplain, hancestors]
  exact List.reverse_cons

theorem exists_levels_eq_append (hd : env.model.declaration? id = some d) (options : BuildOptions) :
    ∃ outer, env.levels options id = outer ++ [id] := by
  have hown : ∃ outer, env.ownLevels id = outer ++ [id] := by
    rw [ownLevels, hd]
    dsimp only
    split
    · rw [typeHierarchy]
      split
      · exact ⟨[], rfl⟩
      · exact ⟨(env.typeAncestors id).reverse, List.reverse_cons⟩
    · exact ⟨_, rfl⟩
    · exact ⟨_, rfl⟩
    all_goals exact ⟨[], rfl⟩
  rw [levels]
  split
  · exact ⟨[], by rw [hd]; rfl⟩
  · obtain ⟨outer, ho⟩ := hown
    exact ⟨_ ++ outer, by rw [ho, List.append_assoc]⟩

theorem exists_levels_eq_overridden (hd : env.model.declaration? id = some d)
    (hk : d.kind = .method ∨ d.kind = .parameter) (options : BuildOptions) :
    ∃ outer, env.levels options id = outer ++ env.overriddenLevels options id ++ [id] := by
  rw [levels, overriddenLevels]
  by_cases ho : options.declaredOnly
  · rw [if_pos ho, if_pos ho, hd]
    exact ⟨[], rfl⟩
  · rw [if_neg ho, if_neg ho, ownLevels_eq_overridden hd hk, ← List.append_assoc]
    exact ⟨_, rfl⟩

end AnnotationResolution.Environment
