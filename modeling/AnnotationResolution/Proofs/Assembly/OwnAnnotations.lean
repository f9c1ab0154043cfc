import AnnotationResolution.Proofs.Assembly.Repeated
import AnnotationResolution.Proofs.Hierarchy.Overrides
import AnnotationResolution.Proofs.Model.Linked

/-!
# A method's own annotations

The levels of a method end with the method, and it should be among them once.  It is there a second
time if it overrides itself.  Interfaces never make it do so; a superclass does if it lists the method
as one of its own (`OverridesItself`).  Where the lists of a model and the owners that its
declarations name fit together, no class lists the method of another one
(`not_overridesItself_of_linked`), but the loader does not ask for that.

* `mem_overriddenMethods_self_iff`: which methods override themselves.
* `count_levels`: how often a method is among its levels.
* `filter_occurrences_own`, `filter_instances_declared`: so often its annotations are taken up.
-/

namespace AnnotationResolution

namespace Environment

variable {env : Environment} {id : DeclId} {d : Declaration}

/-! ## Methods that override themselves -/

variable (env) in
/-- A superclass that is searched lists the method itself, which is not private, and its parameters
match its own once they are seen from the type that declares it. -/
def OverridesItself (method : DeclId) : Prop :=
  ∃ target, env.model.overriding? method = some target ∧
    ∃ c ∈ env.passedSuperclasses target ++ (env.chainStart? target).toList,
      env.FoundOnClass target c method

/-- **A method overrides itself on account of a superclass only.** -/
theorem mem_overriddenMethods_self_iff (method : DeclId) :
    method ∈ env.overriddenMethods method ↔ env.OverridesItself method := by
  cases ht : env.model.overriding? method with
  | some target =>
    rw [mem_overriddenMethods_iff ht, OverridesItself, ht]
    simp only [Option.some_inj, exists_eq_left']
    refine or_iff_right ?_
    rintro ⟨c, -, hne, -⟩
    exact hne (Model.method_of_overriding? ht).symm
  | none =>
    rw [overriddenMethods_of_overriding?_eq_none ht, OverridesItself, ht]
    simp

/-- **In a model whose lists and owners fit together none overrides itself.** -/
theorem not_overridesItself_of_linked (h : env.model.Linked) (method : DeclId) :
    ¬ env.OverridesItself method := by
  rintro ⟨target, ht, c, hc, hmatch, -⟩
  obtain ⟨d, hd, origin, horigin, rfl⟩ := Model.overriding?_eq_some_iff.mp ht
  have hne : c ≠ origin := by
    rintro rfl
    exact (List.nodup_cons.mp (isOverrideWalk env _).nodup).1 hc
  -- The superclass lists the method, so it is the type that declares it.
  have howner := h.declaringType_of_mem_methodsNamed hd hmatch.listed
  exact hne (Option.some.inj (howner.symm.trans horigin))

/-! ## How often a method is among its levels -/

theorem notMem_inheritedTypeLevels (hm : env.model.Accepted)
    (hd : env.model.declaration? id = some d) (hk : d.kind = .method) :
    id ∉ env.inheritedTypeLevels id := by
  intro hmem
  rw [inheritedTypeLevels, hd] at hmem
  obtain ⟨name, declaringType, annotations, element⟩ := d
  cases element with
  | method info =>
    cases declaringType with
    | none => cases hmem
    | some owner =>
      obtain ⟨o, ho, ht⟩ := Model.isType_iff.mp (hm.isType_of_declaringType hd rfl)
      have hlevel : id ∈ env.levels {} owner := hmem
      obtain ⟨d', hd', ht'⟩ := Model.isType_iff.mp (isType_of_mem_levels hm ho ht hlevel)
      rw [hd] at hd'
      obtain rfl := Option.some.inj hd'
      cases ht'
  | _ => cases hk

theorem overriddenLevels_of_method (hd : env.model.declaration? id = some d) {info : MethodInfo}
    (he : d.element = .method info) (options : BuildOptions) :
    env.overriddenLevels options id =
      if options.declaredOnly = false ∧ info.overrides = true then env.overriddenMethods id
      else [] := by
  rw [overriddenLevels, overriddenDeclarations, hd, Option.map_some, he]
  dsimp only
  cases options.declaredOnly <;> cases info.overrides <;> rfl

variable (env) in
/-- A method that is marked as overriding counts as overridden by itself. -/
def CountsItself (options : BuildOptions) (method : DeclId) : Prop :=
  (options.declaredOnly = false ∧ ∃ info, env.model.methodInfo? method = some info ∧
    info.overrides = true) ∧ env.OverridesItself method

theorem mem_overriddenLevels_self_iff (hd : env.model.declaration? id = some d) {info : MethodInfo}
    (he : d.element = .method info) (options : BuildOptions) :
    id ∈ env.overriddenLevels options id ↔ env.CountsItself options id := by
  have hinfo : env.model.methodInfo? id = some info := by
    rw [Model.methodInfo?, hd, Option.bind_some, Declaration.methodInfo?, he]
  rw [overriddenLevels_of_method hd he, CountsItself, hinfo, ← mem_overriddenMethods_self_iff]
  simp only [Option.some_inj, exists_eq_left']
  split
  · next h => rw [and_iff_right h]
  · next h => exact iff_of_false List.not_mem_nil fun hboth => h hboth.1

/-- **A method is the last of its levels, and among the others once if it is overridden by itself.** -/
theorem count_levels (hm : env.model.Accepted) (hd : env.model.declaration? id = some d)
    {info : MethodInfo} (he : d.element = .method info) (options : BuildOptions) :
    (env.levels options id).count id = if id ∈ env.overriddenLevels options id then 2 else 1 := by
  have hk : d.kind = .method := by rw [Declaration.kind, he, Element.kind]
  have hlevels : ∃ inherited, id ∉ inherited ∧
      env.levels options id = inherited ++ (env.overriddenLevels options id ++ [id]) := by
    rw [levels, overriddenLevels]
    by_cases ho : options.declaredOnly = true
    · rw [if_pos ho, if_pos ho, hd]
      exact ⟨[], List.not_mem_nil, rfl⟩
    · rw [if_neg ho, if_neg ho, ownLevels_eq_overridden hd (Or.inl hk)]
      refine ⟨_, ?_, rfl⟩
      split
      · exact notMem_inheritedTypeLevels hm hd hk
      · exact List.not_mem_nil
  obtain ⟨inherited, hnone, hall⟩ := hlevels
  have hnodup : (env.overriddenLevels options id).Nodup := by
    rw [overriddenLevels_of_method hd he]
    split
    · exact nodup_overriddenMethods id
    · exact .nil
  rw [hall, List.count_append, List.count_append, List.count_eq_zero.mpr hnone,
    List.count_singleton_self, hnodup.count]
  split <;> rfl

/-! ## How often its annotations are taken up -/

theorem filter_flatMap_eq_flatten {β : Type} {p : β → Bool} {on : DeclId → List β} (id : DeclId)
    (hself : ∀ b ∈ on id, p b = true) (hother : ∀ level, level ≠ id → ∀ b ∈ on level, p b = false)
    (levels : List DeclId) :
    (levels.flatMap on).filter p = (List.replicate (levels.count id) (on id)).flatten := by
  induction levels with
  | nil => rfl
  | cons level rest ih =>
    rw [List.flatMap_cons, List.filter_append, ih]
    by_cases h : level = id
    · subst h
      rw [List.filter_eq_self.mpr hself, List.count_cons_self, List.replicate_succ,
        List.flatten_cons]
    · have hnone : (on level).filter p = [] :=
        List.filter_eq_nil_iff.mpr fun b hb => by simp [hother level h b hb]
      rw [hnone, List.nil_append, List.count_cons_of_ne h]

variable (target : BuildTarget) (options : BuildOptions)

theorem filter_occurrences_own :
    (env.occurrences options target).filter (·.level = target.id) =
      (List.replicate ((env.levels options target.id).count target.id)
        (env.occurrencesOn target target.id)).flatten := by
  have hlevel : ∀ level, ∀ o ∈ env.occurrencesOn target level, o.level = level := by
    intro level o ho
    rw [occurrencesOn_eq] at ho
    obtain ⟨a, -, ho⟩ := List.mem_flatMap.mp ho
    obtain ⟨application, -, rfl⟩ := List.mem_map.mp ho
    rfl
  rw [occurrences, filter_flatMap_eq_flatten target.id, List.count_reverse]
  · exact fun o ho => decide_eq_true (hlevel _ o ho)
  · exact fun level hne o ho => decide_eq_false (hlevel _ o ho ▸ hne)

variable (env) in
def ownInstances (annotationType : String) : List RepeatedInstance :=
  (env.applicationsOn target annotationType target.id).map
    (env.instanceOf target annotationType target.id)

theorem filter_instances_declared (annotationType : String) :
    (env.instances options target annotationType).filter (·.source = .declared) =
      (List.replicate ((env.levels options target.id).count target.id)
        (env.ownInstances target annotationType)).flatten := by
  have hsource : ∀ level, ∀ i ∈ (env.applicationsOn target annotationType level).map
      (env.instanceOf target annotationType level), i.source = sourceOf target level := by
    intro level i hi
    obtain ⟨a, -, rfl⟩ := List.mem_map.mp hi
    rfl
  rw [instances, filter_flatMap_eq_flatten target.id, List.count_reverse, ownInstances]
  · intro i hi
    rw [hsource _ i hi, sourceOf, if_pos rfl]
    rfl
  · intro level hne i hi
    rw [hsource _ i hi, sourceOf, if_neg hne]
    rfl

/-- **A method's own annotations are taken up once, and twice if it is overridden by itself.** -/
theorem build_own_annotations (hm : env.model.Accepted) {cache : DefaultCache}
    (hc : cache.UsedWith env) (validator : Option Validator)
    (hd : env.model.declaration? id = some d) {info : MethodInfo} (he : d.element = .method info) :
    (env.overriddenMethods id).Nodup ∧
    (id ∈ env.overriddenMethods id ↔ env.OverridesItself id) ∧
    ∃ times, (times = 2 ∧ env.CountsItself options id ∨
        times = 1 ∧ ¬ env.CountsItself options id) ∧
      (∃ outer, env.levels options id = outer ++ [id]) ∧
      (env.levels options id).count id = times ∧
      (env.occurrences options ⟨id, d⟩).filter (·.level = id) =
        (List.replicate times (env.occurrencesOn ⟨id, d⟩ id)).flatten ∧
      ∃ result, env.build validator cache options id = .ok result ∧
        ∀ annotationType container, env.repeatableContainer? annotationType = some container →
          ((result.metadata.repeated.get? annotationType).elim [] RepeatedEntry.instances).filter
              (·.source = .declared) =
            (List.replicate times (env.ownInstances ⟨id, d⟩ annotationType)).flatten := by
  have hcount := count_levels hm hd he options
  have hself := mem_overriddenLevels_self_iff hd he options
  obtain ⟨result, hr, hmd⟩ := exists_build validator options hd hc
  refine ⟨nodup_overriddenMethods id, mem_overriddenMethods_self_iff id,
    (env.levels options id).count id, ?_, exists_levels_eq_append hd options, rfl,
    filter_occurrences_own ⟨id, d⟩ options, result, hr, ?_⟩
  · rw [hcount, ← hself]
    split
    · next h => exact Or.inl ⟨rfl, h⟩
    · next h => exact Or.inr ⟨rfl, h⟩
  · intro annotationType container ha
    rw [hmd, get?_repeated_metadata_eq options ⟨id, d⟩ hm ha,
      ← filter_instances_declared ⟨id, d⟩ options annotationType]
    split
    · next hnone =>
      rw [hnone]
      rfl
    · rfl

/-- A class and its superclass that list the same method.  It has one application of `a.Role`. -/
def sharedMethod : Environment where
  config := {}
  model :=
    { declarations := #[
        ⟨"a.Role", none,
          [⟨"java.lang.annotation.Repeatable",
            ⟨[("value", .typeLiteral (.named "a.Roles" []))]⟩⟩], .type { kind := .annotationType }⟩,
        ⟨"a.Roles", none, [], .type { kind := .annotationType }⟩,
        ⟨"a.Base", none, [], .type { methods := [⟨4⟩] }⟩,
        ⟨"a.Service", none, [],
          .type { superType := some (.named "a.Base" []), methods := [⟨4⟩] }⟩,
        ⟨"run", some ⟨3⟩, [⟨"a.Role", ∅⟩], .method { overrides := true }⟩]
      types := ⟨[("a.Role", ⟨0⟩), ("a.Roles", ⟨1⟩), ("a.Base", ⟨2⟩), ("a.Service", ⟨3⟩)]⟩ }

theorem accepted_sharedMethod : sharedMethod.model.Accepted := by
  have hload : Model.ofDeclarations sharedMethod.model.declarations.toList =
      .ok sharedMethod.model := rfl
  exact Model.accepted_of_load hload (by decide)

theorem countsItself_sharedMethod : sharedMethod.CountsItself {} ⟨4⟩ := by
  let target : Overriding := ⟨⟨4⟩, "run", ⟨3⟩, []⟩
  have h3 : sharedMethod.model.superType? ⟨3⟩ = some ⟨2⟩ := by decide
  have h2 : sharedMethod.model.superType? ⟨2⟩ = none := rfl
  have hids : sharedMethod.model.ids = [⟨0⟩, ⟨1⟩, ⟨2⟩, ⟨3⟩, ⟨4⟩] := rfl
  have hsuper : sharedMethod.model.superclasses ⟨3⟩ = [⟨2⟩] := by
    simp [Model.superclasses, depthFirst, freshKeys, h3, h2, hids]
  have hpassed : sharedMethod.passedSuperclasses target = [⟨2⟩] := by
    rw [passedSuperclasses, superclassesBelowRoot, hsuper]
    rfl
  have hfound : sharedMethod.FoundOnClass target ⟨2⟩ ⟨4⟩ :=
    mem_superclassMatches_iff.mp (List.mem_singleton_self _)
  refine ⟨⟨rfl, _, rfl, rfl⟩, target, rfl, ⟨2⟩, ?_, hfound⟩
  rw [hpassed]
  exact List.mem_append_left _ (List.mem_singleton_self _)

/-- The method overrides itself and is twice among its levels. -/
theorem overrides_itself_sharedMethod :
    sharedMethod.model.Accepted ∧
      (⟨4⟩ : DeclId) ∈ sharedMethod.overriddenMethods ⟨4⟩ ∧
      (sharedMethod.levels {} ⟨4⟩).count ⟨4⟩ = 2 := by
  have hd : sharedMethod.model.declaration? ⟨4⟩ = some _ := rfl
  refine ⟨accepted_sharedMethod, ?_, ?_⟩
  · exact (mem_overriddenMethods_self_iff ⟨4⟩).mpr countsItself_sharedMethod.2
  · rw [count_levels accepted_sharedMethod hd rfl]
    exact if_pos ((mem_overriddenLevels_self_iff hd rfl {}).mpr countsItself_sharedMethod)

/-- So the one application of `a.Role` is twice in its metadata. -/
theorem build_own_annotations_sharedMethod :
    ∃ result, sharedMethod.build none {} {} ⟨4⟩ = .ok result ∧
      ((result.metadata.repeated.get? "a.Role").elim [] RepeatedEntry.instances).filter
        (·.source = .declared) = [⟨.declared, ∅⟩, ⟨.declared, ∅⟩] := by
  have hd : sharedMethod.model.declaration? ⟨4⟩ = some _ := rfl
  have ha : sharedMethod.repeatableContainer? "a.Role" = some "a.Roles" := by decide
  obtain ⟨-, -, times, htimes, -, -, -, result, hr, hinstances⟩ :=
    build_own_annotations {} accepted_sharedMethod .new none hd rfl
  obtain ⟨rfl, -⟩ := htimes.resolve_right fun h => h.2 countsItself_sharedMethod
  exact ⟨result, hr, hinstances "a.Role" "a.Roles" ha⟩

end Environment

end AnnotationResolution
