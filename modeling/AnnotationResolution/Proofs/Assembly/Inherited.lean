import AnnotationResolution.Proofs.Assembly.Entries
import AnnotationResolution.Proofs.Hierarchy.Ancestors

/-!
# Annotations that are marked as inherited

When the marker is required, an annotation on an ancestor type counts only if its type carries the
marker.  The filter looks at what is written on a level, and it leaves out the type that declares the
target.  So there are two ways past it: an annotation on a declaring type that is an ancestor as
well, and an annotation inside a container, for which only the container has to be marked
(`EscapesMarker`).

* `exists_occurrence_of_hasInherited`: what the metadata has as inherited was met on another level.
* `isInherited_or_escapes`: an annotation that was met there is marked, or it went past the filter.
* `hasInherited_of_escapes`: what goes past the filter is recorded, unless the target itself has an
  annotation of this type.
-/

namespace AnnotationResolution

/-- Something of the annotation type was inherited: its merged annotation, one of the values in it,
or one of its applications. -/
def Metadata.HasInherited (md : Metadata) (annotationType : String) : Prop :=
  (∃ entry, md.annotations.get? annotationType = some entry ∧
    (entry.source = .inherited ∨
      ∃ member v, entry.values.get? member = some v ∧ v.source = .inherited)) ∨
  ∃ entry, md.repeated.get? annotationType = some entry ∧
    ∃ use ∈ entry.instances, use.source = .inherited

namespace Environment

variable {env : Environment} {options : BuildOptions} {target : BuildTarget} {name : String}

theorem isInherited_iff : env.isInherited name = true ↔
    ∃ ty, env.model.typeNamed? name = some ty ∧
      ∃ a ∈ env.model.annotations ty, a.annotationType = env.config.inheritedAnnotation := by
  rw [isInherited, marker?]
  cases env.model.typeNamed? name with
  | none => simp
  | some ty => simp [Model.annotationsOfType]

/-! ## What is inherited was met on another level -/

theorem exists_occurrence_of_hasInherited (hm : env.model.Accepted)
    (h : (env.metadata options target).HasInherited name) :
    ∃ o ∈ env.occurrences options target,
      o.applied.annotationType = name ∧ o.source = .inherited := by
  rcases h with ⟨entry, he, hs⟩ | ⟨entry, he, use, hu, hs⟩
  · rw [get?_annotations_metadata] at he
    obtain ⟨pending, hp, rfl⟩ := Option.map_eq_some_iff.mp he
    obtain ⟨⟨first, hf, hfirst⟩, hv⟩ :=
      of_get?_annotations_collectAll (fun o ho => namesDistinct_of_mem_occurrences hm ho) hp
    have hmerged : ∀ o ∈ (env.occurrences options target).filter (·.mergesInto name),
        o ∈ env.occurrences options target ∧ o.applied.annotationType = name := by
      intro o ho
      obtain ⟨ho, hn⟩ := List.mem_filter.mp ho
      exact ⟨ho, eq_of_beq (Bool.and_eq_true_iff.mp hn).2⟩
    rcases hs with hs | ⟨member, v, hvalue, hs⟩
    · obtain ⟨ho, hn⟩ := hmerged first (List.mem_of_head? hf)
      exact ⟨first, ho, hn, hfirst.symm.trans hs⟩
    · replace hvalue : (fillDefaults (env.namedDefaults name) pending.values).get? member =
          some v := hvalue
      rw [get?_fillDefaults, Option.or_eq_some_iff] at hvalue
      rcases hvalue with hvalue | ⟨-, hdefault⟩
      · rw [hv] at hvalue
        obtain ⟨o, ho, hov⟩ := List.exists_of_findSome?_eq_some hvalue
        obtain ⟨value, -, rfl⟩ := Option.map_eq_some_iff.mp hov
        obtain ⟨ho, hn⟩ := hmerged o ho
        exact ⟨o, ho, hn, hs⟩
      · -- A default has a source of its own.
        obtain ⟨value, -, rfl⟩ := Option.map_eq_some_iff.mp hdefault
        cases hs
  · rw [get?_repeated_metadata, get?_repeated_collectAll] at he
    obtain ⟨pending, hp, rfl⟩ := Option.map_eq_some_iff.mp he
    obtain ⟨first, -, rfl⟩ := Option.map_eq_some_iff.mp hp
    obtain ⟨recorded, hr, rfl⟩ := List.mem_map.mp hu
    obtain ⟨o, ho, rfl⟩ := List.mem_map.mp hr
    obtain ⟨ho, hn⟩ := List.mem_filter.mp ho
    exact ⟨o, ho, eq_of_beq (Bool.and_eq_true_iff.mp hn).2, hs⟩

/-! ## The ways past the filter -/

variable (env options target name) in
/-- An annotation of this type counts without a look at its marker: it is on the type that declares
the target, or in a container on some other level than the target. -/
def EscapesMarker : Prop :=
  ∃ level ∈ env.levels options target.id, level ≠ target.id ∧
    ∃ a ∈ env.keptAnnotations target level, ∃ application ∈ env.applications a,
      application.1.annotationType = name ∧
        (some level = target.declaration.declaringType ∨ (env.containerItems? a).isSome = true)

theorem isInherited_or_escapes (hrequired : env.config.requireInheritedMarker = true)
    (htypes : ∀ level ∈ env.levels options target.id, env.model.isType level = true)
    {o : Occurrence} (ho : o ∈ env.occurrences options target) (hs : o.source = .inherited) :
    env.isInherited o.applied.annotationType = true ∨
      env.EscapesMarker options target o.applied.annotationType := by
  obtain ⟨level, hl, a, ha, application, happ, rfl⟩ := mem_occurrences_iff.mp ho
  have hne : level ≠ target.id := by
    rintro rfl
    rw [sourceOf, if_pos rfl] at hs
    cases hs
  by_cases howner : some level = target.declaration.declaringType
  · exact Or.inr ⟨level, hl, hne, a, ha, application, happ, rfl, Or.inl howner⟩
  · have hancestor : env.isAncestorType target level = true := by
      simp [isAncestorType, hne, howner, htypes level hl]
    have hmarked : env.isInherited a.annotationType = true := by
      have hpass := (Bool.and_eq_true_iff.mp (List.mem_filter.mp ha).2).2
      rw [passesInheritance, hancestor, hrequired] at hpass
      simpa using hpass
    cases hc : env.containerItems? a with
    | some items =>
      exact Or.inr ⟨level, hl, hne, a, ha, application, happ, rfl, Or.inr (by rw [hc]; rfl)⟩
    | none =>
      rw [applications, hc] at happ
      obtain rfl := List.mem_singleton.mp happ
      exact Or.inl hmarked

theorem hasInherited_of_repeats {o : Occurrence} (ho : o ∈ env.occurrences options target)
    (hr : o.repeats name = true) (hs : o.source = .inherited) :
    (env.metadata options target).HasInherited name := by
  right
  obtain ⟨hsome, htype⟩ := Bool.and_eq_true_iff.mp hr
  obtain ⟨container, hc⟩ := Option.isSome_iff_exists.mp hsome
  obtain ⟨repeated, hget, -, -, use, hu, hsource⟩ :=
    exists_repeated_of_mem_occurrences env.namedDefaults ho hc
  exact ⟨repeated, eq_of_beq htype ▸ hget, use, hu, hsource.trans hs⟩

theorem hasInherited_of_mergesInto (hm : env.model.Accepted) {o : Occurrence}
    (ho : o ∈ env.occurrences options target) (hmerge : o.mergesInto name = true)
    (hown : env.plainOn target name target.id = []) :
    (env.metadata options target).HasInherited name := by
  left
  have hmem : o ∈ (env.occurrences options target).filter (·.mergesInto name) :=
    List.mem_filter.mpr ⟨ho, hmerge⟩
  have hcollected : name ∈ (env.collectAll (env.occurrences options target)).annotations.names :=
    mem_names_annotations_collectAll.mpr (List.ne_nil_of_mem hmem)
  obtain ⟨pending, hp⟩ := Members.exists_get?_of_mem_names hcollected
  obtain ⟨⟨first, hf, hfirst⟩, -⟩ :=
    of_get?_annotations_collectAll (fun o ho => namesDistinct_of_mem_occurrences hm ho) hp
  -- The first occurrence settles the source, and it is not on the target.
  obtain ⟨hfo, hfm⟩ := List.mem_filter.mp (List.mem_of_head? hf)
  obtain ⟨hplain, hsource⟩ := mem_plainOn_of_mergesInto hfo hfm
  have hne : first.level ≠ target.id := by
    intro he
    rw [he, hown] at hplain
    cases hplain
  refine ⟨_, by rw [get?_annotations_metadata, hp]; rfl, Or.inl ?_⟩
  show pending.source = .inherited
  rw [hfirst, hsource, sourceOf, if_neg hne]

theorem hasInherited_of_escapes (hm : env.model.Accepted)
    (h : env.EscapesMarker options target name) (hown : env.plainOn target name target.id = []) :
    (env.metadata options target).HasInherited name := by
  obtain ⟨level, hl, hne, a, ha, application, happ, rfl, -⟩ := h
  have ho := mem_occurrences_iff.mpr ⟨level, hl, a, ha, application, happ, rfl⟩
  cases hc : application.2 with
  | some container =>
    exact hasInherited_of_repeats ho (by simp [Occurrence.repeats, hc]) (if_neg hne)
  | none => exact hasInherited_of_mergesInto hm ho (by simp [Occurrence.mergesInto, hc]) hown

/-! ## A build -/

/-- **What a type inherits is marked, or went past the filter.**  And what goes past it is inherited,
unless the type itself has such an annotation. -/
theorem build_inherits_marked (hm : env.model.Accepted)
    (hrequired : env.config.requireInheritedMarker = true) {cache : DefaultCache}
    (hc : cache.UsedWith env) (validator : Option Validator) (options : BuildOptions) {id : DeclId}
    {d : Declaration}
    (hd : env.model.declaration? id = some d) (ht : d.isType = true) :
    ∃ result, env.build validator cache options id = .ok result ∧
      (∀ name, result.metadata.HasInherited name → ¬ env.EscapesMarker options ⟨id, d⟩ name →
        ∃ ty, env.model.typeNamed? name = some ty ∧
          ∃ a ∈ env.model.annotations ty, a.annotationType = env.config.inheritedAnnotation) ∧
      ∀ name, env.EscapesMarker options ⟨id, d⟩ name → env.plainOn ⟨id, d⟩ name id = [] →
        result.metadata.HasInherited name := by
  obtain ⟨result, hr, hmd⟩ := exists_build validator options hd hc
  have htypes : ∀ level ∈ env.levels options id, env.model.isType level = true :=
    fun _ => isType_of_mem_levels hm hd ht
  refine ⟨result, hr, fun name hi he => ?_, fun name he hown => ?_⟩
  · rw [hmd] at hi
    obtain ⟨o, ho, rfl, hs⟩ := exists_occurrence_of_hasInherited hm hi
    rcases isInherited_or_escapes hrequired htypes ho hs with hmarked | hescapes
    · exact isInherited_iff.mp hmarked
    · exact absurd hescapes he
  · rw [hmd]
    exact hasInherited_of_escapes hm he hown

/-- A class inside the class that it extends, and a class above them with a container.  Of their
annotations only `a.Tracked` and the container `a.Roles` are marked as inherited. -/
def nested : Environment where
  config := { requireInheritedMarker := true }
  model :=
    { declarations := #[
        ⟨"a.Named", none, [], .type { kind := .annotationType }⟩,
        ⟨"a.Tracked", none, [⟨"java.lang.annotation.Inherited", ∅⟩],
          .type { kind := .annotationType }⟩,
        ⟨"a.Role", none,
          [⟨"java.lang.annotation.Repeatable",
            ⟨[("value", .typeLiteral (.named "a.Roles" []))]⟩⟩],
          .type { kind := .annotationType }⟩,
        ⟨"a.Roles", none, [⟨"java.lang.annotation.Inherited", ∅⟩],
          .type { kind := .annotationType }⟩,
        ⟨"a.Base", none,
          [⟨"a.Named", ∅⟩, ⟨"a.Tracked", ∅⟩,
            ⟨"a.Roles", ⟨[("value", .list [.nested ⟨"a.Role", ∅⟩])]⟩⟩],
          .type {}⟩,
        ⟨"a.Outer", none, [⟨"a.Named", ∅⟩], .type { superType := some (.named "a.Base" []) }⟩,
        ⟨"a.Outer.Inner", some ⟨5⟩, [], .type { superType := some (.named "a.Outer" []) }⟩]
      types := ⟨[("a.Named", ⟨0⟩), ("a.Tracked", ⟨1⟩), ("a.Role", ⟨2⟩), ("a.Roles", ⟨3⟩),
        ("a.Base", ⟨4⟩), ("a.Outer", ⟨5⟩), ("a.Outer.Inner", ⟨6⟩)]⟩ }

theorem accepted_nested : nested.model.Accepted := by
  have hload : Model.ofDeclarations nested.model.declarations.toList = .ok nested.model := rfl
  exact Model.accepted_of_load hload (by decide)

theorem levels_nested : nested.levels {} ⟨6⟩ = [⟨4⟩, ⟨5⟩, ⟨6⟩] := by
  have h6 : nested.model.superType? ⟨6⟩ = some ⟨5⟩ := by decide
  have h5 : nested.model.superType? ⟨5⟩ = some ⟨4⟩ := by decide
  have h4 : nested.model.superType? ⟨4⟩ = none := rfl
  have hids : nested.model.ids = [⟨0⟩, ⟨1⟩, ⟨2⟩, ⟨3⟩, ⟨4⟩, ⟨5⟩, ⟨6⟩] := rfl
  have hsuper : nested.model.superclasses ⟨6⟩ = [⟨5⟩, ⟨4⟩] := by
    simp [Model.superclasses, depthFirst, freshKeys, h6, h5, h4, hids]
  have hi : ∀ id ∈ ([⟨4⟩, ⟨5⟩, ⟨6⟩] : List DeclId), nested.interfaces id = [] := by decide
  have hclosure : ∀ id ∈ ([⟨4⟩, ⟨5⟩, ⟨6⟩] : List DeclId), ∀ seen,
      nested.interfaceClosure id seen = [] := by
    intro id hid seen
    rw [interfaceClosure_eq, hi id hid, walkOrder_nil]
  have hlineage : nested.lineage ⟨6⟩ = [⟨6⟩, ⟨5⟩, ⟨4⟩] := by
    rw [lineage, hsuper]
    decide
  rw [levels_of_isType rfl rfl, if_neg (by decide), typeHierarchy_eq nested rfl rfl, hlineage]
  simp [withClass, addNew, hclosure]

theorem escapesMarker_nested {d : Declaration} (hd : nested.model.declaration? ⟨6⟩ = some d) :
    nested.EscapesMarker {} ⟨⟨6⟩, d⟩ "a.Named" ∧ nested.EscapesMarker {} ⟨⟨6⟩, d⟩ "a.Role" := by
  obtain rfl := Option.some.inj hd
  constructor
  · exact ⟨⟨5⟩, by simp [levels_nested], by decide, ⟨"a.Named", ∅⟩, List.mem_cons_self,
      (⟨"a.Named", ∅⟩, none), List.mem_cons_self, rfl, Or.inl rfl⟩
  · let roles : AnnotationInstance := ⟨"a.Roles", ⟨[("value", .list [.nested ⟨"a.Role", ∅⟩])]⟩⟩
    exact ⟨⟨4⟩, by simp [levels_nested], by decide, roles, List.mem_cons_of_mem _ List.mem_cons_self,
      (⟨"a.Role", ∅⟩, some "a.Roles"), List.mem_cons_self, rfl, Or.inr rfl⟩

/-- Two annotation types that are inherited without the marker. -/
theorem unmarked_inherited_by_nested :
    nested.model.Accepted ∧ nested.config.check = .ok () ∧
      nested.config.requireInheritedMarker = true ∧
      ∃ d, nested.model.declaration? ⟨6⟩ = some d ∧ d.isType = true ∧
        ∃ result, nested.build none {} {} ⟨6⟩ = .ok result ∧
          (result.metadata.HasInherited "a.Named" ∧ nested.isInherited "a.Named" = false) ∧
          result.metadata.HasInherited "a.Role" ∧ nested.isInherited "a.Role" = false := by
  have hd : nested.model.declaration? ⟨6⟩ = some _ := rfl
  obtain ⟨result, hr, hmd⟩ := exists_build none {} hd .new
  obtain ⟨hnamed, hrole⟩ := escapesMarker_nested hd
  refine ⟨accepted_nested, rfl, rfl, _, hd, rfl, result, hr, ⟨?_, by decide⟩, ?_, by decide⟩
  · rw [hmd]
    exact hasInherited_of_escapes accepted_nested hnamed (by decide)
  · rw [hmd]
    exact hasInherited_of_escapes accepted_nested hrole (by decide)

/-- The class inherits what the class around it has, marked or not. -/
theorem build_inherits_marked_nested :
    ∃ result, nested.build none {} {} ⟨6⟩ = .ok result ∧
      result.metadata.HasInherited "a.Named" ∧ result.metadata.HasInherited "a.Role" := by
  have hd : nested.model.declaration? ⟨6⟩ = some _ := rfl
  obtain ⟨result, hr, -, hescaped⟩ :=
    build_inherits_marked accepted_nested rfl .new none {} hd rfl
  obtain ⟨hnamed, hrole⟩ := escapesMarker_nested hd
  exact ⟨result, hr, hescaped _ hnamed (by decide), hescaped _ hrole (by decide)⟩

end Environment

end AnnotationResolution
