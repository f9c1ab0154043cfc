import AnnotationResolution.Proofs.Assembly.Building
import AnnotationResolution.Proofs.Assembly.MetaUses

/-!
# Stereotypes are what can be reached

The stereotypes of a declaration are the annotations on the annotation types that are reached from
it, whether these carry each other in a circle or not.  `GathersFrom` says what is in one of them:
who its parents are, and that a value that some parent gives goes before the default.

A stereotype is made of its uses on the types that are reached (`usesOf`), and so each part of
`GathersFrom` is a fact about this list of uses.
-/

namespace AnnotationResolution

namespace Environment

variable {env : Environment}

variable (env) in
/-- The stereotype is what the annotation types that are reached from the given names carry. -/
structure GathersFrom (names : List String) (stereotype : StereotypeEntry) : Prop where
  nodup_parents : stereotype.parents.Nodup
  mem_parents_iff : ∀ via, via ∈ stereotype.parents ↔ env.MetaReached names via ∧
    ∃ a, env.Carries via a ∧ a.annotationType = stereotype.entry.annotationType
  /-- No value comes from elsewhere. -/
  source_eq : ∀ member v, stereotype.entry.values.get? member = some v →
    v.source = .stereotype ∨ v.source = .default
  exists_of_stereotype : ∀ member v, stereotype.entry.values.get? member = some v →
    v.source = .stereotype → ∃ via ∈ stereotype.parents, ∃ a, env.Carries via a ∧
      a.annotationType = stereotype.entry.annotationType ∧ env.memberValue? a member = some v.value
  /-- A member that is absent, or has its default, has no value on any parent. -/
  eq_none_of_default : ∀ member,
    (∀ v, stereotype.entry.values.get? member = some v → v.source = .default) →
      ∀ via ∈ stereotype.parents, ∀ a, env.Carries via a →
        a.annotationType = stereotype.entry.annotationType → env.memberValue? a member = none

/-! ## The uses of one stereotype -/

variable (env) in
/-- The uses of one annotation type. -/
def usesOf (names : List String) (name : String) : List MetaUse :=
  (env.metaUses names).filter (·.applied.annotationType == name)

variable {names : List String} {name : String}

theorem exists_mem_usesOf_iff {via : String} {a : AnnotationInstance} :
    (∃ use ∈ env.usesOf names name, use.via = via ∧ use.applied = a) ↔
      env.MetaReached names via ∧ env.Carries via a ∧ a.annotationType = name := by
  simp only [usesOf, List.mem_filter, beq_iff_eq, mem_metaUses_iff, carries_iff]
  constructor
  · rintro ⟨use, ⟨⟨hr, hu⟩, hn⟩, rfl, rfl⟩
    exact ⟨hr, ⟨use, hu, rfl⟩, hn⟩
  · rintro ⟨hr, ⟨use, hu, rfl⟩, hn⟩
    obtain rfl := (mem_metaUsesOn_iff.mp hu).1
    exact ⟨use, ⟨⟨hr, hu⟩, hn⟩, rfl, rfl⟩

variable {defaults : String → Members Value}

variable (env defaults names name) in
/-- The stereotype that these uses make. -/
def gathered : StereotypeEntry :=
  env.stereotypeOf defaults name ((env.usesOf names name).foldl env.withUse {})

theorem mem_parents_gathered {via : String} :
    via ∈ (env.gathered names name defaults).parents ↔
      ∃ use ∈ env.usesOf names name, use.via = via := by
  show via ∈ ((env.usesOf names name).foldl env.withUse {}).parents ↔ _
  rw [mem_parents_foldl]
  exact or_iff_right List.not_mem_nil

theorem get?_values_gathered (hm : env.model.Accepted) (member : String) :
    (env.gathered names name defaults).entry.values.get? member =
      (((env.usesOf names name).findSome? fun use => env.memberValue? use.applied member).map
        (⟨·, .stereotype⟩)).or (((defaults name).get? member).map (⟨·, .default⟩)) := by
  have hn : ∀ use ∈ env.usesOf names name, use.applied.NamesDistinct :=
    fun use hu => namesDistinct_of_mem_metaUses hm (List.mem_filter.mp hu).1
  show (fillDefaults _ ((env.usesOf names name).foldl env.withUse {}).values).get? member = _
  rw [get?_fillDefaults, get?_values_foldl hn]
  exact congrArg (Option.or · _) (Option.none_or)

/-- **What a stereotype gathers.**  The defaults have no part in it. -/
theorem gathersFrom_gathered (hm : env.model.Accepted) :
    env.GathersFrom names (env.gathered names name defaults) where
  nodup_parents := nodup_parents_foldl List.nodup_nil _
  mem_parents_iff via := by
    rw [mem_parents_gathered]
    constructor
    · rintro ⟨use, hu, rfl⟩
      obtain ⟨hr, hc, hn⟩ := exists_mem_usesOf_iff.mp ⟨use, hu, rfl, rfl⟩
      exact ⟨hr, _, hc, hn⟩
    · rintro ⟨hr, a, hc, hn⟩
      obtain ⟨use, hu, hv, -⟩ := exists_mem_usesOf_iff.mpr ⟨hr, hc, hn⟩
      exact ⟨use, hu, hv⟩
  source_eq member v hv := by
    rw [get?_values_gathered hm, Option.or_eq_some_iff] at hv
    rcases hv with hv | ⟨-, hv⟩
    · obtain ⟨value, -, rfl⟩ := Option.map_eq_some_iff.mp hv
      exact Or.inl rfl
    · obtain ⟨value, -, rfl⟩ := Option.map_eq_some_iff.mp hv
      exact Or.inr rfl
  exists_of_stereotype member v hv hs := by
    rw [get?_values_gathered hm, Option.or_eq_some_iff] at hv
    rcases hv with hv | ⟨-, hv⟩
    · obtain ⟨value, hfirst, rfl⟩ := Option.map_eq_some_iff.mp hv
      obtain ⟨use, hu, hvalue⟩ := List.exists_of_findSome?_eq_some hfirst
      obtain ⟨-, hc, hn⟩ := exists_mem_usesOf_iff.mp ⟨use, hu, rfl, rfl⟩
      exact ⟨use.via, mem_parents_gathered.mpr ⟨use, hu, rfl⟩, use.applied, hc, hn, hvalue⟩
    · obtain ⟨value, -, rfl⟩ := Option.map_eq_some_iff.mp hv
      cases hs
  eq_none_of_default member hdefault via hvia a hc hn := by
    obtain ⟨other, ho, rfl⟩ := mem_parents_gathered.mp hvia
    obtain ⟨hr, -⟩ := exists_mem_usesOf_iff.mp ⟨other, ho, rfl, rfl⟩
    obtain ⟨use, hu, -, rfl⟩ := exists_mem_usesOf_iff.mpr ⟨hr, hc, hn⟩
    -- If any use gave a value, then the first one would be there as that of a stereotype.
    cases hfirst : (env.usesOf names name).findSome?
        fun use => env.memberValue? use.applied member with
    | none => exact List.findSome?_eq_none_iff.mp hfirst use hu
    | some value =>
      have hv : (env.gathered names name defaults).entry.values.get? member =
          some ⟨value, .stereotype⟩ := by
        rw [get?_values_gathered hm, hfirst]
        rfl
      cases hdefault _ hv

/-! ## The stereotypes in the metadata -/

variable {options : BuildOptions} {target : BuildTarget}

theorem stereotypes_metadataOf (hon : env.config.stereotypes = true)
    (defaults : String → Members Value) :
    (env.metadataOf defaults (env.assemble options target)).stereotypes =
      (env.pendingStereotypes (env.metaUses
        (env.metadataOf defaults (env.assemble options target)).annotationNames)).mapNamed
          (env.stereotypeOf defaults) := by
  have hnames : (env.metadataOf defaults (env.assemble options target)).annotationNames =
      (env.collectAll (env.occurrences options target)).annotations.names ++
        (env.collectAll (env.occurrences options target)).repeated.names := by
    rw [Metadata.annotationNames, names_annotations_metadataOf, names_repeated_metadataOf]
  rw [hnames, metadataOf, assemble, if_pos hon]

theorem mem_stereotypeNames_metadataOf_iff (hon : env.config.stereotypes = true) :
    name ∈ (env.metadataOf defaults (env.assemble options target)).stereotypeNames ↔
      ∃ via, env.MetaReached
          (env.metadataOf defaults (env.assemble options target)).annotationNames via ∧
        ∃ a, env.Carries via a ∧ a.annotationType = name := by
  rw [Metadata.stereotypeNames, stereotypes_metadataOf hon, Members.names_mapNamed,
    mem_names_pendingStereotypes]
  constructor
  · rintro ⟨use, hu, rfl⟩
    obtain ⟨hr, hon⟩ := mem_metaUses_iff.mp hu
    exact ⟨use.via, hr, use.applied, carries_iff.mpr ⟨use, hon, rfl⟩, rfl⟩
  · rintro ⟨via, hr, a, hc, rfl⟩
    obtain ⟨use, hu, -, rfl⟩ := exists_mem_usesOf_iff.mpr ⟨hr, hc, rfl⟩
    exact ⟨use, (List.mem_filter.mp hu).1, rfl⟩

theorem eq_gathered_of_get?_stereotypes (hon : env.config.stereotypes = true)
    {stereotype : StereotypeEntry}
    (hs : (env.metadataOf defaults (env.assemble options target)).stereotypes.get? name =
      some stereotype) :
    stereotype = env.gathered
      (env.metadataOf defaults (env.assemble options target)).annotationNames name defaults := by
  rw [stereotypes_metadataOf hon, Members.get?_mapNamed] at hs
  obtain ⟨pending, hp, rfl⟩ := Option.map_eq_some_iff.mp hs
  rw [of_get?_pending hp]
  rfl

/-! ## A build -/

/-- **Stereotypes are exactly the meta-annotations that can be reached**, each with what its carriers
give to it. -/
theorem build_stereotypes_reached (hm : env.model.Accepted) (hon : env.config.stereotypes = true)
    (validator : Option Validator) (cache : DefaultCache) (options : BuildOptions) {id : DeclId}
    {d : Declaration} (hd : env.model.declaration? id = some d) :
    ∃ result, env.build validator cache options id = .ok result ∧
      (∀ name, name ∈ result.metadata.stereotypeNames ↔
        ∃ via, env.MetaReached result.metadata.annotationNames via ∧
          ∃ a, env.Carries via a ∧ a.annotationType = name) ∧
      ∀ name stereotype, result.metadata.stereotypes.get? name = some stereotype →
        stereotype.entry.annotationType = name ∧
          env.GathersFrom result.metadata.annotationNames stereotype := by
  obtain ⟨result, hr, -, hmd⟩ := build_eq validator options hd cache
  refine ⟨result, hr, ?_⟩
  rw [hmd]
  refine ⟨fun name => mem_stereotypeNames_metadataOf_iff hon, fun name stereotype hs => ?_⟩
  obtain rfl := eq_gathered_of_get?_stereotypes hon hs
  exact ⟨rfl, gathersFrom_gathered hm⟩

/-- A class with `a.Scope`.  This annotation type and `a.Qualifier` carry each other, and both of
them carry `a.Marker`; the value that `a.Qualifier` gives to it does not convert. -/
def circular : Environment where
  config := {}
  model :=
    { declarations := #[
        ⟨"a.Scope", none,
          [⟨"a.Qualifier", ∅⟩, ⟨"a.Marker", ⟨[("value", .literal (.str "scope"))]⟩⟩],
          .type { kind := .annotationType }⟩,
        ⟨"a.Qualifier", none,
          [⟨"a.Scope", ⟨[("value", .literal (.str "meta"))]⟩⟩,
            ⟨"a.Marker", ⟨[("value", .unsupported "name()")]⟩⟩],
          .type { kind := .annotationType }⟩,
        ⟨"a.Service", none, [⟨"a.Scope", ∅⟩], .type {}⟩]
      types := ⟨[("a.Scope", ⟨0⟩), ("a.Qualifier", ⟨1⟩), ("a.Service", ⟨2⟩)]⟩ }

theorem accepted_circular : circular.model.Accepted := by
  have hload : Model.ofDeclarations circular.model.declarations.toList = .ok circular.model := rfl
  exact Model.accepted_of_load hload (by decide)

theorem carries_circular :
    circular.Carries "a.Scope" ⟨"a.Qualifier", ∅⟩ ∧
      circular.Carries "a.Scope" ⟨"a.Marker", ⟨[("value", .literal (.str "scope"))]⟩⟩ ∧
      circular.Carries "a.Qualifier" ⟨"a.Scope", ⟨[("value", .literal (.str "meta"))]⟩⟩ ∧
      circular.Carries "a.Qualifier" ⟨"a.Marker", ⟨[("value", .unsupported "name()")]⟩⟩ :=
  ⟨⟨⟨0⟩, rfl, List.mem_cons_self, by decide⟩,
    ⟨⟨0⟩, rfl, List.mem_cons_of_mem _ List.mem_cons_self, by decide⟩,
    ⟨⟨1⟩, rfl, List.mem_cons_self, by decide⟩,
    ⟨⟨1⟩, rfl, List.mem_cons_of_mem _ List.mem_cons_self, by decide⟩⟩

/-- The circle is gone round once, and `a.Scope` comes up as a stereotype of its own. -/
theorem build_stereotypes_reached_circular :
    ∃ result, circular.build none {} {} ⟨2⟩ = .ok result ∧
      "a.Scope" ∈ result.metadata.stereotypeNames ∧
      ∃ marker, result.metadata.stereotypes.get? "a.Marker" = some marker ∧
        marker.parents.Nodup ∧ "a.Scope" ∈ marker.parents ∧ "a.Qualifier" ∈ marker.parents ∧
        ∃ v, marker.entry.values.get? "value" = some v ∧ v.source = .stereotype := by
  have hd : circular.model.declaration? ⟨2⟩ = some _ := rfl
  obtain ⟨result, hr, hnames, hgathers⟩ :=
    build_stereotypes_reached accepted_circular rfl none {} {} hd
  obtain ⟨hqualifier, hmarker, hscope, hagain⟩ := carries_circular
  have hgiven : "a.Scope" ∈ result.metadata.annotationNames := by
    obtain ⟨again, hagain, -, hmd⟩ := build_eq none {} hd {}
    obtain rfl : again = result := Except.ok.inj (hagain.symm.trans hr)
    obtain ⟨outer, ho⟩ := exists_levels_eq_append hd {}
    rw [hmd, mem_annotationNames_metadataOf]
    exact ⟨_, mem_occurrences_iff.mpr ⟨⟨2⟩, by simp [ho], ⟨"a.Scope", ∅⟩, List.mem_cons_self,
      (⟨"a.Scope", ∅⟩, none), List.mem_cons_self, rfl⟩, rfl⟩
  have hreached : circular.MetaReached result.metadata.annotationNames "a.Qualifier" :=
    .carried (.given hgiven) hqualifier
  obtain ⟨marker, hg⟩ := Members.exists_get?_of_mem_names
    ((hnames "a.Marker").mpr ⟨_, .given hgiven, _, hmarker, rfl⟩)
  obtain ⟨hname, hgather⟩ := hgathers _ marker hg
  have hparent : "a.Scope" ∈ marker.parents :=
    (hgather.mem_parents_iff _).mpr ⟨.given hgiven, _, hmarker, hname.symm⟩
  refine ⟨result, hr, (hnames _).mpr ⟨_, hreached, _, hscope, rfl⟩, marker, hg,
    hgather.nodup_parents, hparent,
    (hgather.mem_parents_iff _).mpr ⟨hreached, _, hagain, hname.symm⟩, ?_⟩
  -- Were it absent or a default, then `a.Scope` would not give it a value.
  by_contra hno
  have hnone := hgather.eq_none_of_default "value" (fun v hv =>
    (hgather.source_eq _ v hv).resolve_left fun hs => hno ⟨v, hv, hs⟩) _ hparent _ hmarker hname.symm
  cases hnone

end Environment

end AnnotationResolution
