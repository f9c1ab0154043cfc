import AnnotationResolution.Proofs.Assembly.Building

/-!
# Merged or repeated

Whether the annotations of a type are merged or kept side by side depends on the type alone, so no
type is found among both.  This and what the repeated entries look like holds of all metadata that
are built: `Metadata.WellFormed`.

An application is found again in the metadata, with the container that its type names
(`exists_repeated_of_mem_occurrences`), and with the applications the annotation that stands for them:
no annotation that counts is missing (`mem_annotations_or_exists_repeated`).
-/

namespace AnnotationResolution

/-- What holds of all metadata that are built. -/
structure Metadata.WellFormed (md : Metadata) : Prop where
  nodup_repeated : md.repeated.names.Nodup
  annotationType_eq : ∀ {name repeated}, md.repeated.get? name = some repeated →
    repeated.annotationType = name
  instances_ne_nil : ∀ {name repeated}, md.repeated.get? name = some repeated →
    repeated.instances ≠ []
  /-- No annotation type is both merged and repeated. -/
  notMem_repeated : ∀ {name}, name ∈ md.annotations.names → name ∉ md.repeated.names

theorem Metadata.WellFormed.mem_repeated_iff {md : Metadata} (h : md.WellFormed)
    {repeated : RepeatedEntry} :
    repeated ∈ md.repeated.values ↔
      md.repeated.get? repeated.annotationType = some repeated := by
  rw [Members.mem_values_iff h.nodup_repeated]
  constructor
  · rintro ⟨name, hn⟩
    rwa [h.annotationType_eq hn]
  · exact fun hn => ⟨_, hn⟩

namespace Environment

variable {env : Environment}

theorem names_nodup_foldl {collected : Collected}
    (h : collected.annotations.names.Nodup ∧ collected.repeated.names.Nodup)
    (occurrences : List Occurrence) :
    (occurrences.foldl env.collect collected).annotations.names.Nodup ∧
      (occurrences.foldl env.collect collected).repeated.names.Nodup := by
  induction occurrences generalizing collected with
  | nil => exact h
  | cons o rest ih =>
    refine ih ?_
    rw [collect]
    split
    · exact ⟨h.1, Members.names_nodup_insert h.2 _ _⟩
    · exact ⟨Members.names_nodup_insert h.1 _ _, h.2⟩

theorem names_nodup_collectAll (occurrences : List Occurrence) :
    (env.collectAll occurrences).annotations.names.Nodup ∧
      (env.collectAll occurrences).repeated.names.Nodup := by
  have hempty : ({} : Collected).annotations.names.Nodup ∧ ({} : Collected).repeated.names.Nodup :=
    ⟨List.nodup_nil, List.nodup_nil⟩
  exact names_nodup_foldl hempty occurrences

variable {options : BuildOptions} {target : BuildTarget} (defaults : String → Members Value)

/-- A type whose annotations are merged names no container. -/
theorem repeatableContainer?_of_mem_annotations {name : String}
    (h : name ∈ (env.metadataOf defaults (env.assemble options target)).annotations.names) :
    env.repeatableContainer? name = none := by
  rw [names_annotations_metadataOf, mem_names_annotations_collectAll] at h
  obtain ⟨o, ho⟩ := List.exists_mem_of_ne_nil _ h
  obtain ⟨ho, hm⟩ := List.mem_filter.mp ho
  exact repeatableContainer?_of_mergesInto ho hm

/-- **An application is among those of its type, under the container that the type names.** -/
theorem exists_repeated_of_mem_occurrences {o : Occurrence}
    (ho : o ∈ env.occurrences options target) {container : String}
    (hc : o.container = some container) :
    ∃ repeated, (env.metadataOf defaults (env.assemble options target)).repeated.get?
        o.applied.annotationType = some repeated ∧
      repeated.annotationType = o.applied.annotationType ∧ repeated.container = container ∧
        ∃ use ∈ repeated.instances, use.source = o.source := by
  have hrepeats : o.repeats o.applied.annotationType = true := by simp [Occurrence.repeats, hc]
  have hmem : o ∈ (env.occurrences options target).filter
      (·.repeats o.applied.annotationType) := List.mem_filter.mpr ⟨ho, hrepeats⟩
  obtain ⟨first, hf⟩ := Option.ne_none_iff_exists'.mp
    (mt List.head?_eq_none_iff.mp (List.ne_nil_of_mem hmem))
  have hfirst : first.container = some container := by
    obtain ⟨hfo, hfr⟩ := List.mem_filter.mp (List.mem_of_head? hf)
    obtain ⟨found, hfound, hnamed⟩ := repeatableContainer?_of_repeats hfo hfr
    rw [hfound, ← hnamed, ← container_of_mem_occurrences ho, hc]
  refine ⟨_, by rw [get?_repeated_metadataOf, get?_repeated_collectAll, hf]; rfl, rfl, ?_, ?_⟩
  · show first.container.getD "" = container
    rw [hfirst]
    rfl
  · exact ⟨_, List.mem_map_of_mem (List.mem_map_of_mem hmem), rfl⟩

/-- **An annotation that counts is merged, or an application stands for it.** -/
theorem mem_annotations_or_exists_repeated {level : DeclId}
    (hl : level ∈ env.levels options target.id) {a : AnnotationInstance}
    (ha : a ∈ env.keptAnnotations target level) :
    a.annotationType ∈
        (env.metadataOf defaults (env.assemble options target)).annotations.names ∨
      ∃ repeated ∈ (env.metadataOf defaults (env.assemble options target)).repeated.values,
        (repeated.annotationType = a.annotationType ∨ repeated.container = a.annotationType) ∧
          ∃ use ∈ repeated.instances, use.source = sourceOf target level := by
  cases hi : env.containerItems? a with
  | some items =>
    obtain ⟨item, hmem⟩ := List.exists_mem_of_ne_nil _ (of_containerItems? hi).1
    have happ : (item, some a.annotationType) ∈ env.applications a := by
      rw [applications, hi]
      exact List.mem_map_of_mem hmem
    obtain ⟨repeated, hr, -, hcontainer, huse⟩ := exists_repeated_of_mem_occurrences defaults
      (mem_occurrences_iff.mpr ⟨level, hl, a, ha, _, happ, rfl⟩) rfl
    exact Or.inr ⟨repeated, Members.mem_values_of_get? hr, Or.inr hcontainer, huse⟩
  | none =>
    have happ : (a, env.repeatableContainer? a.annotationType) ∈ env.applications a := by
      rw [applications, hi]
      exact List.mem_cons_self
    have ho := mem_occurrences_iff.mpr ⟨level, hl, a, ha, _, happ, rfl⟩
    cases hc : env.repeatableContainer? a.annotationType with
    | some container =>
      obtain ⟨repeated, hr, htype, -, huse⟩ := exists_repeated_of_mem_occurrences defaults ho hc
      exact Or.inr ⟨repeated, Members.mem_values_of_get? hr, Or.inl htype, huse⟩
    | none =>
      left
      rw [names_annotations_metadataOf, mem_names_annotations_collectAll]
      refine List.ne_nil_of_mem (List.mem_filter.mpr ⟨ho, ?_⟩)
      simp [Occurrence.mergesInto, hc]

/-- **All metadata that are built are well-formed.** -/
theorem wellFormed_metadataOf :
    (env.metadataOf defaults (env.assemble options target)).WellFormed where
  nodup_repeated := by
    rw [names_repeated_metadataOf]
    exact (names_nodup_collectAll _).2
  annotationType_eq h := by
    rw [get?_repeated_metadataOf] at h
    obtain ⟨pending, -, rfl⟩ := Option.map_eq_some_iff.mp h
    rfl
  instances_ne_nil h := by
    rw [get?_repeated_metadataOf, get?_repeated_collectAll] at h
    obtain ⟨pending, hp, rfl⟩ := Option.map_eq_some_iff.mp h
    obtain ⟨first, hf, rfl⟩ := Option.map_eq_some_iff.mp hp
    exact List.ne_nil_of_mem (List.mem_map_of_mem (List.mem_map_of_mem (List.mem_of_head? hf)))
  notMem_repeated hmerged hrepeated := by
    rw [names_repeated_metadataOf, mem_names_repeated_collectAll] at hrepeated
    obtain ⟨o, ho⟩ := List.exists_mem_of_ne_nil _ hrepeated
    obtain ⟨ho, hr⟩ := List.mem_filter.mp ho
    obtain ⟨container, -, hsome⟩ := repeatableContainer?_of_repeats ho hr
    rw [repeatableContainer?_of_mem_annotations defaults hmerged] at hsome
    cases hsome

/-! ## A sample -/

/-- A class and its interface.  Both have a container of `a.Role`, but the one on the interface has
a note on it and is kept whole. -/
def noted : Environment where
  config := {}
  model :=
    { declarations := #[
        ⟨"a.Role", none,
          [⟨"java.lang.annotation.Repeatable",
            ⟨[("value", .typeLiteral (.named "a.Roles" []))]⟩⟩],
          .type { kind := .annotationType }⟩,
        ⟨"a.Roles", none, [], .type { kind := .annotationType }⟩,
        ⟨"a.Base", none,
          [⟨"a.Roles", ⟨[("value", .list [.nested ⟨"a.Role", ∅⟩]),
            ("note", .literal (.str "base"))]⟩⟩],
          .type { kind := .interface }⟩,
        ⟨"a.Service", none, [⟨"a.Roles", ⟨[("value", .list [.nested ⟨"a.Role", ∅⟩])]⟩⟩],
          .type { interfaces := [.named "a.Base" []] }⟩]
      types := ⟨[("a.Role", ⟨0⟩), ("a.Roles", ⟨1⟩), ("a.Base", ⟨2⟩), ("a.Service", ⟨3⟩)]⟩ }

theorem accepted_noted : noted.model.Accepted := by
  have hload : Model.ofDeclarations noted.model.declarations.toList = .ok noted.model := rfl
  exact Model.accepted_of_load hload (by decide)

theorem levels_noted : noted.levels {} ⟨3⟩ = [⟨2⟩, ⟨3⟩] := by
  have hd : noted.model.declaration? ⟨3⟩ = some _ := rfl
  have hi : noted.interfaces ⟨3⟩ = [⟨2⟩] := by decide
  exact levels_of_interfaces hd rfl rfl rfl hi (by decide) (by decide)

end Environment

end AnnotationResolution
