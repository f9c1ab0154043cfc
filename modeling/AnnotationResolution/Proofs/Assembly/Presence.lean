import AnnotationResolution.Proofs.Assembly.Answers
import AnnotationResolution.Proofs.Assembly.Coherent

/-!
# Which names the metadata know

A name is known as that of an annotation, merged or repeated, as that of a stereotype, or as that of
the container of a repeated annotation.  The queries look at these in different order, and all of them
but one agree on which names are known: `retention?` does not look at containers.

* `hasStereotype_iff`, `annotationsFor_ne_nil_iff`, `isSome_retention?_iff`: what each query looks at.
* `retention?_agrees_iff`: the last one differs on `OnlyAsContainer` alone.
* `hasAnnotation_iff`: the annotations that are known are those of the occurrences and the containers
  that these are in.
-/

namespace AnnotationResolution

namespace Metadata

variable {md : Metadata} {name : String}

theorem isRepeatableContainer_iff :
    md.isRepeatableContainer name = true ↔
      ∃ repeated ∈ md.repeated.values, repeated.container = name := by
  rw [isRepeatableContainer, Option.isSome_iff_exists]
  constructor
  · rintro ⟨repeated, h⟩
    exact ⟨repeated, of_containerEntry? h⟩
  · rintro ⟨repeated, hr, hc⟩
    exact exists_containerEntry? hr hc

theorem hasAnnotation_eq_true_iff :
    md.hasAnnotation name = true ↔
      name ∈ md.annotationNames ∨ md.isRepeatableContainer name = true := by
  rw [Metadata.hasAnnotation, Bool.or_eq_true, Bool.or_eq_true, Members.contains_eq_true_iff,
    Members.contains_eq_true_iff, annotationNames, List.mem_append]

theorem hasStereotype_iff :
    md.hasStereotype name = true ↔
      name ∈ md.annotationNames ∨ name ∈ md.stereotypeNames ∨
        md.isRepeatableContainer name = true := by
  rw [hasStereotype, Bool.or_eq_true, hasAnnotation_eq_true_iff, Members.contains_eq_true_iff,
    or_assoc, or_comm (a := md.isRepeatableContainer name = true)]
  rfl

theorem hasStereotype_of_hasAnnotation (h : md.hasAnnotation name = true) :
    md.hasStereotype name = true := by
  rw [hasStereotype, h]
  rfl

theorem isSome_entry?_iff :
    (md.entry? name).isSome = true ↔ name ∈ md.annotations.names ∨ name ∈ md.stereotypeNames := by
  rw [Metadata.entry?, stereotypeNames, ← Members.isSome_get?_iff, ← Members.isSome_get?_iff]
  cases md.annotations.get? name with
  | some entry => simp
  | none => simp

theorem isSome_retention?_iff :
    (md.retention? name).isSome = true ↔
      name ∈ md.annotationNames ∨ name ∈ md.stereotypeNames := by
  have hentry : (md.entry? name).isSome = true ↔ _ := isSome_entry?_iff
  rw [retention?, annotationNames, List.mem_append]
  cases he : md.entry? name with
  | some entry =>
    rw [he] at hentry
    have hnamed := hentry.mp rfl
    refine iff_of_true rfl ?_
    rcases hnamed with h | h
    · exact Or.inl (Or.inl h)
    · exact Or.inr h
  | none =>
    rw [he] at hentry
    have hunnamed := mt hentry.mpr Bool.false_ne_true
    rw [not_or] at hunnamed
    dsimp only
    rw [Option.isSome_map, Members.isSome_get?_iff]
    simp [hunnamed.1, hunnamed.2]

/-- Nothing is known of the name, but that it is the container of a repeated annotation. -/
def OnlyAsContainer (md : Metadata) (name : String) : Prop :=
  name ∉ md.annotationNames ∧ name ∉ md.stereotypeNames ∧ md.isRepeatableContainer name = true

/-- **A name that is known has a retention, unless it is known as a container only.** -/
theorem retention?_agrees_iff :
    (md.hasStereotype name = true ↔ (md.retention? name).isSome = true) ↔
      ¬ md.OnlyAsContainer name := by
  rw [hasStereotype_iff, isSome_retention?_iff, OnlyAsContainer]
  constructor
  · rintro h ⟨hwritten, hstereotype, hcontainer⟩
    rcases h.mp (Or.inr (Or.inr hcontainer)) with hname | hname
    · exact hwritten hname
    · exact hstereotype hname
  · intro h
    constructor
    · rintro (hname | hname | hcontainer)
      · exact Or.inl hname
      · exact Or.inr hname
      · by_contra hnot
        rw [not_or] at hnot
        exact h ⟨hnot.1, hnot.2, hcontainer⟩
    · rintro (hname | hname)
      · exact Or.inl hname
      · exact Or.inr (Or.inl hname)

/-- **A name that is known has annotations**, the container among them. -/
theorem annotationsFor_ne_nil_iff (hwf : md.WellFormed) :
    md.annotationsFor name ≠ [] ↔ md.hasStereotype name = true := by
  rw [hasStereotype_iff, annotationNames, List.mem_append]
  cases hn : md.repeated.get? name with
  | some repeated =>
    rw [annotationsFor_of_get? hn]
    refine iff_of_true ?_ (Or.inl (Or.inr (Members.mem_names_of_get? hn)))
    exact mt List.map_eq_nil_iff.mp (hwf.instances_ne_nil hn)
  | none =>
    cases hc : md.containerEntry? name with
    | some repeated =>
      rw [Metadata.annotationsFor_of_containerEntry? hwf hn hc]
      have hcontainer : md.isRepeatableContainer name = true := by
        rw [isRepeatableContainer, hc]
        rfl
      exact iff_of_true (List.cons_ne_nil _ _) (Or.inr (Or.inr hcontainer))
    | none =>
      have hfor : md.annotationsFor name = ((md.entry? name).map AnnotationEntry.nested).toList := by
        rw [annotationsFor, annotationsWithin, hn, hc]
      have hrepeated : name ∉ md.repeated.names := Members.get?_eq_none_iff.mp hn
      have hcontainer : ¬ md.isRepeatableContainer name = true := by
        rw [isRepeatableContainer, hc]
        exact Bool.false_ne_true
      rw [hfor, ne_eq, Option.toList_eq_nil_iff, Option.map_eq_none_iff, ← ne_eq,
        ← Option.isSome_iff_ne_none, isSome_entry?_iff]
      simp [hrepeated, hcontainer]

end Metadata

namespace Environment

variable {env : Environment} {options : BuildOptions} {target : BuildTarget}

/-- **The annotations that are known**: those that occur, and the containers they are in. -/
theorem hasAnnotation_iff (defaults : String → Members Value) {name : String} :
    Metadata.hasAnnotation (env.metadataOf defaults (env.assemble options target)) name = true ↔
      ∃ o ∈ env.occurrences options target,
        o.applied.annotationType = name ∨ o.container = some name := by
  rw [Metadata.hasAnnotation_eq_true_iff, mem_annotationNames_metadataOf,
    Metadata.isRepeatableContainer_iff]
  constructor
  · rintro (⟨o, ho, hname⟩ | ⟨repeated, hr, hcontainer⟩)
    · exact ⟨o, ho, Or.inl hname⟩
    · -- An application of the repeated type is in the container that the type names.
      have hget := (wellFormed_metadataOf defaults).mem_repeated_iff.mp hr
      have hnamed := container_eq_of_get? hget
      have hmem := List.mem_append_right
        (env.metadataOf defaults (env.assemble options target)).annotations.names
        (Members.mem_names_of_get? hget)
      obtain ⟨o, ho, htype⟩ := (mem_annotationNames_metadataOf options target defaults).mp hmem
      refine ⟨o, ho, Or.inr ?_⟩
      rw [container_of_mem_occurrences ho, htype, hnamed, hcontainer]
  · rintro ⟨o, ho, hname | hcontainer⟩
    · exact Or.inl ⟨o, ho, hname⟩
    · obtain ⟨repeated, hget, -, hc, -⟩ := exists_repeated_of_mem_occurrences defaults ho hcontainer
      exact Or.inr ⟨repeated, Members.mem_values_of_get? hget, hc⟩

/-- An annotation that counts is known, and so are the ones that it stands for. -/
theorem hasAnnotation_of_mem_keptAnnotations (defaults : String → Members Value) {level : DeclId}
    (hl : level ∈ env.levels options target.id) {a : AnnotationInstance}
    (ha : a ∈ env.keptAnnotations target level) :
    Metadata.hasAnnotation (env.metadataOf defaults (env.assemble options target))
        a.annotationType = true ∧
      ∀ application ∈ env.applications a,
        Metadata.hasAnnotation (env.metadataOf defaults (env.assemble options target))
          application.1.annotationType = true := by
  have hoccurs : ∀ application ∈ env.applications a,
      (⟨level, sourceOf target level, application.1, application.2⟩ : Occurrence) ∈
        env.occurrences options target := fun application happ =>
    mem_occurrences_iff.mpr ⟨level, hl, a, ha, application, happ, rfl⟩
  constructor
  · rw [hasAnnotation_iff]
    cases hi : env.containerItems? a with
    | some items =>
      -- The annotation is the container of its items.
      obtain ⟨item, hmem⟩ := List.exists_mem_of_ne_nil _ (of_containerItems? hi).1
      have happ : (item, some a.annotationType) ∈ env.applications a := by
        rw [applications, hi]
        exact List.mem_map_of_mem hmem
      exact ⟨_, hoccurs _ happ, Or.inr rfl⟩
    | none =>
      have happ : (a, env.repeatableContainer? a.annotationType) ∈ env.applications a := by
        rw [applications, hi]
        exact List.mem_cons_self
      exact ⟨_, hoccurs _ happ, Or.inl rfl⟩
  · intro application happ
    rw [hasAnnotation_iff]
    exact ⟨_, hoccurs application happ, Or.inl rfl⟩

/-! ## A build -/

/-- **The queries agree on which names are known**, but for the retention of a name that is known as
a container only.  Every annotation that counts is known. -/
theorem build_queries_agree (validator : Option Validator) (cache : DefaultCache)
    (options : BuildOptions) {id : DeclId} {d : Declaration}
    (hd : env.model.declaration? id = some d) :
    ∃ result, env.build validator cache options id = .ok result ∧
      (∀ name, (result.metadata.hasStereotype name = true ↔
          result.metadata.annotationsFor name ≠ []) ∧
        ((result.metadata.hasStereotype name = true ↔
            (result.metadata.retention? name).isSome = true) ↔
          ¬ result.metadata.OnlyAsContainer name)) ∧
      (∀ name ∈ result.metadata.annotationNames, result.metadata.hasAnnotation name = true) ∧
      ∀ level ∈ env.levels options id, ∀ a ∈ env.keptAnnotations ⟨id, d⟩ level,
        result.metadata.hasAnnotation a.annotationType = true ∧
          ∀ application ∈ env.applications a,
            result.metadata.hasAnnotation application.1.annotationType = true := by
  obtain ⟨result, hr, -, hmd⟩ := build_eq validator options hd cache
  have hwf := wellFormed_of_build hr
  refine ⟨result, hr, fun name => ⟨(Metadata.annotationsFor_ne_nil_iff hwf).symm,
    Metadata.retention?_agrees_iff⟩, fun name hname =>
      Metadata.hasAnnotation_eq_true_iff.mpr (Or.inl hname), fun level hl a ha => ?_⟩
  rw [hmd]
  exact hasAnnotation_of_mem_keptAnnotations _ hl ha

/-- The application of the class `a.Service` in a container, and the container. -/
theorem build_queries_agree_service :
    ∃ result, service.build none {} {} ⟨9⟩ = .ok result ∧
      result.metadata.hasAnnotation "a.Role" = true ∧
      result.metadata.hasAnnotation "a.Roles" = true ∧
      result.metadata.annotationsFor "a.Roles" ≠ [] := by
  have hd : service.model.declaration? ⟨9⟩ = some _ := rfl
  obtain ⟨result, hr, hqueries, -, hcounts⟩ := build_queries_agree none {} {} hd
  obtain ⟨hroles, happlications⟩ := hcounts ⟨9⟩ (by simp [levels_service]) _
    (List.mem_cons_of_mem _ List.mem_cons_self)
  refine ⟨result, hr, happlications _ List.mem_cons_self, hroles, ?_⟩
  exact ((hqueries "a.Roles").1).mp (Metadata.hasStereotype_of_hasAnnotation hroles)

/-- On the class `a.Service`, no stereotypes and two annotation types. -/
theorem names_service {result : BuildResult} (hr : service.build none {} {} ⟨9⟩ = .ok result) :
    result.metadata.annotationNames = ["a.Named", "a.Role"] ∧
      result.metadata.stereotypeNames = [] := by
  have hd : service.model.declaration? ⟨9⟩ = some _ := rfl
  obtain ⟨again, hagain, -, hmd⟩ := build_eq none {} hd {}
  obtain rfl : again = result := Except.ok.inj (hagain.symm.trans hr)
  have hnames : again.metadata.annotationNames = ["a.Named", "a.Role"] := by
    rw [hmd, Metadata.annotationNames, names_annotations_metadataOf, names_repeated_metadataOf,
      occurrences, levels_service]
    rfl
  refine ⟨hnames, List.eq_nil_iff_forall_not_mem.mpr fun name hmem => ?_⟩
  rw [hmd, mem_stereotypeNames_metadataOf_iff rfl, ← hmd, hnames] at hmem
  obtain ⟨via, hvia, a, hc, -⟩ := hmem
  -- Neither of the two carries anything, so nothing is reached from them.
  have hcarries : ∀ via, service.MetaReached ["a.Named", "a.Role"] via →
      ∀ a, ¬ service.Carries via a := by
    intro via hvia
    induction hvia with
    | given hgiven =>
      intro a hc
      obtain ⟨use, hu, -⟩ := carries_iff.mp hc
      have hnone : ∀ given ∈ ["a.Named", "a.Role"], service.metaUsesOn given = [] := by decide
      rw [hnone _ hgiven] at hu
      cases hu
    | carried _ ha ih => exact absurd ha (ih _)
  exact hcarries via hvia a hc

/-- The class `a.Service` has the container `a.Roles`, and no retention for it. -/
theorem roles_without_retention_service :
    service.model.Accepted ∧ service.config.check = .ok () ∧
      ∃ result, service.build none {} {} ⟨9⟩ = .ok result ∧
        result.metadata.hasStereotype "a.Roles" = true ∧
        result.metadata.annotationsFor "a.Roles" ≠ [] ∧
        result.metadata.retention? "a.Roles" = none := by
  obtain ⟨d, hd⟩ : ∃ d, service.model.declaration? ⟨9⟩ = some d := ⟨_, rfl⟩
  obtain ⟨result, hr, -, hmd⟩ := build_eq none {} hd {}
  obtain ⟨hannotations, hstereotypes⟩ := names_service hr
  have hroles : result.metadata.hasAnnotation "a.Roles" = true := by
    rw [hmd, hasAnnotation_iff, occurrences, levels_service]
    cases hd
    exact ⟨_, List.mem_cons_of_mem _ List.mem_cons_self, Or.inr rfl⟩
  have hknown := Metadata.hasStereotype_of_hasAnnotation hroles
  refine ⟨accepted_service, by decide, result, hr, hknown,
    (Metadata.annotationsFor_ne_nil_iff (wellFormed_of_build hr)).mpr hknown, ?_⟩
  refine Option.not_isSome_iff_eq_none.mp ?_
  rw [Metadata.isSome_retention?_iff, hannotations, hstereotypes]
  decide

end Environment

end AnnotationResolution
