import AnnotationResolution.Proofs.Assembly.Entries
import AnnotationResolution.Proofs.Assembly.Merged

/-!
# All annotations of a type

Three things in the metadata may answer for a name: the applications of the annotation type itself,
those of a type whose container it is, and the merged entry.  `annotationsFor` takes the first that is
there and asks no further, so it gives all of them only where there is no choice (`OneSource`).

* `applications_answered_iff`: of the repeated types that should be in the answer, one is.
* `losesNothing_iff`: nothing is lost just when only one of the three has something to say, or the
  merged entry says what the container says.
-/

namespace AnnotationResolution

/-- The annotations in the value list of a container. -/
def NestedAnnotation.items (container : NestedAnnotation) : List NestedAnnotation :=
  match container.values.get? "value" with
  | some (.list list) => list.items.filterMap Value.asAnnotation?
  | _ => []

theorem items_containerOf (container : String) (items : List NestedAnnotation) :
    (containerOf container items).items = items := by
  have hvalue : (containerOf container items).values.get? "value" =
      some (.list ⟨.nested, items.map Value.nested⟩) := Members.get?_insert_self _ _ _
  have hsome : Value.asAnnotation? ∘ Value.nested = some := rfl
  unfold NestedAnnotation.items
  rw [hvalue]
  dsimp only
  rw [List.filterMap_map, hsome, List.filterMap_some]

theorem RepeatedEntry.annotationType_of_mem_nested {repeated : RepeatedEntry}
    {nested : NestedAnnotation} (h : nested ∈ repeated.nested) :
    nested.annotationType = repeated.annotationType := by
  obtain ⟨use, -, rfl⟩ := List.mem_map.mp h
  rfl

namespace Metadata

variable (md : Metadata) (name : String)

/-- The answer for the name is a container that is put together. -/
def synthesizes : Bool := !md.repeated.contains name && md.isRepeatableContainer name

/-- The annotations in the answer for a name, with those in the container if one is put together. -/
def answered : List NestedAnnotation :=
  md.annotationsFor name ++
    if md.synthesizes name then (md.annotationsFor name).flatMap NestedAnnotation.items else []

/-- All that the metadata have for the name is in the answer. -/
structure LosesNothing : Prop where
  merged : ∀ entry, md.annotations.get? name = some entry → entry.nested ∈ md.annotationsFor name
  applications : ∀ repeated ∈ md.repeated.values, repeated.container = name →
    ∀ nested ∈ repeated.nested, nested ∈ md.answered name

/-- If there are applications in a container of that name, then those of one type only, and all else
that there is for the name says the same. -/
structure OneSource : Prop where
  unique : ∀ repeated ∈ md.repeated.values, repeated.container = name →
    ∀ other ∈ md.repeated.values, other.annotationType = name ∨ other.container = name →
      other.annotationType = repeated.annotationType
  merged : ∀ entry, md.annotations.get? name = some entry →
    ∀ repeated ∈ md.repeated.values, repeated.container = name →
      entry.nested = containerOf name repeated.nested

/-- The repeated type that answers for a name. -/
def answering? : Option RepeatedEntry := (md.repeated.get? name).or (md.containerEntry? name)

variable {md name}

theorem of_containerEntry? {repeated : RepeatedEntry}
    (h : md.containerEntry? name = some repeated) :
    repeated ∈ md.repeated.values ∧ repeated.container = name := by
  refine ⟨List.mem_of_find?_eq_some h, ?_⟩
  have hfound := List.find?_some h
  exact eq_of_beq hfound

theorem exists_containerEntry? {repeated : RepeatedEntry} (hr : repeated ∈ md.repeated.values)
    (hc : repeated.container = name) : ∃ first, md.containerEntry? name = some first := by
  rw [← Option.isSome_iff_exists, containerEntry?, List.find?_isSome]
  exact ⟨repeated, hr, beq_iff_eq.mpr hc⟩

/-! ## The three answers -/

theorem annotationsFor_of_get? {repeated : RepeatedEntry}
    (h : md.repeated.get? name = some repeated) : md.annotationsFor name = repeated.nested := by
  rw [annotationsFor, annotationsWithin, h]

theorem annotationsFor_of_containerEntry? (hwf : md.WellFormed)
    (hn : md.repeated.get? name = none) {repeated : RepeatedEntry}
    (hc : md.containerEntry? name = some repeated) :
    md.annotationsFor name = [containerOf name repeated.nested] := by
  have hr := (Metadata.of_containerEntry? hc).1
  cases hs : md.repeated.size with
  | zero =>
    -- There is a repeated type, so the depth is not used up.
    have hnil : md.repeated.values = [] :=
      List.map_eq_nil_iff.mpr (List.length_eq_zero_iff.mp hs)
    rw [hnil] at hr
    cases hr
  | succ depth =>
    rw [annotationsFor, hs, annotationsWithin, hn, hc]
    dsimp only
    rw [annotationsWithin, hwf.mem_repeated_iff.mp hr]

theorem annotationsFor_of_entry (hn : md.repeated.get? name = none)
    (hc : md.containerEntry? name = none) {entry : AnnotationEntry}
    (he : md.annotations.get? name = some entry) : md.annotationsFor name = [entry.nested] := by
  rw [annotationsFor, annotationsWithin, hn, hc]
  dsimp only
  rw [Metadata.entry?, he]
  rfl

theorem answered_of_get? {repeated : RepeatedEntry} (h : md.repeated.get? name = some repeated) :
    md.answered name = repeated.nested := by
  have hcontains : md.repeated.contains name = true :=
    Members.contains_eq_true_iff.mpr (Members.mem_names_of_get? h)
  rw [answered, annotationsFor_of_get? h, synthesizes, hcontains]
  exact List.append_nil _

theorem answered_of_containerEntry? (hwf : md.WellFormed) (hn : md.repeated.get? name = none)
    {repeated : RepeatedEntry} (hc : md.containerEntry? name = some repeated) :
    md.answered name = containerOf name repeated.nested :: repeated.nested := by
  have hcontains : md.repeated.contains name = false := by
    rw [← Bool.not_eq_true, Members.contains_eq_true_iff]
    exact Members.get?_eq_none_iff.mp hn
  have hsynthesizes : md.synthesizes name = true := by
    rw [synthesizes, hcontains, isRepeatableContainer, hc]
    rfl
  rw [answered, annotationsFor_of_containerEntry? hwf hn hc, if_pos hsynthesizes]
  simp [items_containerOf]

/-! ## What is lost -/

/-- **Of the types with this container just the one that answers is in the answer.** -/
theorem applications_answered_iff (hwf : md.WellFormed) {repeated : RepeatedEntry}
    (hr : repeated ∈ md.repeated.values) (hc : repeated.container = name) :
    (∀ nested ∈ repeated.nested, nested ∈ md.answered name) ↔
      md.answering? name = some repeated := by
  have hown := hwf.mem_repeated_iff.mp hr
  -- One application is enough to tell the types apart.
  obtain ⟨nested, hnested⟩ : ∃ nested, nested ∈ repeated.nested :=
    List.exists_mem_of_ne_nil _ (mt List.map_eq_nil_iff.mp (hwf.instances_ne_nil hown))
  have htype := RepeatedEntry.annotationType_of_mem_nested hnested
  have hsame : ∀ {other : RepeatedEntry}, other ∈ md.repeated.values → nested ∈ other.nested →
      other = repeated := by
    intro other ho hmem
    rw [RepeatedEntry.annotationType_of_mem_nested hmem] at htype
    have hother := hwf.mem_repeated_iff.mp ho
    rw [htype, hown] at hother
    exact (Option.some.inj hother).symm
  cases hn : md.repeated.get? name with
  | some first =>
    rw [answering?, hn, Option.some_or, answered_of_get? hn, Option.some_inj]
    constructor
    · exact fun hall => hsame (Members.mem_values_of_get? hn) (hall nested hnested)
    · rintro rfl
      exact fun _ h => h
  | none =>
    obtain ⟨first, hf⟩ := exists_containerEntry? hr hc
    rw [answering?, hn, Option.none_or, hf, answered_of_containerEntry? hwf hn hf, Option.some_inj]
    constructor
    · intro hall
      rcases List.mem_cons.mp (hall nested hnested) with hcontainer | hmem
      · -- The container itself is of a type that is not repeated.
        rw [hcontainer] at htype
        rw [← htype] at hown
        cases hn.symm.trans hown
      · exact hsame (Metadata.of_containerEntry? hf).1 hmem
    · rintro rfl
      exact fun _ h => List.mem_cons_of_mem _ h

theorem OneSource.answering? (h : md.OneSource name) (hwf : md.WellFormed)
    {repeated : RepeatedEntry} (hr : repeated ∈ md.repeated.values)
    (hc : repeated.container = name) : md.answering? name = some repeated := by
  have hown := hwf.mem_repeated_iff.mp hr
  have hsame : ∀ {other : RepeatedEntry}, other ∈ md.repeated.values →
      other.annotationType = name ∨ other.container = name → other = repeated := by
    intro other ho hother
    have hget := hwf.mem_repeated_iff.mp ho
    rw [h.unique repeated hr hc other ho hother, hown] at hget
    exact (Option.some.inj hget).symm
  cases hn : md.repeated.get? name with
  | some first =>
    rw [Metadata.answering?, hn, Option.some_or,
      hsame (Members.mem_values_of_get? hn) (Or.inl (hwf.annotationType_eq hn))]
  | none =>
    obtain ⟨first, hf⟩ := exists_containerEntry? hr hc
    obtain ⟨hfirst, hcontainer⟩ := of_containerEntry? hf
    rw [Metadata.answering?, hn, Option.none_or, hf, hsame hfirst (Or.inr hcontainer)]

/-- **Nothing is lost just when one source answers.** -/
theorem losesNothing_iff (hwf : md.WellFormed) : md.LosesNothing name ↔ md.OneSource name := by
  have hmerged : ∀ {entry}, md.annotations.get? name = some entry →
      md.repeated.get? name = none := fun he =>
    Members.get?_eq_none_iff.mpr (hwf.notMem_repeated (Members.mem_names_of_get? he))
  constructor
  · intro h
    have hanswers : ∀ repeated ∈ md.repeated.values, repeated.container = name →
        md.answering? name = some repeated := fun repeated hr hc =>
      (applications_answered_iff hwf hr hc).mp (h.applications repeated hr hc)
    constructor
    · intro repeated hr hc other ho hname
      have hother : md.answering? name = some other := by
        rcases hname with rfl | hcontainer
        · rw [answering?, hwf.mem_repeated_iff.mp ho, Option.some_or]
        · exact hanswers other ho hcontainer
      rw [Option.some.inj (hother.symm.trans (hanswers repeated hr hc))]
    · intro entry he repeated hr hc
      have hfirst : md.containerEntry? name = some repeated := by
        have hanswer := hanswers repeated hr hc
        rwa [answering?, hmerged he, Option.none_or] at hanswer
      have hmem := h.merged entry he
      rw [Metadata.annotationsFor_of_containerEntry? hwf (hmerged he) hfirst] at hmem
      exact List.mem_singleton.mp hmem
  · intro h
    constructor
    · intro entry he
      cases hc : md.containerEntry? name with
      | none =>
        rw [annotationsFor_of_entry (hmerged he) hc he]
        exact List.mem_cons_self
      | some first =>
        obtain ⟨hfirst, hcontainer⟩ := of_containerEntry? hc
        rw [Metadata.annotationsFor_of_containerEntry? hwf (hmerged he) hc,
          h.merged entry he first hfirst hcontainer]
        exact List.mem_cons_self
    · intro repeated hr hc
      exact (applications_answered_iff hwf hr hc).mpr (h.answering? hwf hr hc)

end Metadata

namespace Environment

variable {env : Environment}

/-! ## A build -/

theorem wellFormed_of_build {validator : Option Validator} {cache : DefaultCache}
    {options : BuildOptions} {id : DeclId} {result : BuildResult}
    (hb : env.build validator cache options id = .ok result) : result.metadata.WellFormed := by
  cases hd : env.model.declaration? id with
  | none =>
    rw [build, hd] at hb
    cases hb
  | some d =>
    obtain ⟨again, hr, -, hmd⟩ := build_eq validator options hd cache
    obtain rfl : again = result := Except.ok.inj (hr.symm.trans hb)
    rw [hmd]
    exact wellFormed_metadataOf _

/-- **All annotations of a type are in the answer for it, if they come from one source.**  Where they
do not, some of them are lost. -/
theorem build_losesNothing_iff {validator : Option Validator} {cache : DefaultCache}
    {options : BuildOptions} {id : DeclId} {result : BuildResult}
    (hb : env.build validator cache options id = .ok result) (name : String) :
    result.metadata.LosesNothing name ↔ result.metadata.OneSource name :=
  Metadata.losesNothing_iff (wellFormed_of_build hb)

/-- A container that is kept whole on the interface is lost beside the one on the class. -/
theorem roles_lost_of_noted :
    noted.model.Accepted ∧ noted.config.check = .ok () ∧
      ∃ result, noted.build none {} {} ⟨3⟩ = .ok result ∧
        ∃ entry, result.metadata.annotations.get? "a.Roles" = some entry ∧
          entry.nested ∉ result.metadata.annotationsFor "a.Roles" := by
  obtain ⟨d, hd⟩ : ∃ d, noted.model.declaration? ⟨3⟩ = some d := ⟨_, rfl⟩
  obtain ⟨result, hr, -, hmd⟩ := build_eq none {} hd {}
  refine ⟨accepted_noted, rfl, result, hr, ?_⟩
  have hwf := wellFormed_of_build hr
  rw [hmd] at hwf ⊢
  have hnone : noted.repeatableContainer? "a.Roles" = none := by decide
  have hplain : noted.plainOn ⟨⟨3⟩, d⟩ "a.Roles" ⟨2⟩ ≠ [] := by
    cases hd
    decide
  have hmerged := (mem_names_annotations_iff ⟨⟨3⟩, d⟩ hnone {} (result.cache.defaultsOf noted)).mpr
    ⟨⟨2⟩, by simp [levels_noted], hplain⟩
  obtain ⟨entry, hg⟩ := Members.exists_get?_of_mem_names hmerged
  refine ⟨entry, hg, fun hmem => ?_⟩
  obtain ⟨o, ho, hc⟩ : ∃ o ∈ noted.occurrences {} ⟨⟨3⟩, d⟩, o.container = some "a.Roles" := by
    rw [occurrences, levels_noted]
    cases hd
    exact ⟨_, List.mem_cons_self, rfl⟩
  obtain ⟨repeated, hget, -, hcontainer, -⟩ :=
    exists_repeated_of_mem_occurrences (result.cache.defaultsOf noted) ho hc
  obtain ⟨first, hfirst⟩ :=
    Metadata.exists_containerEntry? (Members.mem_values_of_get? hget) hcontainer
  rw [Metadata.annotationsFor_of_containerEntry? hwf
    (Members.get?_eq_none_iff.mpr (hwf.notMem_repeated hmerged)) hfirst, List.mem_singleton] at hmem
  -- The container that is put together has no note.
  have hnote : entry.values.get? "note" = some ⟨.str "base", .inherited⟩ := by
    rw [(of_get?_annotations_metadataOf ⟨⟨3⟩, d⟩ accepted_noted hd hnone hg).2, nearestValue?,
      levels_noted]
    cases hd
    rfl
  have hnested : entry.nested.values.get? "note" = some (.str "base") :=
    (Members.lookup_mapNamed (fun _ => SourcedValue.value) entry.values.entries "note").trans
      (congrArg (Option.map SourcedValue.value) hnote)
  rw [hmem] at hnested
  cases hnested

/-- The container on the class `a.Service` of the other sample is all that there is for its name. -/
theorem build_losesNothing_iff_service :
    ∃ result, service.build none {} {} ⟨9⟩ = .ok result ∧
      result.metadata.LosesNothing "a.Roles" := by
  have hd : service.model.declaration? ⟨9⟩ = some _ := rfl
  obtain ⟨result, hr, -, hmd⟩ := build_eq none {} hd {}
  have hrepeated : result.metadata.repeated.names = ["a.Role"] := by
    rw [hmd, names_repeated_metadataOf, occurrences, levels_service]
    rfl
  have hannotations : result.metadata.annotations.names = ["a.Named"] := by
    rw [hmd, names_annotations_metadataOf, occurrences, levels_service]
    rfl
  have hrole : ∀ repeated ∈ result.metadata.repeated.values,
      repeated.annotationType = "a.Role" := by
    intro repeated hmem
    have hname := Members.mem_names_of_get? ((wellFormed_of_build hr).mem_repeated_iff.mp hmem)
    rw [hrepeated] at hname
    exact List.mem_singleton.mp hname
  refine ⟨result, hr, (build_losesNothing_iff hr "a.Roles").mpr ⟨?_, ?_⟩⟩
  · intro repeated hmem _ other ho _
    rw [hrole other ho, hrole repeated hmem]
  · intro entry he
    have hname := Members.mem_names_of_get? he
    rw [hannotations] at hname
    exact absurd hname (by decide)

end Environment

end AnnotationResolution
