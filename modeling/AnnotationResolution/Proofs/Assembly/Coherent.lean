import AnnotationResolution.Proofs.Assembly.Entries
import AnnotationResolution.Proofs.Assembly.Merged
import AnnotationResolution.Proofs.Assembly.Stereotypes

/-!
# Metadata that agree with themselves

The three maps of the metadata are filled one after the other, each in its own way.  Here we show what
they have in common in the end: `Coherent` says that every entry stands under its own name, that no
name is merged and repeated at once, which sources the values of an entry may have, where a stereotype
hangs, and that a name is kept for the same time wherever it occurs.

Two of these rest on the order in which levels are visited and on what a marker is.  An entry with a
declared value is declared itself because the declaration comes before all other levels
(`exists_mergesInto_of_mem_values`).  And no name is merged and repeated because the container that a
type names depends on nothing but the type (`container_of_mem_occurrences`).
-/

namespace AnnotationResolution

/-- How long an annotation type is kept, as each map has it. -/
def Metadata.retentions (md : Metadata) (name : String) : List Retention :=
  ((md.annotations.get? name).map AnnotationEntry.retention).toList ++
    ((md.repeated.get? name).map RepeatedEntry.retention).toList ++
      ((md.stereotypes.get? name).map (·.entry.retention)).toList

/-- A merged entry under its name.  A declared value makes it declared. -/
structure AnnotationEntry.MergedAs (name : String) (entry : AnnotationEntry) : Prop where
  annotationType_eq : entry.annotationType = name
  source_eq : entry.source = .declared ∨ entry.source = .inherited
  source_of_declared : ∀ v ∈ entry.values.values, v.source = .declared → entry.source = .declared

/-- A repeated entry under its name.  The values of an application have its source. -/
structure RepeatedEntry.RepeatedAs (name : String) (repeated : RepeatedEntry) : Prop where
  annotationType_eq : repeated.annotationType = name
  instances_ne_nil : repeated.instances ≠ []
  source_eq : ∀ use ∈ repeated.instances, ∀ v ∈ use.values.values,
    v.source = use.source ∨ v.source = .default

/-- A stereotype under its name. -/
structure StereotypeEntry.CarriedAs (name : String) (stereotype : StereotypeEntry) : Prop where
  annotationType_eq : stereotype.entry.annotationType = name
  source_eq : stereotype.entry.source = .stereotype
  source_of_value : ∀ v ∈ stereotype.entry.values.values,
    v.source = .stereotype ∨ v.source = .default
  parents_ne_nil : stereotype.parents ≠ []

namespace Environment

variable {env : Environment}

variable (env) in
/-- What holds of the metadata that are built in an environment. -/
structure Coherent (md : Metadata) : Prop where
  nodup_annotationNames : md.annotationNames.Nodup
  nodup_stereotypeNames : md.stereotypeNames.Nodup
  mergedAs : ∀ name entry, md.annotations.get? name = some entry → entry.MergedAs name
  repeatedAs : ∀ name repeated, md.repeated.get? name = some repeated → repeated.RepeatedAs name
  carriedAs : ∀ name stereotype, md.stereotypes.get? name = some stereotype →
    stereotype.CarriedAs name
  /-- The container of a repeated entry is the one that the marker of its type names. -/
  container_eq : ∀ name repeated, md.repeated.get? name = some repeated →
    env.repeatableContainer? name = some repeated.container
  mem_of_mem_parents : ∀ name stereotype, md.stereotypes.get? name = some stereotype →
    ∀ via ∈ stereotype.parents, via ∈ md.annotationNames ∨ via ∈ md.stereotypeNames
  /-- A name is kept for the same time in every map. -/
  eq_of_mem_retentions : ∀ name, ∀ a ∈ md.retentions name, ∀ b ∈ md.retentions name, a = b

/-! ## Where values come from -/

theorem source_of_mem_addRecorded {source : ValueSource} {values : Members SourcedValue}
    {recorded : List Recorded} {v : SourcedValue}
    (h : v ∈ (addRecorded source values recorded).values) : v ∈ values.values ∨ v.source = source := by
  rw [addRecorded_eq] at h
  refine (Members.mem_values_of_insertAll h).imp_right fun hnew => ?_
  obtain ⟨entry, he, rfl⟩ := List.mem_map.mp hnew
  obtain ⟨value, -, rfl⟩ := List.mem_map.mp he
  rfl

theorem source_of_mem_fillDefaults {defaults : Members Value} {values : Members SourcedValue}
    {v : SourcedValue} (h : v ∈ (fillDefaults defaults values).values) :
    v ∈ values.values ∨ v.source = .default := by
  rw [fillDefaults_eq] at h
  refine (Members.mem_values_of_insertAllNew h).imp_right fun hnew => ?_
  obtain ⟨entry, he, rfl⟩ := List.mem_map.mp hnew
  obtain ⟨value, -, rfl⟩ := List.mem_map.mp he
  rfl

/-- A merged value has the source of an occurrence that is merged. -/
theorem exists_mergesInto_of_mem_values {occurrences : List Occurrence} {name : String}
    {pending : PendingEntry}
    (hp : (env.collectAll occurrences).annotations.get? name = some pending) {v : SourcedValue}
    (hv : v ∈ pending.values.values) :
    ∃ o ∈ occurrences, o.mergesInto name = true ∧ v.source = o.source := by
  -- Along the run: the value was there at the start, or one of the occurrences brought it in.
  have hrun : ∀ (run : List Occurrence) (start : Option PendingEntry),
      run.foldl (fun entry o => some (env.mergeInto entry o)) start = some pending →
        (∃ entry, start = some entry ∧ v ∈ entry.values.values) ∨ ∃ o ∈ run, v.source = o.source := by
    intro run
    induction run with
    | nil => exact fun start hs => Or.inl ⟨pending, hs, hv⟩
    | cons o rest ih =>
      intro start hs
      rcases ih _ hs with ⟨entry, he, hentry⟩ | ⟨other, ho, hsource⟩
      · obtain rfl := Option.some.inj he
        rcases source_of_mem_addRecorded hentry with hold | hnew
        · cases start with
          | none => cases hold
          | some entry => exact Or.inl ⟨entry, rfl, hold⟩
        · exact Or.inr ⟨o, List.mem_cons_self, hnew⟩
      · exact Or.inr ⟨other, List.mem_cons_of_mem _ ho, hsource⟩
  rw [collectAll, get?_annotations_foldl] at hp
  rcases hrun _ _ hp with ⟨entry, he, -⟩ | ⟨o, ho, hs⟩
  · cases he
  · obtain ⟨ho, hm⟩ := List.mem_filter.mp ho
    exact ⟨o, ho, hm, hs⟩

theorem source_of_mem_withUse {pending : PendingStereotype} {use : MetaUse} {v : SourcedValue}
    (h : v ∈ (env.withUse pending use).values.values) :
    v ∈ pending.values.values ∨ v.source = .stereotype := by
  rw [values_withUse] at h
  refine (Members.mem_values_of_insertAllNew h).imp_right fun hnew => ?_
  obtain ⟨entry, he, rfl⟩ := List.mem_map.mp hnew
  obtain ⟨value, -, rfl⟩ := List.mem_map.mp he
  rfl

theorem source_of_mem_foldl_withUse {uses : List MetaUse} {pending : PendingStereotype}
    {v : SourcedValue} (h : v ∈ (uses.foldl env.withUse pending).values.values) :
    v ∈ pending.values.values ∨ v.source = .stereotype := by
  induction uses generalizing pending with
  | nil => exact Or.inl h
  | cons use rest ih =>
    rcases ih h with hv | hs
    · exact source_of_mem_withUse hv
    · exact Or.inr hs

theorem names_nodup_pendingStereotypes (uses : List MetaUse) :
    (env.pendingStereotypes uses).names.Nodup := by
  have hrun : ∀ pending : Members PendingStereotype, pending.names.Nodup →
      (uses.foldl env.addUse pending).names.Nodup := by
    induction uses with
    | nil => exact fun _ hn => hn
    | cons use rest ih => exact fun pending hn => ih _ (Members.names_nodup_insert hn _ _)
  exact hrun ∅ List.nodup_nil

/-! ## The entries -/

variable {options : BuildOptions} {target : BuildTarget} {defaults : String → Members Value}
  {name : String}

theorem mergedAs_of_get? (hm : env.model.Accepted)
    (hd : env.model.declaration? target.id = some target.declaration) {entry : AnnotationEntry}
    (he : (env.metadataOf defaults (env.assemble options target)).annotations.get? name =
      some entry) : entry.MergedAs name := by
  have hnone := repeatableContainer?_of_mem_annotations defaults (Members.mem_names_of_get? he)
  obtain ⟨hsource, -⟩ := of_get?_annotations_metadataOf target hm hd hnone he
  rw [get?_annotations_metadataOf] at he
  obtain ⟨pending, hp, rfl⟩ := Option.map_eq_some_iff.mp he
  refine ⟨rfl, ?_, fun v hv hdeclared => ?_⟩
  · rw [hsource]
    split
    · exact Or.inr rfl
    · exact Or.inl rfl
  · rw [hsource]
    rcases source_of_mem_fillDefaults hv with hmerged | hdefault
    · -- The value comes from an annotation on the declaration itself.
      obtain ⟨o, ho, hmerges, hs⟩ := exists_mergesInto_of_mem_values hp hmerged
      obtain ⟨hplain, hlevel⟩ := mem_plainOn_of_mergesInto ho hmerges
      rw [hs, hlevel, sourceOf] at hdeclared
      split at hdeclared
      · next hself =>
        rw [hself] at hplain
        exact if_neg (List.ne_nil_of_mem hplain)
      · cases hdeclared
    · rw [hdefault] at hdeclared
      cases hdeclared

theorem repeatedAs_of_get? {repeated : RepeatedEntry}
    (hr : (env.metadataOf defaults (env.assemble options target)).repeated.get? name =
      some repeated) : repeated.RepeatedAs name where
  annotationType_eq := (wellFormed_metadataOf defaults).annotationType_eq hr
  instances_ne_nil := (wellFormed_metadataOf defaults).instances_ne_nil hr
  source_eq := by
    rw [get?_repeated_metadataOf, get?_repeated_collectAll] at hr
    obtain ⟨pending, hp, rfl⟩ := Option.map_eq_some_iff.mp hr
    obtain ⟨first, -, rfl⟩ := Option.map_eq_some_iff.mp hp
    intro use hu v hv
    obtain ⟨plain, happ, rfl⟩ := List.mem_map.mp hu
    obtain ⟨o, -, rfl⟩ := List.mem_map.mp happ
    rcases source_of_mem_fillDefaults hv with hrecorded | hdefault
    · rcases source_of_mem_addRecorded hrecorded with hempty | hs
      · cases hempty
      · exact Or.inl hs
    · exact Or.inr hdefault

theorem container_eq_of_get? {repeated : RepeatedEntry}
    (hr : (env.metadataOf defaults (env.assemble options target)).repeated.get? name =
      some repeated) : env.repeatableContainer? name = some repeated.container := by
  rw [get?_repeated_metadataOf, get?_repeated_collectAll] at hr
  obtain ⟨pending, hp, rfl⟩ := Option.map_eq_some_iff.mp hr
  obtain ⟨first, hf, rfl⟩ := Option.map_eq_some_iff.mp hp
  obtain ⟨ho, hrepeats⟩ := List.mem_filter.mp (List.mem_of_head? hf)
  obtain ⟨container, hc, hnamed⟩ := repeatableContainer?_of_repeats ho hrepeats
  show _ = some (first.container.getD "")
  rw [hnamed, hc]
  rfl

/-- Without stereotypes there is nothing to say about them. -/
theorem stereotypes_on_of_get? {stereotype : StereotypeEntry}
    (hs : (env.metadataOf defaults (env.assemble options target)).stereotypes.get? name =
      some stereotype) : env.config.stereotypes = true := by
  by_contra hoff
  have huses : (env.assemble options target).uses = [] := if_neg hoff
  rw [metadataOf, huses] at hs
  cases hs

theorem carriedAs_of_get? (hm : env.model.Accepted) {stereotype : StereotypeEntry}
    (hs : (env.metadataOf defaults (env.assemble options target)).stereotypes.get? name =
      some stereotype) :
    stereotype.CarriedAs name ∧ ∀ via ∈ stereotype.parents,
      via ∈ (env.metadataOf defaults (env.assemble options target)).annotationNames ∨
        via ∈ (env.metadataOf defaults (env.assemble options target)).stereotypeNames := by
  have hon := stereotypes_on_of_get? hs
  have hname := Members.mem_names_of_get? hs
  obtain rfl := eq_gathered_of_get?_stereotypes hon hs
  have hgathers : env.GathersFrom
      (env.metadataOf defaults (env.assemble options target)).annotationNames
      (env.gathered (env.metadataOf defaults (env.assemble options target)).annotationNames name
        defaults) := gathersFrom_gathered hm
  refine ⟨⟨rfl, rfl, fun v hv => ?_, ?_⟩, fun via hvia => ?_⟩
  · rcases source_of_mem_fillDefaults hv with hgiven | hdefault
    · exact Or.inl ((source_of_mem_foldl_withUse hgiven).resolve_left List.not_mem_nil)
    · exact Or.inr hdefault
  · obtain ⟨via, hr, hcarries⟩ := (mem_stereotypeNames_metadataOf_iff hon).mp hname
    exact List.ne_nil_of_mem ((hgathers.mem_parents_iff via).mpr ⟨hr, hcarries⟩)
  · obtain ⟨hr, -⟩ := (hgathers.mem_parents_iff via).mp hvia
    cases hr with
    | given hn => exact Or.inl hn
    | @carried other a hother ha =>
      exact Or.inr ((mem_stereotypeNames_metadataOf_iff hon).mpr ⟨other, hother, a, ha, rfl⟩)

theorem eq_retention_of_mem_retentions {retention : Retention}
    (h : retention ∈
      (env.metadataOf defaults (env.assemble options target)).retentions name) :
    retention = env.retention name := by
  have hmap : ∀ {α β : Type} {m : Members α} {f : String → α → β} {g : β → Retention},
      (∀ value, g (f name value) = env.retention name) →
        retention ∈ (((m.mapNamed f).get? name).map g).toList → retention = env.retention name := by
    intro α β m f g hf hr
    rw [Option.mem_toList, Members.get?_mapNamed, Option.map_map] at hr
    obtain ⟨value, -, rfl⟩ := Option.map_eq_some_iff.mp hr
    exact hf value
  rw [Metadata.retentions, List.mem_append, List.mem_append] at h
  rcases h with (h | h) | h
  all_goals exact hmap (fun _ => rfl) h

/-- **All metadata that are built agree with themselves.** -/
theorem coherent_metadataOf (hm : env.model.Accepted)
    (hd : env.model.declaration? target.id = some target.declaration) :
    env.Coherent (env.metadataOf defaults (env.assemble options target)) where
  nodup_annotationNames := by
    have hwf : (env.metadataOf defaults (env.assemble options target)).WellFormed :=
      wellFormed_metadataOf defaults
    rw [Metadata.annotationNames, List.nodup_append]
    refine ⟨?_, hwf.nodup_repeated, fun a ha b hb he => hwf.notMem_repeated ha (he ▸ hb)⟩
    rw [names_annotations_metadataOf]
    exact (names_nodup_collectAll _).1
  nodup_stereotypeNames := by
    rw [Metadata.stereotypeNames, metadataOf, Members.names_mapNamed]
    exact names_nodup_pendingStereotypes _
  mergedAs _ _ := mergedAs_of_get? hm hd
  repeatedAs _ _ := repeatedAs_of_get?
  carriedAs _ _ hs := (carriedAs_of_get? hm hs).1
  container_eq _ _ := container_eq_of_get?
  mem_of_mem_parents _ _ hs := (carriedAs_of_get? hm hs).2
  eq_of_mem_retentions _ _ ha _ hb :=
    (eq_retention_of_mem_retentions ha).trans (eq_retention_of_mem_retentions hb).symm

/-! ## A build -/

/-- **Every build returns metadata that agree with themselves.** -/
theorem build_coherent (hm : env.model.Accepted) (validator : Option Validator)
    (cache : DefaultCache) (options : BuildOptions) {id : DeclId} {d : Declaration}
    (hd : env.model.declaration? id = some d) :
    ∃ result, env.build validator cache options id = .ok result ∧ env.Coherent result.metadata := by
  obtain ⟨result, hr, -, hmd⟩ := build_eq validator options hd cache
  refine ⟨result, hr, ?_⟩
  rw [hmd]
  exact coherent_metadataOf hm hd

/-- The class `a.Service` has a merged and a repeated annotation, and each is named once. -/
theorem build_coherent_service :
    ∃ result, service.build none {} {} ⟨9⟩ = .ok result ∧ service.Coherent result.metadata ∧
      result.metadata.annotationNames = ["a.Named", "a.Role"] := by
  have hd : service.model.declaration? ⟨9⟩ = some _ := rfl
  obtain ⟨result, hr, hcoherent⟩ := build_coherent accepted_service none {} {} hd
  obtain ⟨again, hagain, -, hmd⟩ := build_eq none {} hd {}
  obtain rfl : again = result := Except.ok.inj (hagain.symm.trans hr)
  refine ⟨again, hr, hcoherent, ?_⟩
  rw [hmd, Metadata.annotationNames, names_annotations_metadataOf, names_repeated_metadataOf,
    occurrences, levels_service]
  rfl

end Environment

end AnnotationResolution
