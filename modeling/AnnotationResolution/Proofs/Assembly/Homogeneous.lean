import Mathlib.Data.List.Induction
import AnnotationResolution.Proofs.Assembly.Building
import AnnotationResolution.Proofs.Value.Homogeneous

/-!
# Lists in metadata

The values in metadata are recorded values and defaults, and all of these are flat
(`Environment.flat_readValue`, `Environment.flat_of_mem_defaultValues`).  What is left to see is that
nothing else gets in: each step of putting metadata together keeps the values flat, whatever was
looked up in the cache before.  The containers that `annotationsFor` puts together hold annotations
and nothing else.
-/

namespace AnnotationResolution

/-- A cache that is new or in which defaults were looked up, under whatever models and
configurations. -/
inductive DefaultCache.Filled : DefaultCache → Prop
  | new : DefaultCache.Filled {}
  | stored {cache : DefaultCache} (h : DefaultCache.Filled cache) (env : Environment)
      (name : String) (annotationType : DeclId) :
      DefaultCache.Filled (cache.store env name annotationType)

/-- A value is somewhere in the metadata. -/
inductive Metadata.HoldsValue (md : Metadata) : Value → Prop
  | merged {entry : AnnotationEntry} {v : SourcedValue} : entry ∈ md.annotations.values →
      v ∈ entry.values.values → Metadata.HoldsValue md v.value
  | repeated {entry : RepeatedEntry} {use : RepeatedInstance} {v : SourcedValue} :
      entry ∈ md.repeated.values → use ∈ entry.instances → v ∈ use.values.values →
      Metadata.HoldsValue md v.value
  | stereotype {stereotype : StereotypeEntry} {v : SourcedValue} :
      stereotype ∈ md.stereotypes.values → v ∈ stereotype.entry.values.values →
      Metadata.HoldsValue md v.value

/-- The values of these members are flat. -/
def AllFlat (values : Members SourcedValue) : Prop := ∀ v ∈ values.values, v.value.Flat

theorem allFlat_empty : AllFlat ∅ := fun _ hv => absurd hv List.not_mem_nil

theorem mem_values_mapNamed {α β : Type} {f : String → α → β} {m : Members α} {value : β}
    (h : value ∈ (m.mapNamed f).values) : ∃ name, ∃ a ∈ m.values, value = f name a := by
  obtain ⟨entry, he, rfl⟩ := List.mem_map.mp h
  obtain ⟨⟨name, a⟩, ha, rfl⟩ := List.mem_map.mp he
  exact ⟨name, a, List.mem_map_of_mem (f := (·.2)) ha, rfl⟩

/-! ## Recorded values and defaults -/

theorem of_mem_sourced {source : ValueSource} {values : List (String × Value)} {v : SourcedValue}
    (h : v ∈ (sourced source values).map (·.2)) : v.value ∈ values.map (·.2) := by
  rw [sourced, List.map_map] at h
  obtain ⟨entry, he, rfl⟩ := List.mem_map.mp h
  exact List.mem_map_of_mem (f := (·.2)) he

theorem allFlat_addRecorded {source : ValueSource} {values : Members SourcedValue}
    {recorded : List Recorded} (h : AllFlat values) (hr : ∀ r ∈ recorded, r.value.Flat) :
    AllFlat (addRecorded source values recorded) := by
  intro v hv
  rw [addRecorded_eq] at hv
  rcases Members.mem_values_of_insertAll hv with hold | hnew
  · exact h v hold
  · have hvalue := of_mem_sourced hnew
    rw [List.map_map] at hvalue
    obtain ⟨r, hmem, hrv⟩ := List.mem_map.mp hvalue
    exact hrv ▸ hr r hmem

theorem allFlat_fillDefaults {defaults : Members Value} {values : Members SourcedValue}
    (hd : ∀ v ∈ defaults.values, v.Flat) (h : AllFlat values) :
    AllFlat (fillDefaults defaults values) := by
  intro v hv
  rw [fillDefaults_eq] at hv
  rcases Members.mem_values_of_insertAllNew hv with hold | hnew
  · exact h v hold
  · exact hd _ (of_mem_sourced hnew)

namespace DefaultCache

variable {cache : DefaultCache}

theorem Filled.foldl_ensure (h : cache.Filled) (env : Environment) (names : List String) :
    (names.foldl (DefaultCache.ensure env) cache).Filled := by
  induction names generalizing cache with
  | nil => exact h
  | cons name rest ih =>
    refine ih ?_
    rw [ensure]
    split
    · exact h.stored env name _
    · exact h

theorem Filled.flat_of_get? (h : cache.Filled) {name : String} {values : Members Value}
    (hg : cache.get? name = some values) : ∀ v ∈ values.values, v.Flat := by
  have hstored : ∀ values ∈ cache.entries.values, ∀ v ∈ values.values, v.Flat := by
    clear hg
    induction h with
    | new => exact fun _ hv => absurd hv List.not_mem_nil
    | @stored cache _ env name annotationType ih =>
      intro values hv
      rw [store] at hv
      split at hv
      · exact ih values hv
      · rcases Members.mem_values_of_insert hv with hold | rfl
        · exact ih values hold
        · exact fun v => Environment.flat_of_mem_defaultValues
  exact hstored values (Members.mem_values_of_get? hg)

theorem Filled.flat_defaultsOf (h : cache.Filled) (env : Environment) (name : String) :
    ∀ v ∈ (cache.defaultsOf env name).values, v.Flat := by
  rw [defaultsOf]
  split
  · cases hg : cache.get? name with
    | none => exact fun _ hv => absurd hv List.not_mem_nil
    | some values => exact h.flat_of_get? hg
  · exact fun _ hv => absurd hv List.not_mem_nil

end DefaultCache

namespace Environment

variable {env : Environment}

theorem flat_of_mem_recordMembers {origin : DeclId} {annotationType : String}
    {entries : List (String × Expr)} {present : List String} {r : Recorded}
    (h : r ∈ env.recordMembers origin annotationType present entries) : r.value.Flat := by
  induction entries generalizing present with
  | nil => cases h
  | cons entry rest ih =>
    obtain ⟨member, e⟩ := entry
    rw [recordMembers] at h
    split at h
    · exact ih h
    · next recorded hr =>
      rcases List.mem_cons.mp h with rfl | hrest
      · rw [record?] at hr
        split at hr
        · cases hr
        · obtain ⟨value, hv, rfl⟩ := Option.map_eq_some_iff.mp hr
          exact flat_readValue hv
      · exact ih hrest

/-! ## Collected annotations -/

/-- All values collected so far are flat. -/
structure FlatCollected (collected : Collected) : Prop where
  annotations : ∀ entry ∈ collected.annotations.values, AllFlat entry.values
  repeated : ∀ entry ∈ collected.repeated.values, ∀ use ∈ entry.instances, AllFlat use.values

theorem FlatCollected.collect {collected : Collected} (h : FlatCollected collected)
    (o : Occurrence) : FlatCollected (env.collect collected o) := by
  obtain ⟨level, source, applied, container⟩ := o
  cases container with
  | none =>
    refine ⟨fun entry he => ?_, h.repeated⟩
    have hpresent : AllFlat
        ((collected.annotations.get? applied.annotationType).getD { source }).values := by
      cases hg : collected.annotations.get? applied.annotationType with
      | none => exact allFlat_empty
      | some present => exact h.annotations present (Members.mem_values_of_get? hg)
    rcases Members.mem_values_of_insert he with hold | rfl
    · exact h.annotations entry hold
    · exact allFlat_addRecorded hpresent fun _ => flat_of_mem_recordMembers
  | some container =>
    refine ⟨h.annotations, fun entry he => ?_⟩
    have hpresent : ∀ use ∈ ((collected.repeated.get? applied.annotationType).getD
        { container }).instances, AllFlat use.values := by
      cases hg : collected.repeated.get? applied.annotationType with
      | none => exact fun _ hu => absurd hu List.not_mem_nil
      | some present => exact h.repeated present (Members.mem_values_of_get? hg)
    rcases Members.mem_values_of_insert he with hold | rfl
    · exact h.repeated entry hold
    · intro use hu
      rcases List.mem_append.mp hu with hbefore | hnew
      · exact hpresent use hbefore
      · obtain rfl := List.mem_singleton.mp hnew
        exact allFlat_addRecorded allFlat_empty fun _ => flat_of_mem_recordMembers

theorem flatCollected_collectAll (occurrences : List Occurrence) :
    FlatCollected (env.collectAll occurrences) := by
  induction occurrences using List.reverseRecOn with
  | nil => exact ⟨fun _ he => absurd he List.not_mem_nil, fun _ he => absurd he List.not_mem_nil⟩
  | append_singleton before o ih =>
    rw [collectAll, List.foldl_append]
    exact ih.collect o

theorem allFlat_addUse {pending : Members PendingStereotype}
    (h : ∀ stereotype ∈ pending.values, AllFlat stereotype.values) (use : MetaUse) :
    ∀ stereotype ∈ (env.addUse pending use).values, AllFlat stereotype.values := by
  intro stereotype hs
  rcases Members.mem_values_of_insert hs with hold | rfl
  · exact h stereotype hold
  · intro v hv
    have hpresent : AllFlat
        ((pending.get? use.applied.annotationType).getD {}).values := by
      cases hg : pending.get? use.applied.annotationType with
      | none => exact allFlat_empty
      | some present => exact h present (Members.mem_values_of_get? hg)
    have hadd : (((pending.get? use.applied.annotationType).getD {}).add use.via
        (env.recordUse use)).values =
        (((pending.get? use.applied.annotationType).getD {}).values).insertAllNew
          ((env.recordUse use).map fun r => (r.member, ⟨r.value, .stereotype⟩)) := by
      rw [PendingStereotype.add, Members.insertAllNew, List.foldl_map]
    rw [hadd] at hv
    rcases Members.mem_values_of_insertAllNew hv with hold | hnew
    · exact hpresent v hold
    · rw [List.map_map] at hnew
      obtain ⟨r, hr, rfl⟩ := List.mem_map.mp hnew
      exact flat_of_mem_recordMembers hr

theorem allFlat_pendingStereotypes (uses : List MetaUse) :
    ∀ stereotype ∈ (env.pendingStereotypes uses).values, AllFlat stereotype.values := by
  induction uses using List.reverseRecOn with
  | nil => exact fun _ hs => absurd hs List.not_mem_nil
  | append_singleton before use ih =>
    rw [pendingStereotypes, List.foldl_append]
    exact allFlat_addUse ih use

/-! ## Metadata -/

theorem flat_of_holdsValue_metadataOf {defaults : String → Members Value}
    (hd : ∀ name, ∀ v ∈ (defaults name).values, v.Flat) (options : BuildOptions)
    (target : BuildTarget) {v : Value}
    (hv : (env.metadataOf defaults (env.assemble options target)).HoldsValue v) : v.Flat := by
  have hcollected : FlatCollected (env.collectAll (env.occurrences options target)) :=
    flatCollected_collectAll _
  cases hv with
  | merged he hv =>
    obtain ⟨name, pending, hp, rfl⟩ := mem_values_mapNamed he
    exact allFlat_fillDefaults (hd name) (hcollected.annotations pending hp) _ hv
  | repeated he hu hv =>
    obtain ⟨name, pending, hp, rfl⟩ := mem_values_mapNamed he
    obtain ⟨collected, hc, rfl⟩ := List.mem_map.mp hu
    exact allFlat_fillDefaults (hd name) (hcollected.repeated pending hp collected hc) _ hv
  | stereotype hs hv =>
    obtain ⟨name, pending, hp, rfl⟩ := mem_values_mapNamed hs
    exact allFlat_fillDefaults (hd name) (allFlat_pendingStereotypes _ pending hp) _ hv

end Environment

namespace Metadata

variable {md : Metadata}

theorem flat_of_plainValues {annotationType : String} {values : Members SourcedValue}
    (h : AllFlat values) : NestedAnnotation.Flat ⟨annotationType, plainValues values⟩ := by
  refine NestedAnnotation.flat_iff.mpr fun v hv => ?_
  obtain ⟨entry, he, rfl⟩ := List.mem_map.mp hv
  obtain ⟨sourcedEntry, hs, rfl⟩ := List.mem_map.mp he
  exact h _ (List.mem_map_of_mem (f := (·.2)) hs)

/-- **A container holds annotations only.** -/
theorem flat_containerOf {container : String} {items : List NestedAnnotation}
    (h : ∀ a ∈ items, a.Flat) : (containerOf container items).Flat := by
  refine NestedAnnotation.flat_iff.mpr fun v hv => ?_
  obtain rfl := List.mem_singleton.mp hv
  refine Value.flat_list_iff.mpr ⟨⟨?_, ?_, Component.noConfusion⟩, ?_⟩
  all_goals
    intro item hi
    obtain ⟨a, ha, rfl⟩ := List.mem_map.mp hi
  · rfl
  · rfl
  · exact Value.flat_nested_iff.mpr (h a ha)

theorem flat_of_mem_nested {repeated : RepeatedEntry}
    (h : ∀ use ∈ repeated.instances, AllFlat use.values) : ∀ a ∈ repeated.nested, a.Flat := by
  intro a ha
  obtain ⟨use, hu, rfl⟩ := List.mem_map.mp ha
  exact flat_of_plainValues (h use hu)

theorem flat_of_entry? (h : ∀ v, md.HoldsValue v → v.Flat) {annotationType : String}
    {entry : AnnotationEntry} (he : md.entry? annotationType = some entry) : entry.nested.Flat := by
  rw [Metadata.entry?] at he
  refine flat_of_plainValues fun v hv => ?_
  split at he
  · next found hg =>
    obtain rfl := Option.some.inj he
    exact h _ (.merged (Members.mem_values_of_get? hg) hv)
  · obtain ⟨stereotype, hg, rfl⟩ := Option.map_eq_some_iff.mp he
    exact h _ (.stereotype (Members.mem_values_of_get? hg) hv)

/-- What `annotationsFor` answers with: applications, an entry, or a container of the answers for
the type it contains. -/
theorem mem_annotationsWithin {depth : Nat} {annotationType : String} {a : NestedAnnotation}
    (h : a ∈ md.annotationsWithin depth annotationType) :
    (∃ repeated, md.repeated.get? annotationType = some repeated ∧ a ∈ repeated.nested) ∨
      (∃ entry, md.entry? annotationType = some entry ∧ a = entry.nested) ∨
      ∃ below inner, depth = below + 1 ∧
        a = containerOf annotationType (md.annotationsWithin below inner) := by
  cases hr : md.repeated.get? annotationType with
  | some repeated =>
    have hw : md.annotationsWithin depth annotationType = repeated.nested := by
      cases depth <;> rw [annotationsWithin, hr]
    exact Or.inl ⟨repeated, rfl, hw ▸ h⟩
  | none =>
    cases hc : md.containerEntry? annotationType with
    | none =>
      have hw : md.annotationsWithin depth annotationType =
          ((md.entry? annotationType).map AnnotationEntry.nested).toList := by
        cases depth <;> rw [annotationsWithin, hr, hc]
      rw [hw, Option.mem_toList] at h
      obtain ⟨entry, he, rfl⟩ := Option.map_eq_some_iff.mp h
      exact Or.inr (Or.inl ⟨entry, he, rfl⟩)
    | some repeated =>
      cases depth with
      | zero =>
        rw [annotationsWithin, hr, hc] at h
        cases h
      | succ below =>
        rw [annotationsWithin, hr, hc] at h
        exact Or.inr (Or.inr ⟨below, repeated.annotationType, rfl, List.mem_singleton.mp h⟩)

/-- By induction on how far containers may lie in one another. -/
theorem flat_of_mem_annotationsWithin (h : ∀ v, md.HoldsValue v → v.Flat) (depth : Nat)
    (annotationType : String) : ∀ a ∈ md.annotationsWithin depth annotationType, a.Flat := by
  induction depth using Nat.strongRecOn generalizing annotationType with
  | ind depth ih =>
    intro a ha
    rcases mem_annotationsWithin ha with ⟨repeated, hg, hmem⟩ | ⟨entry, he, rfl⟩ |
      ⟨below, inner, rfl, rfl⟩
    · refine flat_of_mem_nested (fun use hu v hv => ?_) a hmem
      exact h _ (.repeated (Members.mem_values_of_get? hg) hu hv)
    · exact flat_of_entry? h he
    · exact flat_containerOf (ih below (Nat.lt_succ_self below) inner)

end Metadata

namespace Environment

theorem flat_of_holdsValue_of_build {env : Environment} {validator : Option Validator}
    {cache : DefaultCache} (hc : cache.Filled) {options : BuildOptions} {id : DeclId}
    {result : BuildResult} (h : env.build validator cache options id = .ok result) {v : Value}
    (hv : result.metadata.HoldsValue v) : v.Flat := by
  cases hd : env.model.declaration? id with
  | none =>
    rw [build, hd] at h
    cases h
  | some d =>
    obtain ⟨found, hr, hcache, hmetadata⟩ := build_eq validator options hd cache
    obtain rfl : found = result := Except.ok.inj (hr.symm.trans h)
    have hfilled : found.cache.Filled := hcache ▸ hc.foldl_ensure env _
    rw [hmetadata] at hv
    exact flat_of_holdsValue_metadataOf (hfilled.flat_defaultsOf env) options ⟨id, d⟩ hv

/-- **Every list in a result is of one kind and holds no list**: in a value or annotation that is
read, in the defaults, and in whatever a build or a query of what was built returns. -/
theorem flat_results (env : Environment) :
    (∀ member raw v, env.readValue member raw = some v → v.Flat) ∧
      (∀ a, (env.readAnnotation a).Flat) ∧
      (∀ annotationType, ∀ v ∈ (env.defaultValues annotationType).values, v.Flat) ∧
      ∀ cache : DefaultCache, cache.Filled → ∀ validator options id result,
        env.build validator cache options id = .ok result →
          (∀ v, result.metadata.HoldsValue v → v.Flat) ∧
          ∀ annotationType, ∀ a ∈ result.metadata.annotationsFor annotationType, a.Flat := by
  refine ⟨fun _ _ _ => flat_readValue, flat_readAnnotation, fun _ _ => flat_of_mem_defaultValues,
    fun cache hc validator options id result h => ?_⟩
  have hvalues : ∀ v, result.metadata.HoldsValue v → v.Flat :=
    fun _ => flat_of_holdsValue_of_build hc h
  exact ⟨hvalues, Metadata.flat_of_mem_annotationsWithin hvalues _⟩

/-- A string beside a list with a class: the string becomes a class, and the inner list is gone. -/
theorem flat_results_service :
    (∃ list : ValueList,
      service.readValue none (.expr (.list
        [.literal (.str "a.Named"), .list [.typeLiteral (.named "a.Role" [])]])) =
          some (.list list) ∧
      list.component = .classRef ∧ list.items = [.classRef "a.Named", .classRef "a.Role"] ∧
      list.Homogeneous) ∧
    ∃ result, service.build none {} {} ⟨9⟩ = .ok result ∧
      ∀ a ∈ result.metadata.annotationsFor "a.Roles", a.Flat := by
  obtain ⟨hread, -, -, hbuild⟩ := flat_results service
  have hd : service.model.declaration? ⟨9⟩ = some _ := rfl
  obtain ⟨result, hr, -⟩ := exists_build none {} hd .new
  refine ⟨⟨_, rfl, rfl, rfl, ?_⟩, result, hr, (hbuild {} .new none {} ⟨9⟩ result hr).2 "a.Roles"⟩
  exact (Value.flat_list_iff.mp (hread none (.expr (.list
    [.literal (.str "a.Named"), .list [.typeLiteral (.named "a.Role" [])]])) _ rfl)).1

end Environment

end AnnotationResolution
