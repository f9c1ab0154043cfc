import AnnotationResolution.Proofs.Assembly.Building
import AnnotationResolution.Proofs.Assembly.MetaUses
import AnnotationResolution.Proofs.Model.Mentioned
import AnnotationResolution.Proofs.Renumbering.Hierarchy

/-!
# Builds under new ids

What a build passes along, and what it says at the end, names declarations by their ids: an
occurrence its level, a recorded value its origin, a diagnostic the declaration that it is about.
The metadata name none.  So a build under new ids goes through the same steps with these ids
replaced, and the metadata come out the same.

Annotations serve two purposes in a build.  Those on the levels are put together, and those on an
annotation type say what is to be done with annotations of this type: which container they have, how
long they are kept, and what stereotypes they bring along.  One environment *mirrors* another
(`Environment.Mirrors`) when it has the same declarations under new ids and serves the second purpose
as before.  Then it gives the same metadata to a target as soon as the same is collected for it
(`Mirrors.exists_build_of_collectAll`), and so if the target has the same occurrences
(`Mirrors.exists_build`).

A validator is shown declarations, and these do hold ids and annotations.  What it says must not
depend on the new ones (`Validator.TreatsAlike`).
-/

namespace AnnotationResolution

/-! ## What names declarations -/

def BuildTarget.renumber (f : DeclId → DeclId) (target : BuildTarget) : BuildTarget :=
  ⟨f target.id, target.declaration.renumber f⟩

/-- The target with other annotations. -/
def BuildTarget.withAnnotations (annotations : List AnnotationInstance) (target : BuildTarget) :
    BuildTarget :=
  ⟨target.id, target.declaration.withAnnotations annotations⟩

def Occurrence.renumber (f : DeclId → DeclId) (o : Occurrence) : Occurrence :=
  { o with level := f o.level }

def Recorded.renumber (f : DeclId → DeclId) (r : Recorded) : Recorded :=
  { r with origin := f r.origin, method := r.method.map f }

def Collected.renumber (f : DeclId → DeclId) (collected : Collected) : Collected :=
  { collected with recorded := collected.recorded.map (Recorded.renumber f) }

def MetaUse.renumber (f : DeclId → DeclId) (use : MetaUse) : MetaUse :=
  { use with carrier := f use.carrier }

def Assembly.renumber (f : DeclId → DeclId) (assembly : Assembly) : Assembly :=
  ⟨assembly.collected.renumber f, assembly.uses.map (MetaUse.renumber f)⟩

def Diagnostic.renumber (f : DeclId → DeclId) (d : Diagnostic) : Diagnostic :=
  { d with declaration := f d.declaration }

/-- The result with new ids for the declarations that its diagnostics are about. -/
def BuildResult.renumber (f : DeclId → DeclId) (result : BuildResult) : BuildResult :=
  { result with diagnostics := result.diagnostics.map (Diagnostic.renumber f) }

/-- What the validator says stays the same when ids are exchanged in what it is shown. -/
def Validator.IgnoresIds (validate : Validator) : Prop :=
  ∀ (σ : Equiv.Perm DeclId) d annotationType method member value,
    validate (d.renumber σ) annotationType (method.map (Declaration.renumber σ)) member value =
      validate d annotationType method member value

/-- The validator says the same whether it is shown the declarations of the one model or those of
the other. -/
def Validator.TreatsAlike (σ : Equiv.Perm DeclId) (m other : Model) (validate : Validator) : Prop :=
  ∀ id (method : Option DeclId) d d', m.declaration? id = some d →
    other.declaration? (σ id) = some d' → ∀ annotationType member value,
      validate d' annotationType ((method.map σ).bind other.declaration?) member value =
        validate d annotationType (method.bind m.declaration?) member value

theorem Validator.ignoresIds_nonEmpty (specs : List String) :
    (Validator.nonEmpty specs).IgnoresIds :=
  fun _ _ _ _ _ _ => rfl

theorem addRecorded_map_renumber (f : DeclId → DeclId) (source : ValueSource)
    (values : Members SourcedValue) (recorded : List Recorded) :
    addRecorded source values (recorded.map (Recorded.renumber f)) =
      addRecorded source values recorded := by
  rw [addRecorded, addRecorded, List.foldl_map]
  rfl

theorem PendingStereotype.add_map_renumber (f : DeclId → DeclId) (pending : PendingStereotype)
    (via : String) (recorded : List Recorded) :
    pending.add via (recorded.map (Recorded.renumber f)) = pending.add via recorded := by
  rw [add, add, List.foldl_map]
  rfl

/-! ## What depends on no annotation -/

namespace Environment.SameShape

variable {σ : Equiv.Perm DeclId} {env moved : Environment} (h : env.SameShape σ moved)

include h

/-- Values that are read for no member. -/
theorem readValue_none : moved.readValue none = env.readValue none := by
  funext raw
  exact h.readValue none raw

theorem holdsArray (annotationType : String) :
    moved.holdsArray annotationType = env.holdsArray annotationType := by
  rw [Environment.holdsArray, Environment.holdsArray, h.model.annotationMember?]
  cases env.model.annotationMember? annotationType "value" with
  | none => rfl
  | some method =>
    rw [Option.map_some, Option.bind_some, Option.bind_some, h.model.methodInfo?]
    cases env.model.methodInfo? method <;> rfl

theorem record? (present : List String) (origin : DeclId) (annotationType : String)
    (method : Option DeclId) (member : String) (e : Expr) :
    moved.record? present (σ origin) annotationType (method.map σ) member e =
      (env.record? present origin annotationType method member e).map (Recorded.renumber σ) := by
  rw [Environment.record?, Environment.record?, h.readValue]
  split
  · rfl
  · rw [Option.map_map]
    rfl

theorem recordMembers (origin : DeclId) (annotationType : String) (present : List String)
    (entries : List (String × Expr)) :
    moved.recordMembers (σ origin) annotationType present entries =
      (env.recordMembers origin annotationType present entries).map (Recorded.renumber σ) := by
  induction entries generalizing present with
  | nil => rfl
  | cons entry rest ih =>
    obtain ⟨member, e⟩ := entry
    rw [Environment.recordMembers, Environment.recordMembers, h.model.annotationMember?, h.record?]
    cases env.record? present origin annotationType
        (env.model.annotationMember? annotationType member) member e with
    | none => exact ih present
    | some recorded =>
      show _ :: _ = _ :: _
      rw [ih]

theorem recordAnnotation (origin : DeclId) (present : List String) (a : AnnotationInstance) :
    moved.recordAnnotation (σ origin) present a =
      (env.recordAnnotation origin present a).map (Recorded.renumber σ) :=
  h.recordMembers origin a.annotationType present a.members.entries

end Environment.SameShape

/-! ## What a build asks about -/

namespace Environment

variable {env : Environment} {options : BuildOptions} {target : BuildTarget}

theorem mentionsType_of_mem_occurrences {o : Occurrence}
    (ho : o ∈ env.occurrences options target) :
    env.model.MentionsType o.applied.annotationType := by
  obtain ⟨level, -, a, ha, application, happ, rfl⟩ := mem_occurrences_iff.mp ho
  exact Model.mentionsType_of_holds (List.mem_filter.mp ha).1 (holds_of_mem_applications happ)

theorem mentionsType_of_mem_metaUsesOn {via : String} {use : MetaUse}
    (hu : use ∈ env.metaUsesOn via) : env.model.MentionsType use.applied.annotationType :=
  Model.mentionsType_of_holds (mem_metaUsesOn_iff.mp hu).2.2.1 (.self _)

theorem mentionsType_of_mem_metaUses {names : List String} {use : MetaUse}
    (hu : use ∈ env.metaUses names) : env.model.MentionsType use.applied.annotationType :=
  mentionsType_of_mem_metaUsesOn (mem_metaUses_iff.mp hu).2

/-- **Whatever needs defaults is the type of an annotation.** -/
theorem mentionsType_of_mem_neededDefaults {name : String}
    (hn : name ∈ env.neededDefaults (env.assemble options target)) :
    env.model.MentionsType name := by
  rw [neededDefaults, List.mem_append] at hn
  rcases hn with hn | hn
  · obtain ⟨o, ho, rfl⟩ := mem_names_collectAll.mp hn
    exact mentionsType_of_mem_occurrences ho
  · obtain ⟨use, hu, rfl⟩ := mem_names_pendingStereotypes.mp hn
    rw [assemble] at hu
    dsimp only at hu
    split at hu
    · exact mentionsType_of_mem_metaUses hu
    · cases hu

end Environment

/-! ## Mirrored environments -/

/-- The second environment has the same configuration and the same declarations under new ids.  The
annotations on declarations may be others, but not on those that are the type of an annotation. -/
structure Environment.Mirrors (σ : Equiv.Perm DeclId) (env other : Environment) : Prop where
  shape : env.SameShape σ other
  annotations : ∀ {name : String} {ty : DeclId}, env.model.MentionsType name →
    env.model.typeNamed? name = some ty → other.model.annotations (σ ty) = env.model.annotations ty

namespace Environment.Mirrors

variable {σ : Equiv.Perm DeclId} {env other : Environment} (h : env.Mirrors σ other)

include h

/-! ### Markers -/

theorem marker? {name : String} (hn : env.model.MentionsType name) (marker : String) :
    other.marker? name marker = env.marker? name marker := by
  rw [Environment.marker?, Environment.marker?, h.shape.model.typeNamed?]
  cases ht : env.model.typeNamed? name with
  | none => rfl
  | some ty =>
    rw [Option.map_some, Option.bind_some, Option.bind_some, Model.annotationsOfType,
      Model.annotationsOfType, h.annotations hn ht]

theorem isInherited {name : String} (hn : env.model.MentionsType name) :
    other.isInherited name = env.isInherited name := by
  rw [Environment.isInherited, Environment.isInherited, h.shape.config, h.marker? hn]

theorem repeatableContainer? {name : String} (hn : env.model.MentionsType name) :
    other.repeatableContainer? name = env.repeatableContainer? name := by
  rw [Environment.repeatableContainer?, Environment.repeatableContainer?, h.shape.config,
    h.marker? hn, h.shape.readValue_none]

theorem retention {name : String} (hn : env.model.MentionsType name) :
    other.retention name = env.retention name := by
  have hof : other.retentionOf? = env.retentionOf? := by
    funext e
    unfold Environment.retentionOf?
    rw [h.shape.readValue_none]
  rw [Environment.retention, Environment.retention, h.shape.config, h.marker? hn, hof]

/-! ### Occurrences -/

section

variable {a : AnnotationInstance}
  (ha : ∀ inner, a.Holds inner → env.model.MentionsType inner.annotationType)

include ha

theorem containerItems? : other.containerItems? a = env.containerItems? a := by
  rw [Environment.containerItems?, Environment.containerItems?, h.shape.holdsArray]
  simp only [bind]
  cases hv : a.members.get? "value" with
  | none => rw [Option.bind_none, Option.bind_none]
  | some e =>
    rw [Option.bind_some, Option.bind_some]
    cases hi : e.annotations? with
    | none => rw [Option.bind_none, Option.bind_none]
    | some items =>
      have hitems : ∀ item ∈ items,
          other.repeatableContainer? item.annotationType =
            env.repeatableContainer? item.annotationType := fun item hitem =>
        h.repeatableContainer? (ha item
          (.member (Members.mem_entries_of_get? hv) (Expr.holds_of_annotations? hi hitem)))
      have hall : (items.all fun item =>
            other.repeatableContainer? item.annotationType == some a.annotationType) =
          items.all fun item =>
            env.repeatableContainer? item.annotationType == some a.annotationType := by
        rw [Bool.eq_iff_iff, List.all_eq_true, List.all_eq_true]
        exact forall₂_congr fun item hitem => by rw [hitems item hitem]
      rw [Option.bind_some, Option.bind_some, hall]

theorem applications : other.applications a = env.applications a := by
  rw [Environment.applications, Environment.applications, h.containerItems? ha,
    h.repeatableContainer? (ha a (.self a))]

end

section

variable (annotations : List AnnotationInstance) (target : BuildTarget)

theorem passesExclusion (a : AnnotationInstance) :
    other.passesExclusion ((target.renumber σ).withAnnotations annotations) a =
      env.passesExclusion target a := by
  rw [Environment.passesExclusion, Environment.passesExclusion, h.shape.config,
    BuildTarget.withAnnotations, BuildTarget.renumber, Declaration.isAnnotationType_withAnnotations,
    Declaration.isAnnotationType_renumber]

theorem isAncestorType (level : DeclId) :
    other.isAncestorType ((target.renumber σ).withAnnotations annotations) (σ level) =
      env.isAncestorType target level := by
  have hself : (σ level ≠ σ target.id) = (level ≠ target.id) :=
    propext (not_congr σ.injective.eq_iff)
  have howner : (some (σ level) ≠ target.declaration.declaringType.map σ) =
      (some level ≠ target.declaration.declaringType) := by
    rw [← Option.map_some]
    exact propext (not_congr (Option.map_injective σ.injective).eq_iff)
  simp only [Environment.isAncestorType, BuildTarget.withAnnotations, BuildTarget.renumber,
    Declaration.declaringType_withAnnotations, Declaration.declaringType_renumber, hself, howner,
    h.shape.model.isType]

theorem passesInheritance {a : AnnotationInstance} (ha : env.model.MentionsType a.annotationType)
    (level : DeclId) :
    other.passesInheritance ((target.renumber σ).withAnnotations annotations) (σ level) a =
      env.passesInheritance target level a := by
  rw [Environment.passesInheritance, Environment.passesInheritance, h.isAncestorType,
    h.shape.config, h.isInherited ha]

omit h in
theorem sourceOf (level : DeclId) :
    Environment.sourceOf ((target.renumber σ).withAnnotations annotations) (σ level) =
      Environment.sourceOf target level := by
  have hself : (σ level = σ target.id) = (level = target.id) := propext σ.injective.eq_iff
  simp only [Environment.sourceOf, BuildTarget.withAnnotations, BuildTarget.renumber, hself]

/-- An annotation comes to the same occurrences, whatever else is on the target. -/
theorem occurrencesFrom {a : AnnotationInstance}
    (ha : ∀ inner, a.Holds inner → env.model.MentionsType inner.annotationType) (level : DeclId) :
    other.occurrencesFrom ((target.renumber σ).withAnnotations annotations) (σ level) a =
      (env.occurrencesFrom target level a).map (Occurrence.renumber σ) := by
  rw [Environment.occurrencesFrom, Environment.occurrencesFrom, h.passesExclusion,
    h.passesInheritance annotations target (ha a (.self a)), h.applications ha, sourceOf]
  split
  · rw [List.map_map]
    rfl
  · rfl

/-- What the annotations of a level come to may as well be said by the other environment. -/
theorem map_occurrencesOn (level : DeclId) :
    (env.occurrencesOn target level).map (Occurrence.renumber σ) =
      (env.model.annotations level).flatMap
        (other.occurrencesFrom ((target.renumber σ).withAnnotations annotations) (σ level)) := by
  rw [occurrencesOn_eq_flatMap, List.map_flatMap]
  exact List.flatMap_congr fun a ha => (h.occurrencesFrom annotations target
    (fun inner hi => Model.mentionsType_of_holds ha hi) level).symm

/-- A level with the same annotations comes to the same occurrences. -/
theorem occurrencesOn {level : DeclId}
    (hl : other.model.annotations (σ level) = env.model.annotations level) :
    other.occurrencesOn ((target.renumber σ).withAnnotations annotations) (σ level) =
      (env.occurrencesOn target level).map (Occurrence.renumber σ) := by
  rw [occurrencesOn_eq_flatMap, hl, h.map_occurrencesOn annotations]

theorem occurrences
    (hlevels : ∀ level,
      other.occurrencesOn ((target.renumber σ).withAnnotations annotations) (σ level) =
        (env.occurrencesOn target level).map (Occurrence.renumber σ)) (options : BuildOptions) :
    other.occurrences options ((target.renumber σ).withAnnotations annotations) =
      (env.occurrences options target).map (Occurrence.renumber σ) := by
  show (other.levels options (σ target.id)).reverse.flatMap _ = _
  rw [Environment.occurrences, h.shape.levels, ← List.map_reverse, List.flatMap_map,
    List.map_flatMap]
  exact List.flatMap_congr fun level _ => hlevels level

end

/-! ### Collecting -/

theorem collect (collected : Collected) (o : Occurrence) :
    other.collect (collected.renumber σ) (o.renumber σ) = (env.collect collected o).renumber σ := by
  obtain ⟨level, source, applied, container⟩ := o
  cases container with
  | some container =>
    show other.addRepeated (collected.renumber σ) ⟨σ level, source, applied, some container⟩
      container = _
    simp only [Environment.addRepeated, Collected.renumber, h.shape.recordAnnotation,
      addRecorded_map_renumber, ← List.map_append]
    rfl
  | none =>
    show other.merge (collected.renumber σ) ⟨σ level, source, applied, none⟩ = _
    simp only [Environment.merge, Collected.renumber, h.shape.recordAnnotation,
      addRecorded_map_renumber, ← List.map_append]
    rfl

theorem collectAll (occurrences : List Occurrence) :
    other.collectAll (occurrences.map (Occurrence.renumber σ)) =
      (env.collectAll occurrences).renumber σ := by
  have hfold : ∀ collected : Collected,
      (occurrences.map (Occurrence.renumber σ)).foldl other.collect (collected.renumber σ) =
        (occurrences.foldl env.collect collected).renumber σ := by
    intro collected
    rw [List.foldl_map]
    exact (List.foldl_hom (Collected.renumber σ) fun collected o => h.collect collected o)
  exact hfold {}

/-! ### Stereotypes -/

theorem metaUsesOn {name : String} (hn : env.model.MentionsType name) :
    other.metaUsesOn name = (env.metaUsesOn name).map (MetaUse.renumber σ) := by
  rw [Environment.metaUsesOn, Environment.metaUsesOn, h.shape.model.typeNamed?]
  cases ht : env.model.typeNamed? name with
  | none => rfl
  | some ty =>
    simp only [Option.map_some, h.annotations hn ht, h.shape.config, List.map_map]
    rfl

theorem metaEdges {name : String} (hn : env.model.MentionsType name) :
    other.metaEdges name =
      (env.metaEdges name).map (Prod.map id (Option.map (MetaUse.renumber σ))) := by
  rw [Environment.metaEdges, Environment.metaEdges, h.metaUsesOn hn, List.map_map, List.map_map]
  rfl

/-- The walk along annotation types comes to types of annotations only. -/
theorem metaUses {names : List String} (hn : ∀ name ∈ names, env.model.MentionsType name) :
    other.metaUses names = (env.metaUses names).map (MetaUse.renumber σ) := by
  have hstart : ∀ start ∈ names.map fun name => (name, (none : Option MetaUse)),
      env.model.MentionsType start.1 := by
    intro start hs
    obtain ⟨name, hname, rfl⟩ := List.mem_map.mp hs
    exact hn name hname
  have hwalk : depthFirst other.model.types.names (fun name _ => other.metaEdges name)
      ((names.map (·, none)).map (Prod.map id (Option.map (MetaUse.renumber σ)))) [] =
        (env.metaWalk names).map (Visit.map id (Option.map (MetaUse.renumber σ))) := by
    refine depthFirst_map_of_closed (P := env.model.MentionsType) Function.injective_id _
      h.shape.model.mem_types_names_iff (fun via _ _ edge hedge => ?_)
      (fun name _ hname => h.metaEdges hname) hstart []
    obtain ⟨use, huse, rfl⟩ := List.mem_map.mp hedge
    exact mentionsType_of_mem_metaUsesOn huse
  rw [List.map_map] at hwalk
  rw [metaUses_eq, metaUses_eq, List.map_filterMap]
  refine (congrArg (List.filterMap Visit.payload) hwalk).trans ?_
  rw [List.filterMap_map]
  rfl

theorem addUse (pending : Members PendingStereotype) (use : MetaUse) :
    other.addUse pending (use.renumber σ) = env.addUse pending use := by
  simp only [Environment.addUse, Environment.recordUse, MetaUse.renumber, h.shape.recordAnnotation,
    PendingStereotype.add_map_renumber]

theorem pendingStereotypes (uses : List MetaUse) :
    other.pendingStereotypes (uses.map (MetaUse.renumber σ)) = env.pendingStereotypes uses := by
  rw [Environment.pendingStereotypes, Environment.pendingStereotypes, List.foldl_map]
  simp only [h.addUse]

/-! ### A build -/

/-- From what was collected, both environments go on alike. -/
theorem assemble_of_collectAll {options : BuildOptions} {target target' : BuildTarget}
    (hc : other.collectAll (other.occurrences options target') =
      (env.collectAll (env.occurrences options target)).renumber σ) :
    other.assemble options target' = (env.assemble options target).renumber σ := by
  have hnames : ∀ name ∈ (env.collectAll (env.occurrences options target)).annotations.names ++
      (env.collectAll (env.occurrences options target)).repeated.names,
        env.model.MentionsType name := by
    intro name hname
    obtain ⟨o, hmem, rfl⟩ := mem_names_collectAll.mp hname
    exact mentionsType_of_mem_occurrences hmem
  simp only [Environment.assemble, Assembly.renumber, hc, h.shape.config, Collected.renumber,
    h.metaUses hnames, apply_ite (List.map (MetaUse.renumber σ)), List.map_nil]

theorem neededDefaults (assembly : Assembly) :
    other.neededDefaults (assembly.renumber σ) = env.neededDefaults assembly := by
  simp only [Environment.neededDefaults, Assembly.renumber, Collected.renumber,
    h.pendingStereotypes]

/-- Only the retentions of the names that are needed are looked up. -/
theorem metadataOf {assembly : Assembly}
    (hn : ∀ name ∈ env.neededDefaults assembly, env.model.MentionsType name)
    (defaults : String → Members Value) :
    other.metadataOf defaults (assembly.renumber σ) = env.metadataOf defaults assembly := by
  simp only [Environment.neededDefaults, List.mem_append] at hn
  rw [Environment.metadataOf, Environment.metadataOf, Metadata.mk.injEq, Assembly.renumber,
    h.pendingStereotypes]
  refine ⟨Members.mapNamed_congr fun name hname pending => ?_,
    Members.mapNamed_congr fun name hname pending => ?_,
    Members.mapNamed_congr fun name hname pending => ?_⟩
  · rw [entryOf, entryOf, h.retention (hn name (Or.inl (Or.inl hname)))]
  · rw [repeatedOf, repeatedOf, h.retention (hn name (Or.inl (Or.inr hname)))]
  · rw [stereotypeOf, stereotypeOf, h.retention (hn name (Or.inr hname))]

theorem faults {validate : Validator} (hv : validate.TreatsAlike σ env.model other.model)
    (r : Recorded) : (r.renumber σ).faults other.model validate = r.faults env.model validate := by
  have hthere := h.shape.model.declaration? r.origin
  rw [Recorded.faults, Recorded.faults, Recorded.renumber, hthere]
  cases hd : env.model.declaration? r.origin with
  | none => rfl
  | some d =>
    rw [hd] at hthere
    exact hv r.origin r.method d _ hd hthere r.annotationType r.member r.value

theorem diagnosticsOf {validate : Validator} (hv : validate.TreatsAlike σ env.model other.model)
    (target : DeclId) (assembly : Assembly) :
    other.diagnosticsOf validate (σ target) (assembly.renumber σ) =
      (env.diagnosticsOf validate target assembly).map (Diagnostic.renumber σ) := by
  simp only [Environment.diagnosticsOf, Assembly.renumber, Collected.renumber, List.flatMap_map,
    List.map_append, List.map_flatMap, List.map_map, Environment.recordUse, MetaUse.renumber,
    h.shape.recordAnnotation, Recorded.diagnostics, h.faults hv]
  rfl

/-- **A target for which the same is collected has the same metadata.**  A validator that treats the
declarations of both models alike finds the same faults. -/
theorem exists_build_of_collectAll {options : BuildOptions} {id : DeclId} {d d' : Declaration}
    (hd : env.model.declaration? id = some d) (hd' : other.model.declaration? (σ id) = some d')
    (hc : other.collectAll (other.occurrences options ⟨σ id, d'⟩) =
      (env.collectAll (env.occurrences options ⟨id, d⟩)).renumber σ)
    (validator : Option Validator) (cache : DefaultCache) :
    ∃ result, env.build validator cache options id = .ok result ∧
      ∃ again, other.build validator cache options (σ id) = .ok again ∧
        again.metadata = result.metadata ∧ again.cache = result.cache ∧
          ((∀ validate ∈ validator, validate.TreatsAlike σ env.model other.model) →
            again.diagnostics = result.diagnostics.map (Diagnostic.renumber σ)) := by
  have hassemble : other.assemble options ⟨σ id, d'⟩ =
      (env.assemble options ⟨id, d⟩).renumber σ := h.assemble_of_collectAll hc
  obtain ⟨result, hr, hcache, hmetadata⟩ := build_eq validator options hd cache
  obtain ⟨again, hagain, hcacheAgain, hmetadataAgain⟩ := build_eq validator options hd' cache
  have hsame : again.cache = result.cache := by
    have hensure : DefaultCache.ensure other = DefaultCache.ensure env := by
      funext cache name
      exact h.shape.ensure cache name
    rw [hcacheAgain, hcache, hassemble, h.neededDefaults, hensure]
  refine ⟨result, hr, again, hagain, ?_, hsame, fun hv => ?_⟩
  · have hdefaults : again.cache.defaultsOf other = result.cache.defaultsOf env := by
      funext name
      rw [hsame, h.shape.defaultsOf]
    rw [hmetadataAgain, hmetadata, hassemble, hdefaults,
      h.metadataOf fun _ => mentionsType_of_mem_neededDefaults]
  · rw [diagnostics_of_build validator options hd' hagain,
      diagnostics_of_build validator options hd hr, hassemble]
    cases validator with
    | none => rfl
    | some validate => exact h.diagnosticsOf (hv validate rfl) id _

/-- **A target with the same occurrences has the same metadata.** -/
theorem exists_build {options : BuildOptions} {id : DeclId} {d d' : Declaration}
    (hd : env.model.declaration? id = some d) (hd' : other.model.declaration? (σ id) = some d')
    (ho : other.occurrences options ⟨σ id, d'⟩ =
      (env.occurrences options ⟨id, d⟩).map (Occurrence.renumber σ))
    (validator : Option Validator) (cache : DefaultCache) :
    ∃ result, env.build validator cache options id = .ok result ∧
      ∃ again, other.build validator cache options (σ id) = .ok again ∧
        again.metadata = result.metadata ∧ again.cache = result.cache ∧
          ((∀ validate ∈ validator, validate.TreatsAlike σ env.model other.model) →
            again.diagnostics = result.diagnostics.map (Diagnostic.renumber σ)) := by
  refine h.exists_build_of_collectAll hd hd' ?_ validator cache
  rw [ho, h.collectAll]

theorem treatsAlike_nonEmpty (specs : List String) :
    (Validator.nonEmpty specs).TreatsAlike σ env.model other.model := by
  intro id method d d' hd hd' annotationType member value
  rw [h.shape.model.declaration?, hd] at hd'
  obtain rfl := Option.some.inj hd'
  rfl

end Environment.Mirrors

/-! ## Renumbered environments -/

namespace Environment.Renumbers

variable {σ : Equiv.Perm DeclId} {env moved : Environment} (h : env.Renumbers σ moved)

include h

theorem mirrors : env.Mirrors σ moved := ⟨h.sameShape, fun _ _ => h.model.annotations _⟩

theorem occurrences (options : BuildOptions) (target : BuildTarget) :
    moved.occurrences options (target.renumber σ) =
      (env.occurrences options target).map (Occurrence.renumber σ) :=
  h.mirrors.occurrences target.declaration.annotations target
    (fun level => h.mirrors.occurrencesOn _ target (h.model.annotations level)) options

theorem treatsAlike {validate : Validator} (hv : validate.IgnoresIds) :
    validate.TreatsAlike σ env.model moved.model := by
  intro id method d d' hd hd' annotationType member value
  have hmethod : (method.map σ).bind moved.model.declaration? =
      (method.bind env.model.declaration?).map (Declaration.renumber σ) := by
    cases method with
    | none => rfl
    | some method => exact h.model.declaration? method
  rw [h.model.declaration?, hd] at hd'
  obtain rfl := Option.some.inj hd'
  rw [hmethod]
  exact hv σ d annotationType _ member value

/-- **A build under new ids gives the same result, with new ids in its diagnostics.** -/
theorem build {validator : Option Validator} (hv : ∀ validate ∈ validator, validate.IgnoresIds)
    (cache : DefaultCache) (options : BuildOptions) {id : DeclId} {result : BuildResult}
    (hb : env.build validator cache options id = .ok result) :
    moved.build validator cache options (σ id) = .ok (result.renumber σ) := by
  obtain ⟨d, hd⟩ : ∃ d, env.model.declaration? id = some d := by
    rw [Environment.build] at hb
    split at hb
    · cases hb
    · exact ⟨_, ‹_›⟩
  have hd' : moved.model.declaration? (σ id) = some (d.renumber σ) := by
    rw [h.model.declaration?, hd]
    rfl
  obtain ⟨same, hsame, again, hagain, hmetadata, hcache, hdiagnostics⟩ :=
    h.mirrors.exists_build hd hd' (h.occurrences options ⟨id, d⟩) validator cache
  obtain rfl : same = result := Except.ok.inj (hsame.symm.trans hb)
  rw [hagain, BuildResult.renumber, ← hmetadata, ← hcache,
    ← hdiagnostics fun validate hvalidate => h.treatsAlike (hv validate hvalidate)]

end Environment.Renumbers

end AnnotationResolution
