import AnnotationResolution.Proofs.Reannotating

/-!
# Annotations that cannot be told apart

A build looks at an annotation in two ways: it reads the values of its members
(`Environment.reading`), and it asks which annotations the member `value` is made of, to see whether
the annotation is a container that is to be taken apart.  If two annotations are read as the same, and
so are the annotations in them, one may take the place of the other (`Environment.Interchangeable`),
and a build collects the same.

* `Interchangeable.applications`, `collect_of_readAlike`: what is done with an annotation is the same,
  also when it is a container that is taken apart.
* `exists_build_of_interchangeable`: hence the builds from a model with such annotations are the same.
-/

namespace AnnotationResolution

/-- The annotations that the member `value` is made of. -/
def AnnotationInstance.held? (a : AnnotationInstance) : Option (List AnnotationInstance) :=
  (a.members.get? "value").bind Expr.annotations?

theorem map_eq_map_iff_forall₂ {α β : Type} {f : α → β} {xs ys : List α} :
    ys.map f = xs.map f ↔ List.Forall₂ (fun x y => f y = f x) xs ys := by
  rw [eq_comm, ← List.forall₂_eq_eq_eq, List.forall₂_map_left_iff, List.forall₂_map_right_iff]
  exact ⟨fun h => h.imp fun _ _ => Eq.symm, fun h => h.imp fun _ _ => Eq.symm⟩

namespace Environment

variable {env : Environment}

/-- What a build reads of an annotation: its type, and what each of its members is read as. -/
def reading (env : Environment) (a : AnnotationInstance) : String × List (String × Option Value) :=
  (a.annotationType, a.members.entries.map fun entry =>
    (entry.1, env.readMember a.annotationType entry.1 entry.2))

/-- Two annotations that a build cannot tell apart: the annotations in them are read as the same, and
so are they themselves unless they are containers that are taken apart. -/
structure Interchangeable (env : Environment) (a a' : AnnotationInstance) : Prop where
  annotationType_eq : a'.annotationType = a.annotationType
  size_eq : a'.members.size = a.members.size
  held?_eq : a'.held?.map (List.map env.reading) = a.held?.map (List.map env.reading)
  reading_eq : env.containerItems? a = none → env.reading a' = env.reading a

theorem Interchangeable.refl (a : AnnotationInstance) : env.Interchangeable a a :=
  ⟨rfl, rfl, rfl, fun _ => rfl⟩

theorem annotationType_eq_of_reading_eq {a a' : AnnotationInstance}
    (h : env.reading a' = env.reading a) : a'.annotationType = a.annotationType :=
  congrArg Prod.fst h

/-! ## What is recorded -/

theorem recordMembers_congr {annotationType : String} {entries entries' : List (String × Expr)}
    (h : entries'.map (fun entry => (entry.1, env.readMember annotationType entry.1 entry.2)) =
      entries.map fun entry => (entry.1, env.readMember annotationType entry.1 entry.2))
    (origin : DeclId) (present : List String) :
    env.recordMembers origin annotationType present entries' =
      env.recordMembers origin annotationType present entries := by
  rw [map_eq_map_iff_forall₂] at h
  induction h generalizing present with
  | nil => rfl
  | @cons entry entry' rest rest' hentry _ ih =>
    obtain ⟨name, e⟩ := entry
    obtain ⟨name', e'⟩ := entry'
    obtain ⟨rfl, hread⟩ : name' = name ∧ _ := Prod.mk.inj hentry
    have hrecord : env.record? present origin annotationType
        (env.model.annotationMember? annotationType name') name' e' =
          env.record? present origin annotationType
            (env.model.annotationMember? annotationType name') name' e := by
      rw [record?, record?]
      exact congrArg (fun value => if name' ∈ present then none else Option.map _ value) hread
    rw [recordMembers, recordMembers, hrecord]
    cases env.record? present origin annotationType
        (env.model.annotationMember? annotationType name') name' e with
    | none => exact ih present
    | some recorded => exact congrArg (recorded :: ·) (ih _)

theorem recordAnnotation_of_reading_eq {a a' : AnnotationInstance}
    (h : env.reading a' = env.reading a) (origin : DeclId) (present : List String) :
    env.recordAnnotation origin present a' = env.recordAnnotation origin present a := by
  have ht := annotationType_eq_of_reading_eq h
  have hmembers := congrArg Prod.snd h
  rw [reading, reading, ht] at hmembers
  rw [Environment.recordAnnotation, Environment.recordAnnotation, ht]
  exact recordMembers_congr hmembers origin present

/-! ## What is a container -/

theorem containerItems?_eq (a : AnnotationInstance) :
    env.containerItems? a =
      if a.members.size ≠ 1 then none
      else a.held?.bind fun items =>
        if env.holdsArray a.annotationType && !items.isEmpty &&
            items.all fun item => env.repeatableContainer? item.annotationType == some a.annotationType
        then some items else none := by
  simp only [containerItems?, AnnotationInstance.held?, bind, Option.bind_assoc]

theorem size_eq_one_of_containerItems? {a : AnnotationInstance} {items : List AnnotationInstance}
    (h : env.containerItems? a = some items) : a.members.size = 1 ∧ a.held? = some items := by
  rw [containerItems?_eq] at h
  split at h
  · cases h
  · next hsize =>
    obtain ⟨held, hheld, hpure⟩ := Option.bind_eq_some_iff.mp h
    split at hpure
    · cases hpure
      exact ⟨not_not.mp hsize, hheld⟩
    · cases hpure

/-- Whether an annotation is a pure container is seen from what is read of the annotations in it. -/
theorem map_containerItems? (a : AnnotationInstance) :
    (env.containerItems? a).map (List.map env.reading) =
      if a.members.size ≠ 1 then none
      else (a.held?.map (List.map env.reading)).bind fun readings =>
        if env.holdsArray a.annotationType && !readings.isEmpty &&
            readings.all fun read => env.repeatableContainer? read.1 == some a.annotationType
        then some readings else none := by
  rw [containerItems?_eq]
  split
  · rfl
  · cases a.held? with
    | none => rfl
    | some items =>
      simp only [Option.bind_some, Option.map_some, List.isEmpty_map, List.all_map]
      exact apply_ite (Option.map (List.map env.reading)) _ _ _

theorem Interchangeable.containerItems? {a a' : AnnotationInstance} (h : env.Interchangeable a a') :
    (env.containerItems? a').map (List.map env.reading) =
      (env.containerItems? a).map (List.map env.reading) := by
  rw [map_containerItems? a', map_containerItems? a, h.size_eq, h.held?_eq, h.annotationType_eq]

/-- The annotation counts as the same applications, each read as the same. -/
theorem Interchangeable.applications {a a' : AnnotationInstance} (h : env.Interchangeable a a') :
    List.Forall₂ (fun x x' => env.reading x'.1 = env.reading x.1 ∧ x'.2 = x.2)
      (env.applications a) (env.applications a') := by
  rw [Environment.applications, Environment.applications, h.annotationType_eq]
  have hitems := h.containerItems?
  cases hc : env.containerItems? a with
  | none =>
    rw [hc, Option.map_none, Option.map_eq_none_iff] at hitems
    rw [hitems]
    exact .cons ⟨h.reading_eq hc, rfl⟩ .nil
  | some items =>
    rw [hc, Option.map_some, Option.map_eq_some_iff] at hitems
    obtain ⟨items', hc', hreadings⟩ := hitems
    rw [hc']
    dsimp only
    rw [List.forall₂_map_left_iff, List.forall₂_map_right_iff]
    exact (map_eq_map_iff_forall₂.mp hreadings).imp fun _ _ hr => ⟨hr, rfl⟩

/-! ## What is collected -/

/-- Two occurrences that are the same, apart from the annotation, which is read as the same. -/
structure ReadAlike (env : Environment) (o o' : Occurrence) : Prop where
  reading_eq : env.reading o'.applied = env.reading o.applied
  eq : o' = { o with applied := o'.applied }

theorem collect_of_readAlike {o o' : Occurrence} (h : env.ReadAlike o o')
    (collected : Collected) : env.collect collected o' = env.collect collected o := by
  obtain ⟨level, source, a, container⟩ := o
  obtain ⟨hr, ho⟩ := h
  have ht := annotationType_eq_of_reading_eq hr
  rw [ho]
  cases container with
  | some container => simp only [collect, addRepeated, recordAnnotation_of_reading_eq hr, ht]
  | none => simp only [collect, merge, recordAnnotation_of_reading_eq hr, ht]

theorem collectAll_of_readAlike {occurrences occurrences' : List Occurrence}
    (h : List.Forall₂ env.ReadAlike occurrences occurrences') :
    env.collectAll occurrences' = env.collectAll occurrences := by
  refine (List.rel_foldl (P := Eq) ?_ rfl h).symm
  rintro collected _ rfl o o' ho
  exact (collect_of_readAlike ho collected).symm

theorem Interchangeable.occurrencesFrom {a a' : AnnotationInstance} (h : env.Interchangeable a a')
    (target : BuildTarget) (level : DeclId) :
    List.Forall₂ env.ReadAlike (env.occurrencesFrom target level a)
      (env.occurrencesFrom target level a') := by
  rw [Environment.occurrencesFrom, Environment.occurrencesFrom, passesExclusion, passesExclusion,
    passesInheritance, passesInheritance, h.annotationType_eq]
  split
  · rw [List.forall₂_map_left_iff, List.forall₂_map_right_iff]
    exact h.applications.imp fun x x' hx => ⟨hx.1, by rw [hx.2]⟩
  · exact .nil

/-! ## Builds -/

theorem reading_of_sameShape {σ : Equiv.Perm DeclId} {other : Environment}
    (h : env.SameShape σ other) : other.reading = env.reading := by
  funext a
  refine congrArg (a.annotationType, ·) (List.map_congr_left fun entry _ => ?_)
  rw [readMember, readMember, h.model.annotationMember?, h.readValue]

/-- What cannot be told apart in one environment cannot be in another that mirrors it. -/
theorem Interchangeable.of_mirrors {σ : Equiv.Perm DeclId} {other : Environment}
    (h : env.Mirrors σ other) {a a' : AnnotationInstance}
    (ha : ∀ inner, a.Holds inner → env.model.MentionsType inner.annotationType)
    (hi : env.Interchangeable a a') : other.Interchangeable a a' := by
  obtain ⟨htype, hsize, hheld, hread⟩ := hi
  rw [← reading_of_sameShape h.shape] at hheld hread
  rw [← h.containerItems? ha] at hread
  exact ⟨htype, hsize, hheld, hread⟩

section

variable {id : DeclId} {d : Declaration} {annotations : List AnnotationInstance}
  (hm : env.model.Accepted) (hd : env.model.declaration? id = some d)
  (hun : d.isType = true → ¬ env.model.MentionsType d.name)
  (hsame : List.Forall₂ env.Interchangeable d.annotations annotations)

include hm hd hun hsame

theorem annotations_reannotate (level : DeclId) :
    List.Forall₂ (env.reannotate id annotations).Interchangeable (env.model.annotations level)
      ((env.reannotate id annotations).model.annotations level) := by
  by_cases hlevel : id = level
  · subst hlevel
    have hold : env.model.annotations id = d.annotations := by
      rw [Model.annotations, hd]
    have hnew : (env.reannotate id annotations).model.annotations id = annotations :=
      Model.annotations_reannotate_self _ hd
    rw [hnew]
    rw [← hold] at hsame
    have hmention : ∀ a ∈ env.model.annotations id, ∀ inner, a.Holds inner →
        env.model.MentionsType inner.annotationType :=
      fun a ha inner hi => Model.mentionsType_of_holds ha hi
    exact ((List.forall₂_and_left _ _).mpr ⟨hmention, hsame⟩).imp fun a a' ha =>
      ha.2.of_mirrors (mirrors_reannotate hm hd hun _) ha.1
  · have hkept : (env.reannotate id annotations).model.annotations level =
        env.model.annotations level :=
      Model.annotations_reannotate_of_ne _ hlevel
    rw [hkept]
    exact List.forall₂_same.mpr fun _ _ => .refl _

theorem occurrencesOn_reannotate (shown : List AnnotationInstance) (target : BuildTarget)
    (level : DeclId) :
    List.Forall₂ (env.reannotate id annotations).ReadAlike
      ((env.occurrencesOn target level).map (Occurrence.renumber (Equiv.refl DeclId)))
      ((env.reannotate id annotations).occurrencesOn
        ((target.renumber (Equiv.refl DeclId)).withAnnotations shown) level) := by
  rw [(mirrors_reannotate hm hd hun annotations).map_occurrencesOn shown, occurrencesOn_eq_flatMap]
  exact List.rel_flatMap (annotations_reannotate hm hd hun hsame level)
    fun a a' ha => ha.occurrencesFrom _ _

theorem collectAll_reannotate (options : BuildOptions) (shown : List AnnotationInstance)
    (target : BuildTarget) :
    (env.reannotate id annotations).collectAll ((env.reannotate id annotations).occurrences options
        ((target.renumber (Equiv.refl DeclId)).withAnnotations shown)) =
      (env.collectAll (env.occurrences options target)).renumber (Equiv.refl DeclId) := by
  have h : env.Mirrors (Equiv.refl DeclId) (env.reannotate id annotations) :=
    mirrors_reannotate hm hd hun _
  have hlevels : (env.reannotate id annotations).levels options target.id =
      env.levels options target.id := (h.shape.levels options target.id).trans (List.map_id _)
  rw [← h.collectAll]
  refine collectAll_of_readAlike ?_
  show List.Forall₂ _ _
    (((env.reannotate id annotations).levels options target.id).reverse.flatMap _)
  rw [hlevels, occurrences, List.map_flatMap]
  refine List.rel_flatMap (R := Eq) (List.forall₂_same.mpr fun _ _ => rfl) ?_
  rintro level _ rfl
  exact occurrencesOn_reannotate hm hd hun hsame shown target level

/-- **With annotations that cannot be told apart a declaration gets the same metadata**, and so does
any other. -/
theorem exists_build_of_interchangeable {target : DeclId} (htarget : target ∈ env.model.ids)
    (validator : Option Validator) (options : BuildOptions) :
    ∃ result, env.build validator {} options target = .ok result ∧
      ∃ again, (env.reannotate id annotations).build validator {} options target = .ok again ∧
        again.metadata = result.metadata ∧
          ((∀ validate ∈ validator, validate.TreatsAlike (Equiv.refl DeclId) env.model
              (env.reannotate id annotations).model) →
            again.diagnostics = result.diagnostics) :=
  exists_build_reannotate hm hd hun (collectAll_reannotate hm hd hun hsame options) htarget validator

end

end Environment

end AnnotationResolution
