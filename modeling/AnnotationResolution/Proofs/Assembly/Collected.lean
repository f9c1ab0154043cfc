import AnnotationResolution.Proofs.Assembly.Occurrence

/-!
# Collecting, seen from one annotation type

What is collected for an annotation type depends on the occurrences of that type only, in their
order.  So the run over all occurrences is cut down to those that concern one name, once for the
merged annotations and once for the repeated ones, and the rest is an induction over a single entry.

* `get?_annotations_foldl`, `get?_repeated_foldl`: the cut.
* `mem_names_annotations_collectAll`, `of_get?_annotations_collectAll`: a merged entry is there as
  soon as something is merged into it; it has the source of the first such occurrence, and of each
  member the first value that an occurrence gives to it.
* `mem_names_repeated_collectAll`, `get?_repeated_collectAll`: a repeated entry holds one application
  for each occurrence.
* `mem_names_collectAll`: an entry of either kind is there for every annotation type that occurs.
-/

namespace AnnotationResolution

namespace Environment

variable (env : Environment)

/-- The merged entry after an occurrence of its annotation type. -/
def mergeInto (present : Option PendingEntry) (o : Occurrence) : PendingEntry :=
  let entry := present.getD { source := o.source }
  { entry with values :=
      addRecorded o.source entry.values (env.recordAnnotation o.level entry.values.names o.applied) }

/-- The application that an occurrence of a repeatable annotation is. -/
def applicationOf (o : Occurrence) : RepeatedInstance :=
  ⟨o.source, addRecorded o.source ∅ (env.recordAnnotation o.level [] o.applied)⟩

/-- The repeated entry after an occurrence of its annotation type. -/
def repeatInto (present : Option PendingRepeated) (o : Occurrence) : PendingRepeated :=
  let entry := present.getD { container := o.container.getD "" }
  { entry with instances := entry.instances ++ [env.applicationOf o] }

/-- The value that an occurrence gives to a member. -/
def valueFrom? (member : String) (o : Occurrence) : Option SourcedValue :=
  (env.memberValue? o.applied member).map (⟨·, o.source⟩)

/-! ## One occurrence -/

variable {env}

theorem get?_annotations_collect (collected : Collected) (o : Occurrence) (name : String) :
    (env.collect collected o).annotations.get? name =
      if o.mergesInto name then some (env.mergeInto (collected.annotations.get? name) o)
      else collected.annotations.get? name := by
  obtain ⟨level, source, applied, container⟩ := o
  cases container with
  | some container => rfl
  | none =>
    show (collected.annotations.insert applied.annotationType _).get? name = _
    rw [Members.get?_insert]
    by_cases h : name = applied.annotationType
    · subst h
      simp [Occurrence.mergesInto, mergeInto]
    · simp [Occurrence.mergesInto, h, Ne.symm h]

theorem get?_repeated_collect (collected : Collected) (o : Occurrence) (name : String) :
    (env.collect collected o).repeated.get? name =
      if o.repeats name then some (env.repeatInto (collected.repeated.get? name) o)
      else collected.repeated.get? name := by
  obtain ⟨level, source, applied, container⟩ := o
  cases container with
  | none => rfl
  | some container =>
    show (collected.repeated.insert applied.annotationType _).get? name = _
    rw [Members.get?_insert]
    by_cases h : name = applied.annotationType
    · subst h
      simp [Occurrence.repeats, repeatInto, applicationOf]
    · simp [Occurrence.repeats, h, Ne.symm h]

/-! ## All occurrences -/

theorem collectAll_append_singleton (before : List Occurrence) (o : Occurrence) :
    env.collectAll (before ++ [o]) = env.collect (env.collectAll before) o := by
  rw [collectAll, List.foldl_append]
  rfl

theorem get?_annotations_foldl (occurrences : List Occurrence) (collected : Collected)
    (name : String) :
    (occurrences.foldl env.collect collected).annotations.get? name =
      (occurrences.filter (·.mergesInto name)).foldl (fun entry o => some (env.mergeInto entry o))
        (collected.annotations.get? name) := by
  rw [List.foldl_filter]
  exact (List.foldl_hom (fun collected : Collected => collected.annotations.get? name)
    fun collected o => (get?_annotations_collect collected o name).symm).symm

theorem get?_repeated_foldl (occurrences : List Occurrence) (collected : Collected)
    (name : String) :
    (occurrences.foldl env.collect collected).repeated.get? name =
      (occurrences.filter (·.repeats name)).foldl (fun entry o => some (env.repeatInto entry o))
        (collected.repeated.get? name) := by
  rw [List.foldl_filter]
  exact (List.foldl_hom (fun collected : Collected => collected.repeated.get? name)
    fun collected o => (get?_repeated_collect collected o name).symm).symm

/-! ## Merged entries -/

theorem get?_mergeInto {o : Occurrence} (h : o.applied.NamesDistinct) (present : Option PendingEntry)
    (member : String) :
    (env.mergeInto present o).values.get? member =
      ((present.bind (·.values.get? member))).or (env.valueFrom? member o) := by
  cases present with
  | none => exact get?_addRecorded o.level h o.source ∅ member
  | some entry => exact get?_addRecorded o.level h o.source entry.values member

variable (env) in
/-- The source of an entry is settled, and a value that is there stays. -/
theorem foldl_mergeInto {occurrences : List Occurrence}
    (h : ∀ o ∈ occurrences, o.applied.NamesDistinct) (entry : PendingEntry) :
    ∃ merged, occurrences.foldl (fun entry o => some (env.mergeInto entry o)) (some entry) =
        some merged ∧ merged.source = entry.source ∧
      ∀ member, merged.values.get? member =
        (entry.values.get? member).or (occurrences.findSome? (env.valueFrom? member)) := by
  induction occurrences generalizing entry with
  | nil => exact ⟨entry, rfl, rfl, fun member => by simp⟩
  | cons o rest ih =>
    obtain ⟨merged, hm, hs, hv⟩ :=
      ih (fun other ho => h other (List.mem_cons_of_mem _ ho)) (env.mergeInto (some entry) o)
    refine ⟨merged, hm, hs, fun member => ?_⟩
    rw [hv, get?_mergeInto (h o List.mem_cons_self), Option.bind_some, Option.or_assoc,
      List.findSome?_cons]
    cases env.valueFrom? member o <;> simp

/-- **What has been merged under a name.** -/
theorem of_get?_annotations_collectAll {occurrences : List Occurrence}
    (h : ∀ o ∈ occurrences, o.applied.NamesDistinct) {name : String} {entry : PendingEntry}
    (he : (env.collectAll occurrences).annotations.get? name = some entry) :
    (∃ first, (occurrences.filter (·.mergesInto name)).head? = some first ∧
        entry.source = first.source) ∧
      ∀ member, entry.values.get? member =
        (occurrences.filter (·.mergesInto name)).findSome? (env.valueFrom? member) := by
  have hk : ∀ o ∈ occurrences.filter (·.mergesInto name), o.applied.NamesDistinct :=
    fun o ho => h o (List.mem_filter.mp ho).1
  rw [collectAll, get?_annotations_foldl] at he
  change (occurrences.filter (·.mergesInto name)).foldl _ none = _ at he
  cases hf : occurrences.filter (·.mergesInto name) with
  | nil =>
    rw [hf] at he
    cases he
  | cons first rest =>
    rw [hf] at he hk
    obtain ⟨merged, hm, hs, hv⟩ := foldl_mergeInto env
      (fun o ho => hk o (List.mem_cons_of_mem _ ho)) (env.mergeInto none first)
    obtain rfl : merged = entry := Option.some.inj (hm.symm.trans he)
    refine ⟨⟨first, rfl, hs⟩, fun member => ?_⟩
    rw [hv, get?_mergeInto (hk first List.mem_cons_self), Option.bind_none, Option.none_or,
      List.findSome?_cons]
    cases env.valueFrom? member first <;> simp

theorem mem_names_annotations_collectAll {occurrences : List Occurrence} {name : String} :
    name ∈ (env.collectAll occurrences).annotations.names ↔
      occurrences.filter (·.mergesInto name) ≠ [] := by
  have hsome : ∀ (rest : List Occurrence) (entry : PendingEntry),
      rest.foldl (fun entry o => some (env.mergeInto entry o)) (some entry) ≠ none := by
    intro rest
    induction rest with
    | nil => intro entry h; cases h
    | cons o rest ih => intro entry; exact ih _
  rw [← not_iff_not, ← Members.get?_eq_none_iff, collectAll, get?_annotations_foldl, not_not]
  show (occurrences.filter (·.mergesInto name)).foldl _ none = _ ↔ _
  cases occurrences.filter (·.mergesInto name) with
  | nil => exact iff_of_true rfl rfl
  | cons first rest => exact iff_of_false (hsome rest _) (List.cons_ne_nil first rest)

/-! ## Repeated entries -/

theorem foldl_repeatInto (occurrences : List Occurrence) (entry : PendingRepeated) :
    occurrences.foldl (fun entry o => some (env.repeatInto entry o)) (some entry) =
      some ⟨entry.container, entry.instances ++ occurrences.map env.applicationOf⟩ := by
  induction occurrences generalizing entry with
  | nil => simp
  | cons o rest ih =>
    rw [List.foldl_cons, ih]
    simp [repeatInto]

/-- **What has been repeated under a name.** -/
theorem get?_repeated_collectAll (occurrences : List Occurrence) (name : String) :
    (env.collectAll occurrences).repeated.get? name =
      (occurrences.filter (·.repeats name)).head?.map fun first =>
        ⟨first.container.getD "", (occurrences.filter (·.repeats name)).map env.applicationOf⟩ := by
  rw [collectAll, get?_repeated_foldl]
  show (occurrences.filter (·.repeats name)).foldl _ none = _
  cases occurrences.filter (·.repeats name) with
  | nil => rfl
  | cons first rest =>
    rw [List.foldl_cons, foldl_repeatInto]
    rfl

theorem mem_names_repeated_collectAll {occurrences : List Occurrence} {name : String} :
    name ∈ (env.collectAll occurrences).repeated.names ↔
      occurrences.filter (·.repeats name) ≠ [] := by
  rw [← not_iff_not, ← Members.get?_eq_none_iff, get?_repeated_collectAll, Option.map_eq_none_iff,
    List.head?_eq_none_iff, not_not]

/-- The names that are collected are those of the occurrences. -/
theorem mem_names_collectAll {occurrences : List Occurrence} {name : String} :
    name ∈ (env.collectAll occurrences).annotations.names ++
        (env.collectAll occurrences).repeated.names ↔
      ∃ o ∈ occurrences, o.applied.annotationType = name := by
  rw [List.mem_append, mem_names_annotations_collectAll, mem_names_repeated_collectAll]
  constructor
  · rintro (h | h)
    all_goals
      obtain ⟨o, ho⟩ := List.exists_mem_of_ne_nil _ h
      obtain ⟨hm, hp⟩ := List.mem_filter.mp ho
      exact ⟨o, hm, eq_of_beq (Bool.and_eq_true_iff.mp hp).2⟩
  · rintro ⟨o, ho, ht⟩
    cases hc : o.container with
    | none =>
      have hp : o.mergesInto name = true := by simp [Occurrence.mergesInto, hc, ht]
      exact Or.inl (List.ne_nil_of_mem (List.mem_filter.mpr ⟨ho, hp⟩))
    | some container =>
      have hp : o.repeats name = true := by simp [Occurrence.repeats, hc, ht]
      exact Or.inr (List.ne_nil_of_mem (List.mem_filter.mpr ⟨ho, hp⟩))

end Environment

end AnnotationResolution
