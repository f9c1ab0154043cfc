import AnnotationResolution.Assembly.Collected
import AnnotationResolution.Proofs.Model.Accepted

/-!
# What an annotation records

`memberValue? a m` is the value that the annotation `a` gives to its member `m`, and `memberValues`
lists these values in the order of the members.  They say what `recordAnnotation` comes to:

* `map_pair_recordAnnotation`, `recordAnnotation_eq`: recorded are the values of the members that
  have none yet;
* `get?_addRecorded`: a map that takes them in keeps what it has and gains the other values;
* `entries_addRecorded`: a map that was empty holds just `memberValues`.

All of it needs distinct member names: of two members with one name, the second is read whenever the
first one does not convert.
-/

namespace AnnotationResolution

/-- A recorded value under its member. -/
def Recorded.pair (r : Recorded) : String × Value := (r.member, r.value)

/-- Values with their source. -/
def sourced (source : ValueSource) (values : List (String × Value)) : List (String × SourcedValue) :=
  values.map fun entry => (entry.1, ⟨entry.2, source⟩)

theorem lookup_sourced (source : ValueSource) (values : List (String × Value)) (name : String) :
    (sourced source values).lookup name = (values.lookup name).map (⟨·, source⟩) :=
  Members.lookup_mapNamed (fun _ value => SourcedValue.mk value source) values name

theorem map_fst_sourced (source : ValueSource) (values : List (String × Value)) :
    (sourced source values).map (·.1) = values.map (·.1) := by
  simp [sourced, Function.comp_def]

theorem addRecorded_eq (source : ValueSource) (values : Members SourcedValue)
    (recorded : List Recorded) :
    addRecorded source values recorded =
      values.insertAll (sourced source (recorded.map Recorded.pair)) := by
  rw [addRecorded, Members.insertAll, sourced, List.map_map, List.foldl_map]
  rfl

namespace Environment

variable (env : Environment)

/-- The value that an annotation gives to a member. -/
def memberValue? (a : AnnotationInstance) (member : String) : Option Value :=
  (a.members.get? member).bind (env.readMember a.annotationType member)

/-- The values that an annotation gives to its members, in their order. -/
def memberValues (a : AnnotationInstance) : List (String × Value) :=
  a.members.entries.filterMap fun entry =>
    (env.readMember a.annotationType entry.1 entry.2).map (entry.1, ·)

variable {env} {a : AnnotationInstance}

theorem mem_entries_of_memberValues {name : String} {value : Value}
    (h : (name, value) ∈ env.memberValues a) :
    ∃ e, (name, e) ∈ a.members.entries ∧ env.readMember a.annotationType name e = some value := by
  obtain ⟨⟨key, e⟩, he, hv⟩ := List.mem_filterMap.mp h
  obtain ⟨read, hr, hp⟩ := Option.map_eq_some_iff.mp hv
  cases hp
  exact ⟨e, he, hr⟩

theorem memberValues_nodup (h : a.NamesDistinct) : ((env.memberValues a).map (·.1)).Nodup := by
  have hs : ((env.memberValues a).map (·.1)).Sublist a.members.names := by
    rw [memberValues, Members.names]
    induction a.members.entries with
    | nil => simp
    | cons entry rest ih =>
      cases hr : env.readMember a.annotationType entry.1 entry.2 with
      | none => simpa [hr] using ih.cons entry.1
      | some value => simpa [hr] using ih
  exact List.Sublist.nodup hs h

/-- The list and the look-up of member values agree. -/
theorem lookup_memberValues (h : a.NamesDistinct) (member : String) :
    (env.memberValues a).lookup member = env.memberValue? a member := by
  cases hv : env.memberValue? a member with
  | some value =>
    obtain ⟨e, he, hr⟩ := Option.bind_eq_some_iff.mp hv
    have hm : (member, e) ∈ a.members.entries := Members.mem_entries_of_get? he
    exact Members.lookup_of_mem (memberValues_nodup h)
      (List.mem_filterMap.mpr ⟨(member, e), hm, by simp [hr]⟩)
  | none =>
    rw [List.lookup_eq_none_iff]
    rintro ⟨name, value⟩ hm
    obtain ⟨e, he, hr⟩ := mem_entries_of_memberValues hm
    rw [bne_iff_ne]
    rintro rfl
    have hg : a.members.get? member = some e := Members.lookup_of_mem h he
    rw [memberValue?, hg, Option.bind_some, hr] at hv
    cases hv

variable (origin : DeclId)

theorem record?_eq (annotationType : String) (present : List String) (member : String) (e : Expr) :
    env.record? present origin annotationType (env.model.annotationMember? annotationType member)
        member e =
      if member ∈ present then none
      else (env.readMember annotationType member e).map fun value =>
        ⟨origin, annotationType, env.model.annotationMember? annotationType member, member, value⟩ :=
  rfl

theorem map_pair_recordMembers (annotationType : String) {entries : List (String × Expr)}
    (h : (entries.map (·.1)).Nodup) (present : List String) :
    (env.recordMembers origin annotationType present entries).map Recorded.pair =
      (entries.filterMap fun entry =>
        (env.readMember annotationType entry.1 entry.2).map (entry.1, ·)).filter
          fun entry => entry.1 ∉ present := by
  induction entries generalizing present with
  | nil => rfl
  | cons entry rest ih =>
    obtain ⟨member, e⟩ := entry
    rw [List.map_cons, List.nodup_cons] at h
    rw [recordMembers, record?_eq]
    by_cases hp : member ∈ present
    · rw [if_pos hp]
      cases hr : env.readMember annotationType member e with
      | none => simp [hr, ih h.2]
      | some value => simp [hr, hp, ih h.2]
    · rw [if_neg hp]
      cases hr : env.readMember annotationType member e with
      | none => simp [hr, ih h.2]
      | some value =>
        simp only [Option.map_some, List.map_cons, Recorded.pair, List.filterMap_cons, hr]
        rw [List.filter_cons_of_pos (by simpa), ih h.2]
        congr 1
        -- `member` counts as present from here on, but the rest does not name it again.
        refine List.filter_congr fun other ho => ?_
        have hne : other.1 ≠ member := by
          rintro rfl
          obtain ⟨named, hn, hv⟩ := List.mem_filterMap.mp ho
          obtain ⟨value', -, rfl⟩ := Option.map_eq_some_iff.mp hv
          exact h.1 (List.mem_map_of_mem (f := (·.1)) hn)
        simp [hne]

/-- **Recorded are the values of the members that are not present.** -/
theorem map_pair_recordAnnotation (h : a.NamesDistinct) (present : List String) :
    (env.recordAnnotation origin present a).map Recorded.pair =
      (env.memberValues a).filter fun entry => entry.1 ∉ present :=
  map_pair_recordMembers origin a.annotationType h present

/-- **New values come last.** -/
theorem entries_addRecorded_append (h : a.NamesDistinct) (source : ValueSource)
    (values : Members SourcedValue) :
    (addRecorded source values (env.recordAnnotation origin values.names a)).entries =
      values.entries ++
        sourced source ((env.memberValues a).filter fun entry => entry.1 ∉ values.names) := by
  have hnodup : (((env.memberValues a).filter fun entry => entry.1 ∉ values.names).map
      (·.1)).Nodup := List.Sublist.nodup (List.filter_sublist.map _) (memberValues_nodup h)
  rw [addRecorded_eq, map_pair_recordAnnotation origin h, Members.entries_insertAll]
  · rwa [map_fst_sourced]
  · intro entry he
    obtain ⟨kept, hk, rfl⟩ := List.mem_map.mp he
    simpa using (List.mem_filter.mp hk).2

/-- **The first value of a member stays.** -/
theorem get?_addRecorded (h : a.NamesDistinct) (source : ValueSource)
    (values : Members SourcedValue) (member : String) :
    (addRecorded source values (env.recordAnnotation origin values.names a)).get? member =
      (values.get? member).or ((env.memberValue? a member).map (⟨·, source⟩)) := by
  rw [Members.get?, entries_addRecorded_append origin h, List.lookup_append, lookup_sourced,
    Members.get?]
  cases hv : values.entries.lookup member with
  | some value => rw [Option.some_or, Option.some_or]
  | none =>
    have hm : member ∉ values.names := Members.get?_eq_none_iff.mp hv
    rw [Members.lookup_filter (p := fun name => name ∉ values.names) (by simpa using hm),
      lookup_memberValues h]

theorem entries_addRecorded (h : a.NamesDistinct) (source : ValueSource) :
    (addRecorded source ∅ (env.recordAnnotation origin [] a)).entries =
      sourced source (env.memberValues a) := by
  have hall : ((env.memberValues a).filter fun entry =>
      entry.1 ∉ (∅ : Members SourcedValue).names) = env.memberValues a := by simp
  rw [← hall]
  exact entries_addRecorded_append origin h source ∅

end Environment

end AnnotationResolution
