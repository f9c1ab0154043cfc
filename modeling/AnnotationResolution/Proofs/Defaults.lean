import AnnotationResolution.Assembly
import AnnotationResolution.Proofs.Recording

/-!
# The cache of defaults

`namedDefaults` are the defaults of the annotation type of a name.  A cache is *sound* when it holds
nothing else.  The empty cache is, looking up a name keeps it so, and a sound cache in which a name
was looked up answers for that name with `namedDefaults` (`defaultsOf_foldl_ensure`).  So what a
build sees of a sound cache does not depend on what the cache was used for before.

`get?_fillDefaults` and `entries_fillDefaults` say what filling in defaults comes to.
-/

namespace AnnotationResolution

theorem fillDefaults_eq (defaults : Members Value) (values : Members SourcedValue) :
    fillDefaults defaults values =
      values.insertAllNew (sourced .default defaults.entries) := by
  rw [fillDefaults, Members.insertAllNew, sourced, List.foldl_map]

/-- A value that is there goes before a default. -/
theorem get?_fillDefaults (defaults : Members Value) (values : Members SourcedValue)
    (member : String) :
    (fillDefaults defaults values).get? member =
      (values.get? member).or ((defaults.get? member).map (⟨·, .default⟩)) := by
  rw [fillDefaults_eq, Members.get?_insertAllNew, lookup_sourced]
  rfl

theorem entries_fillDefaults {defaults : Members Value} (h : defaults.names.Nodup)
    (values : Members SourcedValue) :
    (fillDefaults defaults values).entries =
      values.entries ++
        sourced .default (defaults.entries.filter fun entry => entry.1 ∉ values.names) := by
  rw [fillDefaults_eq, Members.entries_insertAllNew (by rwa [map_fst_sourced]), sourced, sourced,
    List.filter_map]
  rfl

namespace Environment

variable (env : Environment)

/-- The defaults of the annotation type of a name, none if there is no such type. -/
def namedDefaults (name : String) : Members Value :=
  match env.model.typeNamed? name with
  | some ty => env.defaultValues ty
  | none => ∅

theorem names_nodup_defaultValues (ty : DeclId) : (env.defaultValues ty).names.Nodup := by
  rw [defaultValues]
  split
  · exact List.nodup_nil
  · exact Members.names_nodup_ofList _

theorem names_nodup_namedDefaults (name : String) : (env.namedDefaults name).names.Nodup := by
  rw [namedDefaults]
  split
  · exact names_nodup_defaultValues env _
  · exact List.nodup_nil

end Environment

namespace DefaultCache

variable {env : Environment} {cache : DefaultCache}

variable (env) in
/-- The cache holds only the defaults of the type that has the name they are stored under. -/
def Sound (cache : DefaultCache) : Prop :=
  ∀ name values, cache.get? name = some values →
    ∃ ty, env.model.typeNamed? name = some ty ∧ values = env.defaultValues ty

theorem sound_empty : Sound env {} := by
  intro name values h
  cases h

theorem get?_ensure (cache : DefaultCache) (name other : String) :
    (cache.ensure env name).get? other =
      if other = name then
        (cache.get? name).or ((env.model.typeNamed? name).map env.defaultValues)
      else cache.get? other := by
  rw [ensure]
  cases ht : env.model.typeNamed? name with
  | none =>
    show cache.get? other = _
    split
    · next h => rw [h, Option.map_none, Option.or_none]
    · rfl
  | some ty =>
    show (cache.store env name ty).get? other = _
    have hs : cache.store env name ty = ⟨cache.entries.insertIfNew name (env.defaultValues ty)⟩ := by
      rw [store, Members.insertIfNew, contains]
      split <;> rfl
    rw [hs, get?, Members.get?_insertIfNew]
    split
    · next h => rw [h, Option.map_some, get?]
    · rw [Option.or_none, get?]

theorem Sound.ensure (h : Sound env cache) (name : String) : Sound env (cache.ensure env name) := by
  intro other values ho
  rw [get?_ensure] at ho
  split at ho
  · next he =>
    subst he
    cases hc : cache.get? other with
    | some stored =>
      rw [hc, Option.some_or] at ho
      cases ho
      exact h other values hc
    | none =>
      rw [hc, Option.none_or] at ho
      obtain ⟨ty, ht, rfl⟩ := Option.map_eq_some_iff.mp ho
      exact ⟨ty, ht, rfl⟩
  · exact h other values ho

theorem Sound.foldl_ensure (h : Sound env cache) (names : List String) :
    Sound env (names.foldl (DefaultCache.ensure env) cache) := by
  induction names generalizing cache with
  | nil => exact h
  | cons name rest ih => exact ih (h.ensure name)

/-- What is stored stays, and what was looked up is stored if there is a type of that name. -/
theorem get?_foldl_ensure (names : List String) (cache : DefaultCache) (name : String) :
    (names.foldl (DefaultCache.ensure env) cache).get? name =
      if name ∈ names then
        (cache.get? name).or ((env.model.typeNamed? name).map env.defaultValues)
      else cache.get? name := by
  induction names generalizing cache with
  | nil => rfl
  | cons other rest ih =>
    rw [List.foldl_cons, ih, get?_ensure]
    by_cases he : name = other
    · subst he
      -- A second look-up finds what the first one stored.
      rw [if_pos rfl, if_pos List.mem_cons_self, Option.or_assoc, Option.or_self, ite_self]
    · rw [if_neg he]
      simp only [List.mem_cons, he, false_or]

/-- **A sound cache answers for the names that were looked up in it.** -/
theorem defaultsOf_foldl_ensure (h : Sound env cache) {names : List String} {name : String}
    (hn : name ∈ names) :
    (names.foldl (DefaultCache.ensure env) cache).defaultsOf env name = env.namedDefaults name := by
  rw [defaultsOf, Environment.namedDefaults]
  cases ht : env.model.typeNamed? name with
  | none => rfl
  | some ty =>
    show ((names.foldl (DefaultCache.ensure env) cache).get? name).getD ∅ = env.defaultValues ty
    rw [get?_foldl_ensure, if_pos hn, ht]
    cases hc : cache.get? name with
    | none => rfl
    | some stored =>
      obtain ⟨ty', ht', rfl⟩ := h name stored hc
      obtain rfl : ty = ty' := Option.some.inj (ht.symm.trans ht')
      rfl

end DefaultCache

end AnnotationResolution
