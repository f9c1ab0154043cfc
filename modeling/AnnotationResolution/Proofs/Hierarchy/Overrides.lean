import Mathlib.Data.List.Chain
import Mathlib.Data.List.TakeWhile
import AnnotationResolution.Proofs.Hierarchy.Ancestry
import AnnotationResolution.Proofs.TypeRef

/-!
# Which methods are overridden

The search goes along the superclasses of the type that declares a method, and at each class looks at
the interfaces first and then at the superclass.  It ends before the root type, and at the first
superclass with a match that is not marked as overriding (`chainStart?`); the interfaces of that one
do not count.  Interfaces are looked at once, where they come up first.

* `FoundInStages`: a list to which each of several stages adds what is new with it.
* `Matches`, `FoundOnInterfaces`, `FoundOnClass`: what counts as overridden, on which type.
* `isOverrideWalk`: which superclasses are searched.
* `foundInStages_overriddenAbove`: the overridden methods are found in stages, the interfaces of a
  class and then its superclass.
* `overriddenMethods_exact`: which methods are overridden, and in what order.
-/

namespace AnnotationResolution

/-! ## Found stage by stage -/

/-- From one list of found items to another: each stage puts what is new with it at the end. -/
inductive FoundInStages {σ : Type} {α : Type} (gives : σ → α → Prop) :
    List σ → List α → List α → Prop
  | done (found : List α) : FoundInStages gives [] found found
  | next {stage : σ} {rest : List σ} {found new result : List α}
      (hnew : ∀ x, x ∈ new ↔ x ∉ found ∧ gives stage x) (hnodup : new.Nodup)
      (hrest : FoundInStages gives rest (found ++ new) result) :
      FoundInStages gives (stage :: rest) found result

namespace FoundInStages

variable {σ α : Type} {gives : σ → α → Prop} {stages : List σ} {found result : List α}

theorem exists_eq_append (h : FoundInStages gives stages found result) :
    ∃ later, result = found ++ later := by
  induction h with
  | done found => exact ⟨[], (List.append_nil found).symm⟩
  | @next stage rest found new result _ _ _ ih =>
    obtain ⟨later, rfl⟩ := ih
    exact ⟨new ++ later, List.append_assoc found new later⟩

theorem nodup (h : FoundInStages gives stages found result) (hfound : found.Nodup) :
    result.Nodup := by
  induction h with
  | done found => exact hfound
  | next hnew hnodup _ ih =>
    refine ih (List.nodup_append.mpr ⟨hfound, hnodup, fun a ha b hb he => ?_⟩)
    exact ((hnew b).mp hb).1 (he ▸ ha)

theorem mem_append_iff {stage : σ} {new : List α}
    (hnew : ∀ x, x ∈ new ↔ x ∉ found ∧ gives stage x) {x : α} :
    x ∈ found ++ new ↔ x ∈ found ∨ gives stage x := by
  rw [List.mem_append, hnew]
  tauto

theorem mem_iff (h : FoundInStages gives stages found result) {x : α} :
    x ∈ result ↔ x ∈ found ∨ ∃ stage ∈ stages, gives stage x := by
  induction h with
  | done found => simp
  | next hnew _ _ ih => rw [ih, mem_append_iff hnew, List.exists_mem_cons_iff, or_assoc]

/-- **The items of a stage come after those of the stages before and before all others.** -/
theorem exists_split {before after : List σ} {stage : σ}
    (h : FoundInStages gives (before ++ stage :: after) found result) :
    ∃ earlier here later, result = earlier ++ here ++ later ∧
      (∀ x, x ∈ earlier ↔ x ∈ found ∨ ∃ s ∈ before, gives s x) ∧
      ∀ x, x ∈ here ↔ x ∉ earlier ∧ gives stage x := by
  induction before generalizing found with
  | nil =>
    cases h with
    | @next _ _ _ new _ hnew hnodup hrest =>
      obtain ⟨later, rfl⟩ := hrest.exists_eq_append
      exact ⟨found, new, later, rfl, by simp, hnew⟩
  | cons first before ih =>
    cases h with
    | next hnew hnodup hrest =>
      obtain ⟨earlier, here, later, he, hearlier, hhere⟩ := ih hrest
      refine ⟨earlier, here, later, he, fun x => ?_, hhere⟩
      rw [hearlier, mem_append_iff hnew, List.exists_mem_cons_iff, or_assoc]

end FoundInStages

/-- What the items of a list add to what is known. -/
theorem exists_foldl_addNew_eq (items known : List DeclId) :
    ∃ new, items.foldl addNew known = known ++ new ∧ new.Nodup ∧
      ∀ x, x ∈ new ↔ x ∉ known ∧ x ∈ items := by
  induction items generalizing known with
  | nil => exact ⟨[], (List.append_nil known).symm, List.nodup_nil, by simp⟩
  | cons id rest ih =>
    obtain ⟨new, he, hnodup, hnew⟩ := ih (addNew known id)
    rw [List.foldl_cons, he, addNew]
    by_cases hk : id ∈ known
    · rw [if_pos hk]
      refine ⟨new, rfl, hnodup, fun x => ?_⟩
      rw [hnew, addNew, if_pos hk, List.mem_cons]
      refine and_congr_right fun hx => (or_iff_right ?_).symm
      rintro rfl
      exact hx hk
    · rw [if_neg hk, List.append_assoc]
      have hmem : ∀ x, x ∈ new ↔ (x ∉ known ∧ x ≠ id) ∧ x ∈ rest := by
        intro x
        rw [hnew, Environment.mem_addNew, not_or]
      refine ⟨id :: new, rfl, List.nodup_cons.mpr ⟨fun hid => ?_, hnodup⟩, fun x => ?_⟩
      · exact ((hmem id).mp hid).1.2 rfl
      · rw [List.mem_cons, List.mem_cons, hmem]
        by_cases hx : x = id
        · subst hx
          simp [hk]
        · simp [hx]

/-! ## Matches -/

namespace Model

variable {m : Model}

/-- **Parameters match** if their types are the same up to type arguments, after the type parameters in
the candidate's are replaced. -/
theorem signatureMatches_iff {params : List TypeRef} {candidate : DeclId}
    {bindings : Option Substitution} :
    m.signatureMatches params candidate bindings = true ↔
      List.Forall₂ (fun inherited own =>
        (inherited.substitute (bindings.getD ∅)).sameErasure own = true)
        (m.parameterTypes candidate) params := by
  have hone : ∀ inherited own : TypeRef,
      (if inherited.hasParams then (inherited.substitute (bindings.getD ∅)).sameErasure own
        else inherited.sameErasure own) =
        (inherited.substitute (bindings.getD ∅)).sameErasure own := by
    intro inherited own
    cases hp : inherited.hasParams with
    | false => rw [TypeRef.substitute_of_hasParams_eq_false hp, if_neg Bool.false_ne_true]
    | true => rw [if_pos rfl]
  rw [signatureMatches, Bool.and_eq_true, beq_iff_eq, List.forall₂_iff_zip, List.all_eq_true]
  simp only [hone, Prod.forall]

/-- The search for the methods that a method overrides, if a type declares it. -/
def overriding? (m : Model) (method : DeclId) : Option Overriding := do
  let d ← m.declaration? method
  let origin ← d.declaringType
  return ⟨method, d.name, origin, m.parameterTypes method⟩

theorem overriding?_eq_some_iff {method : DeclId} {target : Overriding} :
    m.overriding? method = some target ↔ ∃ d, m.declaration? method = some d ∧
      ∃ origin, d.declaringType = some origin ∧
        ⟨method, d.name, origin, m.parameterTypes method⟩ = target := by
  simp only [overriding?, bind, Option.bind_eq_some_iff, pure, Option.some_inj]

theorem method_of_overriding? {method : DeclId} {target : Overriding}
    (ht : m.overriding? method = some target) : target.method = method := by
  obtain ⟨d, -, origin, -, rfl⟩ := overriding?_eq_some_iff.mp ht
  rfl

end Model

namespace Environment

variable {env : Environment} {target : Overriding}

variable (env) in
/-- A type lists a method under the name that is looked for, and its parameters match once they are
seen from the type that declares the overriding method. -/
structure Matches (target : Overriding) (ancestor method : DeclId) : Prop where
  listed : method ∈ env.model.methodsNamed ancestor target.name
  parameters : List.Forall₂ (fun inherited own =>
    (inherited.substitute
      ((env.model.typeArguments? target.origin ancestor).getD ∅)).sameErasure own = true)
    (env.model.parameterTypes method) target.params

variable (env) in
def IsNotPrivate (method : DeclId) : Prop :=
  ∃ info, env.model.methodInfo? method = some info ∧ info.visibility ≠ .privateAccess

variable (env) in
/-- A match on an interface above a class; the declaring type itself and the method itself are
none. -/
def FoundOnInterfaces (target : Overriding) (c method : DeclId) : Prop :=
  method ≠ target.method ∧ ∃ interface, interface ≠ target.origin ∧
    Relation.TransGen env.NamesInterface c interface ∧ env.Matches target interface method

variable (env) in
/-- A match on a superclass. -/
def FoundOnClass (target : Overriding) (c method : DeclId) : Prop :=
  env.Matches target c method ∧ env.IsNotPrivate method

variable (env) in
/-- A superclass has a match that is not marked as overriding. -/
def StartsChain (target : Overriding) (c : DeclId) : Prop :=
  ∃ method info, env.FoundOnClass target c method ∧ env.model.methodInfo? method = some info ∧
    info.overrides = false

theorem mem_matchesIn_iff {ancestor method : DeclId} :
    method ∈ env.matchesIn target ancestor ↔ env.Matches target ancestor method := by
  rw [matchesIn, List.mem_filter, Model.signatureMatches_iff]
  exact ⟨fun h => ⟨h.1, h.2⟩, fun h => ⟨h.listed, h.parameters⟩⟩

theorem mem_interfaceMatches_iff {interface method : DeclId} :
    method ∈ env.interfaceMatches target interface ↔
      method ≠ target.method ∧ env.Matches target interface method := by
  rw [interfaceMatches, List.mem_filter, mem_matchesIn_iff, decide_eq_true_iff, and_comm]

theorem mem_superclassMatches_iff {superclass method : DeclId} :
    method ∈ env.superclassMatches target superclass ↔
      env.FoundOnClass target superclass method := by
  rw [superclassMatches, List.mem_filter, mem_matchesIn_iff, Option.any_eq_true]
  simp only [decide_eq_true_iff, FoundOnClass, IsNotPrivate]

theorem startsChain_superclassMatches_iff {superclass : DeclId} :
    env.startsChain (env.superclassMatches target superclass) = true ↔
      env.StartsChain target superclass := by
  simp only [startsChain, List.any_eq_true, mem_superclassMatches_iff, Option.any_eq_true,
    Bool.not_eq_true', StartsChain, exists_and_left]

/-! ## Which superclasses are searched -/

variable (env) in
/-- **The superclasses that are searched**: those that the search goes beyond, and after them the one
at which it ends on account of what it finds there, if there is one. -/
structure IsOverrideWalk (target : Overriding) (passed : List DeclId) (start? : Option DeclId) :
    Prop where
  /-- Each is the superclass of the one before, and the first one that of the declaring type. -/
  linked : (target.origin :: (passed ++ start?.toList)).IsChain
    fun below above => env.model.superType? below = some above
  nodup : (target.origin :: (passed ++ start?.toList)).Nodup
  notRoot : ∀ c ∈ passed ++ start?.toList, env.isRoot c = false
  goesOn : ∀ c ∈ passed, ¬ env.StartsChain target c
  starts : ∀ c ∈ start?, env.StartsChain target c
  /-- Otherwise it ends at a superclass that does not resolve, is the root type or comes again. -/
  ends : start? = none → ∀ above, env.model.superType? (passed.getLastD target.origin) = some above →
    env.isRoot above = true ∨ above ∈ target.origin :: passed

variable (env) in
def superclassesBelowRoot (ty : DeclId) : List DeclId :=
  (env.model.superclasses ty).takeWhile fun c => !env.isRoot c

variable (env target) in
def passedSuperclasses : List DeclId :=
  (env.superclassesBelowRoot target.origin).takeWhile fun c =>
    !env.startsChain (env.superclassMatches target c)

variable (env target) in
def chainStart? : Option DeclId :=
  (env.superclassesBelowRoot target.origin).find? fun c =>
    env.startsChain (env.superclassMatches target c)

theorem takeWhile_not_append_find?_prefix (p : DeclId → Bool) (classes : List DeclId) :
    classes.takeWhile (fun c => !p c) ++ (classes.find? p).toList <+: classes := by
  have hsplit := List.takeWhile_append_dropWhile (p := fun c => !p c) (l := classes)
  conv => rhs; rw [← hsplit]
  rw [List.prefix_append_right_inj, List.find?_eq_head?_dropWhile_not]
  cases classes.dropWhile fun c => !p c with
  | nil => exact List.prefix_rfl
  | cons c rest => exact List.prefix_append [c] rest

/-- Below the root type the chain goes as far as it can. -/
theorem ends_superclassesBelowRoot {ty above : DeclId}
    (h : env.model.superType? ((env.superclassesBelowRoot ty).getLastD ty) = some above) :
    env.isRoot above = true ∨ above ∈ ty :: env.superclassesBelowRoot ty := by
  have hchain := env.model.isSuperclassChain_superclasses ty
  have hsplit : env.superclassesBelowRoot ty ++
      (env.model.superclasses ty).dropWhile (fun c => !env.isRoot c) = env.model.superclasses ty :=
    List.takeWhile_append_dropWhile
  cases hdrop : (env.model.superclasses ty).dropWhile fun c => !env.isRoot c with
  | nil =>
    rw [hdrop, List.append_nil] at hsplit
    rw [hsplit] at h ⊢
    exact Or.inr (hchain.ends above h)
  | cons root rest =>
    have hlinked := hchain.linked
    rw [← hsplit, hdrop, ← List.cons_append, List.isChain_append] at hlinked
    have hnext := hlinked.2.2 _ List.getLast?_cons root rfl
    rw [← List.getLastD_eq_getLast?, h] at hnext
    obtain rfl := Option.some.inj hnext
    have hroot := List.head?_dropWhile_not (fun c => !env.isRoot c) (env.model.superclasses ty)
    simp only [hdrop, List.head?_cons] at hroot
    exact Or.inl (by simpa using hroot)

theorem isOverrideWalk (env : Environment) (target : Overriding) :
    env.IsOverrideWalk target (env.passedSuperclasses target) (env.chainStart? target) := by
  have hbelow := takeWhile_not_append_find?_prefix
    (fun c => env.startsChain (env.superclassMatches target c))
    (env.superclassesBelowRoot target.origin)
  have hchain := env.model.isSuperclassChain_superclasses target.origin
  have hprefix : target.origin :: (env.passedSuperclasses target ++ (env.chainStart? target).toList)
      <+: target.origin :: env.model.superclasses target.origin :=
    List.cons_prefix_cons.mpr ⟨rfl, hbelow.trans (List.takeWhile_prefix _)⟩
  refine
    { linked := hchain.linked.prefix hprefix
      nodup := hchain.nodup.sublist hprefix.sublist
      notRoot := fun c hc => ?_
      goesOn := fun c hc => ?_
      starts := fun c hc => ?_
      ends := fun hnone above ha => ?_ }
  · have hc' := List.mem_takeWhile_imp (hbelow.subset hc)
    simpa using hc'
  · have hc' := List.mem_takeWhile_imp hc
    rw [← startsChain_superclassMatches_iff]
    simpa using hc'
  · have hc' := List.find?_some (p := fun c => env.startsChain (env.superclassMatches target c)) hc
    exact startsChain_superclassMatches_iff.mp hc'
  · have hpassed : env.passedSuperclasses target = env.superclassesBelowRoot target.origin := by
      refine List.takeWhile_eq_self_iff.mpr fun c hc => ?_
      simpa using List.find?_eq_none.mp hnone c hc
    rw [hpassed] at ha ⊢
    exact ends_superclassesBelowRoot ha

/-! ## The search in stages -/

/-- What is looked at in one go: the interfaces above a class, or a superclass. -/
inductive SearchStage where
  | interfacesOf (c : DeclId)
  | methodsOf (superclass : DeclId)

variable (env target) in
def Gives : SearchStage → DeclId → Prop
  | .interfacesOf c, method => env.FoundOnInterfaces target c method
  | .methodsOf superclass, method => env.FoundOnClass target superclass method

/-- The interfaces come before the superclass, and those of the last superclass do not come. -/
def searchStages (origin : DeclId) (passed : List DeclId) (start? : Option DeclId) :
    List SearchStage :=
  .interfacesOf origin :: passed.flatMap (fun c => [.methodsOf c, .interfacesOf c]) ++
    start?.toList.map .methodsOf

theorem exists_searchStages_iff {origin : DeclId} {passed : List DeclId} {start? : Option DeclId}
    {method : DeclId} :
    (∃ stage ∈ searchStages origin passed start?, env.Gives target stage method) ↔
      (∃ c ∈ origin :: passed, env.FoundOnInterfaces target c method) ∨
        ∃ c ∈ passed ++ start?.toList, env.FoundOnClass target c method := by
  simp only [searchStages, List.cons_append, List.mem_append, or_and_right, exists_or,
    List.mem_flatMap, List.mem_map, List.mem_cons, List.not_mem_nil, or_false]
  constructor
  · rintro (⟨stage, rfl, h⟩ | ⟨stage, ⟨c, hc, rfl | rfl⟩, h⟩ | ⟨stage, ⟨c, hc, rfl⟩, h⟩)
    · exact Or.inl (Or.inl ⟨origin, rfl, h⟩)
    · exact Or.inr (Or.inl ⟨c, hc, h⟩)
    · exact Or.inl (Or.inr ⟨c, hc, h⟩)
    · exact Or.inr (Or.inr ⟨c, hc, h⟩)
  · rintro ((⟨c, rfl, h⟩ | ⟨c, hc, h⟩) | ⟨c, hc, h⟩ | ⟨c, hc, h⟩)
    · exact Or.inl ⟨.interfacesOf c, rfl, h⟩
    · exact Or.inr (Or.inl ⟨.interfacesOf c, ⟨c, hc, Or.inr rfl⟩, h⟩)
    · exact Or.inr (Or.inl ⟨.methodsOf c, ⟨c, hc, Or.inl rfl⟩, h⟩)
    · exact Or.inr (Or.inr ⟨.methodsOf c, ⟨c, hc, rfl⟩, h⟩)

variable (env) in
/-- What the search knows when it comes to a class. -/
structure IsSearched (target : Overriding) (current : DeclId) (seen found : List DeclId) : Prop where
  origin_mem : target.origin ∈ seen
  frontier : Frontier env.interfaces seen (env.interfaces current)
  /-- Nothing is lost by not looking at an interface again. -/
  kept : ∀ interface ∈ seen, interface ≠ target.origin → ∀ method, method ≠ target.method →
    env.Matches target interface method → method ∈ found

namespace IsSearched

variable {current : DeclId} {seen found : List DeclId}

theorem start (target : Overriding) : env.IsSearched target target.origin [target.origin] [] where
  origin_mem := List.mem_singleton_self _
  frontier _ hs _ hk := Or.inr (List.mem_singleton.mp hs ▸ hk)
  kept _ hi hne := absurd (List.mem_singleton.mp hi) hne

/-- **New on the interfaces of a class** are the matches that were not found before. -/
theorem exists_foldl_interfaceMatches_eq (h : env.IsSearched target current seen found) :
    ∃ new, ((env.interfaceClosure current seen).flatMap (env.interfaceMatches target)).foldl addNew
        found = found ++ new ∧ new.Nodup ∧
      ∀ x, x ∈ new ↔ x ∉ found ∧ env.FoundOnInterfaces target current x := by
  obtain ⟨new, he, hnodup, hnew⟩ := exists_foldl_addNew_eq
    ((env.interfaceClosure current seen).flatMap (env.interfaceMatches target)) found
  refine ⟨new, he, hnodup, fun x => (hnew x).trans (and_congr_right fun hx => ?_)⟩
  simp only [List.mem_flatMap, mem_interfaceClosure_iff h.frontier, mem_interfaceMatches_iff]
  constructor
  · rintro ⟨interface, ⟨hseen, hreach⟩, hne, hmatch⟩
    refine ⟨hne, interface, ?_, hreach, hmatch⟩
    rintro rfl
    exact hseen h.origin_mem
  · rintro ⟨hne, interface, horigin, hreach, hmatch⟩
    refine ⟨interface, ⟨fun hseen => hx ?_, hreach⟩, hne, hmatch⟩
    exact h.kept interface hseen horigin x hne hmatch

/-- What is known when the search goes on to the superclass. -/
theorem above (h : env.IsSearched target current seen found) (superclass : DeclId)
    {more : List DeclId} (hfound : found ⊆ more)
    (hmore : ∀ x, env.FoundOnInterfaces target current x → x ∈ more) :
    env.IsSearched target superclass (seen ++ env.interfaceClosure current seen) more where
  origin_mem := List.mem_append_left _ h.origin_mem
  frontier := (h.frontier.append_walkOrder env.mem_ids_of_interfaces_ne_nil).mono
    (List.nil_subset _)
  kept interface hi horigin method hne hmatch := by
    rcases List.mem_append.mp hi with hseen | hnew
    · exact hfound (h.kept interface hseen horigin method hne hmatch)
    · have hreach := ((mem_interfaceClosure_iff h.frontier).mp hnew).2
      exact hmore method ⟨hne, interface, horigin, hreach, hmatch⟩

end IsSearched

/-- **The overridden methods are found stage by stage.** -/
theorem foundInStages_overriddenAbove {superclasses : List DeclId} {current : DeclId}
    {seen found : List DeclId} (h : env.IsSearched target current seen found) :
    FoundInStages (env.Gives target)
      (searchStages current
        (superclasses.takeWhile fun c => !env.startsChain (env.superclassMatches target c))
        (superclasses.find? fun c => env.startsChain (env.superclassMatches target c)))
      found (env.overriddenAbove target superclasses current seen found) := by
  induction superclasses generalizing current seen found with
  | nil =>
    obtain ⟨new, he, hnodup, hnew⟩ := h.exists_foldl_interfaceMatches_eq
    rw [overriddenAbove, he]
    exact .next hnew hnodup (.done _)
  | cons superclass rest ih =>
    obtain ⟨new, he, hnodup, hnew⟩ := h.exists_foldl_interfaceMatches_eq
    obtain ⟨here, hehere, hnodupHere, hhere⟩ :=
      exists_foldl_addNew_eq (env.superclassMatches target superclass) (found ++ new)
    simp only [mem_superclassMatches_iff] at hhere
    simp only [overriddenAbove, he, hehere]
    cases hstart : env.startsChain (env.superclassMatches target superclass) with
    | true =>
      rw [List.takeWhile_cons_of_neg (by simp [hstart]), List.find?_cons, hstart]
      exact .next hnew hnodup (.next hhere hnodupHere (.done _))
    | false =>
      rw [List.takeWhile_cons_of_pos (by simp [hstart]), List.find?_cons, hstart]
      have habove : env.IsSearched target superclass
          (seen ++ env.interfaceClosure current seen) (found ++ new ++ here) := by
        refine h.above superclass (fun x hx => ?_) fun x hx => ?_
        · exact List.mem_append_left _ (List.mem_append_left _ hx)
        · exact List.mem_append_left _ ((FoundInStages.mem_append_iff hnew).mpr (Or.inr hx))
      exact .next hnew hnodup (.next hhere hnodupHere (ih habove))

theorem foundInStages_overriddenMethods {method : DeclId}
    (ht : env.model.overriding? method = some target) :
    FoundInStages (env.Gives target)
      (searchStages target.origin (env.passedSuperclasses target) (env.chainStart? target)) []
      (env.overriddenMethods method) := by
  have heq : env.overriddenMethods method = env.overriddenAbove target
      (env.superclassesBelowRoot target.origin) target.origin [target.origin] [] := by
    obtain ⟨d, hd, origin, horigin, rfl⟩ := Model.overriding?_eq_some_iff.mp ht
    simp only [overriddenMethods, hd, horigin]
    rfl
  rw [heq]
  exact foundInStages_overriddenAbove (.start target)

theorem mem_overriddenMethods_iff {method x : DeclId}
    (ht : env.model.overriding? method = some target) :
    x ∈ env.overriddenMethods method ↔
      (∃ c ∈ target.origin :: env.passedSuperclasses target, env.FoundOnInterfaces target c x) ∨
        ∃ c ∈ env.passedSuperclasses target ++ (env.chainStart? target).toList,
          env.FoundOnClass target c x := by
  rw [(foundInStages_overriddenMethods ht).mem_iff, or_iff_right List.not_mem_nil,
    exists_searchStages_iff]

/-- Without a declaring type nothing is looked for. -/
theorem overriddenMethods_of_overriding?_eq_none {method : DeclId}
    (h : env.model.overriding? method = none) : env.overriddenMethods method = [] := by
  rw [overriddenMethods]
  cases hd : env.model.declaration? method with
  | none => rfl
  | some d =>
    dsimp only
    cases ho : d.declaringType with
    | none => rfl
    | some origin =>
      rw [Model.overriding?_eq_some_iff.mpr ⟨d, hd, origin, ho, rfl⟩] at h
      cases h

theorem nodup_overriddenMethods (method : DeclId) : (env.overriddenMethods method).Nodup := by
  cases ht : env.model.overriding? method with
  | some target => exact (foundInStages_overriddenMethods ht).nodup .nil
  | none =>
    rw [overriddenMethods_of_overriding?_eq_none ht]
    exact .nil

/-- **Which methods are overridden.**  They are listed stage by stage, the interfaces of a class before
its superclass. -/
theorem overriddenMethods_exact {method : DeclId}
    (ht : env.model.overriding? method = some target) :
    ∃ passed start?, env.IsOverrideWalk target passed start? ∧
      (env.overriddenMethods method).Nodup ∧
      (∀ x, x ∈ env.overriddenMethods method ↔ ∃ ancestor, env.Matches target ancestor x ∧
        ((ancestor ≠ target.origin ∧
            (∃ c ∈ target.origin :: passed, Relation.TransGen env.NamesInterface c ancestor) ∧
            x ≠ method) ∨
          (ancestor ∈ passed ++ start?.toList ∧ env.IsNotPrivate x))) ∧
      ∀ before stage after, searchStages target.origin passed start? = before ++ stage :: after →
        ∃ earlier here later, env.overriddenMethods method = earlier ++ here ++ later ∧
          (∀ x, x ∈ earlier ↔ ∃ s ∈ before, env.Gives target s x) ∧
          ∀ x, x ∈ here ↔ x ∉ earlier ∧ env.Gives target stage x := by
  have hstages := foundInStages_overriddenMethods ht
  have hmethod := Model.method_of_overriding? ht
  refine ⟨_, _, isOverrideWalk env target, nodup_overriddenMethods method, fun x => ?_,
    fun before stage after he => ?_⟩
  · rw [mem_overriddenMethods_iff ht]
    constructor
    · rintro (⟨c, hc, hne, interface, horigin, hreach, hmatch⟩ | ⟨c, hc, hmatch, hprivate⟩)
      · exact ⟨interface, hmatch, Or.inl ⟨horigin, ⟨c, hc, hreach⟩, hmethod ▸ hne⟩⟩
      · exact ⟨c, hmatch, Or.inr ⟨hc, hprivate⟩⟩
    · rintro ⟨ancestor, hmatch, ⟨horigin, ⟨c, hc, hreach⟩, hne⟩ | ⟨hc, hprivate⟩⟩
      · exact Or.inl ⟨c, hc, hmethod ▸ hne, ancestor, horigin, hreach, hmatch⟩
      · exact Or.inr ⟨ancestor, hc, hmatch, hprivate⟩
  · rw [he] at hstages
    obtain ⟨earlier, here, later, hresult, hearlier, hhere⟩ := hstages.exists_split
    refine ⟨earlier, here, later, hresult, fun x => ?_, hhere⟩
    rw [hearlier, or_iff_right List.not_mem_nil]

/-- A class below two generic interfaces.  Its method overrides the one of the upper interface. -/
def userRepository : Environment where
  config := {}
  model :=
    { declarations := #[
        ⟨"a.Repo", none, [], .type { kind := .interface, params := ["T"], methods := [⟨1⟩] }⟩,
        ⟨"save", some ⟨0⟩, [], .method { parameters := [⟨2⟩] }⟩,
        ⟨"entity", none, [], .parameter ⟨.param "T", ⟨1⟩, 0⟩⟩,
        ⟨"a.CrudRepo", none, [], .type
          { kind := .interface, params := ["E"], interfaces := [.named "a.Repo" [.param "E"]] }⟩,
        ⟨"a.UserRepo", none, [], .type
          { interfaces := [.named "a.CrudRepo" [.named "a.User" []]], methods := [⟨5⟩] }⟩,
        ⟨"save", some ⟨4⟩, [], .method { parameters := [⟨6⟩], overrides := true }⟩,
        ⟨"entity", none, [], .parameter ⟨.named "a.User" [], ⟨5⟩, 0⟩⟩]
      types := ⟨[("a.Repo", ⟨0⟩), ("a.CrudRepo", ⟨3⟩), ("a.UserRepo", ⟨4⟩)]⟩ }

theorem typeArguments?_userRepository :
    userRepository.model.typeArguments? ⟨4⟩ ⟨0⟩ = some ⟨[("T", .named "a.User" [])]⟩ := by
  have h4 : ∀ bindings, userRepository.model.boundParents ⟨4⟩ bindings =
      [(⟨3⟩, ⟨[("E", .named "a.User" [])]⟩)] := fun _ => rfl
  have h3 : ∀ bindings, userRepository.model.boundParents ⟨3⟩ bindings =
      [(⟨0⟩, ⟨[("T", (TypeRef.param "E").substitute bindings)]⟩)] := fun _ => rfl
  have h0 : ∀ bindings, userRepository.model.boundParents ⟨0⟩ bindings = [] := fun _ => rfl
  have hids : userRepository.model.ids = [⟨0⟩, ⟨1⟩, ⟨2⟩, ⟨3⟩, ⟨4⟩, ⟨5⟩, ⟨6⟩] := rfl
  simp [Model.typeArguments?, depthFirst, h4, h3, h0, hids]
  rfl

theorem namesInterface_userRepository :
    userRepository.NamesInterface ⟨4⟩ ⟨3⟩ ∧ userRepository.NamesInterface ⟨3⟩ ⟨0⟩ :=
  ⟨mem_interfaces_iff.mp (by decide), mem_interfaces_iff.mp (by decide)⟩

theorem mem_overriddenMethods_userRepository :
    userRepository.model.overriding? ⟨5⟩ =
        some ⟨⟨5⟩, "save", ⟨4⟩, [.named "a.User" []]⟩ ∧
      (⟨1⟩ : DeclId) ∈ userRepository.overriddenMethods ⟨5⟩ := by
  have ht : userRepository.model.overriding? ⟨5⟩ =
      some ⟨⟨5⟩, "save", ⟨4⟩, [.named "a.User" []]⟩ := rfl
  obtain ⟨passed, start?, -, -, hmem, -⟩ := overriddenMethods_exact ht
  obtain ⟨hlower, hupper⟩ := namesInterface_userRepository
  refine ⟨ht, (hmem ⟨1⟩).mpr ⟨⟨0⟩, ⟨by decide, ?_⟩, Or.inl ⟨by decide, ?_, by decide⟩⟩⟩
  · rw [typeArguments?_userRepository]
    exact .cons rfl .nil
  · exact ⟨⟨4⟩, List.mem_cons_self, .tail (.single hlower) hupper⟩

end Environment

end AnnotationResolution
