import AnnotationResolution.Proofs.Hierarchy.Overrides
import AnnotationResolution.Proofs.Hierarchy.Supertypes
import AnnotationResolution.Proofs.Hierarchy.Bounds
import AnnotationResolution.Proofs.Model.Index
import AnnotationResolution.Proofs.TypeRef

/-!
# Type parameters as seen from below

The search for an ancestor carries along what the type parameters of each type are, as seen from the
type where it starts.

* `isSome_typeArguments?_iff`: the search comes to every type that it can reach, for where it goes
  does not depend on what it carries.
* `exists_path_of_typeArguments?`: what it has when it arrives was carried along some path.
* `substitute_carried`: to put that in is to put in what each reference of the path writes, one after
  the other, if no reference leaves a type parameter open.
-/

namespace AnnotationResolution

/-! ## References to supertypes -/

structure SupertypeRef where
  sub : DeclId
  super : DeclId
  args : List TypeRef

namespace Model

variable (m : Model)

def paramsOf (id : DeclId) : List String := (m.typeInfo? id).elim [] TypeInfo.params

def supertypeRef? (id : DeclId) : TypeRef → Option SupertypeRef
  | .named name args => do
    let super ← m.typeNamed? name
    let _ ← m.typeInfo? super
    return ⟨id, super, args⟩
  | _ => none

def supertypeRefs (id : DeclId) : List SupertypeRef :=
  (m.typeInfo? id).elim [] fun info =>
    (info.superType.toList ++ info.interfaces).filterMap (m.supertypeRef? id)

end Model

namespace SupertypeRef

variable {m : Model} {r : SupertypeRef}

/-- What the type parameters of the supertype are, as written. -/
def arguments (m : Model) (r : SupertypeRef) : Substitution :=
  Members.ofList ((m.paramsOf r.super).zip r.args)

/-- The same, with the type parameters of the type itself replaced. -/
def argumentsUnder (m : Model) (bindings : Substitution) (r : SupertypeRef) : Substitution :=
  Members.ofList ((m.paramsOf r.super).zip (r.args.map (·.substitute bindings)))

/-- **Nothing is left open**: every type parameter of the supertype has an argument, and the arguments
mention no type parameters but those of the type that writes them. -/
structure IsComplete (m : Model) (r : SupertypeRef) : Prop where
  supplied : (m.paramsOf r.super).length ≤ r.args.length
  own : ∀ arg ∈ r.args, ∀ name, arg.Mentions name → name ∈ m.paramsOf r.sub

theorem get?_argumentsUnder (bindings : Substitution) (name : String) :
    (r.argumentsUnder m bindings).get? name =
      ((r.arguments m).get? name).map (·.substitute bindings) := by
  rw [argumentsUnder, List.zip_map_right]
  exact Members.get?_ofList_map _ _ name

theorem IsComplete.exists_argument (h : r.IsComplete m) {name : String}
    (hn : name ∈ m.paramsOf r.super) : ∃ arg ∈ r.args, (r.arguments m).get? name = some arg := by
  have hname : name ∈ (r.arguments m).names := by
    rw [arguments, Members.mem_names_ofList, List.map_fst_zip h.supplied]
    exact hn
  obtain ⟨arg, harg⟩ := Members.exists_get?_of_mem_names hname
  refine ⟨arg, ?_, harg⟩
  rcases Members.mem_values_of_insertAll (Members.mem_values_of_get? harg) with hnone | hmem
  · cases hnone
  · obtain ⟨pair, hpair, rfl⟩ := List.mem_map.mp hmem
    exact (List.of_mem_zip hpair).2

end SupertypeRef

namespace Model

variable {m : Model} {origin ancestor : DeclId} {path : List SupertypeRef}

theorem mem_supertypeRefs_iff {r : SupertypeRef} {id : DeclId} :
    r ∈ m.supertypeRefs id ↔ r.sub = id ∧ ∃ info, m.typeInfo? id = some info ∧ ∃ name,
      TypeRef.named name r.args ∈ info.superType.toList ++ info.interfaces ∧
        m.typeNamed? name = some r.super ∧ ∃ superInfo, m.typeInfo? r.super = some superInfo := by
  rw [supertypeRefs]
  cases m.typeInfo? id with
  | none => simp
  | some info =>
    rw [Option.elim_some, List.mem_filterMap]
    simp only [Option.some_inj, exists_eq_left']
    constructor
    · rintro ⟨ref, href, hr⟩
      cases ref with
      | named name args =>
        simp only [supertypeRef?, bind, Option.bind_eq_some_iff, pure, Option.some_inj] at hr
        obtain ⟨super, hsuper, superInfo, hinfo, rfl⟩ := hr
        exact ⟨rfl, name, href, hsuper, superInfo, hinfo⟩
      | _ => cases hr
    · rintro ⟨rfl, name, href, hsuper, superInfo, hinfo⟩
      refine ⟨_, href, ?_⟩
      simp only [supertypeRef?, bind, Option.bind_eq_some_iff, pure, Option.some_inj]
      exact ⟨r.super, hsuper, superInfo, hinfo, rfl⟩

theorem hasSupertype_iff_ref {sub super : DeclId} :
    m.HasSupertype sub super ↔ ∃ info, m.typeInfo? sub = some info ∧
      ∃ ref ∈ info.superType.toList ++ info.interfaces,
        ref.rawName?.bind m.typeNamed? = some super := by
  rw [HasSupertype, superType?, interfaces]
  cases m.typeInfo? sub with
  | none => simp
  | some info =>
    cases hs : info.superType <;>
      simp [List.mem_filterMap, hs]

theorem Accepted.hasSupertype_iff (hm : m.Accepted) {sub super : DeclId} :
    m.HasSupertype sub super ↔ ∃ r ∈ m.supertypeRefs sub, r.super = super := by
  rw [hasSupertype_iff_ref]
  constructor
  · rintro ⟨info, hi, ref, href, hsuper⟩
    obtain ⟨name, hname, htype⟩ := Option.bind_eq_some_iff.mp hsuper
    obtain ⟨superInfo, hinfo⟩ := hm.exists_typeInfo?_of_typeNamed? htype
    cases ref with
    | named head args =>
      obtain rfl := Option.some.inj hname
      exact ⟨⟨sub, super, args⟩,
        mem_supertypeRefs_iff.mpr ⟨rfl, info, hi, _, href, htype, superInfo, hinfo⟩, rfl⟩
    | _ => cases hname
  · rintro ⟨r, hr, rfl⟩
    obtain ⟨-, info, hi, name, href, htype, -⟩ := mem_supertypeRefs_iff.mp hr
    exact ⟨info, hi, _, href, htype⟩

/-! ## Along a path -/

/-- A path of references from one type up to another. -/
inductive SupertypePath (m : Model) (origin : DeclId) : List SupertypeRef → DeclId → Prop
  | start : SupertypePath m origin [] origin
  | up {path : List SupertypeRef} {r : SupertypeRef} (hpath : SupertypePath m origin path r.sub)
      (hr : r ∈ m.supertypeRefs r.sub) : SupertypePath m origin (path ++ [r]) r.super

theorem SupertypePath.mem_supertypeRefs (h : m.SupertypePath origin path ancestor) :
    ∀ r ∈ path, r ∈ m.supertypeRefs r.sub := by
  induction h with
  | start => exact fun _ hr => by cases hr
  | up _ hr ih => exact List.forall_mem_append.mpr ⟨ih, List.forall_mem_singleton.mpr hr⟩

def carried (m : Model) (path : List SupertypeRef) : Substitution :=
  path.foldl (fun bindings r => r.argumentsUnder m bindings) ∅

/-- What the references of a path write is put in, that of the last reference first. -/
def substituteAlong (m : Model) (path : List SupertypeRef) (ty : TypeRef) : TypeRef :=
  path.foldr (fun r ty => ty.substitute (r.arguments m)) ty

/-- One reference: nothing that it puts in is lost, for the type parameters of the supertype are all
bound. -/
theorem substitute_argumentsUnder {r : SupertypeRef} (h : r.IsComplete m) (bindings : Substitution)
    {ty : TypeRef} (hty : ∀ name, ty.Mentions name → name ∈ m.paramsOf r.super) :
    ty.substitute (r.argumentsUnder m bindings) =
      (ty.substitute (r.arguments m)).substitute bindings := by
  refine TypeRef.substitute_comp fun name hn => ?_
  obtain ⟨arg, -, harg⟩ := h.exists_argument (hty name hn)
  exact ⟨arg, harg, by rw [SupertypeRef.get?_argumentsUnder, harg, Option.map_some]⟩

theorem mem_paramsOf_of_mentions {r : SupertypeRef} (h : r.IsComplete m) {ty : TypeRef}
    (hty : ∀ name, ty.Mentions name → name ∈ m.paramsOf r.super) {name : String}
    (hn : (ty.substitute (r.arguments m)).Mentions name) : name ∈ m.paramsOf r.sub := by
  obtain ⟨old, hold, hn⟩ := TypeRef.mentions_of_mentions_substitute hn
  obtain ⟨arg, hmem, harg⟩ := h.exists_argument (hty old hold)
  rw [harg, Option.getD_some] at hn
  exact h.own arg hmem name hn

/-- **What is carried along a path puts in what its references write, one after the other.** -/
theorem SupertypePath.substitute_carried (h : m.SupertypePath origin path ancestor)
    (hc : ∀ r ∈ path, r.IsComplete m) {ty : TypeRef}
    (hty : ∀ name, ty.Mentions name → name ∈ m.paramsOf ancestor) :
    ty.substitute (m.carried path) = m.substituteAlong path ty := by
  induction h generalizing ty with
  | start => exact TypeRef.substitute_empty ty
  | @up path r _ _ ih =>
    rw [List.forall_mem_append, List.forall_mem_singleton] at hc
    rw [carried, List.foldl_append, List.foldl_cons, List.foldl_nil, substituteAlong,
      List.foldr_append, List.foldr_cons, List.foldr_nil]
    calc ty.substitute (r.argumentsUnder m (m.carried path))
      _ = (ty.substitute (r.arguments m)).substitute (m.carried path) :=
          substitute_argumentsUnder hc.2 _ hty
      _ = m.substituteAlong path (ty.substitute (r.arguments m)) :=
          ih hc.1 fun _ hn => mem_paramsOf_of_mentions hc.2 hty hn

/-! ## The search -/

theorem boundParents_eq (id : DeclId) (bindings : Substitution) :
    m.boundParents id bindings =
      (m.supertypeRefs id).map fun r => (r.super, r.argumentsUnder m bindings) := by
  rw [boundParents, supertypeRefs]
  cases m.typeInfo? id with
  | none => rfl
  | some info =>
    rw [Option.elim_some, List.map_filterMap]
    refine List.filterMap_congr fun ref _ => ?_
    cases ref with
    | named name args =>
      simp only [supertypeRef?, bind, pure, SupertypeRef.argumentsUnder, paramsOf]
      cases m.typeNamed? name with
      | none => rfl
      | some super => cases hi : m.typeInfo? super <;> simp [hi]
    | _ => rfl

theorem Accepted.isSome_typeArguments?_iff (hm : m.Accepted) :
    (m.typeArguments? origin ancestor).isSome = true ↔
      Relation.ReflTransGen m.HasSupertype origin ancestor := by
  have hnext : ∀ id bindings, (m.boundParents id bindings).map (·.1) =
      (m.supertypeRefs id).map SupertypeRef.super := by
    intro id bindings
    rw [boundParents_eq, List.map_map]
    rfl
  have hs : ∀ id, (m.supertypeRefs id).map SupertypeRef.super ≠ [] → id ∈ m.ids := by
    intro id hne
    have hparents : m.boundParents id ∅ ≠ [] :=
      fun hnil => hne (by rw [← hnext id ∅, hnil, List.map_nil])
    exact mem_ids_of_boundParents_ne_nil hparents
  -- Whatever the search carries along, it goes from a type to its supertypes.
  have hedge : (fun sub super => super ∈ (m.supertypeRefs sub).map SupertypeRef.super) =
      m.HasSupertype := by
    funext sub super
    rw [hm.hasSupertype_iff, List.mem_map]
  have hvisit : (∃ v ∈ depthFirst m.ids m.boundParents [(origin, ∅)] [], v.key = ancestor) ↔
      Relation.ReflTransGen m.HasSupertype origin ancestor := by
    rw [exists_visit_iff_leads hnext hs, Leads, hedge]
    simp only [List.mem_singleton, exists_eq_left]
  rw [typeArguments?, Option.isSome_map, List.find?_isSome, ← hvisit]
  simp only [decide_eq_true_iff]

/-- **What it has on arrival was carried along a path.** -/
theorem exists_path_of_typeArguments? {bindings : Substitution}
    (h : m.typeArguments? origin ancestor = some bindings) :
    ∃ path, m.SupertypePath origin path ancestor ∧ bindings = m.carried path := by
  have hup : ∀ id bindings, (∃ path, m.SupertypePath origin path id ∧ bindings = m.carried path) →
      ∀ pair ∈ m.boundParents id bindings,
        ∃ path, m.SupertypePath origin path pair.1 ∧ pair.2 = m.carried path := by
    rintro id bindings ⟨path, hpath, rfl⟩ pair hpair
    rw [boundParents_eq] at hpair
    obtain ⟨r, hr, rfl⟩ := List.mem_map.mp hpair
    obtain rfl := (mem_supertypeRefs_iff.mp hr).1
    refine ⟨path ++ [r], .up hpath hr, ?_⟩
    rw [carried, carried, List.foldl_append, List.foldl_cons, List.foldl_nil]
  have hall : ∀ v ∈ depthFirst m.ids m.boundParents [(origin, ∅)] [],
      ∃ path, m.SupertypePath origin path v.key ∧ v.payload = m.carried path :=
    forall_mem_depthFirst hup (List.forall_mem_singleton.mpr ⟨[], .start, rfl⟩)
  obtain ⟨v, hv, rfl⟩ := Option.map_eq_some_iff.mp h
  have hkey := List.find?_some hv
  obtain rfl := of_decide_eq_true hkey
  exact hall v (List.mem_of_find?_eq_some hv)

end Model

namespace Environment

variable {env : Environment} {origin ancestor : DeclId}

theorem IsOverrideWalk.reflTransGen {target : Overriding} {passed : List DeclId}
    {start? : Option DeclId} (hw : env.IsOverrideWalk target passed start?) {c : DeclId}
    (hc : c ∈ target.origin :: (passed ++ start?.toList)) :
    Relation.ReflTransGen env.model.HasSupertype target.origin c :=
  hw.linked.induction (Relation.ReflTransGen env.model.HasSupertype target.origin) _
    (fun _ _ hsuper hbelow => hbelow.tail (Or.inl hsuper)) (fun _ => .refl) c hc

/-- **Type parameters as seen from below.**  They are known for every supertype, so also for those that
the search for overridden methods looks at, and they are what the references on a path of supertypes
come to. -/
theorem typeArguments?_exact (hm : env.model.Accepted) (origin ancestor : DeclId) :
    ((env.model.typeArguments? origin ancestor).isSome = true ↔
        Relation.ReflTransGen env.model.HasSupertype origin ancestor) ∧
      (∀ target passed start?, env.IsOverrideWalk target passed start? → target.origin = origin →
        (ancestor ∈ passed ++ start?.toList ∨
          ∃ c ∈ origin :: passed, Relation.TransGen env.NamesInterface c ancestor) →
        (env.model.typeArguments? origin ancestor).isSome = true) ∧
      ∀ bindings, env.model.typeArguments? origin ancestor = some bindings →
        ∃ path, env.model.SupertypePath origin path ancestor ∧
          bindings = env.model.carried path ∧
          ((∀ r ∈ path, r.IsComplete env.model) → ∀ ty,
            (∀ name, ty.Mentions name → name ∈ env.model.paramsOf ancestor) →
              ty.substitute bindings = env.model.substituteAlong path ty) := by
  refine ⟨hm.isSome_typeArguments?_iff, ?_, fun bindings h => ?_⟩
  · rintro target passed start? hw rfl hvisited
    refine hm.isSome_typeArguments?_iff.mpr ?_
    rcases hvisited with hc | ⟨c, hc, hl⟩
    · exact hw.reflTransGen (List.mem_cons_of_mem _ hc)
    · have hbelow : c ∈ target.origin :: (passed ++ start?.toList) := by
        rw [← List.cons_append]
        exact List.mem_append_left _ hc
      have hinterface : ∀ sub super, env.NamesInterface sub super →
          env.model.HasSupertype sub super :=
        fun _ _ hn => Or.inr (mem_interfaces_of_mem (mem_interfaces_iff.mpr hn))
      exact (hw.reflTransGen hbelow).trans
        (Relation.ReflTransGen.mono hinterface _ _ hl.to_reflTransGen)
  · obtain ⟨path, hpath, rfl⟩ := Model.exists_path_of_typeArguments? h
    exact ⟨path, hpath, rfl, fun hc ty hty => hpath.substitute_carried hc hty⟩

/-! ## A sample -/

theorem accepted_userRepository : userRepository.model.Accepted := by
  have hload : Model.ofDeclarations userRepository.model.declarations.toList =
      .ok userRepository.model := rfl
  exact Model.accepted_of_load hload (by decide)

theorem isComplete_userRepository {r : SupertypeRef}
    (hr : r ∈ userRepository.model.supertypeRefs r.sub) : r.IsComplete userRepository.model := by
  have hlower : (⟨⟨4⟩, ⟨3⟩, [.named "a.User" []]⟩ : SupertypeRef).IsComplete userRepository.model := by
    refine ⟨by decide, fun arg harg name hn => ?_⟩
    obtain rfl := List.mem_singleton.mp harg
    cases hn with
    | arg hmem => cases hmem
  have hupper : (⟨⟨3⟩, ⟨0⟩, [.param "E"]⟩ : SupertypeRef).IsComplete userRepository.model := by
    refine ⟨by decide, fun arg harg name hn => ?_⟩
    obtain rfl := List.mem_singleton.mp harg
    cases hn
    decide
  have hrefs : ∀ id, userRepository.model.supertypeRefs id =
      if id = ⟨3⟩ then [⟨⟨3⟩, ⟨0⟩, [.param "E"]⟩]
      else if id = ⟨4⟩ then [⟨⟨4⟩, ⟨3⟩, [.named "a.User" []]⟩] else [] := by
    rintro ⟨_ | _ | _ | _ | _ | _ | _ | index⟩ <;> rfl
  rw [hrefs] at hr
  split at hr
  · exact List.mem_singleton.mp hr ▸ hupper
  · split at hr
    · exact List.mem_singleton.mp hr ▸ hlower
    · cases hr

theorem substitute_typeArguments_userRepository :
    ∃ path, userRepository.model.SupertypePath ⟨4⟩ path ⟨0⟩ ∧
      userRepository.model.substituteAlong path (.named "List" [.param "T"]) =
        .named "List" [.named "a.User" []] := by
  obtain ⟨-, -, hpath⟩ := typeArguments?_exact accepted_userRepository ⟨4⟩ ⟨0⟩
  obtain ⟨path, hpath, -, hsubstitute⟩ := hpath _ typeArguments?_userRepository
  have hcomplete : ∀ r ∈ path, r.IsComplete userRepository.model :=
    fun r hr => isComplete_userRepository (hpath.mem_supertypeRefs r hr)
  refine ⟨path, hpath, (hsubstitute hcomplete _ fun name hn => ?_).symm⟩
  cases hn with
  | arg harg hn =>
    obtain rfl := List.mem_singleton.mp harg
    cases hn
    decide

end Environment

end AnnotationResolution
