import AnnotationResolution.Proofs.Assembly.Interchangeable
import AnnotationResolution.Proofs.Value.Single

/-!
# Annotations spelled otherwise

An array member that holds a single annotation may be written down with a list around the annotation
or without.  It is read as the same, so the annotation that it belongs to cannot be told from the
other spelling (`Respells.interchangeable`), and every build says what it said before:
`build_single_annotation`.

There are two places where the member may be.  In an annotation on a declaration, and in what such an
annotation is made of, it is read with the levels that are left there (`Environment.SpelledAlike`).
The annotations in a container that is taken apart stand on the declaration themselves, so they are
read with all levels (`Respells.items`).
-/

namespace AnnotationResolution

/-- Two annotations of one type whose members are related one by one. -/
structure AnnotationInstance.Memberwise (R : String → String × Expr → String × Expr → Prop)
    (a a' : AnnotationInstance) : Prop where
  annotationType_eq : a'.annotationType = a.annotationType
  entries : List.Forall₂ (R a.annotationType) a.members.entries a'.members.entries

def Expr.isList : Expr → Bool
  | .list _ => true
  | _ => false

/-- A validator that says how many members of the annotations are written down as lists. -/
def Validator.listCount : Validator := fun d _ _ _ _ =>
  [d.name ++ ": " ++ toString ((d.annotations.flatMap fun a => a.members.values).countP Expr.isList)]

theorem exists_mem_of_forall₂ {α β : Type} {R : α → β → Prop} {xs : List α} {ys : List β}
    (h : List.Forall₂ R xs ys) {y : β} (hy : y ∈ ys) : ∃ x ∈ xs, R x y := by
  induction h with
  | nil => cases hy
  | cons hr _ ih =>
    rcases List.mem_cons.mp hy with rfl | hy
    · exact ⟨_, List.mem_cons_self, hr⟩
    · obtain ⟨x, hx, hxy⟩ := ih hy
      exact ⟨x, List.mem_cons_of_mem _ hx, hxy⟩

namespace Environment

variable {env : Environment}

/-- A member of an annotation on a declaration in two spellings. -/
structure SpelledAlike (env : Environment) (annotationType : String) (entry entry' : String × Expr) :
    Prop where
  name_eq : entry'.1 = entry.1
  spelled : env.model.SpelledAlike env.config.maxValueDepth
    (env.model.annotationMember? annotationType entry.1) false (.expr entry.2) (.expr entry'.2)

/-- An annotation on a declaration in two spellings: its members are spelled otherwise, or it is a
container that is taken apart, and the members of the annotations in it are.  What the container says
itself is not read then, so its one member may be written down in any way. -/
inductive Respells (env : Environment) (a a' : AnnotationInstance) : Prop
  | members : a.Memberwise env.SpelledAlike a' → Respells env a a'
  | items {items items' : List AnnotationInstance} : env.containerItems? a = some items →
      a'.annotationType = a.annotationType → a'.members.size = 1 → a'.held? = some items' →
      List.Forall₂ (AnnotationInstance.Memberwise env.SpelledAlike) items items' → Respells env a a'

theorem reading_eq_of_member {annotationType name : String} {e e' : Expr} {levels : Nat}
    (hle : levels ≤ env.config.maxValueDepth) (h : env.model.SpelledAlike levels
      (env.model.annotationMember? annotationType name) false (.expr e) (.expr e'))
    (before after : List (String × Expr)) :
    env.reading ⟨annotationType, ⟨before ++ (name, e') :: after⟩⟩ =
      env.reading ⟨annotationType, ⟨before ++ (name, e) :: after⟩⟩ := by
  simp only [reading, List.map_append, List.map_cons, readMember, readValue, h.readWithin_eq hle]

section

variable {member : Option DeclId} {raw raw' : RawValue} {levels : Nat}

theorem nested?_reading_eq (h : env.model.SpelledAlike levels member true raw raw')
    (hle : levels ≤ env.config.maxValueDepth) :
    raw'.shape.nested?.map env.reading = raw.shape.nested?.map env.reading := by
  generalize hlist : true = inList at h
  induction h with
  | same => rfl
  | trans _ _ ih ih' => exact (ih' hle hlist).trans (ih hle hlist)
  | single => cases hlist
  | member hs hs' h _ =>
    rw [hs, hs']
    exact congrArg some (reading_eq_of_member (Nat.le_of_succ_le hle) h _ _)
  | item hs hs' _ _ | named hs hs' _ _ =>
    rw [hs, hs']
    rfl

/-- Where the annotations are that a value is made of, these too are read with all levels: then what
is read of them is the same. -/
theorem annotations?_reading_eq {inList : Bool}
    (h : env.model.SpelledAlike levels member inList raw raw')
    (hle : levels ≤ env.config.maxValueDepth) :
    raw'.shape.annotations?.map (List.map env.reading) =
      raw.shape.annotations?.map (List.map env.reading) := by
  induction h with
  | same => rfl
  | trans _ _ ih ih' => exact (ih' hle).trans (ih hle)
  | single hraw hraw' =>
    rw [RawValue.annotations?_of_spellsOne hraw, RawValue.annotations?_of_spellsOne hraw']
  | member hs hs' h _ =>
    rw [hs, hs']
    exact congrArg (some [·]) (reading_eq_of_member (Nat.le_of_succ_le hle) h _ _)
  | item hs hs' h _ =>
    rw [hs, hs', RawShape.annotations?, RawShape.annotations?, map_mapM_eq_mapM, map_mapM_eq_mapM]
    simp only [List.mapM_append, List.mapM_cons, nested?_reading_eq h (Nat.le_of_succ_le hle)]
  | named hs hs' _ _ =>
    rw [hs, hs']
    rfl

end

section

variable {a a' : AnnotationInstance}

theorem reading_eq_of_memberwise (h : a.Memberwise env.SpelledAlike a') :
    env.reading a' = env.reading a := by
  rw [reading, reading, h.annotationType_eq]
  refine congrArg (a.annotationType, ·) (map_eq_map_iff_forall₂.mpr (h.entries.imp ?_))
  rintro entry entry' ⟨hname, hspelled⟩
  rw [hname]
  exact congrArg (entry.1, ·) (hspelled.readWithin_eq (Nat.le_refl _))

theorem held?_reading_eq_of_memberwise (h : a.Memberwise env.SpelledAlike a') :
    a'.held?.map (List.map env.reading) = a.held?.map (List.map env.reading) := by
  rw [AnnotationInstance.held?, AnnotationInstance.held?, Members.get?, Members.get?]
  obtain ⟨-, hentries⟩ := h
  generalize a.members.entries = entries, a'.members.entries = entries' at hentries ⊢
  induction hentries with
  | nil => rfl
  | @cons entry entry' rest rest' hentry _ ih =>
    obtain ⟨key, e⟩ := entry
    obtain ⟨key', e'⟩ := entry'
    obtain ⟨rfl, hspelled⟩ := hentry
    rw [List.lookup_cons, List.lookup_cons]
    cases "value" == key' with
    | true =>
      show e'.annotations?.map _ = e.annotations?.map _
      rw [Expr.annotations?_eq, Expr.annotations?_eq]
      exact annotations?_reading_eq hspelled (Nat.le_refl _)
    | false => exact ih

theorem Respells.interchangeable (h : env.Respells a a') : env.Interchangeable a a' := by
  cases h with
  | members h =>
    exact ⟨h.annotationType_eq, h.entries.length_eq.symm, held?_reading_eq_of_memberwise h,
      fun _ => reading_eq_of_memberwise h⟩
  | items hitems htype hsize hheld hspelled =>
    obtain ⟨hone, hold⟩ := size_eq_one_of_containerItems? hitems
    refine ⟨htype, hsize.trans hone.symm, ?_, fun hnone => ?_⟩
    · rw [hheld, hold]
      exact congrArg some <| map_eq_map_iff_forall₂.mpr <|
        hspelled.imp fun _ _ => reading_eq_of_memberwise
    · rw [hnone] at hitems
      cases hitems

theorem namesDistinct_of_memberwise (h : a.Memberwise env.SpelledAlike a')
    (hn : ∀ inner, a.Holds inner → inner.NamesDistinct) :
    ∀ inner, a'.Holds inner → inner.NamesDistinct := by
  refine AnnotationInstance.namesDistinct_of_names_eq (hn a (.self a)) ?_ fun entry' he' => ?_
  · exact map_eq_map_iff_forall₂.mpr (h.entries.imp fun _ _ hs => hs.name_eq)
  · obtain ⟨entry, he, hs⟩ := exists_mem_of_forall₂ h.entries he'
    exact hs.spelled.namesDistinct (AnnotationInstance.namesDistinct_of_mem_entries hn entry he)

theorem Respells.namesDistinct (h : env.Respells a a')
    (hn : ∀ inner, a.Holds inner → inner.NamesDistinct) :
    ∀ inner, a'.Holds inner → inner.NamesDistinct := by
  cases h with
  | members h => exact namesDistinct_of_memberwise h hn
  | items hitems htype hsize hheld hspelled =>
    obtain ⟨e, hvalue, hannotations⟩ := Option.bind_eq_some_iff.mp hheld
    obtain ⟨entry, hentries⟩ := List.length_eq_one_iff.mp hsize
    have hmem := Members.mem_entries_of_get? hvalue
    rw [hentries, List.mem_singleton] at hmem
    subst hmem
    intro inner hi
    cases hi with
    | self =>
      rw [AnnotationInstance.NamesDistinct, Members.names, hentries]
      exact List.pairwise_singleton _ _
    | member he hi =>
      rw [hentries, List.mem_singleton] at he
      obtain ⟨-, rfl⟩ := Prod.mk.inj he
      rw [Expr.holds_iff] at hi
      rw [Expr.annotations?_eq] at hannotations
      obtain ⟨item', hitem', hi⟩ := RawShape.exists_holds_of_annotations? hannotations hi
      obtain ⟨item, hitem, hs⟩ := exists_mem_of_forall₂ hspelled hitem'
      exact namesDistinct_of_memberwise hs
        (fun inner hi => hn inner (((of_containerItems? hitems).2 item hitem).2.trans hi)) inner hi

end

/-- **A list around a single annotation makes no difference to an array member.**  All spellings of
an annotation that is read with a level to spare are read as the same.  Let a declaration that is the
type of no annotation have such members in its annotations, or further in, and let some of them be
spelled otherwise.  Then the model is accepted again, and each build gives the same metadata and, with
a validator that does not tell the two models apart, the same diagnostics. -/
theorem build_single_annotation (hm : env.model.Accepted) :
    (∀ (member : Option DeclId) (a : AnnotationInstance) (value : Option Value) (height : Nat),
      (env.model.itemType? member).isSome →
      env.model.Reads member false (.expr (.nested a)) value height →
      height + 1 ≤ env.config.maxValueDepth →
      ∀ raw : RawValue, raw.SpellsOne a → env.readValue member raw = value) ∧
    ∀ (id : DeclId) (d : Declaration) (annotations : List AnnotationInstance),
      env.model.declaration? id = some d →
      (d.isType = true → ¬ env.model.MentionsType d.name) →
      List.Forall₂ env.Respells d.annotations annotations →
      let respelled := env.reannotate id annotations
      respelled.model.Accepted ∧
        ∀ (validator : Option Validator) (options : BuildOptions), ∀ target ∈ env.model.ids,
          ∃ result, env.build validator {} options target = .ok result ∧
            ∃ again, respelled.build validator {} options target = .ok again ∧
              again.metadata = result.metadata ∧
                ((∀ validate ∈ validator,
                    validate.TreatsAlike (Equiv.refl DeclId) env.model respelled.model) →
                  again.diagnostics = result.diagnostics) := by
  refine ⟨fun member a value height hmember hreads hle raw hraw =>
    readValue_of_spellsOne hmember hreads hle hraw, fun id d annotations hd hun hspelled => ?_⟩
  refine ⟨hm.reannotate _ fun a' ha' inner hi => ?_, fun validator options target htarget => ?_⟩
  · obtain ⟨a, ha, hs⟩ := exists_mem_of_forall₂ hspelled ha'
    refine hs.namesDistinct (fun inner hi => ?_) inner hi
    exact hm.namesDistinct d (Array.mem_of_getElem? hd) inner (.applied ha hi)
  · exact exists_build_of_interchangeable hm hd hun (hspelled.imp fun _ _ => Respells.interchangeable)
      htarget validator options

/-- An annotation for array members. -/
def userRole : AnnotationInstance := ⟨"a.Role", ⟨[("value", .literal (.str "user"))]⟩⟩

def rolesOf (value : Expr) : AnnotationInstance := ⟨"a.Roles", ⟨[("value", value)]⟩⟩

def teamOf (leads : Expr) : AnnotationInstance := ⟨"a.Team", ⟨[("leads", leads)]⟩⟩

def officeOf (leads : Expr) : AnnotationInstance :=
  ⟨"a.Office", ⟨[("team", .nested (teamOf leads))]⟩⟩

/-- What these annotations need, and a class that has some. -/
def roster (config : Config) (annotations : List AnnotationInstance) : Environment where
  config := config
  model :=
    { declarations := #[
        ⟨"a.Role", none,
          [⟨"java.lang.annotation.Repeatable",
            ⟨[("value", .typeLiteral (.named "a.Roles" []))]⟩⟩],
          .type { kind := .annotationType }⟩,
        ⟨"a.Roles", none, [], .type { kind := .annotationType, methods := [⟨2⟩] }⟩,
        ⟨"value", some ⟨1⟩, [], .method { returnType := .array (.named "a.Role" []) }⟩,
        ⟨"a.Team", none, [], .type { kind := .annotationType, methods := [⟨4⟩] }⟩,
        ⟨"leads", some ⟨3⟩, [], .method { returnType := .array (.named "a.Role" []) }⟩,
        ⟨"a.Office", none, [], .type { kind := .annotationType, methods := [⟨6⟩] }⟩,
        ⟨"team", some ⟨5⟩, [], .method { returnType := .named "a.Team" [] }⟩,
        ⟨"a.Service", none, annotations, .type {}⟩]
      types := ⟨[("a.Role", ⟨0⟩), ("a.Roles", ⟨1⟩), ("a.Team", ⟨3⟩), ("a.Office", ⟨5⟩),
        ("a.Service", ⟨7⟩)]⟩ }

/-- A role in a container, one in another annotation, and one in an annotation that is itself a
member. -/
def rosterAnnotations : List AnnotationInstance :=
  [rolesOf (.nested userRole), teamOf (.list [.value (.nested userRole)]), officeOf (.nested userRole)]

theorem accepted_roster (config : Config) : (roster config rosterAnnotations).model.Accepted := by
  have hload : Model.ofDeclarations (roster config rosterAnnotations).model.declarations.toList =
      .ok (roster config rosterAnnotations).model := rfl
  exact Model.accepted_of_load hload rfl

theorem not_mentionsType_roster (config : Config) :
    ¬ (roster config rosterAnnotations).model.MentionsType "a.Service" := by
  intro h
  have hnone : "a.Service" ∉ (roster {} rosterAnnotations).model.annotationTypes := by decide
  exact hnone h.mem_annotationTypes

theorem reads_userRole {config : Config} {annotations : List AnnotationInstance}
    {member : Option DeclId} (hm : ((roster config annotations).model.itemType? member).isSome) :
    (roster config annotations).model.Reads member false (.expr (.nested userRole))
      (some (.list ⟨.nested, [.nested ⟨"a.Role", ⟨[("value", .str "user")]⟩⟩]⟩)) 2 := by
  have hnested := @Model.Reads.nested (roster config annotations).model member false
    (.expr (.nested userRole)) userRole (fun _ _ => some (.str "user")) (fun _ => 1) rfl
    fun entry he => by
      obtain rfl := List.mem_singleton.mp he
      exact .complete rfl
  rw [Model.wrapAnnotation_of_isSome hm] at hnested
  exact hnested

/-- The container is given a host array and is taken apart all the same, the second annotation loses
its list, and the annotation in the third one gets one. -/
theorem build_single_annotation_roster :
    let env := roster {} rosterAnnotations
    let container := rolesOf (.value (.array [.nested userRole]))
    let respelled := env.reannotate ⟨7⟩
      [container, teamOf (.nested userRole), officeOf (.list [.nested userRole])]
    let validator := some (Validator.nonEmpty ["a.Role#value"])
    env.readValue (some ⟨4⟩) (.host (.array [.nested userRole])) =
        some (.list ⟨.nested, [.nested ⟨"a.Role", ⟨[("value", .str "user")]⟩⟩]⟩) ∧
      respelled.containerItems? container = some [userRole] ∧
      respelled.model.Accepted ∧
      ∃ result, env.build validator {} {} ⟨7⟩ = .ok result ∧
        ∃ again, respelled.build validator {} {} ⟨7⟩ = .ok again ∧
          again.metadata = result.metadata ∧ again.diagnostics = result.diagnostics := by
  intro env container respelled validator
  have hd : env.model.declaration? ⟨7⟩ = some _ := rfl
  obtain ⟨hread, hbuild⟩ := build_single_annotation (accepted_roster {})
  have hroles : env.Respells (rolesOf (.nested userRole)) container :=
    .members ⟨rfl, .cons ⟨rfl, .single .self (.value .array) rfl (reads_userRole rfl) (by decide)⟩
      .nil⟩
  have hteam : env.Respells (teamOf (.list [.value (.nested userRole)]))
      (teamOf (.nested userRole)) :=
    .members ⟨rfl, .cons ⟨rfl, .single .listOfValue .self rfl (reads_userRole rfl) (by decide)⟩ .nil⟩
  have hoffice : env.Respells (officeOf (.nested userRole))
      (officeOf (.list [.nested userRole])) := by
    refine .members ⟨rfl, .cons ⟨rfl, ?_⟩ .nil⟩
    exact @Model.SpelledAlike.member _ _ _ _ _ _ _ _ _ _ [] [] rfl rfl
      (.single .self .list rfl (reads_userRole rfl) (by decide))
  obtain ⟨hagain, hbuilds⟩ := hbuild ⟨7⟩ _ _ hd (fun _ => not_mentionsType_roster {})
    (.cons hroles (.cons hteam (.cons hoffice .nil)))
  obtain ⟨result, hr, again, ha, hmetadata, hdiagnostics⟩ := hbuilds validator {} ⟨7⟩ (by decide)
  refine ⟨hread _ _ _ _ rfl (reads_userRole rfl) (by decide) (.host _) .array, rfl, hagain, result, hr,
    again, ha, hmetadata, hdiagnostics fun validate hv => ?_⟩
  obtain rfl := Option.some.inj hv
  exact (mirrors_reannotate (accepted_roster {}) hd (fun _ => not_mentionsType_roster {})
    _).treatsAlike_nonEmpty _

/-- Three levels are read, and no stereotypes are collected. -/
def shallow : Config := { maxValueDepth := 3, stereotypes := false }

theorem levels_roster (annotations : List AnnotationInstance) :
    (roster shallow annotations).levels {} ⟨7⟩ = [⟨7⟩] := by
  have hd : (roster shallow annotations).model.declaration? ⟨7⟩ = some _ := rfl
  have hi : (roster shallow annotations).interfaces ⟨7⟩ = [] := rfl
  exact levels_of_interfaces hd rfl rfl rfl hi (List.forall_mem_nil _) (List.pairwise_singleton _ _)

/-- **Spellings are not the same in every respect.**  A validator that counts the members that are
written down as lists tells them apart.  And an annotation that would be read with a level to spare as
a member of an annotation on the declaration has none to spare further in, so that a list around it
costs it its value. -/
theorem spelling_told_apart_roster :
    let env := roster shallow rosterAnnotations
    env.model.Accepted ∧ ¬ env.model.MentionsType "a.Service" ∧
      env.model.annotationMember? "a.Team" "leads" = some ⟨4⟩ ∧
      (env.model.itemType? (some ⟨4⟩)).isSome ∧
      env.model.Reads (some ⟨4⟩) false (.expr (.nested userRole))
        (some (.list ⟨.nested, [.nested ⟨"a.Role", ⟨[("value", .str "user")]⟩⟩]⟩)) 2 ∧
      2 + 1 ≤ env.config.maxValueDepth ∧
      (let respelled := roster shallow
          [rolesOf (.nested userRole), teamOf (.nested userRole), officeOf (.nested userRole)]
        ∃ result, env.build (some .listCount) {} {} ⟨7⟩ = .ok result ∧
          ∃ again, respelled.build (some .listCount) {} {} ⟨7⟩ = .ok again ∧
            result.diagnostics = List.replicate 3 ⟨⟨7⟩, .error, "a.Service: 1"⟩ ∧
            again.diagnostics = List.replicate 3 ⟨⟨7⟩, .error, "a.Service: 0"⟩) ∧
      (let respelled := roster shallow [rolesOf (.nested userRole),
          teamOf (.list [.value (.nested userRole)]), officeOf (.list [.nested userRole])]
        let team (role : NestedAnnotation) : Value :=
          .nested ⟨"a.Team", ⟨[("leads", .list ⟨.nested, [.nested role]⟩)]⟩⟩
        ∃ result, env.build none {} {} ⟨7⟩ = .ok result ∧
          ∃ again, respelled.build none {} {} ⟨7⟩ = .ok again ∧
            result.metadata.value? "a.Office" "team" =
              some (team ⟨"a.Role", ⟨[("value", .str "user")]⟩⟩) ∧
            again.metadata.value? "a.Office" "team" = some (team ⟨"a.Role", ∅⟩)) := by
  intro env
  have hd : ∀ annotations, (roster shallow annotations).model.declaration? ⟨7⟩ = some _ :=
    fun _ => rfl
  refine ⟨accepted_roster shallow, not_mentionsType_roster shallow, rfl, rfl, reads_userRole rfl,
    by decide, ?_, ?_⟩
  · intro respelled
    obtain ⟨result, hr, -⟩ := exists_build (some .listCount) {} (hd rosterAnnotations) .new
    obtain ⟨again, hagain, -⟩ := exists_build (some .listCount) {} (hd _) .new
    refine ⟨result, hr, again, hagain, ?_, ?_⟩
    · rw [diagnostics_of_build _ _ (hd _) hr, assemble, occurrences, levels_roster]
      rfl
    · rw [diagnostics_of_build _ _ (hd _) hagain, assemble, occurrences, levels_roster]
      rfl
  · intro respelled team
    obtain ⟨result, hr, hmd⟩ := exists_build none {} (hd rosterAnnotations) .new
    obtain ⟨again, hagain, hmd'⟩ := exists_build none {} (hd _) .new
    refine ⟨result, hr, again, hagain, ?_, ?_⟩
    · rw [hmd, metadata, assemble, occurrences, levels_roster]
      rfl
    · rw [hmd', metadata, assemble, occurrences, levels_roster]
      rfl

end Environment

end AnnotationResolution
