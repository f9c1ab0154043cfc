import AnnotationResolution.Assembly.Markers
import AnnotationResolution.Proofs.TypeRef

/-!
# Erased types and their names

Two types have the same erasure just when they are the same type after all type arguments were dropped
(`sameErasure_iff`).  So comparing erasures is an equivalence, a substitution keeps to it, and the
binary name depends on the erased type alone.

The binary name of an array marks each dimension by a bracket in front, and only the innermost array
has the name of its items set off by `L` and `;`.  Read from the front, the name says again what it
was made of: brackets up to the `L`, and the name of the items up to the last character
(`ofBinaryName_toList`).  Only a name that begins with a bracket itself can be mistaken for an array,
and a type parameter for a type of its name.

* `binaryName_eq_iff`: otherwise a binary name stands for one erased type.
* `sameErasure_exact`: so do the class literals that are read from a source, and the containers that
  repeatable annotations name.
-/

namespace AnnotationResolution

namespace TypeRef

/-! ## Erased types -/

/-- A type without its type arguments. -/
def erase : TypeRef → TypeRef
  | named name _ => named name []
  | param name => param name
  | array component => array component.erase

theorem sameErasure_iff {a b : TypeRef} : a.sameErasure b = true ↔ a.erase = b.erase := by
  induction a using inductionOn generalizing b with
  | named name args => cases b <;> simp [sameErasure, erase]
  | param name => cases b <;> simp [sameErasure, erase]
  | array component ih =>
    cases b with
    | array other => rw [sameErasure, ih, erase, erase, array.injEq]
    | named _ _ | param _ => simp [sameErasure, erase]

theorem equivalence_sameErasure : Equivalence fun a b : TypeRef => a.sameErasure b = true where
  refl _ := sameErasure_iff.mpr rfl
  symm h := sameErasure_iff.mpr (sameErasure_iff.mp h).symm
  trans h h' := sameErasure_iff.mpr ((sameErasure_iff.mp h).trans (sameErasure_iff.mp h'))

/-- **What a substitution makes of a type is, when erased, decided by the erased type.** -/
theorem erase_substitute_erase (ty : TypeRef) (bindings : Substitution) :
    (ty.erase.substitute bindings).erase = (ty.substitute bindings).erase := by
  induction ty using inductionOn with
  | named name args => rfl
  | param name => rfl
  | array component ih => rw [erase, substitute, substitute, erase, erase, ih]

theorem sameErasure_substitute {a b : TypeRef} (h : a.sameErasure b = true)
    (bindings : Substitution) :
    (a.substitute bindings).sameErasure (b.substitute bindings) = true := by
  rw [sameErasure_iff] at h ⊢
  rw [← erase_substitute_erase, h, erase_substitute_erase]

/-! ## Names of erased types -/

theorem binaryName_erase (ty : TypeRef) : ty.erase.binaryName = ty.binaryName := by
  fun_induction binaryName ty with
  | case1 name args => rfl
  | case2 name => rfl
  | case3 component ih =>
    rw [erase, erase, binaryName]
    exact congrArg _ ih
  | case4 component hinner ih =>
    cases component with
    | array inner => exact absurd rfl (hinner inner)
    | named _ _ | param _ => rfl

theorem binaryName_eq_of_sameErasure {a b : TypeRef} (h : a.sameErasure b = true) :
    a.binaryName = b.binaryName := by
  rw [← binaryName_erase, sameErasure_iff.mp h, binaryName_erase]

/-- The erased type that a binary name stands for. -/
def ofBinaryName : List Char → TypeRef
  | '[' :: 'L' :: rest => array (named (String.ofList rest.dropLast) [])
  | '[' :: rest => array (ofBinaryName rest)
  | name => named (String.ofList name) []

theorem toList_binaryName_array_array (component : TypeRef) :
    (array (array component)).binaryName.toList = '[' :: (array component).binaryName.toList := by
  rw [binaryName, String.toList_append]
  rfl

theorem toList_binaryName_array_named (name : String) (args : List TypeRef) :
    (array (named name args)).binaryName.toList = '[' :: 'L' :: (name.toList ++ [';']) := by
  have hname : (array (named name args)).binaryName = "[L" ++ name ++ ";" := by
    rw [binaryName, binaryName]
    exact fun inner h => by cases h
  rw [hname, String.toList_append, String.toList_append]
  rfl

/-- A named type occurs in a type, at any depth. -/
inductive Names (name : String) : TypeRef → Prop
  | head {args : List TypeRef} : Names name (.named name args)
  | arg {head : String} {args : List TypeRef} {a : TypeRef} : a ∈ args → Names name a →
      Names name (.named head args)
  | component {ty : TypeRef} : Names name ty → Names name (.array ty)

/-- No type parameter occurs in a type, and no named type of which the name begins with a bracket. -/
structure IsPlain (ty : TypeRef) : Prop where
  noParams : ty.hasParams = false
  noBracket : ∀ name, ty.Names name → name.toList.head? ≠ some '['

theorem IsPlain.named {name : String} {args : List TypeRef} (h : name.toList.head? ≠ some '[')
    (hargs : ∀ a ∈ args, a.IsPlain) : (named name args).IsPlain where
  noParams := by
    rw [hasParams_named, List.any_eq_false]
    exact fun a ha hp => Bool.false_ne_true ((hargs a ha).noParams.symm.trans hp)
  noBracket other hn := by
    cases hn with
    | head => exact h
    | arg ha hn => exact (hargs _ ha).noBracket other hn

theorem IsPlain.array {ty : TypeRef} (h : ty.IsPlain) : (array ty).IsPlain where
  noParams := h.noParams
  noBracket name hn := by
    cases hn with
    | component hn => exact h.noBracket name hn

theorem IsPlain.component {ty : TypeRef} (h : (TypeRef.array ty).IsPlain) : ty.IsPlain :=
  ⟨h.noParams, fun name hn => h.noBracket name (.component hn)⟩

theorem exists_toList_binaryName_array {component : TypeRef} (h : (array component).IsPlain) :
    ∃ rest, (array component).binaryName.toList = '[' :: rest := by
  cases component with
  | array inner => exact ⟨_, toList_binaryName_array_array inner⟩
  | named name args => exact ⟨_, toList_binaryName_array_named name args⟩
  | param name => cases h.noParams

/-- **A binary name can be read back.** -/
theorem ofBinaryName_toList {ty : TypeRef} (h : ty.IsPlain) :
    ofBinaryName ty.binaryName.toList = ty.erase := by
  induction ty using inductionOn with
  | named name args ih =>
    have hhead := h.noBracket name .head
    have hname : ofBinaryName name.toList = named (String.ofList name.toList) [] := by
      rw [ofBinaryName]
      · rintro rest he
        simp [he] at hhead
      · rintro rest he
        simp [he] at hhead
    rw [binaryName, hname, String.ofList_toList, erase]
  | param name => cases h.noParams
  | array component ih =>
    cases component with
    | param name => cases h.noParams
    | named name args =>
      rw [toList_binaryName_array_named, ofBinaryName, List.dropLast_concat, String.ofList_toList]
      rfl
    | array inner =>
      -- Behind the bracket another one follows, so no name is set off here.
      have hinner : ofBinaryName (array inner).binaryName.toList = (array inner).erase :=
        ih h.component
      obtain ⟨rest, hrest⟩ := exists_toList_binaryName_array h.component
      rw [hrest] at hinner
      rw [toList_binaryName_array_array, hrest, ofBinaryName, hinner]
      · rfl
      · intro other he
        cases he

/-- **A binary name stands for one erased type.** -/
theorem binaryName_eq_iff {a b : TypeRef} (ha : a.IsPlain) (hb : b.IsPlain) :
    a.binaryName = b.binaryName ↔ a.sameErasure b = true := by
  constructor
  · intro h
    rw [sameErasure_iff, ← ofBinaryName_toList ha, h, ofBinaryName_toList hb]
  · exact binaryName_eq_of_sameErasure

/-- Neither condition can be left out. -/
example : (named "[La.Role;" []).binaryName = (array (named "a.Role" [])).binaryName ∧
    (param "T").binaryName = (named "T" []).binaryName := by
  decide

end TypeRef

/-! ## Class references -/

/-- A class as it may be written: a literal, or a value that the host has found. -/
inductive RawValue.IsClass (ty : TypeRef) : RawValue → Prop
  | literal : IsClass ty (.expr (.typeLiteral ty))
  | host : IsClass ty (.host (.classOf ty))
  | resolved : IsClass ty (.expr (.value (.classOf ty)))

theorem RawValue.IsClass.shape_eq {raw : RawValue} {ty : TypeRef} (h : raw.IsClass ty) :
    raw.shape = .complete (.classRef ty.binaryName) := by
  cases h <;> rfl

namespace Environment

variable {env : Environment}

theorem readValue_of_isClass (hdepth : 0 < env.config.maxValueDepth) {raw : RawValue} {ty : TypeRef}
    (h : raw.IsClass ty) (member : Option DeclId) :
    env.readValue member raw = some (.classRef ty.binaryName) := by
  obtain ⟨levels, hlevels⟩ := Nat.exists_eq_add_one.mpr hdepth
  rw [readValue, hlevels, Model.readWithin, h.shape_eq]

variable (env) in
/-- The repeatable marker of an annotation type names its container by a class. -/
def NamesContainer (annotationType : String) (ty : TypeRef) : Prop :=
  ∃ marker, env.marker? annotationType env.config.repeatableAnnotation = some marker ∧
    ∃ e, marker.members.get? "value" = some e ∧ (RawValue.expr e).IsClass ty

theorem repeatableContainer?_of_namesContainer (hdepth : 0 < env.config.maxValueDepth)
    {annotationType : String} {ty : TypeRef} (h : env.NamesContainer annotationType ty) :
    env.repeatableContainer? annotationType = some ty.binaryName := by
  obtain ⟨marker, hmarker, e, he, hclass⟩ := h
  simp [repeatableContainer?, hmarker, he, readValue_of_isClass hdepth hclass]

end Environment

/-- **Types with one erasure.**  Comparing erasures is an equivalence that substitutions and binary
names respect.  A binary name tells which erased type it stands for, so class references and
containers may be compared by it. -/
theorem sameErasure_exact :
    (Equivalence fun a b : TypeRef => a.sameErasure b = true) ∧
      (∀ a b : TypeRef, a.sameErasure b = true →
        (∀ bindings, (a.substitute bindings).sameErasure (b.substitute bindings) = true) ∧
          a.binaryName = b.binaryName) ∧
      ∀ a b : TypeRef, a.IsPlain → b.IsPlain →
        (a.binaryName = b.binaryName → a.sameErasure b = true) ∧
          ∀ env : Environment, 0 < env.config.maxValueDepth →
            (∀ raw raw', raw.IsClass a → raw'.IsClass b → ∀ member member',
              (env.readValue member raw = env.readValue member' raw' ↔ a.sameErasure b = true)) ∧
            ∀ x y, env.NamesContainer x a → env.NamesContainer y b →
              (env.repeatableContainer? x = env.repeatableContainer? y ↔ a.sameErasure b = true) := by
  refine ⟨TypeRef.equivalence_sameErasure, fun a b h => ?_, fun a b ha hb => ?_⟩
  · exact ⟨TypeRef.sameErasure_substitute h, TypeRef.binaryName_eq_of_sameErasure h⟩
  · have hname : a.binaryName = b.binaryName ↔ a.sameErasure b = true :=
      TypeRef.binaryName_eq_iff ha hb
    refine ⟨hname.mp, fun env hdepth => ⟨fun raw raw' hraw hraw' member member' => ?_,
      fun x y hx hy => ?_⟩⟩
    · rw [Environment.readValue_of_isClass hdepth hraw, Environment.readValue_of_isClass hdepth hraw',
        Option.some_inj, Value.classRef.injEq, hname]
    · rw [Environment.repeatableContainer?_of_namesContainer hdepth hx,
        Environment.repeatableContainer?_of_namesContainer hdepth hy, Option.some_inj, hname]

/-- Two annotation types have one container, which is named once with type arguments and once
without. -/
def sharedContainer : Environment where
  config := {}
  model :=
    { declarations := #[
        ⟨"a.Role", none,
          [⟨"java.lang.annotation.Repeatable",
            ⟨[("value", .typeLiteral (.array (.named "a.Many" [.named "a.Role" []])))]⟩⟩],
          .type { kind := .annotationType }⟩,
        ⟨"a.Note", none,
          [⟨"java.lang.annotation.Repeatable",
            ⟨[("value", .value (.classOf (.array (.named "a.Many" []))))]⟩⟩],
          .type { kind := .annotationType }⟩]
      types := ⟨[("a.Role", ⟨0⟩), ("a.Note", ⟨1⟩)]⟩ }

theorem sameErasure_exact_sharedContainer :
    let roles := TypeRef.array (.named "a.Many" [.named "a.Role" []])
    let plain := TypeRef.array (.named "a.Many" [])
    let bindings : Substitution := ⟨[("T", .named "a.Role" [])]⟩
    roles.IsPlain ∧ plain.IsPlain ∧ roles.binaryName = plain.binaryName ∧
      sharedContainer.NamesContainer "a.Role" roles ∧
      sharedContainer.NamesContainer "a.Note" plain ∧ 0 < sharedContainer.config.maxValueDepth ∧
      roles.sameErasure plain = true ∧
      (roles.substitute bindings).sameErasure (plain.substitute bindings) = true ∧
      sharedContainer.readValue none (.expr (.typeLiteral roles)) =
        sharedContainer.readValue none (.host (.classOf plain)) ∧
      sharedContainer.repeatableContainer? "a.Role" =
        sharedContainer.repeatableContainer? "a.Note" := by
  intro roles plain bindings
  have hrole : (TypeRef.named "a.Role" []).IsPlain := .named (by decide) (List.forall_mem_nil _)
  have hroles : roles.IsPlain := .array (.named (by decide) (List.forall_mem_singleton.mpr hrole))
  have hplain : plain.IsPlain := .array (.named (by decide) (List.forall_mem_nil _))
  have hname : roles.binaryName = plain.binaryName := rfl
  have hdepth : 0 < sharedContainer.config.maxValueDepth := by decide
  have hx : sharedContainer.NamesContainer "a.Role" roles := ⟨_, rfl, _, rfl, .literal⟩
  have hy : sharedContainer.NamesContainer "a.Note" plain := ⟨_, rfl, _, rfl, .resolved⟩
  obtain ⟨-, hkept, hexact⟩ := sameErasure_exact
  obtain ⟨hsame, hread⟩ := hexact roles plain hroles hplain
  obtain ⟨hclass, hcontainer⟩ := hread sharedContainer hdepth
  have herased : roles.sameErasure plain = true := hsame hname
  exact ⟨hroles, hplain, hname, hx, hy, hdepth, herased, (hkept _ _ herased).1 bindings,
    (hclass _ _ .literal .host none none).mpr herased, (hcontainer _ _ hx hy).mpr herased⟩

end AnnotationResolution
