import AnnotationResolution.Proofs.Hierarchy.Overrides

/-!
# Type parameters without a binding

A signature is compared after the type parameters of the candidate are replaced.  One that is not
bound stays what it is, and two things follow.  Among type arguments it is not looked at, as nothing
is there.  Elsewhere it is equal to a type parameter of the same name and to nothing else, whatever
the two stand for.

* `Overlooks`: the pairs of parameter types that are equal all the same.
* `sameErasure_substitute_iff_overlooks`: there are no others.
* `signatureMatches_iff_overlooks`: so this is when a signature matches that leaves a type parameter
  open.
-/

namespace AnnotationResolution

namespace TypeRef

variable {bindings : Substitution} {ty inherited own : TypeRef}

/-- A type parameter that has no binding occurs in a type, at any depth. -/
def LeavesOpen (bindings : Substitution) (ty : TypeRef) : Prop :=
  ∃ name, ty.Mentions name ∧ bindings.get? name = none

/-- **A type parameter without a binding goes unnoticed** in the type of an inherited parameter: it
is a type argument, or the overriding method has a type parameter of the same name in its place. -/
inductive Overlooks (bindings : Substitution) : TypeRef → TypeRef → Prop
  | argument {head : String} {args ownArgs : List TypeRef} {arg : TypeRef} : arg ∈ args →
      arg.LeavesOpen bindings → Overlooks bindings (.named head args) (.named head ownArgs)
  | namesake {name : String} : bindings.get? name = none →
      Overlooks bindings (.param name) (.param name)
  | component {inherited own : TypeRef} : Overlooks bindings inherited own →
      Overlooks bindings (.array inherited) (.array own)

theorem leavesOpen_named_iff {head : String} {args : List TypeRef} :
    (named head args).LeavesOpen bindings ↔ ∃ arg ∈ args, arg.LeavesOpen bindings := by
  constructor
  · rintro ⟨name, hn, hb⟩
    cases hn with
    | arg harg hn => exact ⟨_, harg, name, hn, hb⟩
  · rintro ⟨arg, harg, name, hn, hb⟩
    exact ⟨name, .arg harg hn, hb⟩

theorem leavesOpen_param_iff {name : String} :
    (param name).LeavesOpen bindings ↔ bindings.get? name = none := by
  constructor
  · rintro ⟨other, hn, hb⟩
    cases hn
    exact hb
  · exact fun hb => ⟨name, .param, hb⟩

theorem leavesOpen_array_iff : (array ty).LeavesOpen bindings ↔ ty.LeavesOpen bindings := by
  constructor
  · rintro ⟨name, hn, hb⟩
    cases hn with
    | component hn => exact ⟨name, hn, hb⟩
  · rintro ⟨name, hn, hb⟩
    exact ⟨name, .component hn, hb⟩

/-- **What is left open is equal only where it is overlooked.** -/
theorem sameErasure_substitute_iff_overlooks (h : inherited.LeavesOpen bindings) :
    (inherited.substitute bindings).sameErasure own = true ↔ Overlooks bindings inherited own := by
  induction inherited using inductionOn generalizing own with
  | named head args ih =>
    -- The names are compared, the type arguments are not.
    obtain ⟨arg, harg, hopen⟩ := leavesOpen_named_iff.mp h
    rw [substitute_named]
    cases own with
    | named ownHead ownArgs =>
      rw [sameErasure, beq_iff_eq]
      constructor
      · rintro rfl
        exact .argument harg hopen
      · intro ho
        cases ho
        rfl
    | param name | array component => exact iff_of_false Bool.false_ne_true fun ho => by cases ho
  | param name =>
    have hb := leavesOpen_param_iff.mp h
    rw [substitute, hb, Option.getD_none]
    cases own with
    | param other =>
      rw [sameErasure, beq_iff_eq]
      constructor
      · rintro rfl
        exact .namesake hb
      · intro ho
        cases ho
        rfl
    | named head args | array component =>
      exact iff_of_false Bool.false_ne_true fun ho => by cases ho
  | array component ih =>
    rw [substitute]
    cases own with
    | array ownComponent =>
      rw [sameErasure, ih (leavesOpen_array_iff.mp h)]
      constructor
      · exact .component
      · intro ho
        cases ho with
        | component ho => exact ho
    | named head args | param name => exact iff_of_false Bool.false_ne_true fun ho => by cases ho

example : ((named "List" [param "T"]).substitute ∅).sameErasure (named "List" [named "a.User" []]) =
    true := rfl

end TypeRef

namespace Model

variable {m : Model}

/-- **When a signature matches.**  The parameters are as many, and each type that leaves a type
parameter open is overlooked; the other types are the same up to type arguments.  So a type
parameter without a binding is no match, unless it goes unnoticed. -/
theorem signatureMatches_iff_overlooks {params : List TypeRef} {candidate : DeclId}
    {bindings : Option Substitution} :
    m.signatureMatches params candidate bindings = true ↔
      List.Forall₂ (fun inherited own =>
        (inherited.LeavesOpen (bindings.getD ∅) →
          TypeRef.Overlooks (bindings.getD ∅) inherited own) ∧
        (¬ inherited.LeavesOpen (bindings.getD ∅) →
          (inherited.substitute (bindings.getD ∅)).sameErasure own = true))
        (m.parameterTypes candidate) params := by
  have hone : ∀ inherited own : TypeRef,
      (inherited.substitute (bindings.getD ∅)).sameErasure own = true ↔
        (inherited.LeavesOpen (bindings.getD ∅) →
          TypeRef.Overlooks (bindings.getD ∅) inherited own) ∧
        (¬ inherited.LeavesOpen (bindings.getD ∅) →
          (inherited.substitute (bindings.getD ∅)).sameErasure own = true) := by
    intro inherited own
    by_cases h : inherited.LeavesOpen (bindings.getD ∅)
    · rw [TypeRef.sameErasure_substitute_iff_overlooks h]
      exact ⟨fun ho => ⟨fun _ => ho, fun hclosed => absurd h hclosed⟩, fun ho => ho.1 h⟩
    · exact ⟨fun hs => ⟨fun hopen => absurd hopen h, fun _ => hs⟩, fun hs => hs.2 h⟩
  rw [signatureMatches_iff]
  simp only [← hone]

end Model

/-- Nothing is bound here, and yet the method of the generic interface matches one whose parameter
is of some other type that is also called `T`. -/
theorem Environment.namesake_matches_userRepository :
    (∃ inherited ∈ userRepository.model.parameterTypes ⟨1⟩, inherited.LeavesOpen ∅) ∧
      userRepository.model.signatureMatches [.param "T"] ⟨1⟩ none = true :=
  ⟨⟨.param "T", List.mem_singleton_self _, TypeRef.leavesOpen_param_iff.mpr rfl⟩, rfl⟩

end AnnotationResolution
