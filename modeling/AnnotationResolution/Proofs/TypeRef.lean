import Mathlib.Data.List.Basic
import AnnotationResolution.TypeRef

/-!
# Substitution

Only what a substitution gives to the type parameters that a type mentions matters
(`substitute_congr`).  So substituting twice is substituting once, as soon as the first substitution
binds all of them: `substitute_comp`.
-/

namespace AnnotationResolution.TypeRef

/-- A type parameter occurs in a type, at any depth. -/
inductive Mentions (name : String) : TypeRef → Prop
  | param : Mentions name (.param name)
  | arg {head : String} {args : List TypeRef} {a : TypeRef} : a ∈ args → Mentions name a →
      Mentions name (.named head args)
  | component {ty : TypeRef} : Mentions name ty → Mentions name (.array ty)

/-- A property of a named type may be shown from that of its type arguments. -/
theorem inductionOn {motive : TypeRef → Prop}
    (named : ∀ name args, (∀ a ∈ args, motive a) → motive (.named name args))
    (param : ∀ name, motive (.param name))
    (array : ∀ component, motive component → motive (.array component)) (ty : TypeRef) :
    motive ty :=
  @TypeRef.rec motive (fun args => ∀ a ∈ args, motive a) named param array (List.forall_mem_nil _)
    (fun _ _ hfirst hrest => List.forall_mem_cons.mpr ⟨hfirst, hrest⟩) ty

theorem substitute_named (bindings : Substitution) (name : String) (args : List TypeRef) :
    (named name args).substitute bindings = named name (args.map (substitute bindings)) := by
  rw [substitute, substituteAll_eq]

theorem hasParams_named (name : String) (args : List TypeRef) :
    (named name args).hasParams = args.any hasParams := by
  rw [hasParams, anyHasParams_eq]

theorem hasParams_iff {ty : TypeRef} : ty.hasParams = true ↔ ∃ name, ty.Mentions name := by
  induction ty using inductionOn with
  | named head args ih =>
    rw [hasParams_named, List.any_eq_true]
    constructor
    · rintro ⟨a, ha, hp⟩
      obtain ⟨name, hn⟩ := (ih a ha).mp hp
      exact ⟨name, .arg ha hn⟩
    · rintro ⟨name, hn⟩
      cases hn with
      | arg ha hn => exact ⟨_, ha, (ih _ ha).mpr ⟨name, hn⟩⟩
  | param name => exact iff_of_true rfl ⟨name, .param⟩
  | array component ih =>
    rw [hasParams, ih]
    constructor
    · rintro ⟨name, hn⟩
      exact ⟨name, .component hn⟩
    · rintro ⟨name, hn⟩
      cases hn with
      | component hn => exact ⟨name, hn⟩

/-- **Only the type parameters that are mentioned matter.** -/
theorem substitute_congr {ty : TypeRef} {bindings other : Substitution}
    (h : ∀ name, ty.Mentions name → bindings.get? name = other.get? name) :
    ty.substitute bindings = ty.substitute other := by
  induction ty using inductionOn with
  | named head args ih =>
    rw [substitute_named, substitute_named]
    congr 1
    exact List.map_congr_left fun a ha => ih a ha fun name hn => h name (.arg ha hn)
  | param name => rw [substitute, substitute, h name .param]
  | array component ih =>
    rw [substitute, substitute, ih fun name hn => h name (.component hn)]

theorem substitute_empty (ty : TypeRef) : ty.substitute ∅ = ty := by
  induction ty using inductionOn with
  | named head args ih => rw [substitute_named, List.map_congr_left ih, List.map_id']
  | param name => rfl
  | array component ih => rw [substitute, ih]

theorem substitute_of_hasParams_eq_false {ty : TypeRef} (h : ty.hasParams = false)
    (bindings : Substitution) : ty.substitute bindings = ty := by
  refine (substitute_congr fun name hn => ?_).trans (substitute_empty ty)
  rw [hasParams_iff.mpr ⟨name, hn⟩] at h
  cases h

/-- **Substituting twice.**  Where the first substitution binds what the type mentions, nothing else
comes under the second one. -/
theorem substitute_comp {ty : TypeRef} {first second both : Substitution}
    (h : ∀ name, ty.Mentions name → ∃ arg, first.get? name = some arg ∧
      both.get? name = some (arg.substitute second)) :
    ty.substitute both = (ty.substitute first).substitute second := by
  induction ty using inductionOn with
  | named head args ih =>
    rw [substitute_named, substitute_named, substitute_named, List.map_map]
    congr 1
    exact List.map_congr_left fun a ha => ih a ha fun name hn => h name (.arg ha hn)
  | param name =>
    obtain ⟨arg, hfirst, hboth⟩ := h name .param
    rw [substitute, substitute, hfirst, hboth]
    rfl
  | array component ih =>
    rw [substitute, substitute, substitute, ih fun name hn => h name (.component hn)]

/-- What is mentioned after a substitution is mentioned by what was put in, or was not bound. -/
theorem mentions_of_mentions_substitute {ty : TypeRef} {bindings : Substitution} {name : String}
    (h : (ty.substitute bindings).Mentions name) :
    ∃ old, ty.Mentions old ∧ ((bindings.get? old).getD (.param old)).Mentions name := by
  induction ty using inductionOn with
  | named head args ih =>
    rw [substitute_named] at h
    cases h with
    | arg hmem hn =>
      obtain ⟨a, ha, rfl⟩ := List.mem_map.mp hmem
      obtain ⟨old, hold, hn⟩ := ih a ha hn
      exact ⟨old, .arg ha hold, hn⟩
  | param old => exact ⟨old, .param, h⟩
  | array component ih =>
    rw [substitute] at h
    cases h with
    | component hn =>
      obtain ⟨old, hold, hn⟩ := ih hn
      exact ⟨old, .component hold, hn⟩

end AnnotationResolution.TypeRef
