import AnnotationResolution.Config
import AnnotationResolution.Proofs.Text.NamePattern

/-!
# Patterns that a configuration may have

A pattern is refused if it is blank or has more than two stars.  The matcher is more particular about
two stars: they have to stand together, alone or behind a last dot.  So every pattern that is refused
without being blank would select nothing that has no star in it, but a pattern with two stars in
other places is accepted and selects nothing either (`StarsApart`).

* `check_eq_ok_iff`: what a check looks at.
* `isUnsupportedPattern_eq_false_iff`: the patterns that pass are the live ones and those with their
  stars apart.
* `check_selects_iff`: of the patterns of an accepted configuration, the others all select something.
-/

namespace AnnotationResolution

namespace NamePattern

/-- Two stars, and not both at the end of a dotted pattern or as the whole of it. -/
def StarsApart (pattern : List Char) : Prop :=
  pattern.count '*' = 2 ∧ pattern ≠ ['*', '*'] ∧ ¬ ['.', '*', '*'] <:+ pattern

theorem Live.count_le {pattern : List Char} (h : Live pattern) : pattern.count '*' ≤ 2 := by
  cases h with
  | plain hstar => simp [List.count_eq_zero.mpr hstar]
  | one hstart hending =>
    simp [List.count_eq_zero.mpr hstart, List.count_eq_zero.mpr hending]
  | within hroot => simp [List.count_eq_zero.mpr hroot]
  | anything => decide

theorem Live.not_starsApart {pattern : List Char} (h : Live pattern) : ¬ StarsApart pattern := by
  rintro ⟨hcount, hne, hwithin⟩
  cases h with
  | plain hstar => simp [List.count_eq_zero.mpr hstar] at hcount
  | one hstart hending =>
    simp [List.count_eq_zero.mpr hstart, List.count_eq_zero.mpr hending] at hcount
  | within hroot => exact hwithin (List.suffix_append _ _)
  | anything => exact hne rfl

theorem live_or_starsApart_iff {pattern : List Char} :
    Live pattern ∨ StarsApart pattern ↔ pattern.count '*' ≤ 2 := by
  constructor
  · rintro (h | h)
    · exact h.count_le
    · exact Nat.le_of_eq h.1
  · intro h
    by_cases hone : pattern.count '*' ≤ 1
    · exact Or.inl (live_of_count_le hone)
    by_cases hne : pattern = ['*', '*']
    · exact Or.inl (hne ▸ .anything)
    by_cases hwithin : ['.', '*', '*'] <:+ pattern
    · -- There are only these two stars.
      obtain ⟨root, rfl⟩ := hwithin
      rw [List.count_append] at h
      have htwo : ['.', '*', '*'].count '*' = 2 := by decide
      have hroot : root.count '*' = 0 := by omega
      exact Or.inl (.within (List.count_eq_zero.mp hroot))
    · exact Or.inr ⟨by omega, hne, hwithin⟩

end NamePattern

namespace Config

variable {config : Config} {pattern : String}

/-- **What a configuration is checked for.** -/
theorem check_eq_ok_iff :
    config.check = .ok () ↔
      config.maxValueDepth ≠ 0 ∧ (∀ entry ∈ config.requiredNames, isBlankText entry.2 = false) ∧
        ∀ pattern ∈ config.excludedAnnotations, isUnsupportedPattern pattern = false := by
  rw [check]
  by_cases hdepth : config.maxValueDepth = 0
  · simp [hdepth]
  rw [if_neg hdepth]
  cases hname : config.requiredNames.find? fun entry => isBlankText entry.2 with
  | some entry =>
    have hblank := List.find?_some hname
    refine iff_of_false (by simp) fun h => ?_
    rw [h.2.1 entry (List.mem_of_find?_eq_some hname)] at hblank
    cases hblank
  | none =>
    have hnames : ∀ entry ∈ config.requiredNames, isBlankText entry.2 = false := by
      simpa using hname
    cases hfound : config.excludedAnnotations.find? isUnsupportedPattern with
    | some found =>
      have hunsupported := List.find?_some hfound
      refine iff_of_false (by simp) fun h => ?_
      rw [h.2.2 found (List.mem_of_find?_eq_some hfound)] at hunsupported
      cases hunsupported
    | none => exact iff_of_true rfl ⟨hdepth, hnames, by simpa using hfound⟩

/-- **The patterns that are let through** are not blank, and are live but for those with their stars
apart. -/
theorem isUnsupportedPattern_eq_false_iff :
    isUnsupportedPattern pattern = false ↔
      isBlankText pattern = false ∧
        (NamePattern.Live (trimBlank pattern.toList) ∨
          NamePattern.StarsApart (trimBlank pattern.toList)) := by
  rw [NamePattern.live_or_starsApart_iff, count_trimBlank (by decide)]
  simp [isUnsupportedPattern, and_comm]

/-- **A pattern of an accepted configuration selects something, unless its stars stand apart**, and
then it selects no name that has no star in it. -/
theorem check_selects_iff (h : config.check = .ok ()) (hp : pattern ∈ config.excludedAnnotations) :
    (∃ name : String, '*' ∉ name.toList ∧ nameMatches name pattern = true) ↔
      ¬ NamePattern.StarsApart (trimBlank pattern.toList) := by
  rw [exists_nameMatches_iff]
  obtain ⟨-, hform⟩ := isUnsupportedPattern_eq_false_iff.mp ((check_eq_ok_iff.mp h).2.2 pattern hp)
  constructor
  · exact NamePattern.Live.not_starsApart
  · exact hform.resolve_right

/-- The pattern of the default configuration. -/
theorem check_selects_iff_default :
    ({} : Config).check = .ok () ∧ "java.lang.annotation.*" ∈ ({} : Config).excludedAnnotations ∧
      ∃ name : String, '*' ∉ name.toList ∧ nameMatches name "java.lang.annotation.*" = true := by
  have hcheck : ({} : Config).check = .ok () := by decide
  have hmem : "java.lang.annotation.*" ∈ ({} : Config).excludedAnnotations := List.mem_cons_self
  refine ⟨hcheck, hmem, (check_selects_iff hcheck hmem).mpr ?_⟩
  rintro ⟨hcount, -⟩
  exact absurd hcount (by decide)

/-- A pattern with a star on either side of a word is accepted, and selects nothing at all. -/
theorem nothing_excluded_by_stars_apart :
    ({ excludedAnnotations := ["*Test*"] } : Config).check = .ok () ∧
      ∀ name : String, nameMatches name "*Test*" = false := by
  have hform : NamePattern.parse "*Test*" = .unsupported := by decide
  refine ⟨by decide, fun name => ?_⟩
  rw [nameMatches, hform]
  rfl

end Config

end AnnotationResolution
