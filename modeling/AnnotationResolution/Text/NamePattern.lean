import AnnotationResolution.Text.Affix
import AnnotationResolution.Text.Blank

/-!
# Patterns for dotted names

A pattern selects qualified names.  Blanks around a pattern or a name do not count.

| pattern | selects |
|---|---|
| `q.**` | `q` and every name below it |
| `q.*` | the names directly below `q` |
| `*`, `**` | every name |
| `a*b` | the names that begin with `a` and end with `b`, the two not overlapping |
| without a star | that name |

A pattern with more stars, outside these forms, selects nothing.  `NamePattern.ofChars` sorts a
pattern into its form, `NamePattern.accepts` says what the form selects.
-/

namespace AnnotationResolution

inductive NamePattern where
  | within (root : List Char)
  | childOf (parent : List Char)
  | anything
  | between (start ending : List Char)
  | exactly (name : List Char)
  | unsupported
deriving Repr, DecidableEq

namespace NamePattern

/-- The form of a trimmed pattern.  The dotted forms come first, so a star before them stands for
itself. -/
def ofChars (cs : List Char) : NamePattern :=
  match stripSuffix? ['.', '*', '*'] cs with
  | some root => within root
  | none =>
    match stripSuffix? ['.', '*'] cs with
    | some parent => childOf parent
    | none =>
      if cs = ['*'] ∨ cs = ['*', '*'] then anything
      else
        match cs.count '*' with
        | 0 => exactly cs
        | 1 => between (cs.takeWhile (· ≠ '*')) ((cs.dropWhile (· ≠ '*')).drop 1)
        | _ => unsupported

def accepts : NamePattern → List Char → Bool
  | within root, name => name == root || (root ++ ['.']).isPrefixOf name
  | childOf parent, name =>
    match stripPrefix? (parent ++ ['.']) name with
    | some child => !child.contains '.'
    | none => false
  | anything, _ => true
  | between start ending, name =>
    start.length + ending.length ≤ name.length &&
      (start.isPrefixOf name && ending.isSuffixOf name)
  | exactly expected, name => name == expected
  | unsupported, _ => false

def parse (pattern : String) : NamePattern := ofChars (trimBlank pattern.toList)

end NamePattern

def nameMatches (name pattern : String) : Bool :=
  (NamePattern.parse pattern).accepts (trimBlank name.toList)

namespace NamePattern

theorem accepts_within {root name : List Char} :
    (within root).accepts name = true ↔ name = root ∨ ∃ rest, name = root ++ '.' :: rest := by
  simp only [accepts, Bool.or_eq_true, beq_iff_eq, List.isPrefixOf_iff_prefix]
  refine or_congr Iff.rfl ⟨?_, ?_⟩
  · rintro ⟨rest, rfl⟩
    exact ⟨rest, by simp⟩
  · rintro ⟨rest, rfl⟩
    exact ⟨rest, by simp⟩

theorem accepts_childOf {parent name : List Char} :
    (childOf parent).accepts name = true ↔ ∃ child, '.' ∉ child ∧ name = parent ++ '.' :: child := by
  simp only [accepts]
  cases h : stripPrefix? (parent ++ ['.']) name with
  | none =>
    simp only [Bool.false_eq_true, false_iff, not_exists, not_and]
    intro child _ hn
    have hs : stripPrefix? (parent ++ ['.']) name = some child :=
      stripPrefix?_eq_some_iff.mpr (by simpa using hn)
    rw [hs] at h
    cases h
  | some rest =>
    have hn := stripPrefix?_eq_some_iff.mp h
    constructor
    · intro hr
      exact ⟨rest, by simpa using hr, by simpa using hn⟩
    · rintro ⟨child, hc, he⟩
      have : rest = child := by simpa [he] using hn.symm
      simpa [this] using hc

theorem accepts_between {start ending name : List Char} :
    (between start ending).accepts name = true ↔ ∃ middle, name = start ++ middle ++ ending := by
  simp only [accepts, Bool.and_eq_true, decide_eq_true_eq, List.isPrefixOf_iff_prefix,
    List.isSuffixOf_iff_suffix]
  constructor
  · rintro ⟨hlen, ⟨rest, rfl⟩, hsuffix⟩
    -- There is room for both, so the ending lies in what comes after the start.
    have hroom : ending.length ≤ rest.length := by
      rw [List.length_append] at hlen
      omega
    obtain ⟨middle, rfl⟩ := List.suffix_of_suffix_length_le hsuffix
      (List.suffix_append start rest) hroom
    exact ⟨middle, (List.append_assoc _ _ _).symm⟩
  · rintro ⟨middle, rfl⟩
    refine ⟨?_, ⟨middle ++ ending, (List.append_assoc _ _ _).symm⟩, List.suffix_append _ _⟩
    simp only [List.length_append]
    omega

end NamePattern

end AnnotationResolution
