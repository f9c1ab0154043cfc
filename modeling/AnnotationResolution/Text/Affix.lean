/-!
# What stands before and behind

`stripPrefix? start cs` is the rest of a text that begins with `start`, and `stripSuffix? ending cs`
what is before the end of one that ends with `ending`.
-/

namespace AnnotationResolution

def stripPrefix? (start cs : List Char) : Option (List Char) :=
  if start.isPrefixOf cs then some (cs.drop start.length) else none

def stripSuffix? (ending cs : List Char) : Option (List Char) :=
  if ending.isSuffixOf cs then some (cs.take (cs.length - ending.length)) else none

theorem stripPrefix?_eq_some_iff {start cs rest : List Char} :
    stripPrefix? start cs = some rest ↔ cs = start ++ rest := by
  unfold stripPrefix?
  constructor
  · intro h
    split at h
    · next hp =>
      obtain ⟨tail, rfl⟩ := List.isPrefixOf_iff_prefix.mp hp
      simpa using h
    · simp at h
  · rintro rfl
    simp [List.isPrefixOf_iff_prefix.mpr (List.prefix_append start rest)]

theorem stripSuffix?_eq_some_iff {ending cs rest : List Char} :
    stripSuffix? ending cs = some rest ↔ cs = rest ++ ending := by
  unfold stripSuffix?
  constructor
  · intro h
    split at h
    · next hs =>
      obtain ⟨front, rfl⟩ := List.isSuffixOf_iff_suffix.mp hs
      simpa using h
    · simp at h
  · rintro rfl
    simp [List.isSuffixOf_iff_suffix.mpr (List.suffix_append rest ending)]

theorem stripSuffix?_eq_none_iff {ending cs : List Char} :
    stripSuffix? ending cs = none ↔ ¬ ending <:+ cs := by
  unfold stripSuffix?
  rw [← List.isSuffixOf_iff_suffix]
  split
  · next hs => simp [hs]
  · next hs => simp [hs]

end AnnotationResolution
