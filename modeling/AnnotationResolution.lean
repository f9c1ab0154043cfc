import AnnotationResolution.Assembly
import AnnotationResolution.Assembly.Collected
import AnnotationResolution.Assembly.Markers
import AnnotationResolution.Assembly.Occurrence
import AnnotationResolution.Assembly.Reporting
import AnnotationResolution.Assembly.Stereotypes
import AnnotationResolution.Codec.Config
import AnnotationResolution.Codec.Declaration
import AnnotationResolution.Codec.Expr
import AnnotationResolution.Codec.Metadata
import AnnotationResolution.Codec.TypeRef
import AnnotationResolution.Codec.Value
import AnnotationResolution.CommandLine
import AnnotationResolution.Config
import AnnotationResolution.Decimal.Shortest
import AnnotationResolution.Declaration
import AnnotationResolution.Defaults
import AnnotationResolution.DepthFirst
import AnnotationResolution.Diagnostic
import AnnotationResolution.Expr
import AnnotationResolution.Hierarchy
import AnnotationResolution.Hierarchy.Levels
import AnnotationResolution.Hierarchy.Overrides
import AnnotationResolution.Json.Basic
import AnnotationResolution.Json.Number
import AnnotationResolution.Json.Reader
import AnnotationResolution.Json.Sorted
import AnnotationResolution.Json.Tag
import AnnotationResolution.Json.Token
import AnnotationResolution.Json.Writer
import AnnotationResolution.Log
import AnnotationResolution.Main
import AnnotationResolution.Members
import AnnotationResolution.Metadata
import AnnotationResolution.Model
import AnnotationResolution.Model.Building
import AnnotationResolution.Model.Loading
import AnnotationResolution.Proofs.Assembly.Answers
import AnnotationResolution.Proofs.Assembly.Bounds
import AnnotationResolution.Proofs.Assembly.Building
import AnnotationResolution.Proofs.Assembly.Coherent
import AnnotationResolution.Proofs.Assembly.Collected
import AnnotationResolution.Proofs.Assembly.Declared
import AnnotationResolution.Proofs.Assembly.Entries
import AnnotationResolution.Proofs.Assembly.Excluded
import AnnotationResolution.Proofs.Assembly.Homogeneous
import AnnotationResolution.Proofs.Assembly.Inherited
import AnnotationResolution.Proofs.Assembly.Interchangeable
import AnnotationResolution.Proofs.Assembly.Merged
import AnnotationResolution.Proofs.Assembly.MetaUses
import AnnotationResolution.Proofs.Assembly.Occurrence
import AnnotationResolution.Proofs.Assembly.Overridden
import AnnotationResolution.Proofs.Assembly.OwnAnnotations
import AnnotationResolution.Proofs.Assembly.Presence
import AnnotationResolution.Proofs.Assembly.Recorded
import AnnotationResolution.Proofs.Assembly.Repeated
import AnnotationResolution.Proofs.Assembly.Reporting
import AnnotationResolution.Proofs.Assembly.Respelled
import AnnotationResolution.Proofs.Assembly.Sharing
import AnnotationResolution.Proofs.Assembly.Specific
import AnnotationResolution.Proofs.Assembly.Stereotypes
import AnnotationResolution.Proofs.Assembly.Validated
import AnnotationResolution.Proofs.Assembly.WrittenOut
import AnnotationResolution.Proofs.Codec.Declaration
import AnnotationResolution.Proofs.Codec.Expr
import AnnotationResolution.Proofs.Codec.Lossless
import AnnotationResolution.Proofs.Codec.Metadata
import AnnotationResolution.Proofs.Codec.WellNamed
import AnnotationResolution.Proofs.CommandLine
import AnnotationResolution.Proofs.Config
import AnnotationResolution.Proofs.Defaults
import AnnotationResolution.Proofs.DepthFirst
import AnnotationResolution.Proofs.DepthFirst.Frontier
import AnnotationResolution.Proofs.DepthFirst.Parts
import AnnotationResolution.Proofs.DepthFirst.Visits
import AnnotationResolution.Proofs.Hierarchy.Agreement
import AnnotationResolution.Proofs.Hierarchy.Ancestors
import AnnotationResolution.Proofs.Hierarchy.Ancestry
import AnnotationResolution.Proofs.Hierarchy.Bounds
import AnnotationResolution.Proofs.Hierarchy.InterfaceClosure
import AnnotationResolution.Proofs.Hierarchy.LevelKinds
import AnnotationResolution.Proofs.Hierarchy.Levels
import AnnotationResolution.Proofs.Hierarchy.Overrides
import AnnotationResolution.Proofs.Hierarchy.Signatures
import AnnotationResolution.Proofs.Hierarchy.Superclasses
import AnnotationResolution.Proofs.Hierarchy.Supertypes
import AnnotationResolution.Proofs.Hierarchy.TypeArguments
import AnnotationResolution.Proofs.Json.Fields
import AnnotationResolution.Proofs.Json.Texts
import AnnotationResolution.Proofs.Json.Tokens
import AnnotationResolution.Proofs.Lists
import AnnotationResolution.Proofs.Members
import AnnotationResolution.Proofs.Members.History
import AnnotationResolution.Proofs.Model.Accepted
import AnnotationResolution.Proofs.Model.Building
import AnnotationResolution.Proofs.Model.Consistent
import AnnotationResolution.Proofs.Model.Growing
import AnnotationResolution.Proofs.Model.Index
import AnnotationResolution.Proofs.Model.Linked
import AnnotationResolution.Proofs.Model.Loading
import AnnotationResolution.Proofs.Model.Mentioned
import AnnotationResolution.Proofs.Reading
import AnnotationResolution.Proofs.Reannotating
import AnnotationResolution.Proofs.Recording
import AnnotationResolution.Proofs.Renumbering
import AnnotationResolution.Proofs.Renumbering.Assembly
import AnnotationResolution.Proofs.Renumbering.Hierarchy
import AnnotationResolution.Proofs.Renumbering.Model
import AnnotationResolution.Proofs.TypeRef
import AnnotationResolution.Proofs.TypeRef.Erasure
import AnnotationResolution.Proofs.Value.Depth
import AnnotationResolution.Proofs.Value.Homogeneous
import AnnotationResolution.Proofs.Value.Inference
import AnnotationResolution.Proofs.Value.ListDepth
import AnnotationResolution.Proofs.Value.Naming
import AnnotationResolution.Proofs.Value.Single
import AnnotationResolution.Proofs.Value.Spelling
import AnnotationResolution.Reading
import AnnotationResolution.Text.Affix
import AnnotationResolution.Text.Blank
import AnnotationResolution.Text.NamePattern
import AnnotationResolution.TypeRef
import AnnotationResolution.Validation
import AnnotationResolution.Value
import AnnotationResolution.Value.Inference
import AnnotationResolution.Value.Raw
