import Reshape.Document.FileTree
import Reshape.Main
import Reshape.Proofs.Evaluation.ForeachMap
import Reshape.Proofs.Evaluation.Strict
import Reshape.Proofs.Expression.Grammar
import Reshape.Proofs.Expression.LeftOperand
import Reshape.Proofs.Expression.Rendering
import Reshape.Proofs.Template.Constant
import Reshape.Proofs.Binary64.Finite
import Reshape.Proofs.Evaluation.MapFusion
import Reshape.Proofs.Evaluation.Renaming
import Reshape.Proofs.Json.WellFormed
import Reshape.Proofs.Evaluation.WellFormed
import Reshape.Proofs.Template.FirstFault
import Reshape.Proofs.CommandLine.Stages
import Reshape.Proofs.Template.Navigation
import Reshape.Proofs.Value.Integers
import Reshape.Proofs.Evaluation.Sorting
import Reshape.Proofs.Evaluation.NumericKey
import Reshape.Proofs.Value.Contents
import Reshape.Proofs.Json.Embedded
import Reshape.Proofs.Json.RoundTrip
import Reshape.Proofs.Expression.Group
import Reshape.Proofs.Expression.Origin
import Reshape.Proofs.Expression.FaultIndex
import Reshape.Proofs.Expression.WrittenOut
import Reshape.Proofs.Expression.Legible
import Reshape.Proofs.Expression.Nesting
import Reshape.Proofs.Template.ComputedIndex
import Reshape.Proofs.Value.Spread
import Reshape.Proofs.Value.Search
import Reshape.Proofs.Value.NumberForm
import Reshape.Proofs.Value.Ties
import Reshape.Proofs.Evaluation.Object
import Reshape.Proofs.Template.Placement
import Reshape.Proofs.Template.Sequence
import Reshape.Proofs.Yaml.Embedding
import Reshape.Proofs.Yaml.CompoundKey
import Reshape.Proofs.Json.BareText
import Reshape.Proofs.Yaml.LoneScalar
import Reshape.Proofs.Yaml.JsonScalar
import Reshape.Proofs.CommandLine.StandardInput
