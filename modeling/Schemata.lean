import Schemata.CommandLine
import Schemata.Main
import Schemata.Configuration.Basic
import Schemata.Node.Saved
import Schemata.Json.Document
import Schemata.Json.Format
import Schemata.Session
import Schemata.Instantiation.Run
import Schemata.Operator.Reduction
import Schemata.Instantiation.Call
import Schemata.Comparison
import Schemata.Template.Expansion
import Schemata.Template.Pattern
import Schemata.Reference.Cycle
import Schemata.Reference.Graph
import Schemata.Node.Build
import Schemata.Node.References
import Schemata.Node.Display
import Schemata.Node.Basic
import Schemata.Node.Kind
import Schemata.Fields
import Schemata.Json.Value
import Schemata.Number.Decimal
import Schemata.Text.LetterCase
import Schemata.Text.Quoted
import Schemata.Text.DecimalDigit
import Schemata.Proofs.Node.Parts
import Schemata.Proofs.Reference.Cycle
import Schemata.Proofs.Reference.Walk
import Schemata.Proofs.Reference.Closure
import Schemata.Proofs.Reference.Components
import Schemata.Proofs.Reference.Reachability
import Schemata.Proofs.Instantiation.Plan
import Schemata.Proofs.Operator.Plans
import Schemata.Proofs.Instantiation.Nesting
import Schemata.Proofs.Instantiation.Limits
import Schemata.Proofs.Instantiation.Depth
import Schemata.Proofs.Module.Reading
import Schemata.Proofs.Module.Assembly
import Schemata.Proofs.Node.Names
import Schemata.Proofs.Instantiation.Dangling
import Schemata.Proofs.Comparison.Values
import Schemata.Proofs.Comparison.Soundness
import Schemata.Proofs.Comparison.Renaming
import Schemata.Proofs.Reference.Renaming
import Schemata.Proofs.Instantiation.Naming
import Schemata.Proofs.Operator.Renaming
import Schemata.Proofs.Operator.Reducers
import Schemata.Proofs.Operator.Reduction
import Schemata.Proofs.Instantiation.Renaming
import Schemata.Proofs.Node.Binders
import Schemata.Proofs.Instantiation.Binders
import Schemata.Proofs.Node.Annotations
import Schemata.Proofs.Instantiation.Resolution
import Schemata.Proofs.Instantiation.Budget
import Schemata.Proofs.Instantiation.Retry
import Schemata.Proofs.Instantiation.Expansion
import Schemata.Proofs.Instantiation.Causes
import Schemata.Proofs.Instantiation.Repetition
import Schemata.Proofs.Operator.States
import Schemata.Proofs.Instantiation.Shallower
import Schemata.Proofs.Reference.Chase
import Schemata.Proofs.Instantiation.Agreement
import Schemata.Proofs.Instantiation.Handover
import Schemata.Proofs.Instantiation.Forgetting
import Schemata.Proofs.Instantiation.Deferral
import Schemata.Proofs.Operator.Lists
import Schemata.Proofs.Operator.Causes
import Schemata.Proofs.Instantiation.CallStack
import Schemata.Proofs.Instantiation.Concrete
import Schemata.Proofs.Node.Bundles
import Schemata.Proofs.Operator.Held
import Schemata.Proofs.Operator.Opening
import Schemata.Proofs.Operator.Yields
import Schemata.Proofs.Operator.Progress
import Schemata.Proofs.Node.Expandable
import Schemata.Proofs.Module.Concreteness
import Schemata.Proofs.Instantiation.Region
import Schemata.Proofs.Instantiation.Application
import Schemata.Proofs.Json.Tree
import Schemata.Proofs.Json.Numeral
import Schemata.Proofs.Json.Document
import Schemata.Proofs.Json.Rendering
import Schemata.Proofs.Json.Reading
import Schemata.Proofs.Node.Saved
import Schemata.Proofs.Instantiation.Declaration
import Schemata.Proofs.Comparison.Steps
import Schemata.Proofs.Comparison.Bounds
import Schemata.Proofs.Comparison.Intersection
import Schemata.Proofs.Comparison.Normalization
import Schemata.Proofs.Template.Matching
import Schemata.Proofs.Template.RegularExpression
import Schemata.Proofs.Template.Expansion
import Schemata.Proofs.Operator.Branches
import Schemata.Proofs.Operator.Following
import Schemata.Proofs.Operator.Termination
import Schemata.Proofs.Template.LetterCase
import Schemata.Proofs.Operator.Selection
import Schemata.Proofs.Instantiation.IdentityMapping
import Schemata.Proofs.Instantiation.ConstantMapping
import Schemata.Proofs.Operator.Modifiers
import Schemata.Proofs.Operator.Awaited
import Schemata.Proofs.Instantiation.Substitution
import Schemata.Proofs.Node.Canonical
import Schemata.Proofs.Reference.Groups
import Schemata.Proofs.Instantiation.Dependence
import Schemata.Proofs.Instantiation.ExpansionNames
import Schemata.Proofs.Template.Combinations
import Schemata.Proofs.Operator.KeySpaces
import Schemata.Proofs.Comparison.Reordering
