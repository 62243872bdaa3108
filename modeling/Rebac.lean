import Rebac.CommandLine.Reading
import Rebac.CommandLine.Request
import Rebac.Compile
import Rebac.Decimal.Shortest
import Rebac.FileSet
import Rebac.Json.Fault
import Rebac.Json.Reader
import Rebac.Json.Scalar
import Rebac.Json.Skip
import Rebac.Json.Value
import Rebac.Language.Grammar
import Rebac.Language.Parser
import Rebac.Language.Reading
import Rebac.Language.Report
import Rebac.Language.Trace
import Rebac.Language.Trivia
import Rebac.Main
import Rebac.Program
import Rebac.Proofs.Agreement
import Rebac.Proofs.AllowedRecursion
import Rebac.Proofs.Attribution
import Rebac.Proofs.Classification
import Rebac.Proofs.Compilable
import Rebac.Proofs.Cycles
import Rebac.Proofs.DanglingNames
import Rebac.Proofs.EarlyChecks
import Rebac.Proofs.Emission
import Rebac.Proofs.Enumeration
import Rebac.Proofs.Failures
import Rebac.Proofs.Following
import Rebac.Proofs.Grants
import Rebac.Proofs.JsonReaders
import Rebac.Proofs.JsonRecords
import Rebac.Proofs.JsonRules
import Rebac.Proofs.JsonSkipping
import Rebac.Proofs.JsonStrings
import Rebac.Proofs.JsonTexts
import Rebac.Proofs.JsonValues
import Rebac.Proofs.Layout
import Rebac.Proofs.Listing
import Rebac.Proofs.LogReading
import Rebac.Proofs.Loops
import Rebac.Proofs.Meaning
import Rebac.Proofs.Origins
import Rebac.Proofs.Parsing
import Rebac.Proofs.ReachableRules
import Rebac.Proofs.Readings
import Rebac.Proofs.References
import Rebac.Proofs.Regrouping
import Rebac.Proofs.Rendering
import Rebac.Proofs.Reordering
import Rebac.Proofs.ResolverStates
import Rebac.Proofs.RestrictionRows
import Rebac.Proofs.Rewriting
import Rebac.Proofs.Search
import Rebac.Proofs.SelfContained
import Rebac.Proofs.SqlReading
import Rebac.Proofs.SynthesizedNames
import Rebac.Proofs.Termination
import Rebac.Proofs.Translation
import Rebac.Proofs.Traversal
import Rebac.Proofs.Walking
import Rebac.Proofs.WarmResolver
import Rebac.Proofs.WireForms
import Rebac.Proofs.WireSchemas
import Rebac.Proofs.WireTexts
import Rebac.Resolution.Error
import Rebac.Resolution.Resolver
import Rebac.Resolution.Step
import Rebac.Rule
import Rebac.Rule.Render
import Rebac.Rule.Sql
import Rebac.Schema
import Rebac.Settings
import Rebac.Text.Digit
import Rebac.Text.Quoted
import Rebac.Text.Unprintable
import Rebac.Toml.Document
import Rebac.Toml.Moment
import Rebac.Toml.Number
import Rebac.Toml.Table
import Rebac.Toml.Text
import Rebac.Validation
import Rebac.Wire.Document
import Rebac.Wire.Reading
