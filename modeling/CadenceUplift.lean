import CadenceUplift.Cancellation
import CadenceUplift.CommandLine.Arguments
import CadenceUplift.CommandLine.Clock
import CadenceUplift.CommandLine.Run
import CadenceUplift.Data.Calendar
import CadenceUplift.Data.Json
import CadenceUplift.Data.Lookup
import CadenceUplift.Data.Value
import CadenceUplift.Data.Yaml.Cursor
import CadenceUplift.Data.Yaml.Document
import CadenceUplift.Data.Yaml.Fault
import CadenceUplift.Data.Yaml.Meaning
import CadenceUplift.Data.Yaml.Node
import CadenceUplift.Data.Yaml.Scalar
import CadenceUplift.Data.Yaml.Tag
import CadenceUplift.Data.Yaml.Token
import CadenceUplift.Diagnostic.Basic
import CadenceUplift.Diagnostic.Bracket
import CadenceUplift.Diagnostic.Event
import CadenceUplift.Diagnostic.EventType
import CadenceUplift.Diagnostic.Function
import CadenceUplift.Diagnostic.Report
import CadenceUplift.Diagnostic.Statement
import CadenceUplift.Diagnostic.Structure
import CadenceUplift.Diagnostic.Style
import CadenceUplift.File.Access
import CadenceUplift.File.Path
import CadenceUplift.File.Tree
import CadenceUplift.Interactive.Advice
import CadenceUplift.Interactive.Check
import CadenceUplift.Interactive.Confidence
import CadenceUplift.Interactive.Modernize
import CadenceUplift.Legacy.Catalog
import CadenceUplift.Legacy.Finding
import CadenceUplift.Legacy.Shapes
import CadenceUplift.Literal.Blank
import CadenceUplift.Literal.Guess
import CadenceUplift.Literal.Replace
import CadenceUplift.Literal.Span
import CadenceUplift.Main
import CadenceUplift.Migration.Code
import CadenceUplift.Migration.Corpus
import CadenceUplift.Migration.Migrate
import CadenceUplift.Migration.Records
import CadenceUplift.Migration.Report
import CadenceUplift.Migration.Run
import CadenceUplift.Migration.Template
import CadenceUplift.Number.Binary64
import CadenceUplift.Number.Whole
import CadenceUplift.Pattern.Basic
import CadenceUplift.Pattern.Escape
import CadenceUplift.Pattern.Fault
import CadenceUplift.Pattern.Flags
import CadenceUplift.Pattern.Match
import CadenceUplift.Pattern.Parse
import CadenceUplift.Pattern.Template
import CadenceUplift.Pattern.Token
import CadenceUplift.Rule.Basic
import CadenceUplift.Rule.Default
import CadenceUplift.Rule.RuleSet
import CadenceUplift.Scan.Content
import CadenceUplift.Scan.Error
import CadenceUplift.Scan.Plan
import CadenceUplift.Scan.Report
import CadenceUplift.Scan.Result
import CadenceUplift.Scan.Save
import CadenceUplift.Scan.Session
import CadenceUplift.Settings.Basic
import CadenceUplift.Settings.Checked
import CadenceUplift.Settings.Coercion
import CadenceUplift.Settings.Load
import CadenceUplift.Text.Case
import CadenceUplift.Text.CharacterNames
import CadenceUplift.Text.Class
import CadenceUplift.Text.Half
import CadenceUplift.Text.Lines
import CadenceUplift.Text.Name
import CadenceUplift.Text.Quoted
import CadenceUplift.Text.Tables
import CadenceUplift.Text.Utf8
import CadenceUplift.Tool
import CadenceUplift.Uplift
import CadenceUplift.Validation.Legacy
import CadenceUplift.Validation.Verdict
import CadenceUplift.Proofs.Detection.Agreement
import CadenceUplift.Proofs.Uplift.Idempotence
import CadenceUplift.Proofs.Migration.Outcome
import CadenceUplift.Proofs.Migration.RunIntegrity
import CadenceUplift.Proofs.Literal.Exactness
import CadenceUplift.Proofs.Literal.Texts
import CadenceUplift.Proofs.Literal.Viewed
import CadenceUplift.Proofs.Uplift.Redone
import CadenceUplift.Proofs.Uplift.LiteralsKept
import CadenceUplift.Proofs.Diagnostic.Brackets
import CadenceUplift.Proofs.Migration.Stability
import CadenceUplift.Proofs.Uplift.Soundness
import CadenceUplift.Proofs.Scan.ResultOrder
import CadenceUplift.Proofs.Scan.Workers
import CadenceUplift.Proofs.Uplift.Failures
import CadenceUplift.Proofs.Migration.CleanScan
import CadenceUplift.Proofs.Validation.Rejection
import CadenceUplift.Proofs.Scan.Production
import CadenceUplift.Proofs.Interactive.Modernization
import CadenceUplift.Proofs.Lexeme.Stretch
import CadenceUplift.Proofs.Uplift.LineEnds
import CadenceUplift.Proofs.Interactive.Explanations
import CadenceUplift.Proofs.Diagnostic.Marks
import CadenceUplift.Proofs.Migration.RecordOrder
import CadenceUplift.Proofs.Settings.Loading
import CadenceUplift.Proofs.Literal.Positions
import CadenceUplift.Proofs.Diagnostic.Nesting
import CadenceUplift.Proofs.Diagnostic.TypeCheck
import CadenceUplift.Proofs.Uplift.Views
import CadenceUplift.Proofs.Uplift.WholeLists
import CadenceUplift.Proofs.Migration.History
import CadenceUplift.Proofs.Scan.Consistency
import CadenceUplift.Proofs.Diagnostic.ReturnPlace
import CadenceUplift.Proofs.Scan.Location
import CadenceUplift.Proofs.Scan.Selection
import CadenceUplift.Proofs.Scan.Stopping
import CadenceUplift.Proofs.Scan.Csv
import CadenceUplift.Proofs.Literal.LineBreaks
import CadenceUplift.Proofs.Rule.Violations
import CadenceUplift.Proofs.Matching.Overlap
import CadenceUplift.Proofs.Interactive.Replacements
import CadenceUplift.Proofs.Construct.Foretold
import CadenceUplift.Proofs.Construct.Import
import CadenceUplift.Proofs.Construct.Latent
import CadenceUplift.Proofs.Construct.Link
import CadenceUplift.Proofs.Matching.Import
import CadenceUplift.Proofs.Matching.Latent
import CadenceUplift.Proofs.Matching.Places
import CadenceUplift.Proofs.Interactive.Confidence
import CadenceUplift.Proofs.Diagnostic.TopLevel
import CadenceUplift.Proofs.Uplift.NamedPasses
import CadenceUplift.Proofs.CommandLine.InPlace
import CadenceUplift.Proofs.Literal.Search
import CadenceUplift.Proofs.Literal.SingleLine
import CadenceUplift.Proofs.Diagnostic.Parameters
