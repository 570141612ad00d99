import JavaLint.Main
import JavaLint.Proofs.Analysis.Independence
import JavaLint.Proofs.Analysis.Runs
import JavaLint.Proofs.Analysis.Totality
import JavaLint.Proofs.Report.Agreement
import JavaLint.Proofs.Report.Failures
import JavaLint.Proofs.Report.Thresholds
import JavaLint.Proofs.Results.Finality
import JavaLint.Proofs.Results.Listing
import JavaLint.Proofs.Results.SortedRuns
import JavaLint.Proofs.Rule.BooleanExits
import JavaLint.Proofs.Rule.FinallyExits
import JavaLint.Proofs.Suppression.Ancestry
import JavaLint.Proofs.Text.Trimming
import JavaLint.Proofs.Wildcard.Meaning
import JavaLint.Proofs.Rule.FileFilters
import JavaLint.Proofs.Text.LineEnds
import JavaLint.Proofs.Config.Assignments
import JavaLint.Proofs.Rule.Snippets
import JavaLint.Proofs.Config.Overrides
import JavaLint.Proofs.Config.Building
import JavaLint.Proofs.Text.Words
import JavaLint.Proofs.Rule.RepeatedImports
import JavaLint.Proofs.Rule.ImportSpacing
import JavaLint.Proofs.Analysis.Suppressions
import JavaLint.Proofs.Files.Directories
import JavaLint.Proofs.Files.Sources
import JavaLint.Proofs.Config.Effects
import JavaLint.Proofs.Report.Severity
import JavaLint.Proofs.Report.Index
import JavaLint.Proofs.Report.AcceptedRules
import JavaLint.Proofs.Syntax.Conversion
import JavaLint.Proofs.Syntax.Faults
import JavaLint.Proofs.Report.SourceLines
import JavaLint.Proofs.Config.Tables
import JavaLint.Proofs.Syntax.DocumentOrder
import JavaLint.Proofs.Rule.Dispatch
import JavaLint.Proofs.Results.Totals
import JavaLint.Proofs.Rule.Parentheses
