import BillGrammar.Binary64.Arithmetic
import BillGrammar.Binary64.Basic
import BillGrammar.Binary64.Decimal
import BillGrammar.Command.Law
import BillGrammar.Command.Lint
import BillGrammar.Command.Outcome
import BillGrammar.Decimal
import BillGrammar.FileContent
import BillGrammar.Law.Config
import BillGrammar.Law.Expansion
import BillGrammar.Law.Generator
import BillGrammar.Law.Settings
import BillGrammar.Lexicon.Basic
import BillGrammar.Lexicon.Builtin
import BillGrammar.Lexicon.Entry
import BillGrammar.Lexicon.File
import BillGrammar.Lexicon.Table
import BillGrammar.Lint.Reference
import BillGrammar.Lint.Report
import BillGrammar.Main
import BillGrammar.Placeholder.Error
import BillGrammar.Placeholder.Fragment
import BillGrammar.Placeholder.NumberRange
import BillGrammar.Placeholder.Request
import BillGrammar.Proofs.Binary64.Gaps
import BillGrammar.Proofs.Binary64.Nearest
import BillGrammar.Proofs.Binary64.Places
import BillGrammar.Proofs.Binary64.PowerOfTen
import BillGrammar.Proofs.Binary64.Spacing
import BillGrammar.Proofs.Binary64.Steps
import BillGrammar.Proofs.Binary64.Units
import BillGrammar.Proofs.Binary64.Value
import BillGrammar.Proofs.Binary64.Whole
import BillGrammar.Proofs.Command.Agreement
import BillGrammar.Proofs.Command.Arguments
import BillGrammar.Proofs.Command.Outcome
import BillGrammar.Proofs.Command.Printed
import BillGrammar.Proofs.Command.Settings
import BillGrammar.Proofs.Decimal.Written
import BillGrammar.Proofs.Law.Batch
import BillGrammar.Proofs.Law.Budget
import BillGrammar.Proofs.Law.Characters
import BillGrammar.Proofs.Law.Derivation
import BillGrammar.Proofs.Law.Draws
import BillGrammar.Proofs.Law.Exit
import BillGrammar.Proofs.Law.Expansion
import BillGrammar.Proofs.Law.Fixed
import BillGrammar.Proofs.Law.Frame
import BillGrammar.Proofs.Law.Progress
import BillGrammar.Proofs.Law.Settings
import BillGrammar.Proofs.Lexicon.Texts
import BillGrammar.Proofs.Lint.Endless
import BillGrammar.Proofs.Lint.EntryErrors
import BillGrammar.Proofs.Lint.Findings
import BillGrammar.Proofs.Lint.Provenance
import BillGrammar.Proofs.Lint.Reachability
import BillGrammar.Proofs.Lint.Reference
import BillGrammar.Proofs.Lint.Settling
import BillGrammar.Proofs.Lint.Soundness
import BillGrammar.Proofs.Lint.Termination
import BillGrammar.Proofs.Lint.Unreached
import BillGrammar.Proofs.Placeholder.Drawn
import BillGrammar.Proofs.Placeholder.Draws
import BillGrammar.Proofs.Placeholder.Fixed
import BillGrammar.Proofs.Placeholder.Fragment
import BillGrammar.Proofs.Placeholder.NumberText
import BillGrammar.Proofs.Placeholder.Numeral
import BillGrammar.Proofs.Placeholder.Spaced
import BillGrammar.Proofs.Placeholder.StepRange
import BillGrammar.Proofs.Placeholder.WholeRange
import BillGrammar.Proofs.Placeholder.Written
import BillGrammar.Proofs.Ron.Written
import BillGrammar.Proofs.Rounding
import BillGrammar.Proofs.Sampler.Draws
import BillGrammar.Proofs.Sampler.Failure
import BillGrammar.Proofs.Sampler.Yields
import BillGrammar.Proofs.Source.Fixed
import BillGrammar.Proofs.Template.Normal
import BillGrammar.Proofs.Template.Offence
import BillGrammar.Proofs.Template.Scan
import BillGrammar.Proofs.Template.Splice
import BillGrammar.Proofs.Text.Blank
import BillGrammar.Proofs.Text.Field
import BillGrammar.Ron.Decode
import BillGrammar.Ron.Lexeme
import BillGrammar.Ron.Reader
import BillGrammar.Ron.Value
import BillGrammar.Rounding
import BillGrammar.Sampler
import BillGrammar.Source.Fixed
import BillGrammar.Source.Logged
import BillGrammar.Source.Scripted
import BillGrammar.Source.Stream
import BillGrammar.Template
import BillGrammar.Text.Blank
import BillGrammar.Text.Digits
import BillGrammar.Text.Field
