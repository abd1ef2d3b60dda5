import BillGrammar.Command.Outcome
import BillGrammar.Lexicon.File
import BillGrammar.Lint.Report

namespace BillGrammar.LintCommand

def usage : String := "Usage: lexicon_linter [<override.ron>]"

def reportLines (r : LintReport) : List String :=
  ["", "=== Lexicon Lint Report ===", ""]
    ++ (if r.errors.isEmpty && r.warnings.isEmpty then ["All checks passed!"] else [])
    ++ r.warnings.map (fun w => s!"WARNING: {w.message}")
    ++ r.errors.map (fun e => s!"ERROR: {e.message}")
    ++ ["", s!"Summary: {r.errors.length} errors, {r.warnings.length} warnings"]

def report (heading : String) (L : Lexicon) : CommandOutcome :=
  let r := L.lint
  { code := if r.isClean then 0 else 1
    stdout := String.join ((heading :: reportLines r).map (· ++ "\n"))
    stderr := "" }

def run (arguments : List String) (files : Files) : CommandOutcome :=
  match arguments with
  | [] => report "Linting the built-in lexicon" .builtin
  | path :: _ =>
    if path = "--help" ∨ path = "-h" then .success (usage ++ "\n")
    else match Override.ofFile (files path) with
      | .ok o =>
        let names := String.intercalate ", " (o.tables.map Table.name)
        report s!"Loaded override for tables: {names}" (.ofOverride o)
      | .error f => .failure s!"ERROR: Failed to load lexicon file: {f.message}\n"

end BillGrammar.LintCommand
