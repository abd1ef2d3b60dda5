import BillGrammar.Command.Law
import BillGrammar.Command.Lint
import BillGrammar.Source.Stream

namespace BillGrammar

def readContent (path : String) : IO FileContent := do
  try return some (← IO.FS.readBinFile path) catch _ => return none

def readFiles (paths : List String) : IO Files := do
  let contents ← paths.mapM fun path => return (path, ← readContent path)
  return fun path => (contents.lookup path).join

def entropy : IO UInt64 := do
  let bytes ← IO.getRandomBytes 8
  return bytes.foldl (fun n b => n * 256 + b.toUInt64) 0

def report (outcome : CommandOutcome) : IO UInt32 := do
  IO.print outcome.stdout
  IO.eprint outcome.stderr
  return outcome.code.toUInt32

end BillGrammar

open BillGrammar in
def main (arguments : List String) : IO UInt32 := do
  match arguments with
  | "lei" :: arguments =>
    let defaultLexicon ← IO.getEnv "SENADO_LEXICON"
    let paths := match LawCommand.Options.read { lexicon := defaultLexicon } arguments with
      | .ok o => o.config.toList ++ o.lexicon.toList
      | .error _ => []
    let files ← readFiles paths
    let chance ← entropy
    report (LawCommand.run arguments defaultLexicon files fun seed =>
      RandomStream.ofSeed (seed.getD chance))
  | "lexicon_linter" :: arguments =>
    report (LintCommand.run arguments (← readFiles (arguments.take 1)))
  | _ =>
    IO.eprintln LawCommand.usage
    IO.eprintln LintCommand.usage
    return 1
