import BillGrammar.FileContent
import BillGrammar.Law.Expansion
import BillGrammar.Ron.Decode

namespace BillGrammar

structure Config where
  passes : Nat := defaultPasses
  seed : Option UInt64 := none
  deriving DecidableEq

namespace Config

open Ron

def ofDocument? (d : Document) : Option Config := do
  let fields ← d.value.fields? "GeneratorConfig"
  let implicit := d.extensions.contains .implicitSome
  let passes ← optionalField fields "max_passes" .word64
  let seed ← optionalField fields "seed" (.option implicit .word64)
  return { passes := passes.getD defaultPasses, seed := (seed.bind id).map UInt64.ofNat }

def parse (text : String) : Except FileFault Config :=
  match (Document.read? text).bind ofDocument? with
  | some c => .ok c
  | none => .error .ron

def ofFile (content : FileContent) : Except FileFault Config := content.text.bind parse

end Config

end BillGrammar
