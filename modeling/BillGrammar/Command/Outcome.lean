import BillGrammar.FileContent

namespace BillGrammar

structure CommandOutcome where
  code : Nat
  stdout : String
  stderr : String
  deriving DecidableEq

def CommandOutcome.success (stdout : String) : CommandOutcome := ⟨0, stdout, ""⟩

def CommandOutcome.failure (stderr : String) : CommandOutcome := ⟨1, "", stderr⟩

abbrev Files := String → FileContent

end BillGrammar
