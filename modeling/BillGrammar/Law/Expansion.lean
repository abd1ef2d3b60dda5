import BillGrammar.Placeholder.Fragment
import BillGrammar.Template

namespace BillGrammar

inductive GenerationError
  | placeholder (e : PlaceholderError)
  | template (e : TemplateError)
  | depthExceeded (passes : Nat)
  deriving DecidableEq

def GenerationError.message : GenerationError → String
  | .placeholder e => s!"placeholder error: {e.message}"
  | .template e => s!"template error: {e.message}"
  | .depthExceeded passes => s!"expansion did not settle after {passes} passes"

def defaultPasses : Nat := 64

abbrev Generation := ExceptT GenerationError Sampler

namespace Lexicon

def replace (L : Lexicon) : Segment → ExceptT PlaceholderError Sampler String
  | .literal text => pure text
  | .placeholder token => L.fragment token

def pass (L : Lexicon) (segments : List Segment) : Generation String :=
  String.join <$> (segments.mapM L.replace).adapt .placeholder

/-- Passes over a text, of which `left` remain out of `passes`. -/
def expandWith (L : Lexicon) (passes : Nat) (left : Nat) (text : String) : Generation String :=
  if Template.hasPlaceholders text then do
    let segments ← ExceptT.adapt .template (liftM (Template.scan text))
    match left with
    | 0 => throw (.depthExceeded passes)
    | left + 1 => L.expandWith passes left (← L.pass segments)
  else pure text

def expand (L : Lexicon) (passes : Nat) (text : String) : Generation String :=
  L.expandWith passes passes text

def law (L : Lexicon) (passes : Nat) : Generation String := do
  let skeleton ← ExceptT.adapt .placeholder (Table.skeletons.pick (L.entries .skeletons))
  L.expand passes skeleton

def laws (L : Lexicon) (passes count : Nat) : Generation (List String) :=
  (List.replicate count ()).mapM fun _ => L.law passes

end Lexicon

end BillGrammar
