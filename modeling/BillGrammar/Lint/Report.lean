import BillGrammar.Lint.Reference

namespace BillGrammar

inductive TextFault
  | template (e : TemplateError)
  | placeholder (e : PlaceholderError)
  deriving DecidableEq

def TextFault.message : TextFault → String
  | .template e => e.message
  | .placeholder e => e.message

inductive LintError
  | entry (table : Table) (text : String) (fault : TextFault)
  | empty (table : Table)
  | endless (table : Table)
  deriving DecidableEq

def LintError.message : LintError → String
  | .entry t text fault => s!"Table '{t.name}' entry '{text}': {fault.message}"
  | .empty t => s!"Table '{t.name}' is referenced but empty"
  | .endless t => s!"Table '{t.name}' has no non-recursive entry (infinite expansion)"

def recommendedSize : Nat := 3

inductive LintWarning
  | unreached (table : Table)
  | small (table : Table) (size : Nat)
  | recursive (table : Table)
  deriving DecidableEq

def LintWarning.message : LintWarning → String
  | .unreached t => s!"Table '{t.name}' is never reached from the skeletons"
  | .small t n => s!"Table '{t.name}' has only {n} entries (minimum {recommendedSize} recommended)"
  | .recursive t =>
    s!"Table '{t.name}' can expand back into itself; termination is probabilistic"

structure LintReport where
  errors : List LintError
  warnings : List LintWarning
  deriving DecidableEq

def LintReport.isClean (r : LintReport) : Bool := r.errors.isEmpty

/-- Why an alternative can never be replaced, whatever the lexicon. -/
def alternativeFault? (alternative : String) : Option PlaceholderError :=
  match Request.parse alternative with
  | .error e => some e
  | .ok request =>
    if request.category = .number then
      match request.range alternative with
      | .error e => some e
      | .ok _ => none
    else none

def textFaults (text : String) : List TextFault :=
  match Template.alternatives text with
  | .error e => [.template e]
  | .ok as => (as.filterMap alternativeFault?).map .placeholder

namespace Lexicon

def entryErrors (L : Lexicon) (t : Table) : List LintError :=
  (L.texts t).flatMap fun text => (textFaults text).map (.entry t text)

def isEndless (L : Lexicon) (t : Table) : Bool :=
  let texts := L.texts t
  !texts.isEmpty && texts.all fun text => (Template.tables text).contains t

def sizeWarning? (L : Lexicon) (t : Table) : Option LintWarning :=
  let n := L.size t
  if 0 < n ∧ n < recommendedSize then some (.small t n) else none

/-- Entries are checked in all tables, everything else in those reached from the skeletons. -/
def lint (L : Lexicon) : LintReport :=
  let graph := L.referenceGraph
  let reached := graph.reachedFrom .skeletons
  let endless := reached.filter L.isEndless
  { errors :=
      Table.all.flatMap L.entryErrors
        ++ (reached.filter (L.size · == 0)).map .empty
        ++ endless.map .endless
    warnings :=
      (Table.all.filterMap fun t =>
        if reached.contains t then L.sizeWarning? t else some (.unreached t))
        ++ (reached.filter fun t => !endless.contains t && graph.isRecursive t).map .recursive }

end Lexicon

end BillGrammar
