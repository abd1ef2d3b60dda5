import BillGrammar.Lexicon.Basic
import BillGrammar.Placeholder.Request
import BillGrammar.Template

namespace BillGrammar

namespace Template

def alternatives (text : String) : Except TemplateError (List String) :=
  (scan text).map fun segments => segments.flatMap fun
    | .literal _ => []
    | .placeholder token => BillGrammar.alternatives token

def tables (text : String) : List Table :=
  match alternatives text with
  | .ok as => as.filterMap fun a => (Request.parse a).toOption.bind Request.table?
  | .error _ => []

end Template

abbrev ReferenceGraph := List (Table × List Table)

namespace ReferenceGraph

def targets (g : ReferenceGraph) (t : Table) : List Table := (g.lookup t).getD []

/-- The unseen tables that can be reached from those pending, at most as many as there are rounds.
Each round takes the first pending table that is unseen. -/
def search (g : ReferenceGraph) : (rounds : Nat) → (unseen pending : List Table) → List Table
  | 0, _, _ => []
  | rounds + 1, unseen, pending =>
    match pending.find? (unseen.contains ·) with
    | none => []
    | some t => t :: g.search rounds (unseen.erase t) (g.targets t ++ pending)

def reachedFrom (g : ReferenceGraph) (t : Table) : List Table :=
  let found := g.search Table.all.length Table.all [t]
  Table.all.filter (found.contains ·)

def isRecursive (g : ReferenceGraph) (t : Table) : Bool :=
  (g.targets t).any fun u => (g.reachedFrom u).contains t

end ReferenceGraph

namespace Lexicon

def references (L : Lexicon) (t : Table) : List Table :=
  let found := (L.texts t).flatMap Template.tables
  Table.all.filter (found.contains ·)

def referenceGraph (L : Lexicon) : ReferenceGraph := Table.all.map fun t => (t, L.references t)

@[simp] theorem targets_referenceGraph (L : Lexicon) (t : Table) :
    L.referenceGraph.targets t = L.references t := by
  cases t <;> rfl

end Lexicon

end BillGrammar
