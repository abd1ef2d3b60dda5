import BillGrammar.Lexicon.Entry

namespace BillGrammar

inductive Table
  | skeletons
  | predicates
  | subjects
  | objects
  | establishments
  | personActions
  | establishmentActions
  | resources
  | problems
  | diseases
  | drugs
  deriving DecidableEq

namespace Table

/-- The tables in the order of reports. -/
def all : List Table :=
  [.skeletons, .predicates, .subjects, .objects, .establishments, .personActions,
    .establishmentActions, .resources, .problems, .diseases, .drugs]

theorem mem_all (t : Table) : t ∈ all := by cases t <;> decide

def name : Table → String
  | .skeletons => "skeletons"
  | .predicates => "predicates"
  | .subjects => "subjects"
  | .objects => "objects"
  | .establishments => "establishments"
  | .personActions => "person_actions"
  | .establishmentActions => "establishment_actions"
  | .resources => "resources"
  | .problems => "problems"
  | .diseases => "diseases"
  | .drugs => "drugs"

def kind : Table → EntryKind
  | .skeletons | .predicates | .resources | .problems | .diseases | .drugs => .phrase
  | .subjects => .noun
  | .objects | .establishments => .articledNoun
  | .personActions | .establishmentActions => .action

abbrev Entry (t : Table) : Type := t.kind.Entry

end Table

end BillGrammar
