import BillGrammar.Placeholder.NumberRange
import BillGrammar.Text.Field

namespace BillGrammar

inductive Category
  | predicate
  | number
  | subject
  | establishment
  | object
  | action
  | disease
  | resource
  | problem
  | drug
  deriving DecidableEq

namespace Category

def all : List Category :=
  [.predicate, .number, .subject, .establishment, .object, .action, .disease, .resource, .problem,
    .drug]

def name : Category → String
  | .predicate => "predicate"
  | .number => "number"
  | .subject => "subject"
  | .establishment => "establishment"
  | .object => "object"
  | .action => "action"
  | .disease => "disease"
  | .resource => "resource"
  | .problem => "problem"
  | .drug => "drug"

def parse (text : String) : Except PlaceholderError Category :=
  let name := Text.trim text
  match all.find? (·.name == name) with
  | some c => .ok c
  | none => .error (.unrecognizedCategory name)

end Category

structure Request where
  category : Category
  form : Form
  parameters : List String
  deriving DecidableEq

namespace Request

def parse (alternative : String) : Except PlaceholderError Request := do
  let (main, parameters) := Text.headField ',' alternative
  let (name, tag) := Text.cutAt ':' main
  let category ← Category.parse name
  return ⟨category, (tag.map Form.ofTag).getD .default, parameters⟩

def table? (r : Request) : Option Table :=
  match r.category with
  | .predicate => some .predicates
  | .number => none
  | .subject => some .subjects
  | .establishment => some .establishments
  | .object => some .objects
  | .action => some <| match Actor.ofParameter r.parameters.head? with
    | .person => .personActions
    | .establishment => .establishmentActions
  | .disease => some .diseases
  | .resource => some .resources
  | .problem => some .problems
  | .drug => some .drugs

def range (r : Request) (alternative : String) : Except PlaceholderError NumberRange :=
  (NumberRange.ofParameters r.parameters).mapError (.malformedNumber alternative)

end Request

def alternatives (token : String) : List String := Text.fields '|' token

theorem alternatives_ne_nil (token : String) : alternatives token ≠ [] :=
  Text.fields_ne_nil '|' token

end BillGrammar
