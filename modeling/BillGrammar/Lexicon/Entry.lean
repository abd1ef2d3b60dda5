import BillGrammar.Text.Blank

namespace BillGrammar

inductive Gender
  | masculine
  | feminine
  | either
  deriving DecidableEq

structure Noun where
  singular : String
  plural : String
  gender : Gender
  deriving DecidableEq

structure ArticledNoun extends Noun where
  article : String
  deriving DecidableEq

structure Action where
  infinitive : String
  thirdPerson : String
  plural : String
  deriving DecidableEq

inductive Form
  | default
  | singular
  | plural
  | infinitive
  | thirdPerson
  deriving DecidableEq

def Form.ofTag (tag : String) : Form :=
  match Text.trim tag with
  | "singular" => .singular
  | "plural" => .plural
  | "infinitive" => .infinitive
  | "thirdPerson" => .thirdPerson
  | "third_person" => .thirdPerson
  | _ => .default

def Noun.inflect (noun : Noun) : Form → String
  | .singular => noun.singular
  | .default | .plural | .infinitive | .thirdPerson => noun.plural

def Action.inflect (action : Action) : Form → String
  | .thirdPerson => action.thirdPerson
  | .plural => action.plural
  | .default | .singular | .infinitive => action.infinitive

inductive Actor
  | person
  | establishment
  deriving DecidableEq

def Actor.ofParameter : Option String → Actor
  | some p => if Text.trim p = "person" then .person else .establishment
  | none => .establishment

inductive EntryKind
  | phrase
  | noun
  | articledNoun
  | action
  deriving DecidableEq

namespace EntryKind

abbrev Entry : EntryKind → Type
  | .phrase => String
  | .noun => Noun
  | .articledNoun => ArticledNoun
  | .action => Action

def texts : (k : EntryKind) → k.Entry → List String
  | .phrase, s => [s]
  | .noun, n => [n.singular, n.plural]
  | .articledNoun, n => [n.singular, n.plural]
  | .action, a => [a.infinitive, a.thirdPerson, a.plural]

def inflect (form : Form) : (k : EntryKind) → k.Entry → String
  | .phrase, s => s
  | .noun, n => n.inflect form
  | .articledNoun, n => n.inflect form
  | .action, a => a.inflect form

end EntryKind

end BillGrammar
