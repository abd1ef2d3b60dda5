import BillGrammar.FileContent
import BillGrammar.Lexicon.Basic
import BillGrammar.Ron.Decode

namespace BillGrammar

open Ron

def Gender.decode : Decoder Gender
  | .name _ "Masculine" => some .masculine
  | .name _ "Feminine" => some .feminine
  | .name _ "Either" => some .either
  | _ => none

def Noun.ofFields? (fields : List (String × Value)) : Option Noun := do
  return {
    singular := ← requiredField fields "singular" .string
    plural := ← requiredField fields "plural" .string
    gender := ← requiredField fields "gender" Gender.decode }

def EntryKind.decode : (k : EntryKind) → Decoder k.Entry
  | .phrase, v => Decoder.string v
  | .noun, v => do Noun.ofFields? (← v.fields? "Noun")
  | .articledNoun, v => do
    let fields ← v.fields? "ArticledNoun"
    let n ← Noun.ofFields? fields
    return { n with article := ← requiredField fields "article" .string }
  | .action, v => do
    let fields ← v.fields? "Action"
    return {
      infinitive := ← requiredField fields "infinitive" .string
      thirdPerson := ← requiredField fields "third_person" .string
      plural := ← requiredField fields "plural" .string }

namespace Override

def ofDocument? (d : Document) : Option Override := do
  let fields ← d.value.fields? "LexiconOverride"
  let implicit := d.extensions.contains .implicitSome
  Table.all.foldlM (fun o t => do
    let entries ← optionalField fields t.name (.option implicit (.list t.kind.decode))
    return (entries.bind id).elim o (o.set t)) empty

def parse (text : String) : Except FileFault Override :=
  match (Document.read? text).bind ofDocument? with
  | some o => .ok o
  | none => .error .ron

def ofFile (content : FileContent) : Except FileFault Override := content.text.bind parse

end Override

end BillGrammar
