namespace BillGrammar

/-- The bytes of a file, or none if it cannot be read. -/
abbrev FileContent := Option ByteArray

inductive FileFault
  | io
  | ron
  deriving DecidableEq

def FileFault.message : FileFault → String
  | .io => "IO error"
  | .ron => "RON deserialization error"

def FileContent.text (content : FileContent) : Except FileFault String :=
  match content.bind String.fromUTF8? with
  | some text => .ok text
  | none => .error .io

end BillGrammar
