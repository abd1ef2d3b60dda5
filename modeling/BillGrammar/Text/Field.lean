namespace BillGrammar.Text

def fields (sep : Char) (s : String) : List String :=
  (s.toList.splitOn sep).map String.ofList

theorem fields_ne_nil (sep : Char) (s : String) : fields sep s ≠ [] := by
  simp [fields, List.splitOn_ne_nil]

def headField (sep : Char) (s : String) : String × List String :=
  match fields sep s with
  | [] => ("", [])
  | f :: fs => (f, fs)

def cutAt (sep : Char) (s : String) : String × Option String :=
  let cs := s.toList
  let before := String.ofList (cs.takeWhile (· != sep))
  match cs.dropWhile (· != sep) with
  | [] => (before, none)
  | _ :: after => (before, some (String.ofList after))

end BillGrammar.Text
