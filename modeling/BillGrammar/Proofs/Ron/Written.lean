import BillGrammar.Lexicon.File

namespace BillGrammar

theorem FileContent.text_toUTF8 (text : String) :
    FileContent.text (some text.toUTF8) = .ok text := by
  have h : String.fromUTF8? text.toUTF8 = some text := by
    rw [String.toUTF8_eq_toByteArray, String.fromUTF8?, dif_pos text.isValidUTF8]
    rfl
  simp only [FileContent.text, Option.bind_some, h]

namespace Ron

def Document.ofChars? (cs : List Char) : Option Document := do
  let room := cs.length + 1
  let (extensions, cs) ← attributes room cs
  let (v, cs) ← valueTo room (extensions.contains .implicitSome) maxDepth cs
  let rest ← skipGap .plain cs
  guard rest.isEmpty
  return ⟨extensions, v⟩

theorem Document.read?_ofList (cs : List Char) : read? (.ofList cs) = ofChars? cs := by
  rw [read?, String.toList_ofList]
  rfl

end Ron

open Ron

theorem Override.ofFile_toUTF8 (cs : List Char) :
    ofFile (some (String.ofList cs).toUTF8) =
      match (Document.ofChars? cs).bind ofDocument? with
      | some o => .ok o
      | none => .error .ron := by
  rw [ofFile, FileContent.text_toUTF8, ← Document.read?_ofList]
  rfl

theorem Override.exists_ofFile_eq_ok {content : FileContent} (p : Override → Bool)
    (hcontent : content = some (String.ofList cs).toUTF8)
    (h : ((Document.ofChars? cs).bind ofDocument?).any p) : ∃ o, ofFile content = .ok o ∧ p o := by
  obtain ⟨o, ho, hp⟩ := (Option.any_eq_true ..).mp h
  exact ⟨o, by rw [hcontent, ofFile_toUTF8, ho], hp⟩

end BillGrammar
