import BillGrammar.Text.Field
import Mathlib.Data.List.TakeWhile

namespace BillGrammar.Text

theorem splitOn_cons (sep c : Char) (cs : List Char) :
    (c :: cs).splitOn sep =
      if c = sep then [] :: cs.splitOn sep else (cs.splitOn sep).modifyHead (c :: ·) := by
  simp [List.splitOn_eq_splitOnP, List.splitOnP_cons_eq_if_modifyHead]

theorem not_mem_of_mem_splitOn {sep : Char} {cs ds : List Char} (h : ds ∈ cs.splitOn sep) :
    sep ∉ ds := by
  induction cs generalizing ds with
  | nil =>
    have hds : ds = [] := by simpa using h
    simp [hds]
  | cons c cs ih =>
    rw [splitOn_cons] at h
    obtain ⟨f, fs, hf⟩ := List.exists_cons_of_ne_nil (List.splitOn_ne_nil sep cs)
    rw [hf] at h ih
    split at h
    · rcases List.mem_cons.mp h with rfl | h
      · exact List.not_mem_nil
      · exact ih h
    case isFalse hc =>
      rcases List.mem_cons.mp h with rfl | h
      · rw [List.mem_cons, not_or]
        exact ⟨fun heq => hc heq.symm, ih List.mem_cons_self⟩
      · exact ih (List.mem_cons_of_mem f h)

theorem not_mem_of_mem_fields (h : f ∈ fields sep s) : sep ∉ f.toList := by
  obtain ⟨cs, hcs, rfl⟩ := List.mem_map.mp h
  simpa using not_mem_of_mem_splitOn hcs

theorem intercalate_fields (sep : Char) (s : String) :
    String.intercalate (String.singleton sep) (fields sep s) = s := by
  apply String.toList_injective
  simp [String.toList_intercalate, fields, Function.comp_def, List.intercalate_splitOn]

theorem fields_eq_headField (sep : Char) (s : String) :
    fields sep s = (headField sep s).1 :: (headField sep s).2 := by
  unfold headField
  split
  case h_1 h => exact absurd h (fields_ne_nil sep s)
  case h_2 h => exact h

theorem fields_of_mem_fields (h : f ∈ fields sep s) : fields sep f = [f] := by
  obtain ⟨cs, hcs, rfl⟩ := List.mem_map.mp h
  simp [fields, List.splitOn_eq_singleton (not_mem_of_mem_splitOn hcs)]

theorem fields_intercalate {fs : List String} (hne : fs ≠ []) (h : ∀ f ∈ fs, sep ∉ f.toList) :
    fields sep (String.intercalate (String.singleton sep) fs) = fs := by
  have hsplit : ([sep].intercalate (fs.map String.toList)).splitOn sep = fs.map String.toList :=
    List.splitOn_intercalate sep (by simpa using h) (by simpa using hne)
  simp [fields, hsplit, Function.comp_def]

theorem not_mem_intercalate {fs : List String} (hsep : c ∉ sep.toList)
    (h : ∀ f ∈ fs, c ∉ f.toList) : c ∉ (String.intercalate sep fs).toList := by
  induction fs with
  | nil => simp
  | cons f fs ih =>
    obtain ⟨hf, h⟩ := List.forall_mem_cons.mp h
    cases fs with
    | nil => simpa using hf
    | cons g fs =>
      rw [String.intercalate_cons_cons]
      simp only [String.toList_append, List.mem_append, not_or]
      exact ⟨⟨hf, hsep⟩, ih h⟩

theorem mem_intercalate {fs : List String} (hf : f ∈ fs) (hc : c ∈ f.toList) :
    c ∈ (String.intercalate sep fs).toList := by
  induction fs with
  | nil => cases hf
  | cons g fs ih =>
    cases fs with
    | nil =>
      obtain rfl : f = g := by simpa using hf
      simpa using hc
    | cons k fs =>
      rw [String.intercalate_cons_cons]
      simp only [String.toList_append, List.mem_append]
      rcases List.mem_cons.mp hf with rfl | hf
      · exact .inl (.inl hc)
      · exact .inr (ih hf)

theorem mem_of_mem_fields (h : f ∈ fields sep s) (hc : c ∈ f.toList) : c ∈ s.toList := by
  rw [← intercalate_fields sep s]
  exact mem_intercalate h hc

theorem cutAt_append (h : sep ∉ a.toList) (b : String) :
    cutAt sep (a ++ String.singleton sep ++ b) = (a, some b) := by
  have hs : ∀ c ∈ a.toList, c != sep := fun c hc => bne_iff_ne.mpr fun heq => h (heq ▸ hc)
  simp [cutAt, List.takeWhile_append_of_pos hs, List.dropWhile_append_of_pos hs]

theorem eq_of_cutAt (h : cutAt sep s = (a, b)) :
    sep ∉ a.toList ∧ s = b.elim a (a ++ String.singleton sep ++ ·) := by
  have htake : sep ∉ s.toList.takeWhile (· != sep) := fun hc => by
    simpa using List.mem_takeWhile_imp hc
  have hjoin := List.takeWhile_append_dropWhile (p := (· != sep)) (l := s.toList)
  simp only [cutAt] at h
  split at h <;> cases h
  case h_1 hrest =>
    refine ⟨by simpa using htake, ?_⟩
    rw [hrest, List.append_nil] at hjoin
    apply String.toList_injective
    simpa using hjoin.symm
  case h_2 d after hrest =>
    have hd : d = sep := by
      have hhead := List.head?_dropWhile_not (· != sep) s.toList
      simpa [hrest] using hhead
    refine ⟨by simpa using htake, ?_⟩
    apply String.toList_injective
    rw [hrest, hd] at hjoin
    simpa using hjoin.symm

theorem cutAt_of_not_mem (h : sep ∉ s.toList) : cutAt sep s = (s, none) := by
  have hs : ∀ c ∈ s.toList, c != sep := fun c hc => bne_iff_ne.mpr fun heq => h (heq ▸ hc)
  simp [cutAt, List.takeWhile_eq_self_iff.mpr hs, List.dropWhile_eq_nil_iff.mpr hs]

end BillGrammar.Text
