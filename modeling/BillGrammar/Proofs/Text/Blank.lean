import BillGrammar.Text.Blank
import Mathlib.Data.List.TakeWhile

namespace BillGrammar.Text

def Padded (s t : String) : Prop :=
  ∃ before after : String, (∀ c ∈ before.toList, isBlank c) ∧ (∀ c ∈ after.toList, isBlank c) ∧
    t = before ++ s ++ after

theorem Padded.of_all {s t : String} (before after : String) (hbefore : before.toList.all isBlank)
    (hafter : after.toList.all isBlank) (h : t = before ++ s ++ after) : Padded s t :=
  ⟨before, after, List.all_eq_true.mp hbefore, List.all_eq_true.mp hafter, h⟩

theorem Padded.refl (s : String) : Padded s s := .of_all "" "" rfl rfl (by simp)

theorem Padded.not_mem {s t : String} {c : Char} (h : Padded s t) (hblank : ¬ isBlank c)
    (hc : c ∉ s.toList) : c ∉ t.toList := by
  obtain ⟨before, after, hbefore, hafter, rfl⟩ := h
  simp only [String.toList_append, List.mem_append, not_or]
  exact ⟨⟨fun h => hblank (hbefore c h), hc⟩, fun h => hblank (hafter c h)⟩

theorem trimChars_padded {before after : List Char} (hbefore : ∀ c ∈ before, isBlank c)
    (hafter : ∀ c ∈ after, isBlank c) (cs : List Char) :
    trimChars (before ++ cs ++ after) = trimChars cs := by
  unfold trimChars
  rw [List.append_assoc, List.dropWhile_append_of_pos hbefore, List.dropWhile_append]
  split
  case isTrue hcs =>
    rw [List.isEmpty_iff.mp hcs, List.dropWhile_eq_nil_iff.mpr hafter]
  case isFalse =>
    rw [List.reverse_append, List.dropWhile_append_of_pos]
    exact fun c hc => hafter c (List.mem_reverse.mp hc)

theorem Padded.trim_eq {s t : String} (h : Padded s t) : trim t = trim s := by
  obtain ⟨before, after, hbefore, hafter, rfl⟩ := h
  simp only [trim, String.toList_append, trimChars_padded hbefore hafter]

end BillGrammar.Text
