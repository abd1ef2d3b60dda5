import BillGrammar.Placeholder.NumberRange
import BillGrammar.Proofs.Decimal.Written
import BillGrammar.Proofs.Template.Scan

namespace BillGrammar

open Template

namespace Decimal

theorem mem_magnitude (d : Decimal) (h : c ∈ d.magnitude) : c.isDigit ∨ c = '.' := by
  unfold magnitude at h
  split at h
  · exact .inl (Nat.isDigit_of_mem_toDigits (by decide) (by decide) h)
  · rcases List.mem_append.mp h with h | h
    · exact .inl (Nat.isDigit_of_mem_toDigits (by decide) (by decide) h)
    · rcases List.mem_cons.mp h with h | h
      · exact .inr h
      · exact .inl (Text.isDigit_of_mem_padded h)

theorem mem_render (d : Decimal) (h : c ∈ d.render.toList) : c.isDigit ∨ c = '.' ∨ c = '-' := by
  rw [render, String.toList_ofList] at h
  split at h
  · rcases List.mem_cons.mp h with h | h
    · exact .inr (.inr h)
    · exact (d.mem_magnitude h).imp_right .inl
  · exact (d.mem_magnitude h).imp_right .inl

theorem plain_render (d : Decimal) : Plain d.render := by
  intro c hc
  rcases d.mem_render hc with h | rfl | rfl
  · constructor <;> rintro rfl <;> simp at h
  · decide
  · decide

end Decimal

theorem Binary64.plain_renderPlaces (places : Nat) (x : Binary64) :
    Plain (x.renderPlaces places) := by
  cases x with
  | nan => simp [Plain, renderPlaces]
  | infinite s => cases s <;> simp [Plain, renderPlaces]
  | finite s k => exact (toPlaces places s k).plain_render

theorem NumberRange.plain_render (r : NumberRange) (u : Binary64) : Plain (r.render u) :=
  Binary64.plain_renderPlaces _ _

end BillGrammar
