import BillGrammar.Proofs.Lexicon.Texts
import BillGrammar.Proofs.Placeholder.Fragment
import BillGrammar.Proofs.Source.Fixed
import Mathlib.Algebra.Order.BigOperators.Group.List
import Mathlib.Algebra.Order.Group.Nat

namespace BillGrammar

open Template Sampler

theorem Table.result_pick (s : FixedSource) (t : Table) (entries : List α) :
    s.result (t.pick entries) =
      match entries[s.place entries.length]? with
      | some e => .ok e
      | none => .error (.emptyTable t) := by
  unfold Table.pick
  split
  case isTrue h => simp [h]
  case isFalse h =>
    have hlt := s.place_lt (List.length_pos_iff.mpr h)
    rw [List.getElem?_eq_getElem hlt]
    rfl

theorem Table.mem_tail_all {t : Table} (h : t ≠ .skeletons) : t ∈ all.tail :=
  (List.mem_cons.mp t.mem_all).resolve_left h

namespace Lexicon

variable {L : Lexicon} {s : FixedSource}

def pruned (L : Lexicon) (s : FixedSource) : Lexicon where
  entries t := (L.entries t)[s.place (L.entries t).length]?.toList

theorem result_draw_pruned (t : Table) (form : Form) :
    s.result ((L.pruned s).draw t form) = s.result (L.draw t form) := by
  have hpick : s.result (t.pick ((L.pruned s).entries t)) = s.result (t.pick (L.entries t)) := by
    rw [Table.result_pick, Table.result_pick, pruned, FixedSource.getElem?_place_toList]
  simp only [draw, ← bind_pure_comp, FixedSource.result_bind, hpick]

theorem result_fragment_pruned (token : String) :
    s.result ((L.pruned s).fragment token) = s.result (L.fragment token) := by
  have hfulfil (a : String) : s.result ((L.pruned s).fulfil a) = s.result (L.fulfil a) := by
    rw [fulfil, fulfil, FixedSource.result_bind, FixedSource.result_bind]
    congr 1
    funext r
    cases r.table? with
    | some t => exact result_draw_pruned t r.form
    | none => rfl
  simp only [fragment, FixedSource.result_bind, hfulfil]

/-- The fragments that the source can draw, in all of their forms.  Skeletons are never referred
to. -/
def fixedTexts (L : Lexicon) (s : FixedSource) : List String :=
  Table.all.tail.flatMap (L.pruned s).texts

theorem mem_fixedTexts_of_result (h : s.result (L.fragment token) = .ok f) :
    Plain f ∨ f ∈ L.fixedTexts s := by
  rw [← result_fragment_pruned] at h
  obtain ⟨a, -, h⟩ := yields_fragment.mp (FixedSource.yields_of_result h)
  cases h with
  | number => exact .inl (NumberRange.plain_render _ _)
  | @entry r t e hr ht he =>
    refine .inr (List.mem_flatMap.mpr ⟨t, Table.mem_tail_all ?_, inflect_mem_texts he r.form⟩)
    rintro rfl
    exact r.table?_ne_skeletons ht

theorem length_texts_pruned_le (t : Table) : ((L.pruned s).texts t).length ≤ t.kind.forms := by
  have hsize : (L.pruned s).size t ≤ 1 := by
    rw [size, pruned]
    exact Option.length_toList_le
  rw [length_texts]
  exact (Nat.mul_le_mul_right _ hsize).trans_eq (Nat.one_mul _)

theorem length_fixedTexts : (L.fixedTexts s).length ≤ 17 := by
  rw [fixedTexts, List.length_flatMap]
  calc (Table.all.tail.map fun t => ((L.pruned s).texts t).length).sum
      ≤ (Table.all.tail.map fun t => t.kind.forms).sum :=
        List.sum_le_sum fun t _ => length_texts_pruned_le t
    _ = 17 := rfl

end Lexicon

end BillGrammar
