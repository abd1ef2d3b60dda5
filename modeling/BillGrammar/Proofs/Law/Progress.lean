import BillGrammar.Proofs.Law.Expansion
import BillGrammar.Proofs.Template.Normal

namespace BillGrammar

namespace Lexicon

open Template

theorem exists_pass_eq {segments : List Segment} (h : .placeholder token ∈ segments) :
    ∃ before token after, segments = before ++ .placeholder token :: after ∧
      ∀ L : Lexicon, L.pass segments =
        (L.fragment token).adapt .placeholder >>= fun f =>
          (render before ++ f ++ ·) <$> L.pass after := by
  induction segments with
  | nil => simp at h
  | cons s segments ih =>
    cases s with
    | placeholder first => exact ⟨[], first, segments, rfl, fun L => by simp [pass_placeholder]⟩
    | literal text =>
      obtain ⟨before, first, after, rfl, hpass⟩ := ih (by simpa using h)
      refine ⟨.literal text :: before, first, after, rfl, fun L => ?_⟩
      simp [pass_literal, hpass, Segment.render, String.append_assoc]

end Lexicon

namespace Template

/-- Scanning undoes rendering, and texts without braces are those that scan to no placeholder; so a
pass over any other text that scans replaces one. -/
theorem scan_exact (text : String) :
    (∀ segments, scan text = .ok segments ↔ Normal segments ∧ render segments = text) ∧
    (Scans text ↔ ∃! segments, Normal segments ∧ render segments = text) ∧
    (hasPlaceholders text = false ↔
      ∃ segments, scan text = .ok segments ∧ ∀ token, .placeholder token ∉ segments) ∧
    ∀ segments, scan text = .ok segments → hasPlaceholders text →
      ∃ before token after, segments = before ++ .placeholder token :: after ∧
        ∀ L : Lexicon, L.pass segments =
          (L.fragment token).adapt .placeholder >>= fun f =>
            (render before ++ f ++ ·) <$> L.pass after := by
  have hplain {segments : List Segment} (h : scan text = .ok segments) :
      hasPlaceholders text = false ↔ ∀ token, .placeholder token ∉ segments := by
    obtain ⟨hw, rfl⟩ := wellFormed_of_scan h
    rw [hasPlaceholders_eq_false_iff, plain_render_iff hw]
  refine ⟨fun _ => scan_eq_ok_iff, ⟨?_, ?_⟩, ⟨fun h => ?_, ?_⟩, fun segments hs h => ?_⟩
  · rintro ⟨segments, hs⟩
    have h := scan_eq_ok_iff.mp hs
    exact ⟨segments, h, fun other ⟨hn, hr⟩ => hn.eq_of_render_eq h.1 (hr.trans h.2.symm)⟩
  · rintro ⟨segments, h, -⟩
    exact ⟨segments, scan_eq_ok_iff.mpr h⟩
  · obtain ⟨segments, hs⟩ := (hasPlaceholders_eq_false_iff.mp h).scans
    exact ⟨segments, hs, (hplain hs).mp h⟩
  · rintro ⟨segments, hs, h⟩
    exact (hplain hs).mpr h
  · rw [← Bool.not_eq_false, hplain hs] at h
    push Not at h
    obtain ⟨token, h⟩ := h
    exact Lexicon.exists_pass_eq h

theorem scan_exact_accented :
    let text := "ação \x7bobject\x7d\x7bnumber,1,2\x7d já"
    let segments : List Segment :=
      [.literal "ação ", .placeholder "object", .placeholder "number,1,2", .literal " já"]
    scan text = .ok segments ∧ Normal segments ∧ render segments = text ∧ hasPlaceholders text ∧
      ∃ before token after, segments = before ++ .placeholder token :: after ∧
        ∀ L : Lexicon, L.pass segments =
          (L.fragment token).adapt .placeholder >>= fun f =>
            (render before ++ f ++ ·) <$> L.pass after := by
  intro text segments
  obtain ⟨hscan, -, -, hpass⟩ := scan_exact text
  have hs : scan text = .ok segments := by decide +kernel
  have hp : hasPlaceholders text := by decide +kernel
  obtain ⟨hn, hr⟩ := (hscan segments).mp hs
  exact ⟨hs, hn, hr, hp, hpass segments hs hp⟩

end Template

end BillGrammar
