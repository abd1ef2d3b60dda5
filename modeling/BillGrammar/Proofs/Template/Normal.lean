import BillGrammar.Proofs.Template.Scan
import Mathlib.Data.List.Chain

namespace BillGrammar

open Template

namespace Segment

def Normal : Segment → Prop
  | .literal text | .placeholder text => text ≠ "" ∧ Plain text

def isLiteral : Segment → Bool
  | .literal _ => true
  | .placeholder _ => false

theorem Normal.wellFormed {s : Segment} (h : s.Normal) : s.WellFormed := by
  cases s with
  | literal text => exact h.2
  | placeholder token => exact h

end Segment

namespace Template

structure Normal (segments : List Segment) : Prop where
  each : ∀ s ∈ segments, s.Normal
  apart : segments.IsChain fun s s' => ¬ (s.isLiteral ∧ s'.isLiteral)

theorem Normal.wellFormed {segments : List Segment} (h : Normal segments) : WellFormed segments :=
  fun s hs => (h.each s hs).wellFormed

theorem normal_nil : Normal [] := ⟨by simp, .nil⟩

theorem normal_cons {s : Segment} {segments : List Segment} :
    Normal (s :: segments) ↔
      s.Normal ∧ Normal segments ∧ (s.isLiteral → ∀ s' ∈ segments.head?, ¬ s'.isLiteral) := by
  constructor
  · rintro ⟨heach, hapart⟩
    rw [List.forall_mem_cons] at heach
    rw [List.isChain_cons] at hapart
    exact ⟨heach.1, ⟨heach.2, hapart.2⟩, fun hs s' hmem hs' => hapart.1 s' hmem ⟨hs, hs'⟩⟩
  · rintro ⟨hs, ⟨heach, hapart⟩, hhead⟩
    refine ⟨List.forall_mem_cons.mpr ⟨hs, heach⟩, List.isChain_cons.mpr ⟨?_, hapart⟩⟩
    rintro s' hmem ⟨hs, hs'⟩
    exact hhead hs s' hmem hs'

theorem normal_placeholder_cons {segments : List Segment} :
    Normal (.placeholder token :: segments) ↔
      (Segment.placeholder token).Normal ∧ Normal segments := by
  simp [normal_cons, Segment.isLiteral]

/-! Joining literals brings every list into normal form, and leaves normal lists alone. -/

theorem normal_literal_append {segments : List Segment} {pending : List Char}
    (hp : ∀ c ∈ pending, c ≠ '{' ∧ c ≠ '}') (h : Normal segments)
    (hhead : ∀ s ∈ segments.head?, ¬ s.isLiteral) : Normal (literal pending ++ segments) := by
  unfold literal
  split
  · exact h
  · refine normal_cons.mpr ⟨⟨?_, plain_ofList_reverse.mpr hp⟩, h, fun _ => hhead⟩
    simp_all

theorem normal_joinLiterals {segments : List Segment} {pending : List Char}
    (hw : WellFormed segments) (hp : ∀ c ∈ pending, c ≠ '{' ∧ c ≠ '}') :
    Normal (joinLiterals pending segments) := by
  induction segments generalizing pending with
  | nil => simpa [joinLiterals] using normal_literal_append hp normal_nil (by simp)
  | cons s segments ih =>
    rw [wellFormed_cons] at hw
    obtain ⟨hs, hw⟩ := hw
    cases s with
    | literal text =>
      apply ih hw
      simp only [List.mem_append, List.mem_reverse]
      rintro c (hc | hc)
      · exact hs c hc
      · exact hp c hc
    | placeholder token =>
      have h : Normal (.placeholder token :: joinLiterals [] segments) :=
        normal_placeholder_cons.mpr ⟨hs, ih hw (by simp)⟩
      exact normal_literal_append hp h (by simp [Segment.isLiteral])

theorem literal_reverse_toList (h : text ≠ "") :
    literal text.toList.reverse = [.literal text] := by
  simp [literal, h]

theorem Normal.joinLiterals_eq {segments : List Segment} (h : Normal segments) :
    joinLiterals [] segments = segments := by
  induction segments with
  | nil => rfl
  | cons s segments ih =>
    obtain ⟨hs, h, hhead⟩ := normal_cons.mp h
    have ih := ih h
    cases s with
    | placeholder token =>
      rw [joinLiterals, ih]
      rfl
    | literal text =>
      -- The literal is put out at the end, or before the placeholder that follows it.
      cases segments with
      | nil => simp [joinLiterals, literal_reverse_toList hs.1]
      | cons s rest =>
        cases s with
        | literal x => exact absurd rfl (hhead rfl (.literal x) rfl)
        | placeholder token =>
          have hrest : joinLiterals [] rest = rest := by simpa [joinLiterals, literal] using ih
          simp [joinLiterals, literal_reverse_toList hs.1, hrest]

theorem scan_eq_ok_iff {segments : List Segment} :
    scan text = .ok segments ↔ Normal segments ∧ render segments = text := by
  constructor
  · intro h
    obtain ⟨hw, hr⟩ := wellFormed_of_scan h
    rw [← hr, scan_render hw, Except.ok.injEq] at h
    exact ⟨h ▸ normal_joinLiterals hw (by simp), hr⟩
  · rintro ⟨hn, rfl⟩
    rw [scan_render hn.wellFormed, hn.joinLiterals_eq]

theorem Normal.eq_of_render_eq {a b : List Segment} (ha : Normal a) (hb : Normal b)
    (h : render a = render b) : a = b := by
  have hscan := (scan_eq_ok_iff.mpr ⟨ha, h⟩).symm.trans (scan_eq_ok_iff.mpr ⟨hb, rfl⟩)
  exact Except.ok.inj hscan

end Template

end BillGrammar
