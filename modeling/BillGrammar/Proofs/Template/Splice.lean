import BillGrammar.Proofs.Template.Normal
import BillGrammar.Proofs.Template.Offence

namespace BillGrammar

open Template

namespace Template

/-- Segments followed by others.  Two literals that meet become one. -/
def splice : List Segment → List Segment → List Segment
  | [.literal x], .literal y :: more => .literal (x ++ y) :: more
  | [], more => more
  | s :: segments, more => s :: splice segments more

variable {segments more : List Segment}

theorem splice_cons_cons (s s' : Segment) (segments more : List Segment) :
    splice (s :: s' :: segments) more = s :: splice (s' :: segments) more := by
  simp [splice]

theorem splice_singleton_cases (s : Segment) (more : List Segment) :
    (∃ x y rest, s = .literal x ∧ more = .literal y :: rest ∧
      splice [s] more = .literal (x ++ y) :: rest) ∨
    splice [s] more = s :: more ∧ (s.isLiteral → ∀ s' ∈ more.head?, ¬ s'.isLiteral) := by
  cases s with
  | placeholder token => exact .inr ⟨by simp [splice], by simp [Segment.isLiteral]⟩
  | literal x =>
    cases more with
    | nil => exact .inr ⟨rfl, by simp⟩
    | cons s' rest =>
      cases s' with
      | literal y => exact .inl ⟨x, y, rest, rfl, rfl, rfl⟩
      | placeholder token => exact .inr ⟨rfl, by simp [Segment.isLiteral]⟩

theorem render_splice (segments more : List Segment) :
    render (splice segments more) = render segments ++ render more := by
  induction segments with
  | nil => simp [splice]
  | cons s segments ih =>
    cases segments with
    | nil =>
      rcases splice_singleton_cases s more with ⟨x, y, rest, rfl, rfl, h⟩ | ⟨h, -⟩
      · simp [h, Segment.render, String.append_assoc]
      · simp [h]
    | cons s' segments =>
      rw [splice_cons_cons, render_cons, ih, render_cons s, String.append_assoc]

theorem exists_head?_splice_cons (s : Segment) (segments more : List Segment) :
    ∃ s', (splice (s :: segments) more).head? = some s' ∧ s'.isLiteral = s.isLiteral := by
  cases segments with
  | nil =>
    rcases splice_singleton_cases s more with ⟨x, y, rest, rfl, rfl, h⟩ | ⟨h, -⟩
    · exact ⟨.literal (x ++ y), congrArg List.head? h, rfl⟩
    · exact ⟨s, congrArg List.head? h, rfl⟩
  | cons s' segments => exact ⟨s, congrArg List.head? (splice_cons_cons s s' segments more), rfl⟩

theorem normal_splice (h : Normal segments) (hmore : Normal more) :
    Normal (splice segments more) := by
  induction segments with
  | nil => exact hmore
  | cons s segments ih =>
    obtain ⟨hs, h, hhead⟩ := normal_cons.mp h
    cases segments with
    | nil =>
      rcases splice_singleton_cases s more with ⟨x, y, rest, rfl, rfl, heq⟩ | ⟨heq, hseam⟩
      · obtain ⟨hy, hrest, hhead⟩ := normal_cons.mp hmore
        have hxy : (Segment.literal (x ++ y)).Normal :=
          ⟨by simp [hs.1], plain_append.mpr ⟨hs.2, hy.2⟩⟩
        exact heq ▸ normal_cons.mpr ⟨hxy, hrest, hhead⟩
      · exact heq ▸ normal_cons.mpr ⟨hs, hmore, hseam⟩
    | cons s' segments =>
      rw [splice_cons_cons]
      refine normal_cons.mpr ⟨hs, ih h, fun hlit t ht ht' => hhead hlit s' rfl ?_⟩
      obtain ⟨t', heq, hkind⟩ := exists_head?_splice_cons s' segments more
      cases heq.symm.trans ht
      exact hkind ▸ ht'

end Template

namespace TemplateError

def shift (n : Nat) : TemplateError → TemplateError
  | .unclosed p => .unclosed (n + p)
  | .unmatchedClose p => .unmatchedClose (n + p)
  | .nested p => .nested (n + p)
  | .emptyPlaceholder p => .emptyPlaceholder (n + p)

def isUnclosed : TemplateError → Bool
  | .unclosed _ => true
  | _ => false

end TemplateError

namespace Template

variable {a b : String} {e : TemplateError}

theorem Offence.append_left (ha : Scans a) (h : Offence b e) :
    Offence (a ++ b) (e.shift a.utf8ByteSize) := by
  cases h with
  | unmatchedClose hb =>
    rw [TemplateError.shift, ← String.utf8ByteSize_append]
    simpa only [String.append_assoc] using Offence.unmatchedClose (ha.append hb)
  | emptyPlaceholder hb =>
    rw [TemplateError.shift, ← String.utf8ByteSize_append]
    simpa only [String.append_assoc] using Offence.emptyPlaceholder (ha.append hb)
  | nested hb hx =>
    rw [TemplateError.shift, ← String.utf8ByteSize_append]
    simpa only [String.append_assoc] using Offence.nested (ha.append hb) hx
  | unclosed hb hx =>
    rw [TemplateError.shift, ← String.utf8ByteSize_append]
    simpa only [String.append_assoc] using Offence.unclosed (ha.append hb) hx

theorem Offence.append_right (h : Offence a e) (he : e.isUnclosed = false) (b : String) :
    Offence (a ++ b) e := by
  cases h with
  | unmatchedClose ha =>
    rw [String.append_assoc]
    exact .unmatchedClose ha
  | emptyPlaceholder ha =>
    rw [String.append_assoc]
    exact .emptyPlaceholder ha
  | nested ha hx =>
    rw [String.append_assoc]
    exact .nested ha hx
  | unclosed => cases he

/-- The segments of two texts that scan are spliced.  An offence of the second text is found as far
behind the first as it is in the second, and one of the first stays where it is whatever follows,
unless it is a brace that is not closed there. -/
theorem scan_append (a b : String) :
    (∀ segments more, scan a = .ok segments → scan b = .ok more →
      scan (a ++ b) = .ok (splice segments more)) ∧
    (∀ segments e, scan a = .ok segments → scan b = .error e →
      scan (a ++ b) = .error (e.shift a.utf8ByteSize)) ∧
    ∀ e, scan a = .error e → e.isUnclosed = false → scan (a ++ b) = .error e := by
  refine ⟨fun segments more ha hb => ?_, fun segments e ha hb => ?_, fun e ha he => ?_⟩
  · obtain ⟨hn, rfl⟩ := scan_eq_ok_iff.mp ha
    obtain ⟨hmore, rfl⟩ := scan_eq_ok_iff.mp hb
    exact scan_eq_ok_iff.mpr ⟨normal_splice hn hmore, render_splice segments more⟩
  · exact ((TemplateError.exists_offence_of_scan hb).append_left ⟨segments, ha⟩).scan_eq
  · exact ((TemplateError.exists_offence_of_scan ha).append_right he b).scan_eq

theorem scan_append_accented :
    let a := "ação \x7bx\x7d é"
    scan a = .ok [.literal "ação ", .placeholder "x", .literal " é"] ∧
      scan "só\x7by\x7d" = .ok [.literal "só", .placeholder "y"] ∧
      scan (a ++ "só\x7by\x7d") =
        .ok [.literal "ação ", .placeholder "x", .literal " ésó", .placeholder "y"] ∧
      scan "ó\x7b\x7b" = .error (.nested 3) ∧ scan (a ++ "ó\x7b\x7b") = .error (.nested 16) ∧
      scan "ó\x7d" = .error (.unmatchedClose 2) ∧
      scan ("ó\x7d" ++ a) = .error (.unmatchedClose 2) := by
  intro a
  have ha : scan a = .ok [.literal "ação ", .placeholder "x", .literal " é"] := by decide +kernel
  have hy : scan "só\x7by\x7d" = .ok [.literal "só", .placeholder "y"] := by decide +kernel
  have hnested : scan "ó\x7b\x7b" = .error (.nested 3) := by decide +kernel
  have hclose : scan "ó\x7d" = .error (.unmatchedClose 2) := by decide +kernel
  have hspliced := (scan_append a "só\x7by\x7d").1 _ _ ha hy
  have hshifted := (scan_append a "ó\x7b\x7b").2.1 _ _ ha hnested
  have hkept := (scan_append "ó\x7d" a).2.2 _ hclose rfl
  exact ⟨ha, hy, hspliced, hnested, hshifted, hclose, hkept⟩

end Template

end BillGrammar
