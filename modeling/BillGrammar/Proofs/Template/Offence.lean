import BillGrammar.Proofs.Template.Scan
import Mathlib.Data.List.Induction

/-!
Offences of texts that do not scan.  Before the first one stands a text that scans, and which
offence it is and where depends on what follows.
-/

namespace BillGrammar

open Template

namespace Template

theorem byteLength_eq (cs : List Char) : byteLength cs = (String.ofList cs).utf8ByteSize := by
  induction cs with
  | nil => rfl
  | cons c cs ih =>
    rw [byteLength, ih, String.ofList_cons, String.utf8ByteSize_append,
      String.utf8ByteSize_singleton]

/-- The beginning of a text that does not scan, and its offence. -/
inductive Offence : String → TemplateError → Prop
  | unmatchedClose : Scans a → Offence (a ++ "\x7d" ++ b) (.unmatchedClose a.utf8ByteSize)
  | emptyPlaceholder : Scans a →
      Offence (a ++ "\x7b\x7d" ++ b) (.emptyPlaceholder a.utf8ByteSize)
  | nested : Scans a → Plain x →
      Offence (a ++ "\x7b" ++ x ++ "\x7b" ++ b) (.nested (a ++ "\x7b" ++ x).utf8ByteSize)
  | unclosed : Scans a → Plain x → Offence (a ++ "\x7b" ++ x) (.unclosed a.utf8ByteSize)

theorem scanFrom_placeholder_append (hne : token ≠ "") (h : Plain token) (position : Nat)
    (pending cs : List Char) :
    scanFrom position (.outside pending) ((Segment.placeholder token).render.toList ++ cs) =
      (literal pending ++ .placeholder token :: ·) <$>
        scanFrom (position + (Segment.placeholder token).render.utf8ByteSize) (.outside []) cs := by
  have hcs : (Segment.placeholder token).render.toList ++ cs =
      '{' :: (token.toList ++ '}' :: cs) := by
    simp [Segment.render]
  have hsize : (Segment.placeholder token).render.utf8ByteSize =
      '{'.utf8Size + byteLength token.toList + '}'.utf8Size := by
    simp only [Segment.render, String.utf8ByteSize_append, byteLength_eq, String.ofList_toList]
    rfl
  rw [hcs, scanFrom, if_pos rfl, scanFrom_inside_append h, scanFrom]
  simp only [List.append_nil, Char.reduceEq, ↓reduceIte, List.isEmpty_iff, List.reverse_eq_nil_iff,
    String.toList_eq_nil_iff, hne, List.reverse_reverse, String.ofList_toList, hsize, Nat.add_assoc,
    Functor.map_map]

theorem exists_scanFrom_render {segments : List Segment} (h : WellFormed segments) (position : Nat)
    (pending : List Char) :
    ∃ before pending', ∀ cs,
      scanFrom position (.outside pending) ((render segments).toList ++ cs) =
        (before ++ ·) <$> scanFrom (position + (render segments).utf8ByteSize)
          (.outside pending') cs := by
  induction segments generalizing position pending with
  | nil => exact ⟨[], pending, fun cs => by simp⟩
  | cons s segments ih =>
    obtain ⟨hs, hw⟩ := wellFormed_cons.mp h
    rw [render_cons, String.toList_append, String.utf8ByteSize_append]
    cases s with
    | literal text =>
      obtain ⟨before, pending', hrest⟩ := ih hw (position + byteLength text.toList)
        (text.toList.reverse ++ pending)
      refine ⟨before, pending', fun cs => ?_⟩
      rw [Segment.render, List.append_assoc, scanFrom_outside_append hs, hrest]
      simp only [byteLength_eq, String.ofList_toList, Nat.add_assoc]
    | placeholder token =>
      obtain ⟨before, pending', hrest⟩ := ih hw
        (position + (Segment.placeholder token).render.utf8ByteSize) []
      refine ⟨literal pending ++ .placeholder token :: before, pending', fun cs => ?_⟩
      rw [List.append_assoc, scanFrom_placeholder_append hs.1 hs.2, hrest]
      simp [Nat.add_assoc]

theorem Scans.scan_append_eq_error {a : String} (ha : Scans a)
    (h : ∀ pending, scanFrom a.utf8ByteSize (.outside pending) b.toList = .error e) :
    scan (a ++ b) = .error e := by
  obtain ⟨segments, hw, rfl⟩ := scans_iff.mp ha
  obtain ⟨before, pending, hscan⟩ := exists_scanFrom_render hw 0 []
  rw [scan, String.toList_append, hscan, Nat.zero_add, h]
  rfl

theorem scanFrom_opened (hx : Plain x) (position : Nat) (pending cs : List Char) :
    scanFrom position (.outside pending) (("\x7b" ++ x).toList ++ cs) =
      (literal pending ++ ·) <$>
        scanFrom (position + ("\x7b" ++ x).utf8ByteSize) (.inside position x.toList.reverse) cs := by
  have hcs : ("\x7b" ++ x).toList ++ cs = '{' :: (x.toList ++ cs) := by simp
  have hsize : ("\x7b" ++ x).utf8ByteSize = '{'.utf8Size + byteLength x.toList := by
    simp only [String.utf8ByteSize_append, byteLength_eq, String.ofList_toList]
    rfl
  rw [hcs, scanFrom, if_pos rfl, scanFrom_inside_append hx, hsize, List.append_nil, Nat.add_assoc]

theorem Offence.scan_eq (h : Offence text e) : scan text = .error e := by
  cases h with
  | unmatchedClose ha =>
    rw [String.append_assoc]
    refine ha.scan_append_eq_error fun pending => ?_
    simp [scanFrom]
  | emptyPlaceholder ha =>
    rw [String.append_assoc]
    refine ha.scan_append_eq_error fun pending => ?_
    simp [scanFrom]
  | @nested a x b ha hx =>
    have htext : a ++ "\x7b" ++ x ++ "\x7b" ++ b = a ++ ("\x7b" ++ x ++ ("\x7b" ++ b)) := by
      simp only [String.append_assoc]
    have hsize : (a ++ "\x7b" ++ x).utf8ByteSize = a.utf8ByteSize + ("\x7b" ++ x).utf8ByteSize := by
      rw [String.append_assoc, String.utf8ByteSize_append]
    rw [htext, hsize]
    refine ha.scan_append_eq_error fun pending => ?_
    rw [String.toList_append, scanFrom_opened hx]
    simp [scanFrom]
  | @unclosed a x ha hx =>
    rw [String.append_assoc]
    refine ha.scan_append_eq_error fun pending => ?_
    rw [← List.append_nil ("\x7b" ++ x).toList, scanFrom_opened hx]
    rfl

theorem Scans.push (h : Scans text) (c : Char) :
    Scans (text ++ String.singleton c) ∨ ∃ e, Offence (text ++ String.singleton c) e := by
  by_cases hopen : c = '{'
  · have htext : text ++ String.singleton c = text ++ "\x7b" ++ "" :=
      String.toList_inj.mp (by simp [hopen])
    rw [htext]
    exact .inr ⟨_, .unclosed h (by simp [Plain])⟩
  by_cases hclose : c = '}'
  · have htext : text ++ String.singleton c = text ++ "\x7d" ++ "" :=
      String.toList_inj.mp (by simp [hclose])
    rw [htext]
    exact .inr ⟨_, .unmatchedClose h⟩
  · have hc : Plain (String.singleton c) := by simp [Plain, hopen, hclose]
    exact .inl (h.append hc.scans)

/-- A character behind a text that does not scan leaves the offence as it is, unless it stands in
the placeholder that was left open. -/
theorem Offence.push (h : Offence text e) (c : Char) :
    Scans (text ++ String.singleton c) ∨ ∃ e, Offence (text ++ String.singleton c) e := by
  cases h with
  | unmatchedClose ha =>
    rw [String.append_assoc]
    exact .inr ⟨_, .unmatchedClose ha⟩
  | emptyPlaceholder ha =>
    rw [String.append_assoc]
    exact .inr ⟨_, .emptyPlaceholder ha⟩
  | nested ha hx =>
    rw [String.append_assoc]
    exact .inr ⟨_, .nested ha hx⟩
  | @unclosed a x ha hx =>
    by_cases hopen : c = '{'
    · have htext : a ++ "\x7b" ++ x ++ String.singleton c = a ++ "\x7b" ++ x ++ "\x7b" ++ "" :=
        String.toList_inj.mp (by simp [hopen])
      rw [htext]
      exact .inr ⟨_, .nested ha hx⟩
    by_cases hclose : c = '}'
    · by_cases hempty : x = ""
      · have htext : a ++ "\x7b" ++ x ++ String.singleton c = a ++ "\x7b\x7d" ++ "" :=
          String.toList_inj.mp (by simp [hclose, hempty])
        rw [htext]
        exact .inr ⟨_, .emptyPlaceholder ha⟩
      · have htext : a ++ "\x7b" ++ x ++ String.singleton c = a ++ render [.placeholder x] :=
          String.toList_inj.mp (by simp [hclose, Segment.render])
        have hw : WellFormed [.placeholder x] := by
          simp [WellFormed, Segment.WellFormed, hempty, hx]
        rw [htext]
        exact .inl (ha.append (scans_iff.mpr ⟨_, hw, rfl⟩))
    · rw [String.append_assoc]
      have hc : Plain (String.singleton c) := by simp [Plain, hopen, hclose]
      exact .inr ⟨_, .unclosed ha (plain_append.mpr ⟨hx, hc⟩)⟩

theorem scans_or_exists_offence (text : String) : Scans text ∨ ∃ e, Offence text e := by
  suffices h : ∀ cs, Scans (String.ofList cs) ∨ ∃ e, Offence (String.ofList cs) e by
    simpa using h text.toList
  intro cs
  induction cs using List.reverseRecOn with
  | nil => exact .inl ⟨[], rfl⟩
  | append_singleton cs c ih =>
    rw [String.ofList_append, ← String.singleton_eq_ofList]
    rcases ih with h | ⟨e, h⟩
    · exact h.push c
    · exact h.push c

end Template

namespace TemplateError

def position : TemplateError → Nat
  | .unclosed p | .unmatchedClose p | .nested p | .emptyPlaceholder p => p

/-- What the text is before the byte of the offence, and how it goes on from there. -/
def Describes : TemplateError → String → Prop
  | .unmatchedClose p, t => ∃ a b, t = a ++ "\x7d" ++ b ∧ a.utf8ByteSize = p ∧ Scans a
  | .nested p, t => ∃ a b q, t = a ++ "\x7b" ++ b ∧ a.utf8ByteSize = p ∧ scan a = .error (.unclosed q)
  | .emptyPlaceholder p, t => ∃ a b, t = a ++ "\x7b\x7d" ++ b ∧ a.utf8ByteSize = p ∧ Scans a
  | .unclosed p, t => ∃ a b, t = a ++ "\x7b" ++ b ∧ a.utf8ByteSize = p ∧ Scans a ∧ Plain b

theorem describes_of_offence (h : Offence text e) : e.Describes text := by
  cases h with
  | unmatchedClose ha => exact ⟨_, _, rfl, rfl, ha⟩
  | emptyPlaceholder ha => exact ⟨_, _, rfl, rfl, ha⟩
  | nested ha hx => exact ⟨_, _, _, rfl, rfl, (Offence.unclosed ha hx).scan_eq⟩
  | unclosed ha hx => exact ⟨_, _, rfl, rfl, ha, hx⟩

theorem exists_offence_of_scan (h : scan text = .error e) : Offence text e := by
  rcases scans_or_exists_offence text with ⟨segments, hs⟩ | ⟨e', he⟩
  · cases hs.symm.trans h
  · cases he.scan_eq.symm.trans h
    exact he

theorem offence_of_describes {e : TemplateError} (h : e.Describes text) : Offence text e := by
  cases e with
  | unmatchedClose p =>
    obtain ⟨a, b, rfl, rfl, ha⟩ := h
    exact .unmatchedClose ha
  | emptyPlaceholder p =>
    obtain ⟨a, b, rfl, rfl, ha⟩ := h
    exact .emptyPlaceholder ha
  | nested p =>
    obtain ⟨a, b, q, rfl, rfl, ha⟩ := h
    cases exists_offence_of_scan ha with
    | unclosed hb hx => exact .nested hb hx
  | unclosed p =>
    obtain ⟨a, b, rfl, rfl, ha, hb⟩ := h
    exact .unclosed ha hb

theorem Describes.exists_append {e : TemplateError} (h : e.Describes text) :
    ∃ a b, text = a ++ b ∧ a.utf8ByteSize = e.position ∧ b ≠ "" := by
  cases e with
  | unmatchedClose p =>
    obtain ⟨a, b, rfl, hp, -⟩ := h
    exact ⟨a, _, String.append_assoc, hp, by simp⟩
  | emptyPlaceholder p =>
    obtain ⟨a, b, rfl, hp, -⟩ := h
    exact ⟨a, _, String.append_assoc, hp, by simp⟩
  | nested p =>
    obtain ⟨a, b, q, rfl, hp, -⟩ := h
    exact ⟨a, _, String.append_assoc, hp, by simp⟩
  | unclosed p =>
    obtain ⟨a, b, rfl, hp, -⟩ := h
    exact ⟨a, _, String.append_assoc, hp, by simp⟩

end TemplateError

/-- A text scans unless one of the four offences describes it, and then this is the one reported, at
a character of the text. -/
theorem Template.scan_offence_exact (text : String) :
    (∀ e, scan text = .error e ↔ e.Describes text) ∧
      (Scans text ↔ ∀ e : TemplateError, ¬ e.Describes text) ∧
      ∀ e, scan text = .error e →
        String.Pos.Raw.IsValid text ⟨e.position⟩ ∧ e.position < text.utf8ByteSize := by
  have hiff (e : TemplateError) : scan text = .error e ↔ e.Describes text :=
    ⟨fun h => TemplateError.describes_of_offence (TemplateError.exists_offence_of_scan h),
      fun h => (TemplateError.offence_of_describes h).scan_eq⟩
  refine ⟨hiff, ?_, fun e he => ?_⟩
  · simp only [← hiff]
    cases hs : scan text with
    | ok segments => simp [Scans, hs]
    | error e => simp [Scans, hs]
  · obtain ⟨a, b, rfl, hp, hb⟩ := ((hiff e).mp he).exists_append
    refine ⟨String.Pos.Raw.isValid_iff_exists_append.mpr ⟨a, b, rfl, ?_⟩, ?_⟩
    · rw [← hp]
      rfl
    · have hpos : b.utf8ByteSize ≠ 0 := by simpa using hb
      rw [String.utf8ByteSize_append, ← hp]
      omega

theorem Template.scan_offence_exact_accented :
    let text := "ação \x7bnação\x7b\x7d"
    scan text = .error (.nested 15) ∧ (TemplateError.nested 15).Describes text ∧
      ¬ (TemplateError.emptyPlaceholder 15).Describes text ∧
      String.Pos.Raw.IsValid text ⟨15⟩ ∧ 15 < text.utf8ByteSize := by
  intro text
  have hs : scan text = .error (.nested 15) := by decide +kernel
  obtain ⟨hiff, -, hvalid⟩ := scan_offence_exact text
  refine ⟨hs, (hiff _).mp hs, fun h => ?_, hvalid _ hs⟩
  cases hs.symm.trans ((hiff _).mpr h)

end BillGrammar
