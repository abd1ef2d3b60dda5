import BillGrammar.Proofs.Lint.Soundness
import BillGrammar.Proofs.Template.Offence
import Mathlib.Data.List.TakeWhile

namespace BillGrammar

open Template Sampler

namespace Template

def leading (text : String) : String := String.ofList (text.toList.takeWhile (!isBrace ·))

def trailing (text : String) : String :=
  String.ofList (text.toList.reverse.takeWhile (!isBrace ·)).reverse

/-- The text has the frame of the template, or is the template itself where that has no brace. -/
def Frames (template text : String) : Prop :=
  if hasPlaceholders template then ∃ inner, text = leading template ++ inner ++ trailing template
  else text = template

theorem plain_of_takeWhile {cs : List Char} (h : c ∈ cs.takeWhile (!isBrace ·)) :
    c ≠ '{' ∧ c ≠ '}' := by
  simpa [isBrace] using List.mem_takeWhile_imp h

theorem plain_leading (text : String) : Plain (leading text) := by
  intro c hc
  rw [leading, String.toList_ofList] at hc
  exact plain_of_takeWhile hc

theorem plain_trailing (text : String) : Plain (trailing text) := by
  intro c hc
  rw [trailing, String.toList_ofList, List.mem_reverse] at hc
  exact plain_of_takeWhile hc

theorem takeWhile_append_brace (hc : isBrace c) (xs ys : List Char) :
    (xs ++ c :: ys).takeWhile (!isBrace ·) = xs.takeWhile (!isBrace ·) := by
  induction xs with
  | nil => simp [hc]
  | cons x xs ih => simp [List.takeWhile_cons, ih]

theorem exists_inner (h : hasPlaceholders text) :
    ∃ inner, text = leading text ++ inner ++ trailing text := by
  obtain ⟨c, hc⟩ : ∃ c, text.toList.find? isBrace = some c := by
    simpa [hasPlaceholders, ← Option.isSome_iff_exists, List.find?_isSome] using h
  obtain ⟨hc, as, bs, htext, has⟩ := List.find?_eq_some_iff_append.mp hc
  -- The first brace may also be the last; the inner part starts with it.
  refine ⟨String.ofList (c :: (bs.reverse.dropWhile (!isBrace ·)).reverse), ?_⟩
  have hbs : bs = (bs.reverse.dropWhile (!isBrace ·)).reverse ++
      (bs.reverse.takeWhile (!isBrace ·)).reverse := by
    rw [← List.reverse_append, List.takeWhile_append_dropWhile, List.reverse_reverse]
  have has : as.takeWhile (!isBrace ·) = as := List.takeWhile_eq_self_iff.mpr has
  rw [← String.toList_inj, String.toList_append, String.toList_append, leading, trailing, htext]
  simp only [takeWhile_append_brace hc, has, String.toList_ofList, List.reverse_append,
    List.reverse_cons, List.append_assoc, List.cons_append, List.nil_append]
  rw [← hbs]

theorem Offence.frame (h : Offence x e) (hp : Plain p) (hq : Plain q) :
    ∃ e, Offence (p ++ x ++ q) e := by
  cases h with
  | @unmatchedClose a b ha =>
    have htext : p ++ (a ++ "\x7d" ++ b) ++ q = p ++ a ++ "\x7d" ++ (b ++ q) := by
      simp only [String.append_assoc]
    rw [htext]
    exact ⟨_, .unmatchedClose (hp.scans.append ha)⟩
  | @emptyPlaceholder a b ha =>
    have htext : p ++ (a ++ "\x7b\x7d" ++ b) ++ q = p ++ a ++ "\x7b\x7d" ++ (b ++ q) := by
      simp only [String.append_assoc]
    rw [htext]
    exact ⟨_, .emptyPlaceholder (hp.scans.append ha)⟩
  | @nested a y b ha hy =>
    have htext : p ++ (a ++ "\x7b" ++ y ++ "\x7b" ++ b) ++ q =
        p ++ a ++ "\x7b" ++ y ++ "\x7b" ++ (b ++ q) := by
      simp only [String.append_assoc]
    rw [htext]
    exact ⟨_, .nested (hp.scans.append ha) hy⟩
  | @unclosed a y ha hy =>
    have htext : p ++ (a ++ "\x7b" ++ y) ++ q = p ++ a ++ "\x7b" ++ (y ++ q) := by
      simp only [String.append_assoc]
    rw [htext]
    exact ⟨_, .unclosed (hp.scans.append ha) (plain_append.mpr ⟨hy, hq⟩)⟩

theorem exists_scan_frame_eq_error (h : scan x = .error e) (hp : Plain p) (hq : Plain q) :
    ∃ e, scan (p ++ x ++ q) = .error e := by
  obtain ⟨e, h⟩ := (TemplateError.exists_offence_of_scan h).frame hp hq
  exact ⟨e, h.scan_eq⟩

theorem wellFormed_frame (hp : Plain p) (hq : Plain q) {segments : List Segment}
    (h : WellFormed segments) : WellFormed (.literal p :: (segments ++ [.literal q])) := by
  refine wellFormed_cons.mpr ⟨hp, wellFormed_append.mpr ⟨h, fun s hs => ?_⟩⟩
  rw [List.mem_singleton.mp hs]
  exact hq

theorem render_frame (p q : String) (segments : List Segment) :
    render (.literal p :: (segments ++ [.literal q])) = p ++ render segments ++ q := by
  simp [Segment.render, String.append_assoc]

theorem plain_frame_iff (hp : Plain p) (hq : Plain q) : Plain (p ++ x ++ q) ↔ Plain x := by
  simp [plain_append, hp, hq]

end Template

namespace Lexicon

variable {U : Binary64 → Prop} {L : Lexicon}

theorem pass_frame (p q : String) (segments : List Segment) :
    L.pass (.literal p :: (segments ++ [.literal q])) = (p ++ · ++ q) <$> L.pass segments := by
  simp [pass_literal, pass_append, pass_nil, String.append_assoc]

theorem yields_expandWith_frame (hp : Plain p) (hq : Plain q) :
    (L.expandWith passes left (p ++ x ++ q)).run.Yields U (.ok s) ↔
      ∃ s', s = p ++ s' ++ q ∧ (L.expandWith passes left x).run.Yields U (.ok s') := by
  induction left generalizing x s with
  | zero =>
    by_cases hx : Plain x
    · simp [expandWith_of_plain hx, expandWith_of_plain ((plain_frame_iff hp hq).mpr hx)]
    · -- No pass is left over a text with braces, in a frame or without one.
      have hframe : ¬ Plain (p ++ x ++ q) := fun h => hx ((plain_frame_iff hp hq).mp h)
      have hne {y : String} (hy : ¬ Plain y) (r : String) :
          ¬ (L.expandWith passes 0 y).run.Yields U (.ok r) := by
        intro h
        cases hs : scan y with
        | error e => simp [expandWith_of_unreadable hs] at h
        | ok segments => simp [expandWith_zero hy ⟨_, hs⟩] at h
      simp [hne hx, hne hframe]
  | succ left ih =>
    cases hs : scan x with
    | error e =>
      obtain ⟨e', hs'⟩ := exists_scan_frame_eq_error hs hp hq
      simp [expandWith_of_unreadable hs, expandWith_of_unreadable hs']
    | ok segments =>
      obtain ⟨hw, rfl⟩ := wellFormed_of_scan hs
      rw [← render_frame, expandWith_succ (wellFormed_frame hp hq hw), expandWith_succ hw,
        pass_frame, bind_map_left]
      simp only [yields_run_bind, ih, reduceCtorEq, and_false, exists_false, or_false]
      constructor
      · rintro ⟨t, ht, s', rfl, h⟩
        exact ⟨s', rfl, t, ht, h⟩
      · rintro ⟨s', rfl, t, ht, h⟩
        exact ⟨t, ht, s', rfl, h⟩

theorem frames_of_yields_expandWith (h : (L.expandWith passes left t).run.Yields U (.ok s)) :
    Frames t s := by
  unfold Frames
  split
  case isTrue ht =>
    obtain ⟨inner, hinner⟩ := exists_inner ht
    rw [hinner, yields_expandWith_frame (plain_leading t) (plain_trailing t)] at h
    obtain ⟨s', hs, -⟩ := h
    exact ⟨s', hs⟩
  case isFalse ht =>
    rw [Bool.not_eq_true, hasPlaceholders_eq_false_iff] at ht
    rw [expandWith_of_plain ht] at h
    simpa using h

theorem frames_of_yields_law (h : (L.law passes).run.Yields U (.ok s)) :
    ∃ t ∈ L.entries .skeletons, Frames t s := by
  rcases yields_law.mp h with ⟨t, ht, h⟩ | ⟨-, ⟨⟩⟩
  exact ⟨t, ht, frames_of_yields_expandWith h⟩

end Lexicon

namespace Generator

variable {σ : Type} [RandomSource σ]

/-- What expansion gives has the frame of its text, and every law that of a skeleton. -/
theorem frame_kept (g : Generator σ) :
    (∀ t s, (g.expand t).1 = .ok s → Frames t s) ∧
    (∀ s, g.one.1 = .ok s → ∃ t ∈ g.lexicon.entries .skeletons, Frames t s) ∧
    ∀ count ss, (g.many count).1 = .ok ss →
      ∀ s ∈ ss, ∃ t ∈ g.lexicon.entries .skeletons, Frames t s := by
  refine ⟨fun t s h => ?_, fun s h => ?_, fun count ss h s hs => ?_⟩
  · have hrun := g.yields_perform (g.lexicon.expand g.passes t)
    exact Lexicon.frames_of_yields_expandWith (h ▸ hrun)
  · exact Lexicon.frames_of_yields_law (h ▸ g.yields_one)
  · have hrun := g.yields_perform (g.lexicon.laws g.passes count)
    obtain ⟨-, -, hlaw⟩ := exists_of_mem_of_yields_mapM (h ▸ hrun) hs
    exact Lexicon.frames_of_yields_law hlaw

theorem frame_kept_joined :
    let g : Generator FixedSource :=
      ⟨.ofPhrases ["ley \x7bpredicate\x7d\x7bproblem\x7d, sic"] ["\x7bnumber,"] ["2,6\x7d"], 3,
        .ofPick .first⟩
    let t := "ley \x7bpredicate\x7d\x7bproblem\x7d, sic"
    ¬ g.lexicon.Scans ∧ (g.expand t).1 = .ok "ley 4, sic" ∧ leading t = "ley " ∧
      trailing t = ", sic" ∧ Frames t "ley 4, sic" ∧ g.one.1 = .ok "ley 4, sic" ∧
      (g.many 2).1 = .ok ["ley 4, sic", "ley 4, sic"] ∧
      ∃ t ∈ g.lexicon.entries .skeletons, Frames t "ley 4, sic" := by
  intro g t
  have hexpand : (g.expand t).1 = .ok "ley 4, sic" := by decide +kernel
  have hone : g.one.1 = .ok "ley 4, sic" := by decide +kernel
  obtain ⟨hframes, hlaw, -⟩ := g.frame_kept
  exact ⟨by decide +kernel, hexpand, by decide +kernel, by decide +kernel, hframes _ _ hexpand,
    hone, by decide +kernel, hlaw _ hone⟩

end Generator

end BillGrammar
