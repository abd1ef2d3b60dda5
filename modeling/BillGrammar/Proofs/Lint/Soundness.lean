import BillGrammar.Proofs.Lint.Provenance
import BillGrammar.Source.Fixed

namespace BillGrammar

open Sampler

namespace LintReport

def lines (r : LintReport) : List String := r.errors.map LintError.message

/-- A line of the report gives the reason for which a placeholder is not replaced. -/
def Announces (r : LintReport) : PlaceholderError → Prop
  | .emptyTable t => s!"Table '{t.name}' is referenced but empty" ∈ r.lines
  | e => ∃ (t : Table) (x : String), s!"Table '{t.name}' entry '{x}': {e.message}" ∈ r.lines

theorem announces_of_empty_mem {r : LintReport} (h : .empty t ∈ r.errors) :
    r.Announces (.emptyTable t) :=
  List.mem_map_of_mem (f := LintError.message) h

theorem announces_of_entry_mem {r : LintReport} (h : .entry t x (.placeholder e) ∈ r.errors)
    (he : ∀ t, e ≠ .emptyTable t) : r.Announces e := by
  have hline := List.mem_map_of_mem (f := LintError.message) h
  cases e with
  | emptyTable t => exact absurd rfl (he t)
  | unrecognizedCategory name => exact ⟨t, x, hline⟩
  | malformedNumber token fault => exact ⟨t, x, hline⟩

theorem not_announces_of_isClean {r : LintReport} (h : r.isClean) (e : PlaceholderError) :
    ¬ r.Announces e := by
  rw [isClean, List.isEmpty_iff] at h
  cases e <;> simp [Announces, lines, h]

end LintReport

namespace Lexicon

variable {L : Lexicon} {U : Binary64 → Prop}

theorem announces_of_fragment {t : Table} (ht : L.Reached t) (hm : L.Mentions t token)
    (h : (L.fragment token).run.Yields U (.error e)) : L.lint.Announces e := by
  obtain ⟨a, ha, h⟩ := yields_fragment.mp h
  cases h with
  | unread hr =>
    obtain ⟨name, rfl⟩ := Request.exists_eq_of_parse_error hr
    obtain ⟨x, hx⟩ := exists_entry_mem_errors hm ha (alternativeFault?_of_parse hr)
    exact LintReport.announces_of_entry_mem hx nofun
  | empty hr hu he =>
    have hu := ht.step (mem_references.mpr ⟨token, hm, a, ha, _, hr, hu⟩)
    exact LintReport.announces_of_empty_mem (empty_mem_errors hu he)
  | range hr hn he =>
    obtain ⟨fault, rfl⟩ := Request.exists_eq_of_range_error he
    obtain ⟨x, hx⟩ := exists_entry_mem_errors hm ha (alternativeFault?_of_range hr hn he)
    exact LintReport.announces_of_entry_mem hx nofun

theorem announces_of_law (hL : L.Scans) (h : (L.law m).run.Yields U (.error e)) :
    e = .depthExceeded m ∨ ∃ d, e = .placeholder d ∧ L.lint.Announces d := by
  have hS (_ : Nat) (t u : Table) (ht : L.Reached t) (hu : u ∈ L.references t) : L.Reached u :=
    ht.step hu
  rcases exists_of_law_error (S := fun _ => L.Reached) hL hS reached_skeletons h with
    ⟨-, he⟩ | ⟨hempty, rfl⟩ | ⟨_, t, token, d, ht, hm, rfl, hd⟩
  · exact .inl he
  · exact .inr ⟨_, rfl,
      LintReport.announces_of_empty_mem (empty_mem_errors reached_skeletons hempty)⟩
  · exact .inr ⟨d, rfl, announces_of_fragment ht hm hd⟩

theorem depthExceeded_of_law (hL : L.lint.isClean) (h : (L.law m).run.Yields U (.error e)) :
    e = .depthExceeded m := by
  rcases announces_of_law (scans_of_isClean hL) h with he | ⟨d, -, hd⟩
  · exact he
  · exact absurd hd (LintReport.not_announces_of_isClean hL d)

end Lexicon

namespace Generator

variable {σ : Type} [RandomSource σ]

/-- Over a lexicon without errors only the passes can run out.  Over one whose texts scan no law
fails for a template, and lint has said so if one fails for a placeholder. -/
theorem lint_sound (g : Generator σ) :
    (g.lexicon.lint.isClean →
      (∀ e, g.one.1 = .error e → e = .depthExceeded g.passes) ∧
      ∀ count e, (g.many count).1 = .error e → e = .depthExceeded g.passes) ∧
    (g.lexicon.Scans →
      (∀ e, g.one.1 ≠ .error (.template e)) ∧
      ∀ e, g.one.1 = .error (.placeholder e) → g.lexicon.lint.Announces e) := by
  have hone {e} (h : g.one.1 = .error e) :
      (g.lexicon.law g.passes).run.Yields (fun _ => True) (.error e) :=
    h ▸ g.yields_one
  refine ⟨fun hc => ⟨fun e h => Lexicon.depthExceeded_of_law hc (hone h), fun count e h => ?_⟩,
    fun hL => ⟨fun e h => ?_, fun e h => ?_⟩⟩
  · have h : (g.lexicon.laws g.passes count).run.Yields (fun _ => True) (.error e) :=
      h ▸ g.yields_perform _
    obtain ⟨_, -, h⟩ := yields_run_mapM_error h
    exact Lexicon.depthExceeded_of_law hc h
  · rcases Lexicon.announces_of_law hL (hone h) with he | ⟨d, he, -⟩
    · cases he
    · cases he
  · rcases Lexicon.announces_of_law hL (hone h) with he | ⟨d, he, hd⟩
    · cases he
    · cases he
      exact hd

theorem lint_sound_small :
    let cyclic : Generator FixedSource :=
      ⟨.ofPhrases ["\x7bpredicate\x7d"] ["\x7bpredicate\x7d", "ley"] [], 3, .ofPick .first⟩
    let empty : Generator FixedSource := ⟨.ofPhrases ["\x7bpredicate\x7d"] [] [], 3, .ofPick .first⟩
    (cyclic.lexicon.lint.isClean ∧ cyclic.one.1 = .error (.depthExceeded 3) ∧
      ∀ count e, (cyclic.many count).1 = .error e → e = .depthExceeded 3) ∧
    empty.lexicon.Scans ∧ empty.one.1 = .error (.placeholder (.emptyTable .predicates)) ∧
      empty.lexicon.lint.Announces (.emptyTable .predicates) := by
  intro cyclic empty
  have hc : cyclic.lexicon.lint.isClean := by decide +kernel
  have hs : empty.lexicon.Scans := by decide +kernel
  have hone : empty.one.1 = .error (.placeholder (.emptyTable .predicates)) := by decide +kernel
  exact ⟨⟨hc, by decide +kernel, (cyclic.lint_sound.1 hc).2⟩, hs, hone,
    (empty.lint_sound.2 hs).2 _ hone⟩

end Generator

end BillGrammar
