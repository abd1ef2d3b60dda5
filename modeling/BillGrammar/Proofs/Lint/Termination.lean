import BillGrammar.Proofs.Law.Exit
import BillGrammar.Proofs.Lint.Settling

/-!
Whether a lexicon without errors can give a law.  It can if and only if a skeleton has a way out;
lint looks for the way out of one table at a time, and misses tables that lead only to each other.
-/

namespace BillGrammar

open Sampler

namespace Lexicon

variable {L : Lexicon}

theorem Acyclic.hasExit (ha : L.Acyclic) (hc : L.lint.isClean) : L.HasExit := by
  let x : Answers (fun _ => True) := ⟨[], [], 0, trivial⟩
  have h := yields_run Answers.unitsIn (L.law Table.all.length).run x
  obtain ⟨s, hs, -⟩ := ha.exists_ok hc (Nat.le_refl _) h
  exact hasExit_of_yields_law (scans_of_isClean hc) (hs ▸ h)

theorem depthExceeded_of_not_hasExit [RandomSource σ] (hc : L.lint.isClean) (hn : ¬ L.HasExit)
    (m : Nat) (x : σ) : (Generator.one ⟨L, m, x⟩).1 = .error (.depthExceeded m) := by
  have hone := (Generator.mk L m x).yields_one
  cases h : (Generator.one ⟨L, m, x⟩).1 with
  | ok s => exact absurd (hasExit_of_yields_law (scans_of_isClean hc) (h ▸ hone)) hn
  | error e =>
    rw [h] at hone
    rw [depthExceeded_of_law hc hone]

/-- Some source and number of passes give a law if and only if there is a way out.  There is one
unless some trap catches every skeleton, and always where lint warns of no table that comes back to
itself. -/
theorem exists_one_ok_iff_hasExit (hc : L.lint.isClean) :
    ((∃ (σ : Type) (_ : RandomSource σ) (x : σ) (m : Nat) (s : String),
        (Generator.one ⟨L, m, x⟩).1 = .ok s) ↔ L.HasExit) ∧
      (¬ L.HasExit ↔ ∃ caught, L.isTrap caught ∧ (L.entries .skeletons).all (isCaught caught)) ∧
      ((∀ t, .recursive t ∉ L.lint.warnings) → L.HasExit) := by
  have hL : L.Scans := scans_of_isClean hc
  have hacyclic (hw : ∀ t, .recursive t ∉ L.lint.warnings) : L.HasExit :=
    Acyclic.hasExit (fun t => ⟨hw t, not_mem_errors hc _⟩) hc
  refine ⟨⟨?_, ?_⟩, not_hasExit_iff hL, hacyclic⟩
  · rintro ⟨σ, _, x, m, s, h⟩
    exact hasExit_of_yields_law hL (h ▸ (Generator.mk L m x).yields_one)
  · intro h
    obtain ⟨m, s, h⟩ := h.exists_yields_law (U := fun _ => True) (u := 0) hL trivial
    obtain ⟨x, hx⟩ := h.exists_run ⟨0, trivial⟩
    exact ⟨_, _, x, m, s, hx⟩

theorem exists_one_ok_small :
    let L := ofPhrases ["\x7bpredicate\x7d"] ["ley"] []
    L.lint.isClean ∧ (∀ t, .recursive t ∉ L.lint.warnings) ∧ L.HasExit ∧
      ∃ (σ : Type) (_ : RandomSource σ) (x : σ) (m : Nat) (s : String),
        (Generator.one ⟨L, m, x⟩).1 = .ok s := by
  intro L
  have hc : L.lint.isClean := by decide +kernel
  have hw : ∀ t ∈ Table.all, .recursive t ∉ L.lint.warnings := by decide +kernel
  obtain ⟨hrun, -, hacyclic⟩ := exists_one_ok_iff_hasExit hc
  have hexit : L.HasExit := hacyclic fun t => hw t t.mem_all
  exact ⟨hc, fun t => hw t t.mem_all, hexit, hrun.mpr hexit⟩

/-- Predicates and problems lead only to each other.  Lint has no error for them, but the warning
that tables get from which there is a way out. -/
theorem isClean_without_exit :
    let L := ofPhrases ["\x7bpredicate\x7d"] ["\x7bproblem\x7d"] ["\x7bpredicate\x7d"]
    L.lint.isClean ∧ .recursive .predicates ∈ L.lint.warnings ∧
      .recursive .problems ∈ L.lint.warnings ∧
      ¬ ∃ (σ : Type) (_ : RandomSource σ) (x : σ) (m : Nat) (s : String),
        (Generator.one ⟨L, m, x⟩).1 = .ok s := by
  intro L
  have hc : L.lint.isClean := by decide +kernel
  have hn : ¬ L.HasExit := by
    rw [not_hasExit_iff (scans_of_isClean hc)]
    refine ⟨["predicate", "problem"], ?_, ?_⟩ <;> decide +kernel
  refine ⟨hc, by decide +kernel, by decide +kernel, ?_⟩
  rintro ⟨σ, _, x, m, s, h⟩
  rw [depthExceeded_of_not_hasExit hc hn] at h
  cases h

end Lexicon

end BillGrammar
