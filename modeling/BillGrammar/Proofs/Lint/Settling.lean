import BillGrammar.Proofs.Lint.Soundness

/-!
Lexicons that always settle.  Where lint finds no table that can come back to itself, references
lead from each reached table to one of smaller rank, so as many passes as there are tables suffice.
-/

namespace BillGrammar

open Sampler

namespace Lexicon

variable {L : Lexicon} {U : Binary64 → Prop}

def Acyclic (L : Lexicon) : Prop :=
  ∀ t, .recursive t ∉ L.lint.warnings ∧ .endless t ∉ L.lint.errors

theorem Acyclic.not_isRecursive (h : L.Acyclic) {t : Table} (ht : L.Reached t) :
    ¬ L.referenceGraph.isRecursive t := by
  intro hr
  rcases endless_or_recursive_mem ht hr with he | hw
  · exact (h t).2 he
  · exact (h t).1 hw

theorem Acyclic.rank_lt (h : L.Acyclic) {t u : Table} (ht : L.Reached t)
    (hu : u ∈ L.references t) : L.referenceGraph.rank u < L.referenceGraph.rank t :=
  ReferenceGraph.rank_lt (refers_iff.mpr hu) (h.not_isRecursive ht)

def Within (L : Lexicon) (left : Nat) (t : Table) : Prop :=
  L.Reached t ∧ L.referenceGraph.rank t ≤ left

theorem not_within_zero (t : Table) : ¬ L.Within 0 t := by
  rintro ⟨-, h⟩
  have := ReferenceGraph.rank_pos (g := L.referenceGraph) t
  omega

theorem Acyclic.within_step (h : L.Acyclic) {t u : Table} (ht : L.Within (left + 1) t)
    (hu : u ∈ L.references t) : L.Within left u := by
  obtain ⟨ht, hrank⟩ := ht
  have := h.rank_lt ht hu
  exact ⟨ht.step hu, by omega⟩

theorem Acyclic.ne_depthExceeded (ha : L.Acyclic) (hL : L.Scans) (hm : Table.all.length ≤ m)
    (h : (L.law m).run.Yields U (.error e)) : e ≠ .depthExceeded k := by
  have hs : L.Within m .skeletons :=
    ⟨reached_skeletons, (ReferenceGraph.rank_le _).trans hm⟩
  rcases exists_of_law_error hL (fun _ _ _ => ha.within_step) hs h with
    ⟨⟨t, ht⟩, -⟩ | ⟨-, rfl⟩ | ⟨_, _, _, _, _, _, rfl, _⟩
  · exact absurd ht (not_within_zero t)
  · nofun
  · nofun

theorem Acyclic.exists_ok (ha : L.Acyclic) (hc : L.lint.isClean) (hm : Table.all.length ≤ m)
    (h : (L.law m).run.Yields U r) : ∃ s, r = .ok s ∧ Template.Plain s := by
  cases r with
  | ok s => exact ⟨s, rfl, plain_of_yields_law h⟩
  | error e =>
    exact absurd (depthExceeded_of_law hc h) (ha.ne_depthExceeded (scans_of_isClean hc) hm h)

def chain : Lexicon where
  entries
    | .skeletons => (["\x7bpredicate\x7d"] : List String)
    | .predicates => (["\x7bsubject\x7d"] : List String)
    | .subjects => ([⟨"\x7bobject\x7d", "\x7bobject\x7d", .either⟩] : List Noun)
    | .objects =>
      ([⟨⟨"\x7bestablishment\x7d", "\x7bestablishment\x7d", .either⟩, "o"⟩] : List ArticledNoun)
    | .establishments =>
      ([⟨⟨"\x7baction,person\x7d", "\x7baction,person\x7d", .either⟩, "o"⟩] : List ArticledNoun)
    | .personActions => ([⟨"\x7baction\x7d", "\x7baction\x7d", "\x7baction\x7d"⟩] : List Action)
    | .establishmentActions =>
      ([⟨"\x7bresource\x7d", "\x7bresource\x7d", "\x7bresource\x7d"⟩] : List Action)
    | .resources => (["\x7bproblem\x7d"] : List String)
    | .problems => (["\x7bdisease\x7d"] : List String)
    | .diseases => (["\x7bdrug\x7d"] : List String)
    | .drugs => (["\x7bnumber,2,6\x7d mg"] : List String)

end Lexicon

namespace Generator

variable {σ : Type} [RandomSource σ]

/-- Eleven passes are enough, one for each table, if lint finds no way from a table back to itself;
without errors every law is then complete. -/
theorem one_settles (g : Generator σ) (hL : g.lexicon.Scans)
    (hw : ∀ t, .recursive t ∉ g.lexicon.lint.warnings)
    (he : ∀ t, .endless t ∉ g.lexicon.lint.errors) (hm : 11 ≤ g.passes) :
    (∀ k, g.one.1 ≠ .error (.depthExceeded k)) ∧
      (g.lexicon.lint.isClean → ∃ s, g.one.1 = .ok s ∧ Template.Plain s) := by
  have ha : g.lexicon.Acyclic := fun t => ⟨hw t, he t⟩
  have hone := g.yields_one
  refine ⟨fun k h => ?_, fun hc => ha.exists_ok hc hm hone⟩
  rw [h] at hone
  exact ha.ne_depthExceeded hL hm hone rfl

/-- The bound is met: ten passes are not enough here. -/
theorem one_settles_chain :
    let g (passes : Nat) : Generator FixedSource := ⟨.chain, passes, .ofPick .first⟩
    (g 10).one.1 = .error (.depthExceeded 10) ∧ Lexicon.chain.lint.isClean ∧
      (∀ k, (g 11).one.1 ≠ .error (.depthExceeded k)) ∧
      (∃ s, (g 11).one.1 = .ok s ∧ Template.Plain s) ∧ (g 11).one.1 = .ok "4 mg" := by
  intro g
  have hL : Lexicon.chain.Scans := by decide +kernel
  have hlint : Lexicon.chain.lint = ⟨[], Table.all.map (.small · 1)⟩ := by decide +kernel
  have hc : Lexicon.chain.lint.isClean := by simp [hlint, LintReport.isClean]
  obtain ⟨hsettle, hok⟩ := (g 11).one_settles hL (by simp [g, hlint]) (by simp [g, hlint])
    (Nat.le_refl 11)
  exact ⟨by decide +kernel, hc, hsettle, hok hc, by decide +kernel⟩

end Generator

end BillGrammar
