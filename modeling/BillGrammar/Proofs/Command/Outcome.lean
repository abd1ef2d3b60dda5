import BillGrammar.Proofs.Command.Arguments
import BillGrammar.Proofs.Command.Settings
import BillGrammar.Proofs.Law.Expansion
import BillGrammar.Source.Fixed
import BillGrammar.Source.Scripted

namespace BillGrammar

theorem Generator.length_of_many [RandomSource σ] {g : Generator σ}
    (h : (g.many count).1 = .ok laws) : laws.length = count := by
  have hyields : (g.lexicon.laws g.passes count).run.Yields (fun _ => True) (.ok laws) :=
    h ▸ g.yields_perform _
  rw [Sampler.length_of_yields_mapM hyields, List.length_replicate]

namespace LawCommand

open FlagValue

def requested (ps : List FlagValue) : Nat := (lastNumber? .quantity ps).getD 1

/-- What is printed in the end: the usage where a help flag stands before anything invalid, or the
laws of the generator that flags and files make. -/
inductive Prints [RandomSource σ] (defaultLexicon : Option String) (files : Files)
    (source : Option UInt64 → σ) : List String → String → Prop
  | usage : (∀ p ∈ ps, p.Readable) → Argument.ofString a = .help →
      Prints defaultLexicon files source (arguments ps ++ a :: more) (usage ++ "\n")
  | laws : (∀ p ∈ ps, p.Readable) →
      requested ps = 0 ∧ count = 1 ∨
        1 ≤ requested ps ∧ requested ps ≤ 10 ∧ count = requested ps →
      generator? files source (last? .config ps) ((lastNumber? .seed ps).map UInt64.ofNat)
        ((last? .lexicon ps).or defaultLexicon) = some g →
      (g.many count).1 = .ok laws → laws.length = count →
      Prints defaultLexicon files source (arguments ps) (render laws ++ "\n")

variable {σ : Type} [RandomSource σ] {defaultLexicon : Option String} {files : Files}
  {source : Option UInt64 → σ} {ps : List FlagValue}

theorem options_eq : options { lexicon := defaultLexicon } ps =
    ⟨requested ps, (lastNumber? .seed ps).map UInt64.ofNat,
      (last? .lexicon ps).or defaultLexicon, last? .config ps⟩ := by
  simp only [options, requested, Option.or_none]

theorem run_eq_success_or_failure (args : List String) (defaultLexicon : Option String)
    (files : Files) (source : Option UInt64 → σ) :
    ∃ text, run args defaultLexicon files source = .success text ∨
      run args defaultLexicon files source = .failure text := by
  unfold run
  split
  · exact ⟨_, .inl rfl⟩
  · exact ⟨_, .inr rfl⟩
  · split
    · exact ⟨_, .inl rfl⟩
    · exact ⟨_, .inr rfl⟩

theorem run_of_prints (h : Prints defaultLexicon files source args text) :
    run args defaultLexicon files source = .success text := by
  cases h with
  | usage hps ha => simp only [run, read_append _ hps, read_of_help _ ha]
  | @laws ps count g laws hps hcount hg hlaws _ =>
    have hok : (options { lexicon := defaultLexicon } ps).laws files source = .ok laws := by
      rw [options_eq, laws_eq_ok]
      exact ⟨count, g, checkedQuantity_eq_ok.mpr hcount, hg, hlaws⟩
    simp only [run, read_arguments _ hps, hok]

theorem prints_of_run (h : run args defaultLexicon files source = .success text) :
    Prints defaultLexicon files source args text := by
  obtain ⟨ps, rest, hps, rfl, hrest⟩ := exists_arguments args
  simp only [run, read_append _ hps] at h
  cases hrest with
  | nil =>
    simp only [Options.read] at h
    split at h
    case h_1 laws hok =>
      cases h
      rw [options_eq, laws_eq_ok] at hok
      obtain ⟨count, g, hcount, hg, hlaws⟩ := hok
      rw [List.append_nil]
      exact .laws hps (checkedQuantity_eq_ok.mp hcount) hg hlaws (Generator.length_of_many hlaws)
    case h_2 => cases h
  | help ha =>
    simp only [read_of_help _ ha] at h
    cases h
    exact .usage hps ha
  | invalid he =>
    simp only [he] at h
    cases h

theorem run_of_requested (hps : ∀ p ∈ ps, p.Readable) (h : 10 < requested ps) :
    run (arguments ps) defaultLexicon files source =
      ⟨1, "", "Não é possível gerar mais de 10 leis de uma vez\n"⟩ := by
  have herror : (options { lexicon := defaultLexicon } ps).laws files source =
      .error .tooMany := by
    rw [options_eq, Options.laws, checkedQuantity_of_lt h]
    rfl
  simp only [run, read_arguments _ hps, herror]
  rfl

/-- The command fails without output, or prints without complaint all that is asked for.  It asks no
file before it refuses a quantity. -/
theorem run_all_or_nothing (args : List String) (defaultLexicon : Option String) (files : Files)
    (source : Option UInt64 → σ) :
    let outcome := run args defaultLexicon files source
    (outcome.code ≠ 0 → outcome.stdout = "") ∧
    (outcome.code = 0 →
      outcome.stderr = "" ∧ Prints defaultLexicon files source args outcome.stdout) ∧
    (∀ text, Prints defaultLexicon files source args text → outcome = ⟨0, text, ""⟩) ∧
    ∀ ps : List FlagValue, args = arguments ps → (∀ p ∈ ps, p.Readable) → 10 < requested ps →
      (∀ defaultLexicon' files' (source' : Option UInt64 → σ),
          run args defaultLexicon' files' source' = outcome) ∧
        outcome = ⟨1, "", "Não é possível gerar mais de 10 leis de uma vez\n"⟩ := by
  intro outcome
  obtain ⟨text, h⟩ := run_eq_success_or_failure args defaultLexicon files source
  refine ⟨fun hcode => ?_, fun hcode => ?_, fun text => run_of_prints, ?_⟩
  · rcases h with h | h
    · simp [outcome, h, CommandOutcome.success] at hcode
    · simp only [outcome, h, CommandOutcome.failure]
  · rcases h with h | h
    · simp only [outcome, h, CommandOutcome.success]
      exact ⟨trivial, prints_of_run h⟩
    · simp [outcome, h, CommandOutcome.failure] at hcode
  · rintro ps rfl hps hmany
    have houtcome : outcome = _ := run_of_requested hps hmany
    exact ⟨fun _ _ _ => (run_of_requested hps hmany).trans houtcome.symm, houtcome⟩

set_option maxRecDepth 10000 in
theorem run_all_or_nothing_seeded :
    let lexicon := "(skeletons: Some([\"Ley \x7bnumber,2,6\x7d\", \"\x7b\"]))"
    let files : Files := fun path =>
      if path = "leis.ron" then some lexicon.toUTF8
      else if path = "config.ron" then some "(seed: Some(9))".toUTF8 else none
    let source (seed : Option UInt64) : ScriptedSource :=
      { choices := if seed = some 7 then [0] else [0, 0, 1], units := [FixedSource.half] }
    let plain := ["-n", "2", "--config", "config.ron"]
    let seeded := "--seed" :: "7" :: plain
    let ps : List FlagValue := [⟨.quantity, "--quantity", "11", rfl⟩]
    -- The first law is lost with the second, which the seed of the config leads to a lone brace.
    ((run plain (some "leis.ron") files source).code ≠ 0 ∧
      (run plain (some "leis.ron") files source).stdout = "") ∧
    ((run seeded (some "leis.ron") files source).code = 0 ∧
      (run seeded (some "leis.ron") files source).stderr = "" ∧
      Prints (some "leis.ron") files source seeded
        (run seeded (some "leis.ron") files source).stdout) ∧
    (Prints none files source ["--seed", "7", "-h", "7"] (usage ++ "\n") ∧
      run ["--seed", "7", "-h", "7"] none files source = ⟨0, usage ++ "\n", ""⟩) ∧
    (∀ p ∈ ps, p.Readable) ∧ 10 < requested ps ∧
      run (arguments ps) none (fun _ => none) source =
        run (arguments ps) (some "leis.ron") files source := by
  intro lexicon files source plain seeded ps
  have hfailed : (run plain (some "leis.ron") files source).code ≠ 0 := by decide +kernel
  have hdone : (run seeded (some "leis.ron") files source).code = 0 := by decide +kernel
  have hseed : ∀ p ∈ [⟨.seed, "--seed", "7", rfl⟩], FlagValue.Readable p := by decide +kernel
  have hhelp : Prints none files source ["--seed", "7", "-h", "7"] (usage ++ "\n") :=
    .usage hseed rfl
  have hps : ∀ p ∈ ps, p.Readable := by decide +kernel
  have hmany : 10 < requested ps := by decide +kernel
  obtain ⟨hempty, -⟩ := run_all_or_nothing plain (some "leis.ron") files source
  obtain ⟨-, hprints, -⟩ := run_all_or_nothing seeded (some "leis.ron") files source
  obtain ⟨-, -, hprinted, -⟩ := run_all_or_nothing ["--seed", "7", "-h", "7"] none files source
  obtain ⟨-, -, -, hsame⟩ := run_all_or_nothing (arguments ps) (some "leis.ron") files source
  exact ⟨⟨hfailed, hempty hfailed⟩, ⟨hdone, hprints hdone⟩, ⟨hhelp, hprinted _ hhelp⟩, hps, hmany,
    (hsame ps rfl hps hmany).1 none (fun _ => none) source⟩

end LawCommand

end BillGrammar
