import BillGrammar.Command.Lint
import BillGrammar.Proofs.Command.Arguments
import BillGrammar.Proofs.Command.Settings
import BillGrammar.Proofs.Lint.Soundness
import BillGrammar.Proofs.Ron.Written

namespace BillGrammar

theorem Lexicon.depthExceeded_of_laws {L : Lexicon} (hL : L.lint.errors = [])
    (h : (L.laws m count).run.Yields U (.error e)) : e = .depthExceeded m := by
  obtain ⟨_, -, h⟩ := Sampler.yields_run_mapM_error h
  exact depthExceeded_of_law (List.isEmpty_iff.mpr hL) h

namespace LintCommand

variable {files : Files}

theorem code_report {L : Lexicon} : (report heading L).code = 0 ↔ L.lint.errors = [] := by
  simp [report, LintReport.isClean]

theorem code_run (hpath : path ≠ "-h" ∧ path ≠ "--help") :
    (run [path] files).code = 0 ↔
      ∃ o, Override.ofFile (files path) = .ok o ∧ (Lexicon.ofOverride o).lint.errors = [] := by
  have hhelp : ¬ (path = "--help" ∨ path = "-h") := fun h => h.elim hpath.2 hpath.1
  simp only [run, if_neg hhelp]
  cases Override.ofFile (files path) with
  | error f => simp [CommandOutcome.failure]
  | ok o => simp [code_report]

theorem code_run_of_chars (hpath : path ≠ "-h" ∧ path ≠ "--help")
    (hfile : files path = some (String.ofList cs).toUTF8)
    (hclean : ((Ron.Document.ofChars? cs).bind Override.ofDocument?).any fun o =>
      (Lexicon.ofOverride o).lint.isClean) : (run [path] files).code = 0 := by
  obtain ⟨o, ho, hclean⟩ := Override.exists_ofFile_eq_ok _ hfile hclean
  exact (code_run hpath).mpr ⟨o, ho, List.isEmpty_iff.mp hclean⟩

end LintCommand

namespace LawCommand

open FlagValue

def passes? (files : Files) : Option String → Option Nat
  | none => some defaultPasses
  | some path => ((Config.ofFile (files path)).toOption).map (·.passes)

/-- The command line asks for few enough laws over the lexicon in the file at `path`, and a config
that it names can be read and allows `n` passes. -/
structure Admissible (files : Files) (defaultLexicon : Option String) (path : String) (n : Nat)
    (ps : List FlagValue) : Prop where
  readable : ∀ p ∈ ps, p.Readable
  lexicon : (last? .lexicon ps).or defaultLexicon = some path
  quantity : (lastNumber? .quantity ps).getD 1 ≤ 10
  passes : passes? files (last? .config ps) = some n

variable {files : Files} {o : Options}

theorem passes?_eq (files : Files) (path : Option String) :
    passes? files path = (config? files path).map (·.passes) := by
  cases path <;> rfl

theorem settings_eq (hpath : o.lexicon = some path) (hv : Override.ofFile (files path) = .ok v)
    (hn : passes? files o.config = some n) :
    ∃ s, o.settings files = .ok s ∧ s.lexicon = .ofOverride v ∧ s.config.passes = n := by
  rw [passes?_eq] at hn
  obtain ⟨c, hc, hpasses⟩ := Option.map_eq_some_iff.mp hn
  have hL : lexicon? files o.lexicon = some (.ofOverride v) := by
    simp only [hpath, lexicon?, hv]
    rfl
  have hs := toOption_settings o files
  rw [hc, hL] at hs
  cases h : o.settings files with
  | error f =>
    rw [h] at hs
    cases hs
  | ok s =>
    rw [h] at hs
    cases hs
    exact ⟨_, rfl, rfl, hpasses⟩

theorem laws_of_settings [RandomSource σ] (hq : o.quantity ≤ maxQuantity)
    (hs : o.settings files = .ok s) (source : Option UInt64 → σ) :
    ∃ count, o.laws files source =
      ((s.generator (source s.config.seed)).many count).1.mapError .generation := by
  have hcount : ∃ count, checkedQuantity o.quantity = .ok count := by
    unfold checkedQuantity
    split
    · exact ⟨1, rfl⟩
    · exact ⟨o.quantity, rfl⟩
  obtain ⟨count, hcount⟩ := hcount
  refine ⟨count, ?_⟩
  simp only [Options.laws, hcount, hs]
  rfl

theorem message_depthExceeded (n : Nat) :
    (Failure.generation (.depthExceeded n)).message =
      s!"Desculpe o transtorno: expansion did not settle after {n} passes\n" := by
  have hstart : "Desculpe o transtorno: expansion did not settle after " =
      "Desculpe o transtorno: " ++ "expansion did not settle after " := rfl
  have hend : " passes\n" = " passes" ++ "\n" := rfl
  calc (Failure.generation (.depthExceeded n)).message
    _ = "Desculpe o transtorno: " ++
          ("expansion did not settle after " ++ toString n ++ " passes") ++ "\n" := rfl
    _ = "Desculpe o transtorno: expansion did not settle after " ++ toString n ++ " passes\n" := by
      simp only [hstart, hend, String.append_assoc]

/-- The command that checks a lexicon passes the files of overrides without errors, and over those
the command that prints laws fails only for want of passes. -/
theorem commands_agree {σ : Type} [RandomSource σ] (files : Files) (path : String)
    (hpath : path ≠ "-h" ∧ path ≠ "--help") :
    ((LintCommand.run [path] files).code = 0 ↔
      ∃ o, Override.ofFile (files path) = .ok o ∧ (Lexicon.ofOverride o).lint.errors = []) ∧
    ((LintCommand.run [path] files).code = 0 →
      ∀ (ps : List FlagValue) (defaultLexicon : Option String) (source : Option UInt64 → σ)
        (n : Nat), Admissible files defaultLexicon path n ps →
        (run (arguments ps) defaultLexicon files source).code = 0 ∨
          run (arguments ps) defaultLexicon files source =
            ⟨1, "", s!"Desculpe o transtorno: expansion did not settle after {n} passes\n"⟩) := by
  refine ⟨LintCommand.code_run hpath, fun hlint ps defaultLexicon source n h => ?_⟩
  obtain ⟨v, hv, hclean⟩ := (LintCommand.code_run hpath).mp hlint
  have hconfig : (options { lexicon := defaultLexicon } ps).config = last? .config ps :=
    Option.or_none
  obtain ⟨s, hs, hL, hpasses⟩ := settings_eq h.lexicon hv (hconfig ▸ h.passes)
  obtain ⟨count, hlaws⟩ := laws_of_settings h.quantity hs source
  simp only [run, read_arguments _ h.readable, hlaws]
  cases hmany : ((s.generator (source s.config.seed)).many count).1 with
  | ok laws => exact .inl rfl
  | error e =>
    have hyields : (s.lexicon.laws s.config.passes count).run.Yields (fun _ => True) (.error e) :=
      hmany ▸ (s.generator (source s.config.seed)).yields_perform _
    rw [hL, hpasses] at hyields
    obtain rfl := Lexicon.depthExceeded_of_laws hclean hyields
    exact .inr (congrArg CommandOutcome.failure (message_depthExceeded n))

set_option maxRecDepth 10000 in
theorem commands_agree_cyclic :
    let lexicon := "(
      skeletons: Some([\"Ley \x7bpredicate\x7d\"]), predicates: Some([\"\x7bpredicate\x7d\", \"x\"]),
      subjects: Some([]), objects: Some([]), establishments: Some([]), person_actions: Some([]),
      establishment_actions: Some([]), resources: Some([]), problems: Some([]), diseases: Some([]),
      drugs: Some([]))"
    let files : Files := fun path =>
      if path = "leis.ron" then some lexicon.toUTF8
      else if path = "config.ron" then some "(max_passes: 3)".toUTF8 else none
    let ps : List FlagValue :=
      [⟨.config, "--config", "config.ron", rfl⟩, ⟨.quantity, "-n", "2", rfl⟩]
    let source (_ : Option UInt64) := FixedSource.ofPick .first
    (LintCommand.run ["leis.ron"] files).code = 0 ∧
      Admissible files (some "leis.ron") "leis.ron" 3 ps ∧
      ((run (arguments ps) (some "leis.ron") files source).code = 0 ∨
        run (arguments ps) (some "leis.ron") files source =
          ⟨1, "", s!"Desculpe o transtorno: expansion did not settle after {3} passes\n"⟩) := by
  intro lexicon files ps source
  have hlint : (LintCommand.run ["leis.ron"] files).code = 0 :=
    LintCommand.code_run_of_chars (by decide) (if_pos rfl) (by decide +kernel)
  have h : Admissible files (some "leis.ron") "leis.ron" 3 ps :=
    ⟨by decide +kernel, by decide +kernel, by decide +kernel, by decide +kernel⟩
  exact ⟨hlint, h, (commands_agree files "leis.ron" (by decide)).2 hlint ps _ source 3 h⟩

end LawCommand

end BillGrammar
