import BillGrammar.Command.Law
import BillGrammar.Proofs.Sampler.Failure

namespace BillGrammar.LawCommand

def config? (files : Files) : Option String → Option Config
  | none => some {}
  | some path => (Config.ofFile (files path)).toOption

def lexicon? (files : Files) : Option String → Option Lexicon
  | none => some .builtin
  | some path => (Override.ofFile (files path)).toOption.map .ofOverride

def generator? (files : Files) (source : Option UInt64 → σ) (config : Option String)
    (seed : Option UInt64) (lexicon : Option String) : Option (Generator σ) := do
  let c ← config? files config
  let L ← lexicon? files lexicon
  return ⟨L, c.passes, source (seed.or c.seed)⟩

variable {files : Files} {o : Options}

theorem checkedQuantity_eq_ok : checkedQuantity requested = .ok count ↔
    requested = 0 ∧ count = 1 ∨ 1 ≤ requested ∧ requested ≤ 10 ∧ count = requested := by
  unfold checkedQuantity maxQuantity
  split
  · simp only [Except.ok.injEq]
    omega
  · split
    · simp only [Except.ok.injEq]
      omega
    · simp only [reduceCtorEq, false_iff]
      omega

theorem checkedQuantity_of_lt (h : 10 < requested) :
    checkedQuantity requested = .error .tooMany := by
  rw [checkedQuantity, maxQuantity, if_neg (by omega), if_neg (Nat.not_le_of_lt h)]

theorem toOption_settings (o : Options) (files : Files) : (o.settings files).toOption = do
    let c ← config? files o.config
    let L ← lexicon? files o.lexicon
    return ⟨L, { c with seed := o.seed.or c.seed }⟩ := by
  obtain ⟨quantity, seed, lexicon, config⟩ := o
  cases config with
  | none =>
    cases lexicon with
    | none => cases seed <;> rfl
    | some path =>
      simp only [Options.settings, lexicon?, Option.toList_some, List.mapM_cons, List.mapM_nil,
        Setting.ofOverrideFile]
      cases Override.ofFile (files path) with
      | error f => rfl
      | ok v => cases seed <;> rfl
  | some path =>
    simp only [Options.settings, config?, Option.toList_some, List.mapM_cons, List.mapM_nil,
      Setting.ofConfigFile]
    cases Config.ofFile (files path) with
    | error f => rfl
    | ok c =>
      cases lexicon with
      | none => cases seed <;> rfl
      | some path =>
        simp only [lexicon?, Option.toList_some, List.mapM_cons, List.mapM_nil,
          Setting.ofOverrideFile]
        cases Override.ofFile (files path) with
        | error f => rfl
        | ok v => cases seed <;> rfl

theorem laws_eq_ok [RandomSource σ] {source : Option UInt64 → σ} :
    o.laws files source = .ok laws ↔ ∃ count g, checkedQuantity o.quantity = .ok count ∧
      generator? files source o.config o.seed o.lexicon = some g ∧ (g.many count).1 = .ok laws := by
  have hgenerator : generator? files source o.config o.seed o.lexicon =
      (o.settings files).toOption.map fun s => s.generator (source s.config.seed) := by
    rw [toOption_settings]
    cases hc : config? files o.config <;> cases hL : lexicon? files o.lexicon <;>
      simp [generator?, Settings.generator, hc, hL]
  rw [hgenerator, Options.laws]
  cases checkedQuantity o.quantity with
  | error e => simp [bind, Except.bind]
  | ok count =>
    cases o.settings files with
    | error e => simp [bind, Except.bind, Except.toOption]
    | ok s =>
      change ((s.generator (source s.config.seed)).many count).1.mapError Failure.generation = _ ↔ _
      simp [Except.toOption, mapError_eq_ok]

end BillGrammar.LawCommand
