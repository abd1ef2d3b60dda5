import BillGrammar.Proofs.Lint.Reference

namespace BillGrammar

open Template Sampler

def LintError.isEntry : LintError → Bool
  | .entry .. => true
  | .empty _ | .endless _ => false

def entryFault? : Except PlaceholderError String → Option PlaceholderError
  | .error (.unrecognizedCategory name) => some (.unrecognizedCategory name)
  | .error (.malformedNumber token fault) => some (.malformedNumber token fault)
  | .error (.emptyTable _) => none
  | .ok _ => none

theorem entryFault?_of_parse (h : Request.parse a = .error e) :
    entryFault? (.error e) = some e := by
  obtain ⟨name, rfl⟩ := Request.exists_eq_of_parse_error h
  rfl

theorem entryFault?_of_range {r : Request} (h : r.range a = .error e) :
    entryFault? (.error e) = some e := by
  obtain ⟨fault, rfl⟩ := Request.exists_eq_of_range_error h
  rfl

namespace Lexicon

variable {L : Lexicon} {U : Binary64 → Prop}

theorem Fulfils.alternativeFault?_eq (h : L.Fulfils U a r) :
    alternativeFault? a = entryFault? r := by
  cases h with
  | entry hr ht => exact alternativeFault?_of_table hr ht
  | number hr _ hn => exact alternativeFault?_of_number hr hn
  | unread hr => rw [alternativeFault?_of_parse hr, entryFault?_of_parse hr]
  | empty hr ht => exact alternativeFault?_of_table hr ht
  | range hr ht hn => rw [alternativeFault?_of_range hr ht hn, entryFault?_of_range hn]

variable {σ : Type} [RandomSource σ]

theorem entryFault?_run_fragment (ha : alternatives a = [a]) (s : σ) :
    entryFault? ((L.fragment a).run.run s).1 = alternativeFault? a := by
  have hrun := yields_run (U := fun _ => True) (fun _ => trivial) (L.fragment a).run s
  obtain ⟨b, hb, h⟩ := yields_fragment.mp hrun
  rw [ha, List.mem_singleton] at hb
  subst hb
  exact h.alternativeFault?_eq.symm

/-- The faults met in a text: that it does not scan, or else, from left to right, those for which
its alternatives are not resolved.  Each of them is taken as a token and given a source. -/
def drawnFaults (L : Lexicon) (source : String → σ) (text : String) : List TextFault :=
  match scan text with
  | .error e => [.template e]
  | .ok segments => segments.flatMap fun
    | .literal _ => []
    | .placeholder token => (alternatives token).filterMap fun a =>
        (entryFault? ((L.fragment a).run.run (source a)).1).map .placeholder

theorem drawnFaults_eq (source : String → σ) (text : String) :
    L.drawnFaults source text = textFaults text := by
  unfold drawnFaults textFaults Template.alternatives
  cases scan text with
  | error e => rfl
  | ok segments =>
    simp only [Except.map, List.filterMap_flatMap, List.map_flatMap]
    congr 1
    funext s
    cases s with
    | literal x => rfl
    | placeholder token =>
      simp only [List.map_filterMap]
      refine List.filterMap_congr fun a ha => ?_
      rw [entryFault?_run_fragment (alternatives_of_mem ha)]

theorem filter_isEntry_entryErrors (t : Table) :
    (L.entryErrors t).filter LintError.isEntry = L.entryErrors t := by
  simp only [entryErrors, List.filter_eq_self, List.mem_flatMap, List.mem_map]
  rintro _ ⟨x, -, fault, -, rfl⟩
  rfl

theorem filter_isEntry_errors :
    L.lint.errors.filter LintError.isEntry = Table.all.flatMap L.entryErrors := by
  have hempty (ts : List Table) : (ts.map LintError.empty).filter LintError.isEntry = [] := by
    simp [LintError.isEntry]
  have hendless (ts : List Table) : (ts.map LintError.endless).filter LintError.isEntry = [] := by
    simp [LintError.isEntry]
  simp only [lint, List.filter_append, hempty, hendless, List.append_nil, List.filter_flatMap,
    filter_isEntry_entryErrors]

/-- The errors of entries, and their lines, are those of drawing in the order of tables, texts,
placeholders and alternatives, whatever the sources. -/
theorem entry_errors_exact (L : Lexicon) (source : String → σ) :
    L.lint.errors.filter LintError.isEntry =
        (Table.all.flatMap fun t => (L.texts t).flatMap fun x =>
          (L.drawnFaults source x).map (.entry t x)) ∧
      (L.lint.errors.filter LintError.isEntry).map LintError.message =
        Table.all.flatMap fun t => (L.texts t).flatMap fun x =>
          (L.drawnFaults source x).map fun fault =>
            s!"Table '{t.name}' entry '{x}': {fault.message}" := by
  have herrors : L.lint.errors.filter LintError.isEntry =
      Table.all.flatMap fun t => (L.texts t).flatMap fun x =>
        (L.drawnFaults source x).map (.entry t x) := by
    simp only [filter_isEntry_errors, drawnFaults_eq]
    rfl
  refine ⟨herrors, ?_⟩
  simp only [herrors, List.map_flatMap, List.map_map]
  rfl

end Lexicon

end BillGrammar
