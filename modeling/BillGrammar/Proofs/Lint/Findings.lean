import BillGrammar.Proofs.Lexicon.Texts
import BillGrammar.Proofs.Lint.Reference

namespace BillGrammar

open Relation

def Template.Leads (text : String) (u : Table) : Prop :=
  ∃ token, Mentions text token ∧ ∃ a ∈ BillGrammar.alternatives token,
    ∃ r, Request.parse a = .ok r ∧ r.table? = some u

instance {u : Table} : Decidable (Template.Leads text u) :=
  decidable_of_iff (u ∈ Template.tables text) Template.mem_tables

def LintError.empty? : LintError → Option Table
  | .empty t => some t
  | .entry .. | .endless _ => none

def LintError.endless? : LintError → Option Table
  | .endless t => some t
  | .entry .. | .empty _ => none

def LintWarning.unreached? : LintWarning → Option Table
  | .unreached t => some t
  | .small .. | .recursive _ => none

def LintWarning.recursive? : LintWarning → Option Table
  | .recursive t => some t
  | .small .. | .unreached _ => none

namespace Lexicon

def Leads (L : Lexicon) (t u : Table) : Prop := ∃ x ∈ L.texts t, Template.Leads x u

def Endless (L : Lexicon) (t : Table) : Prop :=
  L.size t ≠ 0 ∧ ∀ x ∈ L.texts t, Template.Leads x t

def lintOver (L : Lexicon) (graph : ReferenceGraph) : LintReport :=
  let reached := graph.reachedFrom .skeletons
  let endless := reached.filter L.isEndless
  { errors :=
      Table.all.flatMap L.entryErrors
        ++ (reached.filter (L.size · == 0)).map .empty
        ++ endless.map .endless
    warnings :=
      (Table.all.filterMap fun t =>
        if reached.contains t then L.sizeWarning? t else some (.unreached t))
        ++ (reached.filter fun t => !endless.contains t && graph.isRecursive t).map .recursive }

variable {L : Lexicon} {g : ReferenceGraph}

theorem lintOver_referenceGraph : L.lintOver L.referenceGraph = L.lint := rfl

theorem leads_iff {t u : Table} : L.Leads t u ↔ u ∈ L.references t := by
  simp only [Leads, references, Template.Leads, ← Template.mem_tables, List.mem_filter,
    Table.mem_all, true_and, List.contains_iff_mem, List.mem_flatMap]

theorem refers_eq_leads (hg : ∀ t u, u ∈ g.targets t ↔ L.Leads t u) : g.Refers = L.Leads := by
  funext t u
  exact propext (hg t u)

theorem mem_targets_referenceGraph (t u : Table) :
    u ∈ L.referenceGraph.targets t ↔ L.Leads t u := by
  rw [targets_referenceGraph, leads_iff]

instance {t u : Table} : Decidable (ReflTransGen L.Leads t u) :=
  decidable_of_iff (u ∈ L.referenceGraph.reachedFrom t) <| by
    rw [ReferenceGraph.mem_reachedFrom, refers_eq_leads mem_targets_referenceGraph]

instance {t : Table} : Decidable (TransGen L.Leads t t) :=
  decidable_of_iff (L.referenceGraph.isRecursive t) <| by
    rw [ReferenceGraph.isRecursive_iff, refers_eq_leads mem_targets_referenceGraph]

instance {t : Table} : Decidable (L.Endless t) := inferInstanceAs (Decidable (_ ∧ _))

theorem isEndless_iff {t : Table} : L.isEndless t ↔ L.Endless t := by
  have hsize : L.texts t ≠ [] ↔ L.size t ≠ 0 := by
    have hforms : t.kind.forms ≠ 0 := Nat.ne_zero_of_lt (t.kind.position_zero_lt .default)
    rw [← List.length_pos_iff, length_texts, Nat.pos_iff_ne_zero, Nat.mul_ne_zero_iff]
    exact and_iff_left hforms
  simp only [isEndless, Bool.and_eq_true, Bool.not_eq_true', List.isEmpty_eq_false_iff,
    List.all_eq_true, List.contains_iff_mem, Template.mem_tables, hsize]
  rfl

theorem reachedFrom_eq (hg : ∀ t u, u ∈ g.targets t ↔ L.Leads t u) (t : Table) :
    g.reachedFrom t = Table.all.filter fun u => ReflTransGen L.Leads t u := by
  have hmem (u : Table) : u ∈ g.reachedFrom t ↔ ReflTransGen L.Leads t u := by
    rw [ReferenceGraph.mem_reachedFrom, refers_eq_leads hg]
  simp only [ReferenceGraph.reachedFrom, List.mem_filter, Table.mem_all, true_and] at hmem ⊢
  refine List.filter_congr fun u _ => ?_
  rw [Bool.eq_iff_iff, hmem, decide_eq_true_iff]

theorem lintOver_eq (hg : ∀ t u, u ∈ g.targets t ↔ L.Leads t u) : L.lintOver g = L.lint := by
  have hrecursive (t : Table) : g.isRecursive t = L.referenceGraph.isRecursive t := by
    rw [Bool.eq_iff_iff, ReferenceGraph.isRecursive_iff, ReferenceGraph.isRecursive_iff,
      refers_eq_leads hg, refers_eq_leads mem_targets_referenceGraph]
  rw [← lintOver_referenceGraph, lintOver, lintOver]
  simp only [reachedFrom_eq hg, reachedFrom_eq mem_targets_referenceGraph, hrecursive]

theorem filter_reachedFrom (p : Table → Bool) :
    (L.referenceGraph.reachedFrom .skeletons).filter p =
      Table.all.filter fun t => ReflTransGen L.Leads .skeletons t ∧ p t := by
  rw [reachedFrom_eq mem_targets_referenceGraph, List.filter_filter]
  refine List.filter_congr fun t _ => ?_
  rw [Bool.eq_iff_iff]
  simp [and_comm]

theorem filterMap_entryErrors {f : LintError → Option Table}
    (hf : ∀ t x fault, f (.entry t x fault) = none) :
    (Table.all.flatMap L.entryErrors).filterMap f = [] := by
  simp only [List.filterMap_eq_nil_iff, List.mem_flatMap, entryErrors, List.mem_map]
  rintro _ ⟨t, -, x, -, fault, -, rfl⟩
  exact hf t x fault

theorem filterMap_empty? :
    L.lint.errors.filterMap LintError.empty? =
      Table.all.filter fun t => ReflTransGen L.Leads .skeletons t ∧ L.size t = 0 := by
  have hentries := filterMap_entryErrors (L := L) (f := LintError.empty?) fun _ _ _ => rfl
  have hempty (ts : List Table) : (ts.map LintError.empty).filterMap LintError.empty? = ts := by
    simp [List.filterMap_map, Function.comp_def, LintError.empty?]
  have hendless (ts : List Table) : (ts.map LintError.endless).filterMap LintError.empty? = [] := by
    simp [LintError.empty?]
  simp only [lint, List.filterMap_append, hentries, hempty, hendless, List.nil_append,
    List.append_nil, filter_reachedFrom, beq_iff_eq]

theorem filterMap_endless? :
    L.lint.errors.filterMap LintError.endless? =
      Table.all.filter fun t => ReflTransGen L.Leads .skeletons t ∧ L.Endless t := by
  have hentries := filterMap_entryErrors (L := L) (f := LintError.endless?) fun _ _ _ => rfl
  have hempty (ts : List Table) : (ts.map LintError.empty).filterMap LintError.endless? = [] := by
    simp [LintError.endless?]
  have hendless (ts : List Table) :
      (ts.map LintError.endless).filterMap LintError.endless? = ts := by
    simp [List.filterMap_map, Function.comp_def, LintError.endless?]
  simp only [lint, List.filterMap_append, hentries, hempty, hendless, List.nil_append,
    filter_reachedFrom, isEndless_iff]

theorem filterMap_unreached? :
    L.lint.warnings.filterMap LintWarning.unreached? =
      Table.all.filter fun t => ¬ ReflTransGen L.Leads .skeletons t := by
  have hsize (t : Table) : (L.sizeWarning? t).bind LintWarning.unreached? = none := by
    simp only [sizeWarning?]
    split <;> rfl
  have hrecursive (ts : List Table) :
      (ts.map LintWarning.recursive).filterMap LintWarning.unreached? = [] := by
    simp [LintWarning.unreached?]
  simp only [lint, List.filterMap_append, hrecursive, List.append_nil, List.filterMap_filterMap,
    ← List.filterMap_eq_filter]
  refine List.filterMap_congr fun t _ => ?_
  by_cases ht : ReflTransGen L.Leads .skeletons t
  · simp [reachedFrom_eq mem_targets_referenceGraph, t.mem_all, ht, hsize, Option.guard]
  · simp [reachedFrom_eq mem_targets_referenceGraph, ht, LintWarning.unreached?, Option.guard]

theorem filterMap_recursive? :
    L.lint.warnings.filterMap LintWarning.recursive? =
      Table.all.filter fun t =>
        ReflTransGen L.Leads .skeletons t ∧ ¬ L.Endless t ∧ TransGen L.Leads t t := by
  have hothers (t : Table) (p : Bool) :
      (if p then L.sizeWarning? t else some (.unreached t)).bind LintWarning.recursive? = none := by
    simp only [sizeWarning?]
    split
    · split <;> rfl
    · rfl
  have hrecursive (ts : List Table) :
      (ts.map LintWarning.recursive).filterMap LintWarning.recursive? = ts := by
    simp [List.filterMap_map, Function.comp_def, LintWarning.recursive?]
  simp only [lint, List.filterMap_append, List.filterMap_filterMap, hothers, hrecursive,
    List.filterMap_none, List.nil_append, filter_reachedFrom]
  refine List.filter_congr fun t _ => ?_
  have hg := refers_eq_leads (L := L) mem_targets_referenceGraph
  by_cases ht : ReflTransGen L.Leads .skeletons t
  · simp [isEndless_iff, ReferenceGraph.isRecursive_iff, hg, t.mem_all, ht]
  · simp [ht]

/-- Searches end by themselves, lint does not depend on the order in which they find references, and
what it says of the references between tables is said of exactly the tables for which it holds. -/
theorem lint_graph_exact (L : Lexicon) (g : ReferenceGraph)
    (hg : ∀ t u, u ∈ g.targets t ↔ L.Leads t u) :
    (∀ t rounds, Table.all.length ≤ rounds →
      g.search rounds Table.all [t] = g.search Table.all.length Table.all [t]) ∧
    L.lintOver g = L.lint ∧
    (L.lintOver g).warnings.filterMap LintWarning.unreached? =
      (Table.all.filter fun t => ¬ ReflTransGen L.Leads .skeletons t) ∧
    (L.lintOver g).errors.filterMap LintError.empty? =
      (Table.all.filter fun t => ReflTransGen L.Leads .skeletons t ∧ L.size t = 0) ∧
    (L.lintOver g).errors.filterMap LintError.endless? =
      (Table.all.filter fun t => ReflTransGen L.Leads .skeletons t ∧ L.Endless t) ∧
    (L.lintOver g).warnings.filterMap LintWarning.recursive? =
      Table.all.filter fun t =>
        ReflTransGen L.Leads .skeletons t ∧ ¬ L.Endless t ∧ TransGen L.Leads t t := by
  have hlint := lintOver_eq hg
  rw [hlint]
  exact ⟨fun t rounds h => ReferenceGraph.search_of_length_le h (Nat.le_refl _), rfl,
    filterMap_unreached?, filterMap_empty?, filterMap_endless?, filterMap_recursive?⟩

theorem lint_graph_exact_backwards :
    let L := ofPhrases ["\x7bpredicate\x7d, \x7bdrug\x7d"] ["\x7bproblem|number\x7d", "ley"]
      ["\x7bpredicate\x7d \x7bproblem\x7d"]
    let g : ReferenceGraph :=
      Table.all.reverse.map fun t => (t, (L.references t).reverse ++ L.references t)
    (∀ t u, u ∈ g.targets t ↔ L.Leads t u) ∧ L.lintOver g = L.lint ∧
      (L.lintOver g).errors.filterMap LintError.empty? = [.drugs] ∧
      (L.lintOver g).errors.filterMap LintError.endless? = [.problems] ∧
      (L.lintOver g).warnings.filterMap LintWarning.recursive? = [.predicates] ∧
      (L.lintOver g).warnings.filterMap LintWarning.unreached? =
        [.subjects, .objects, .establishments, .personActions, .establishmentActions, .resources,
          .diseases] := by
  intro L g
  have htargets (t : Table) : g.targets t = (L.references t).reverse ++ L.references t := by
    cases t <;> rfl
  have hg (t u : Table) : u ∈ g.targets t ↔ L.Leads t u := by
    simp [htargets, leads_iff]
  obtain ⟨-, hlint, hunreached, hempty, hendless, hrecursive⟩ := lint_graph_exact L g hg
  rw [hunreached, hempty, hendless, hrecursive]
  refine ⟨hg, hlint, ?_⟩
  decide +kernel

end Lexicon

end BillGrammar
