import BillGrammar.Lint.Report
import BillGrammar.Proofs.Lint.Reachability
import BillGrammar.Proofs.Placeholder.Fragment

namespace BillGrammar

open Template

namespace Template

theorem exists_alternatives_of_mentions (h : Mentions text token)
    (ha : a ∈ BillGrammar.alternatives token) :
    ∃ as, Template.alternatives text = .ok as ∧ a ∈ as := by
  obtain ⟨segments, hs, ht⟩ := h
  refine ⟨_, by rw [Template.alternatives, hs]; rfl, ?_⟩
  exact List.mem_flatMap.mpr ⟨_, ht, ha⟩

theorem exists_mentions_of_alternatives (h : Template.alternatives text = .ok as) (ha : a ∈ as) :
    ∃ token, Mentions text token ∧ a ∈ BillGrammar.alternatives token := by
  rw [Template.alternatives] at h
  obtain ⟨segments, hs, rfl⟩ := eq_ok_of_map_eq_ok h
  obtain ⟨s, hmem, ha⟩ := List.mem_flatMap.mp ha
  cases s with
  | literal x => simp at ha
  | placeholder token => exact ⟨token, ⟨segments, hs, hmem⟩, ha⟩

theorem mem_tables {u : Table} :
    u ∈ tables text ↔ ∃ token, Mentions text token ∧ ∃ a ∈ BillGrammar.alternatives token,
      ∃ r, Request.parse a = .ok r ∧ r.table? = some u := by
  unfold tables
  constructor
  · intro h
    split at h
    case h_1 as has =>
      obtain ⟨a, ha, hu⟩ := List.mem_filterMap.mp h
      obtain ⟨token, ht, ha⟩ := exists_mentions_of_alternatives has ha
      refine ⟨token, ht, a, ha, ?_⟩
      cases hr : Request.parse a with
      | error e => simp [hr, Except.toOption] at hu
      | ok r => exact ⟨r, rfl, by simpa [hr, Except.toOption] using hu⟩
    case h_2 => simp at h
  · rintro ⟨token, ht, a, ha, r, hr, hu⟩
    obtain ⟨as, has, ha⟩ := exists_alternatives_of_mentions ht ha
    simp only [has]
    exact List.mem_filterMap.mpr ⟨a, ha, by simpa [hr, Except.toOption] using hu⟩

end Template

theorem alternativeFault?_of_parse (h : Request.parse a = .error e) :
    alternativeFault? a = some e := by
  unfold alternativeFault?
  generalize Request.parse a = q at h
  subst h
  rfl

theorem alternativeFault?_of_ok (h : Request.parse a = .ok r) :
    alternativeFault? a =
      if r.category = .number then
        match r.range a with
        | .error e => some e
        | .ok _ => none
      else none := by
  unfold alternativeFault?
  generalize Request.parse a = q at h
  subst h
  rfl

theorem alternativeFault?_of_table {t : Table} (hr : Request.parse a = .ok r)
    (ht : r.table? = some t) : alternativeFault? a = none := by
  have hn : r.category ≠ .number := fun h => by simp [Request.table?_eq_none_iff.mpr h] at ht
  rw [alternativeFault?_of_ok hr, if_neg hn]

theorem alternativeFault?_of_number (hr : Request.parse a = .ok r) (hn : r.range a = .ok n) :
    alternativeFault? a = none := by
  simp only [alternativeFault?_of_ok hr, hn, ite_self]

theorem alternativeFault?_of_range (hr : Request.parse a = .ok r) (ht : r.table? = none)
    (h : r.range a = .error e) : alternativeFault? a = some e := by
  have hn : r.category = .number := Request.table?_eq_none_iff.mp ht
  simp only [alternativeFault?_of_ok hr, hn, ↓reduceIte, h]

namespace Lexicon

variable {L : Lexicon}

def Mentions (L : Lexicon) (t : Table) (token : String) : Prop :=
  ∃ x ∈ L.texts t, Template.Mentions x token

theorem mem_references {t u : Table} :
    u ∈ L.references t ↔ ∃ token, L.Mentions t token ∧ ∃ a ∈ alternatives token,
      ∃ r, Request.parse a = .ok r ∧ r.table? = some u := by
  simp only [references, List.mem_filter, Table.mem_all, true_and, List.contains_iff_mem,
    List.mem_flatMap, mem_tables]
  constructor
  · rintro ⟨x, hx, token, ht, h⟩
    exact ⟨token, ⟨x, hx, ht⟩, h⟩
  · rintro ⟨token, ⟨x, hx, ht⟩, h⟩
    exact ⟨x, hx, token, ht, h⟩

theorem refers_iff {t u : Table} : L.referenceGraph.Refers t u ↔ u ∈ L.references t := by
  rw [ReferenceGraph.Refers, targets_referenceGraph]

def Reached (L : Lexicon) (t : Table) : Prop := t ∈ L.referenceGraph.reachedFrom .skeletons

theorem reached_skeletons : L.Reached .skeletons := ReferenceGraph.mem_reachedFrom.mpr .refl

theorem Reached.step {t u : Table} (ht : L.Reached t) (hu : u ∈ L.references t) : L.Reached u :=
  ReferenceGraph.mem_reachedFrom.mpr
    (.tail (ReferenceGraph.mem_reachedFrom.mp ht) (refers_iff.mpr hu))

/-! Reports of errors. -/

theorem entry_mem_errors {t : Table} (hx : x ∈ L.texts t) (h : fault ∈ textFaults x) :
    .entry t x fault ∈ L.lint.errors := by
  have hmem : LintError.entry t x fault ∈ Table.all.flatMap L.entryErrors :=
    List.mem_flatMap.mpr ⟨t, t.mem_all, List.mem_flatMap.mpr ⟨x, hx, List.mem_map_of_mem h⟩⟩
  simp only [lint, List.mem_append]
  exact .inl (.inl hmem)

theorem exists_entry_mem_errors {t : Table} (h : L.Mentions t token) (ha : a ∈ alternatives token)
    (he : alternativeFault? a = some e) : ∃ x, .entry t x (.placeholder e) ∈ L.lint.errors := by
  obtain ⟨x, hx, h⟩ := h
  obtain ⟨as, has, ha⟩ := exists_alternatives_of_mentions h ha
  refine ⟨x, entry_mem_errors hx ?_⟩
  simp only [textFaults, has]
  exact List.mem_map_of_mem (List.mem_filterMap.mpr ⟨a, ha, he⟩)

theorem empty_mem_errors {t : Table} (ht : L.Reached t) (he : L.entries t = []) :
    .empty t ∈ L.lint.errors := by
  have hmem : t ∈ (L.referenceGraph.reachedFrom .skeletons).filter (L.size · == 0) :=
    List.mem_filter.mpr ⟨ht, by simp [size, he]⟩
  simp only [lint, List.mem_append]
  exact .inl (.inr (List.mem_map_of_mem hmem))

theorem endless_or_recursive_mem {t : Table} (ht : L.Reached t)
    (hr : L.referenceGraph.isRecursive t) :
    .endless t ∈ L.lint.errors ∨ .recursive t ∈ L.lint.warnings := by
  by_cases he : t ∈ (L.referenceGraph.reachedFrom .skeletons).filter L.isEndless
  · refine .inl ?_
    simp only [lint, List.mem_append]
    exact .inr (List.mem_map_of_mem he)
  · refine .inr ?_
    simp only [lint, List.mem_append]
    exact .inr (List.mem_map_of_mem (List.mem_filter.mpr ⟨ht, by simp [he, hr]⟩))

theorem endless_mem_errors_iff {t : Table} :
    .endless t ∈ L.lint.errors ↔ L.Reached t ∧ L.isEndless t := by
  simp [lint, entryErrors, Reached]

theorem unreached_mem_warnings_iff {t : Table} :
    .unreached t ∈ L.lint.warnings ↔ ¬ L.Reached t := by
  have hsize (u : Table) : L.sizeWarning? u ≠ some (.unreached t) := by
    unfold sizeWarning?
    grind
  simp only [lint, List.mem_append, List.mem_filterMap, Table.mem_all, true_and, List.mem_map,
    reduceCtorEq, and_false, exists_false, or_false, List.contains_iff_mem]
  constructor
  · rintro ⟨u, hu⟩
    split at hu
    · exact absurd hu (hsize u)
    · cases hu
      assumption
  · intro h
    exact ⟨t, if_neg h⟩

theorem not_mem_errors (h : L.lint.isClean) (e : LintError) : e ∉ L.lint.errors := by
  rw [LintReport.isClean, List.isEmpty_iff] at h
  simp [h]

theorem scans_of_isClean (h : L.lint.isClean) : L.Scans := by
  intro t x hx
  cases hs : scan x with
  | ok segments => exact ⟨segments, hs⟩
  | error e =>
    have hfault : .template e ∈ textFaults x := by
      rw [textFaults, Template.alternatives, hs]
      exact List.mem_singleton.mpr rfl
    exact absurd (entry_mem_errors hx hfault) (not_mem_errors h _)

end Lexicon

end BillGrammar
