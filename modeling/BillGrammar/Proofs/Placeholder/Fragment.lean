import BillGrammar.Placeholder.Fragment
import BillGrammar.Proofs.Placeholder.NumberText
import BillGrammar.Proofs.Sampler.Failure
import BillGrammar.Proofs.Text.Field

namespace BillGrammar

open Template Sampler

variable {U : Binary64 → Prop} {L : Lexicon}

theorem alternatives_of_mem (h : a ∈ alternatives token) : alternatives a = [a] :=
  Text.fields_of_mem_fields h

theorem Request.table?_eq_none_iff {r : Request} : r.table? = none ↔ r.category = .number := by
  unfold table?
  cases r.category <;> simp

theorem Request.table?_ne_skeletons (r : Request) : r.table? ≠ some .skeletons := by
  unfold table?
  grind

theorem Request.parse_eq (a : String) :
    Request.parse a = (Category.parse (Text.cutAt ':' (Text.headField ',' a).1).1).map fun c =>
      ⟨c, ((Text.cutAt ':' (Text.headField ',' a).1).2.map Form.ofTag).getD .default,
        (Text.headField ',' a).2⟩ := by
  simp only [parse]
  generalize Category.parse _ = c
  cases c <;> rfl

theorem Request.exists_eq_of_parse_error (h : Request.parse a = .error e) :
    ∃ name, e = .unrecognizedCategory name := by
  rw [parse_eq] at h
  unfold Category.parse at h
  grind [Except.map]

theorem Request.exists_eq_of_range_error {r : Request} (h : r.range a = .error e) :
    ∃ fault, e = .malformedNumber a fault := by
  unfold range at h
  cases hr : NumberRange.ofParameters r.parameters with
  | error fault =>
    rw [hr] at h
    cases h
    exact ⟨fault, rfl⟩
  | ok n =>
    rw [hr] at h
    cases h

theorem Table.yields_pick_ok {t : Table} {entries : List α} :
    (t.pick entries).run.Yields U (.ok e) ↔ e ∈ entries := by
  unfold Table.pick
  split
  · simp_all
  · simp

theorem Table.yields_pick_error {t : Table} {entries : List α} :
    (t.pick entries).run.Yields U (.error e) ↔ entries = [] ∧ e = .emptyTable t := by
  unfold Table.pick
  split
  · simp_all
  · simp_all

theorem NumberRange.yields_sample {n : NumberRange} :
    n.sample.Yields U f ↔ ∃ u, U u ∧ f = n.render u := by
  simp [NumberRange.sample]

theorem EntryKind.inflect_mem_texts (k : EntryKind) (form : Form) (e : k.Entry) :
    k.inflect form e ∈ k.texts e := by
  cases k <;> cases form <;> simp [inflect, texts, Noun.inflect, Action.inflect]

namespace Lexicon

def Scans (L : Lexicon) : Prop := ∀ t, ∀ x ∈ L.texts t, Template.Scans x

instance : Decidable L.Scans :=
  decidable_of_iff (∀ t ∈ Table.all, ∀ x ∈ L.texts t, Template.Scans x)
    ⟨fun h t => h t t.mem_all, fun h t _ => h t⟩

def ofPhrases (skeletons predicates problems : List String) : Lexicon where
  entries
    | .skeletons => skeletons
    | .predicates => predicates
    | .problems => problems
    | _ => []

/-- What can become of an alternative, with fractions that satisfy `U`. -/
inductive Fulfils (L : Lexicon) (U : Binary64 → Prop) (a : String) :
    Except PlaceholderError String → Prop
  | entry {t : Table} {e : t.Entry} : Request.parse a = .ok r → r.table? = some t →
      e ∈ L.entries t → Fulfils L U a (.ok (t.kind.inflect r.form e))
  | number : Request.parse a = .ok r → r.table? = none → r.range a = .ok n → U u →
      Fulfils L U a (.ok (n.render u))
  | unread : Request.parse a = .error e → Fulfils L U a (.error e)
  | empty : Request.parse a = .ok r → r.table? = some t → L.entries t = [] →
      Fulfils L U a (.error (.emptyTable t))
  | range : Request.parse a = .ok r → r.table? = none → r.range a = .error e →
      Fulfils L U a (.error e)

theorem yields_draw_ok {t : Table} :
    (L.draw t form).run.Yields U (.ok f) ↔ ∃ e ∈ L.entries t, f = t.kind.inflect form e := by
  simp only [draw, yields_run_map_ok, Table.yields_pick_ok]

theorem yields_draw_error {t : Table} :
    (L.draw t form).run.Yields U (.error e) ↔ L.entries t = [] ∧ e = .emptyTable t := by
  simp only [draw, yields_run_map_error, Table.yields_pick_error]

theorem fulfils_of_yields (h : (L.fulfil a).run.Yields U r) : L.Fulfils U a r := by
  rw [fulfil, yields_run_bind] at h
  rcases h with ⟨request, hr, h⟩ | ⟨e, hr, rfl⟩
  · rw [yields_run_liftExcept] at hr
    split at h
    case h_1 t ht =>
      cases r with
      | ok f =>
        obtain ⟨e, he, rfl⟩ := yields_draw_ok.mp h
        exact .entry hr.symm ht he
      | error e =>
        obtain ⟨he, rfl⟩ := yields_draw_error.mp h
        exact .empty hr.symm ht he
    case h_2 ht =>
      rw [yields_run_bind] at h
      rcases h with ⟨n, hn, h⟩ | ⟨e, hn, rfl⟩
      · rw [yields_run_liftExcept] at hn
        obtain ⟨f, hf, rfl⟩ := yields_run_lift.mp h
        obtain ⟨u, hu, rfl⟩ := NumberRange.yields_sample.mp hf
        exact .number hr.symm ht hn.symm hu
      · rw [yields_run_liftExcept] at hn
        exact .range hr.symm ht hn.symm
  · rw [yields_run_liftExcept] at hr
    exact .unread hr.symm

theorem yields_of_fulfils (h : L.Fulfils U a r) : (L.fulfil a).run.Yields U r := by
  rw [fulfil, yields_run_bind]
  cases h with
  | @entry request t e hr ht he =>
    refine .inl ⟨request, yields_run_liftExcept.mpr hr.symm, ?_⟩
    rw [ht]
    exact yields_draw_ok.mpr ⟨e, he, rfl⟩
  | @number request n u hr ht hn hu =>
    refine .inl ⟨request, yields_run_liftExcept.mpr hr.symm, ?_⟩
    rw [ht, yields_run_bind]
    exact .inl ⟨n, yields_run_liftExcept.mpr hn.symm,
      yields_run_lift.mpr ⟨_, NumberRange.yields_sample.mpr ⟨u, hu, rfl⟩, rfl⟩⟩
  | @unread e hr => exact .inr ⟨e, yields_run_liftExcept.mpr hr.symm, rfl⟩
  | @empty request t hr ht he =>
    refine .inl ⟨request, yields_run_liftExcept.mpr hr.symm, ?_⟩
    rw [ht]
    exact yields_draw_error.mpr ⟨he, rfl⟩
  | @range request e hr ht hn =>
    refine .inl ⟨request, yields_run_liftExcept.mpr hr.symm, ?_⟩
    rw [ht, yields_run_bind]
    exact .inr ⟨e, yields_run_liftExcept.mpr hn.symm, rfl⟩

theorem yields_fragment :
    (L.fragment token).run.Yields U r ↔ ∃ a ∈ alternatives token, L.Fulfils U a r := by
  rw [fragment, yields_run_bind]
  constructor
  · rintro (⟨a, ha, h⟩ | ⟨e, he, -⟩)
    · exact ⟨a, by simpa [chooseAlternative] using ha, fulfils_of_yields h⟩
    · simp at he
  · rintro ⟨a, ha, h⟩
    exact .inl ⟨a, by simpa [chooseAlternative] using ha, yields_of_fulfils h⟩

theorem inflect_mem_texts {t : Table} {e : t.Entry} (he : e ∈ L.entries t) (form : Form) :
    t.kind.inflect form e ∈ L.texts t :=
  List.mem_flatMap.mpr ⟨e, he, t.kind.inflect_mem_texts form e⟩

theorem Scans.skeleton (hL : L.Scans) (ht : t ∈ L.entries .skeletons) : Template.Scans t :=
  hL .skeletons t (inflect_mem_texts ht .default)

theorem scans_of_fulfils (hL : L.Scans) (h : L.Fulfils U a (.ok f)) : Template.Scans f := by
  cases h with
  | entry _ _ he => exact hL _ _ (inflect_mem_texts he _)
  | number => exact (NumberRange.plain_render _ _).scans

theorem scans_of_fragment (hL : L.Scans) (h : (L.fragment token).run.Yields U (.ok f)) :
    Template.Scans f := by
  obtain ⟨a, -, h⟩ := yields_fragment.mp h
  exact scans_of_fulfils hL h

end Lexicon

end BillGrammar
