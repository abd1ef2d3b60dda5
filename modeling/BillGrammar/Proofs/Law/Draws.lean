import BillGrammar.Law.Generator
import BillGrammar.Proofs.Law.Expansion
import BillGrammar.Proofs.Placeholder.Draws
import Mathlib.Algebra.Ring.Parity

/-!
The draws for a law.  Pass after pass, and from left to right in each, a placeholder that is
replaced takes a pair of draws; one that is not takes a single draw and ends the run.
-/

namespace BillGrammar

open Template Sampler

/-- Two draws for each placeholder, the first of them for an alternative. -/
inductive Pairs : List Draw → Prop
  | nil : Pairs []
  | cons (i : Fin k) (d : Draw) : Pairs ds → Pairs (.choice k i :: d :: ds)

theorem Pairs.append (h : Pairs ds) (h' : Pairs es) : Pairs (ds ++ es) := by
  induction h with
  | nil => exact h'
  | cons i d h ih => exact .cons i d ih

theorem Pairs.even_length (h : Pairs ds) : Even ds.length := by
  induction h with
  | nil => exact Even.zero
  | cons i d h ih => simpa [Nat.even_add_one] using ih

namespace Lexicon

inductive PassDraws (L : Lexicon) :
    List Segment → List Draw → Except GenerationError String → Prop
  | nil : PassDraws L [] [] (.ok "")
  | literal : PassDraws L segments ds r →
      PassDraws L (.literal text :: segments) ds (r.map (text ++ ·))
  | placeholder : L.TokenDraws token ds (.ok f) → PassDraws L segments es r →
      PassDraws L (.placeholder token :: segments) (ds ++ es) (r.map (f ++ ·))
  | fails : L.TokenDraws token ds (.error e) →
      PassDraws L (.placeholder token :: segments) ds (.error (.placeholder e))

/-- The draws of the passes over a text, of which so many are left: those of each pass behind those
of the one before it. -/
inductive ExpansionDraws (L : Lexicon) (passes : Nat) :
    Nat → String → List Draw → Except GenerationError String → Prop
  | settled : Plain t → ExpansionDraws L passes left t [] (.ok t)
  | unreadable : scan t = .error e → ExpansionDraws L passes left t [] (.error (.template e))
  | exceeded : ¬ Plain t → Template.Scans t →
      ExpansionDraws L passes 0 t [] (.error (.depthExceeded passes))
  | fails : ¬ Plain t → scan t = .ok segments → L.PassDraws segments ds (.error e) →
      ExpansionDraws L passes (left + 1) t ds (.error e)
  | pass : ¬ Plain t → scan t = .ok segments → L.PassDraws segments ds (.ok t') →
      ExpansionDraws L passes left t' es r → ExpansionDraws L passes (left + 1) t (ds ++ es) r

/-- The draws end with the choice of an alternative that fails with `e`; those before it come in
pairs. -/
def BreaksOff (L : Lexicon) (ds : List Draw) (e : PlaceholderError) : Prop :=
  ∃ (before : List Draw) (token : String) (i : Fin (alternatives token).length),
    ds = before ++ [.choice (alternatives token).length i] ∧ Pairs before ∧
      L.AlternativeDraws ((alternatives token).get i) [] (.error e)

def Ends (L : Lexicon) (ds : List Draw) : Except GenerationError String → Prop
  | .error (.placeholder e) => L.BreaksOff ds e
  | .error (.template _) | .error (.depthExceeded _) | .ok _ => Pairs ds

variable {L : Lexicon}

theorem BreaksOff.odd_length (h : L.BreaksOff ds e) : Odd ds.length := by
  obtain ⟨before, token, i, rfl, hpairs, -⟩ := h
  simpa using hpairs.even_length.add_one

theorem Ends.append (h : L.Ends es r) (hds : Pairs ds) : L.Ends (ds ++ es) r := by
  match r with
  | .error (.placeholder e) =>
    obtain ⟨before, token, i, rfl, hpairs, he⟩ := h
    exact ⟨ds ++ before, token, i, (List.append_assoc ..).symm, hds.append hpairs, he⟩
  | .error (.template _) | .error (.depthExceeded _) | .ok _ => exact hds.append h

theorem Ends.pairs (h : L.Ends ds r) (hr : ∀ e, r ≠ .error (.placeholder e)) : Pairs ds := by
  match r with
  | .error (.placeholder e) => exact absurd rfl (hr e)
  | .error (.template _) | .error (.depthExceeded _) | .ok _ => exact h

theorem ends_map {f : String → String} : L.Ends ds (r.map f) ↔ L.Ends ds r := by
  cases r <;> rfl

theorem TokenDraws.ends (h : L.TokenDraws token ds q) : L.Ends ds (q.mapError .placeholder) := by
  obtain ⟨i, h⟩ := h
  cases h with
  | entry j => exact .cons i _ .nil
  | number => exact .cons i _ .nil
  | unread hr => exact ⟨[], token, i, rfl, .nil, .unread hr⟩
  | empty hr ht he => exact ⟨[], token, i, rfl, .nil, .empty hr ht he⟩
  | range hr ht hn => exact ⟨[], token, i, rfl, .nil, .range hr ht hn⟩

theorem PassDraws.ends {segments : List Segment} (h : L.PassDraws segments ds r) : L.Ends ds r := by
  induction h with
  | nil => exact .nil
  | literal _ ih => exact ends_map.mpr ih
  | placeholder hf _ ih => exact ends_map.mpr (ih.append hf.ends)
  | fails he => exact he.ends

theorem ExpansionDraws.ends (h : L.ExpansionDraws passes left t ds r) : L.Ends ds r := by
  induction h with
  | settled => exact .nil
  | unreadable => exact .nil
  | exceeded => exact .nil
  | fails _ _ he => exact he.ends
  | pass _ _ ht _ ih => exact ih.append ht.ends

theorem passDraws_of_pass {segments : List Segment} (h : (L.pass segments).run.Draws ds r) :
    L.PassDraws segments ds r := by
  induction segments generalizing ds r with
  | nil =>
    rw [pass_nil, draws_run_pure] at h
    obtain ⟨rfl, rfl⟩ := h
    exact .nil
  | cons s segments ih =>
    cases s with
    | literal text =>
      rw [pass_literal, draws_run_map] at h
      obtain ⟨q, hq, rfl⟩ := h
      exact .literal (ih hq)
    | placeholder token =>
      rw [pass_placeholder, draws_run_bind] at h
      rcases h with ⟨before, f, after, rfl, hfirst, h⟩ | ⟨e, hfirst, rfl⟩
      · obtain ⟨d | f, hf, ⟨⟩⟩ := draws_run_adapt.mp hfirst
        obtain ⟨q, hq, rfl⟩ := draws_run_map.mp h
        exact .placeholder (tokenDraws_of_fragment hf) (ih hq)
      · obtain ⟨d | f, hd, ⟨⟩⟩ := draws_run_adapt.mp hfirst
        exact .fails (tokenDraws_of_fragment hd)

theorem expansionDraws_of_expandWith (h : (L.expandWith passes left t).run.Draws ds r) :
    L.ExpansionDraws passes left t ds r := by
  by_cases hp : Plain t
  · rw [expandWith_of_plain hp, draws_run_pure] at h
    obtain ⟨rfl, rfl⟩ := h
    exact .settled hp
  cases hs : scan t with
  | error e =>
    rw [expandWith_of_unreadable hs, draws_run_throw] at h
    obtain ⟨rfl, rfl⟩ := h
    exact .unreadable hs
  | ok segments =>
    cases left with
    | zero =>
      rw [expandWith_zero hp ⟨segments, hs⟩, draws_run_throw] at h
      obtain ⟨rfl, rfl⟩ := h
      exact .exceeded hp ⟨segments, hs⟩
    | succ left =>
      rw [expandWith_succ_of_scan hs, draws_run_bind] at h
      rcases h with ⟨before, t', after, rfl, ht, h⟩ | ⟨e, he, rfl⟩
      · exact .pass hp hs (passDraws_of_pass ht) (expansionDraws_of_expandWith h)
      · exact .fails hp hs (passDraws_of_pass he)

/-! The draw of a skeleton. -/

variable {σ : Type} [RandomSource σ]

theorem run_law_of_empty (h : L.size .skeletons = 0) (x : σ) :
    (L.law passes).run.run x = (.error (.placeholder (.emptyTable .skeletons)), x) := by
  have he : L.entries .skeletons = [] := List.length_eq_zero_iff.mp h
  rw [law, Table.pick, dif_pos he]
  rfl

theorem run_law (pos : 0 < L.size .skeletons) (x : σ) :
    (L.law passes).run.run x =
      (L.expand passes ((L.entries .skeletons).get (RandomSource.choose _ pos x).1)).run.run
        (RandomSource.choose _ pos x).2 := by
  have he : L.entries .skeletons ≠ [] := List.length_pos_iff.mp pos
  rw [law, Table.pick, dif_neg he]
  exact run_bind_of_ok rfl

end Lexicon

namespace Generator

variable {σ : Type} [RandomSource σ]

theorem exists_draws_expand (L : Lexicon) (passes : Nat) (text : String) (x : Logged σ) :
    ∃ ds, (Generator.expand ⟨L, passes, x⟩ text).2.source.draws = x.draws ++ ds ∧
      L.ExpansionDraws passes passes text ds (Generator.expand ⟨L, passes, x⟩ text).1 := by
  obtain ⟨ds, hlog, hds⟩ := exists_draws_run (L.expand passes text).run x
  exact ⟨ds, hlog, Lexicon.expansionDraws_of_expandWith hds⟩

/-- A token draws an alternative, also where there is only one, and then an entry or a number unless
it fails; the other alternatives do not matter.  So the draws of an expansion come in pairs, up to
the alternative of a token that fails.  A law draws its skeleton first, if there is one. -/
theorem draws_exact (L : Lexicon) (x : Logged σ) :
    (∀ token,
      let n := (alternatives token).length
      let i := (Lexicon.choice token x).1
      let r := (L.fragment token).run.run x
      (∃ ds, r.2.draws = x.draws ++ .choice n i :: ds ∧
        L.AlternativeDraws ((alternatives token).get i) ds r.1) ∧
      ∀ as : List String, as.length = n → (∀ a ∈ as, '|' ∉ a.toList) →
        as[i.val]? = (alternatives token)[i.val]? →
        (L.fragment (String.intercalate "|" as)).run.run x = r) ∧
    (∀ passes text,
      let r := Generator.expand ⟨L, passes, x⟩ text
      ∃ ds, r.2.source.draws = x.draws ++ ds ∧ L.ExpansionDraws passes passes text ds r.1 ∧
        ((∀ e, r.1 ≠ .error (.placeholder e)) → Even ds.length ∧ Pairs ds) ∧
        ∀ e, r.1 = .error (.placeholder e) → Odd ds.length ∧ L.BreaksOff ds e) ∧
    ∀ passes,
      let r := Generator.one ⟨L, passes, x⟩
      (L.size .skeletons = 0 →
        r.1 = .error (.placeholder (.emptyTable .skeletons)) ∧ r.2.source = x) ∧
      ∀ pos : 0 < L.size .skeletons,
        let first := RandomSource.choose (L.size .skeletons) pos x
        let rest := Generator.expand ⟨L, passes, first.2⟩ ((L.entries .skeletons).get first.1)
        first.2.draws = x.draws ++ [.choice (L.size .skeletons) first.1] ∧
          r.1 = rest.1 ∧ r.2.source = rest.2.source := by
  refine ⟨fun token => ⟨L.exists_draws_fragment token x, fun as hlength hbar hchosen => ?_⟩,
    fun passes text => ?_, fun passes => ⟨fun hzero => ?_, fun pos => ?_⟩⟩
  · have hpos : 0 < as.length := by
      rw [hlength]
      exact List.length_pos_iff.mpr (alternatives_ne_nil token)
    have has : alternatives (String.intercalate "|" as) = as :=
      Text.fields_intercalate (List.length_pos_iff.mp hpos) hbar
    exact Lexicon.run_fragment_congr x (by rw [has, hlength]) (by rw [has, hchosen])
  · obtain ⟨ds, hlog, hds⟩ := exists_draws_expand L passes text x
    refine ⟨ds, hlog, hds, fun hne => ?_, fun e he => ?_⟩
    · have hpairs := hds.ends.pairs hne
      exact ⟨hpairs.even_length, hpairs⟩
    · have hends := hds.ends
      rw [he] at hends
      exact ⟨hends.odd_length, hends⟩
  · simp only [one, perform, Lexicon.run_law_of_empty hzero, and_self]
  · simp only [one, perform, Lexicon.run_law pos]
    exact ⟨x.draws_choose pos, rfl, rfl⟩

theorem draws_exact_empty_table :
    let L := Lexicon.ofPhrases ["ley \x7bpredicate\x7d"] ["\x7bnumber,2,6\x7d"] []
    let x : Logged FixedSource := { source := .ofPick .first }
    let text := "\x7bpredicate\x7d"
    let torn := "\x7bpredicate\x7d, \x7bproblem|drug\x7d"
    (L.fragment (String.intercalate "|" ["problem", "\x7b,"])).run.run x =
        (L.fragment "problem|drug").run.run x ∧
      (Generator.expand ⟨L, 2, x⟩ text).1 = .ok "4" ∧
      (∃ ds, (Generator.expand ⟨L, 2, x⟩ text).2.source.draws = x.draws ++ ds ∧
        Even ds.length ∧ Pairs ds) ∧
      (Generator.expand ⟨L, 2, x⟩ torn).1 = .error (.placeholder (.emptyTable .problems)) ∧
      (∃ ds, (Generator.expand ⟨L, 2, x⟩ torn).2.source.draws = x.draws ++ ds ∧
        Odd ds.length ∧ L.BreaksOff ds (.emptyTable .problems)) ∧
      (Generator.one ⟨.ofPhrases [] [] [], 2, x⟩).2.source = x ∧
      ∃ (i : Fin (L.size .skeletons)) (y : Logged FixedSource),
        y.draws = x.draws ++ [.choice (L.size .skeletons) i] ∧
        (Generator.one ⟨L, 2, x⟩).1 =
          (Generator.expand ⟨L, 2, y⟩ ((L.entries .skeletons).get i)).1 := by
  intro L x text torn
  have hsettled : (Generator.expand ⟨L, 2, x⟩ text).1 = .ok "4" := by decide +kernel
  have hbroken : (Generator.expand ⟨L, 2, x⟩ torn).1 =
      .error (.placeholder (.emptyTable .problems)) := by decide +kernel
  have hne (e : PlaceholderError) :
      (Generator.expand ⟨L, 2, x⟩ text).1 ≠ .error (.placeholder e) := by
    rw [hsettled]
    nofun
  have hpos : 0 < L.size .skeletons := Nat.one_pos
  obtain ⟨htoken, hexpand, hone⟩ := draws_exact L x
  obtain ⟨-, -, hbare⟩ := draws_exact (.ofPhrases [] [] []) x
  obtain ⟨ds, hlog, -, hpairs, -⟩ := hexpand 2 text
  obtain ⟨es, hlog', -, -, hends⟩ := hexpand 2 torn
  obtain ⟨hfirst, hlaw, -⟩ := (hone 2).2 hpos
  refine ⟨(htoken "problem|drug").2 _ ?_ ?_ ?_, hsettled, ⟨ds, hlog, hpairs hne⟩, hbroken,
    ⟨es, hlog', hends _ hbroken⟩, ((hbare 2).1 rfl).2, _, _, hfirst, hlaw⟩
  all_goals decide +kernel

end Generator

end BillGrammar
