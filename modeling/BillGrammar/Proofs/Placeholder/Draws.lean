import BillGrammar.Proofs.Lexicon.Texts
import BillGrammar.Proofs.Placeholder.Fragment
import BillGrammar.Proofs.Sampler.Draws
import BillGrammar.Source.Fixed

namespace BillGrammar

open Sampler

namespace Lexicon

/-- The draws for an alternative and what becomes of it.  An entry or a number takes one draw, and
nothing is drawn where there is none. -/
inductive AlternativeDraws (L : Lexicon) (a : String) :
    List Draw → Except PlaceholderError String → Prop
  | entry (i : Fin (L.size t)) : Request.parse a = .ok r → r.table? = some t →
      AlternativeDraws L a [.choice (L.size t) i]
        (.ok (t.kind.inflect r.form ((L.entries t).get i)))
  | number : Request.parse a = .ok r → r.table? = none → r.range a = .ok n →
      AlternativeDraws L a [.unit u] (.ok (n.render u))
  | unread : Request.parse a = .error e → AlternativeDraws L a [] (.error e)
  | empty : Request.parse a = .ok r → r.table? = some t → L.entries t = [] →
      AlternativeDraws L a [] (.error (.emptyTable t))
  | range : Request.parse a = .ok r → r.table? = none → r.range a = .error e →
      AlternativeDraws L a [] (.error e)

inductive TokenDraws (L : Lexicon) (token : String) :
    List Draw → Except PlaceholderError String → Prop
  | choice (i : Fin (alternatives token).length) :
      L.AlternativeDraws ((alternatives token).get i) ds r →
      TokenDraws L token (.choice (alternatives token).length i :: ds) r

variable {L : Lexicon}

theorem draws_draw {t : Table} (h : (L.draw t form).run.Draws ds r) :
    (∃ i : Fin (L.size t), ds = [.choice (L.size t) i] ∧
      r = .ok (t.kind.inflect form ((L.entries t).get i))) ∨
    L.entries t = [] ∧ ds = [] ∧ r = .error (.emptyTable t) := by
  obtain ⟨q, hq, rfl⟩ := draws_run_map.mp h
  unfold Table.pick at hq
  split at hq
  case isTrue he =>
    obtain ⟨rfl, rfl⟩ := draws_pure.mp hq
    exact .inr ⟨he, rfl, rfl⟩
  case isFalse =>
    obtain ⟨e, he, rfl⟩ := draws_run_lift.mp hq
    obtain ⟨i, rfl, rfl⟩ := draws_pick.mp he
    exact .inl ⟨i, rfl, rfl⟩

theorem alternativeDraws_of_fulfil (h : (L.fulfil a).run.Draws ds r) :
    L.AlternativeDraws a ds r := by
  rcases draws_run_liftExcept_bind.mp h with ⟨request, hr, h⟩ | ⟨e, hr, rfl, rfl⟩
  · split at h
    case h_1 t ht =>
      rcases draws_draw h with ⟨i, rfl, rfl⟩ | ⟨he, rfl, rfl⟩
      · exact .entry i hr ht
      · exact .empty hr ht he
    case h_2 ht =>
      rcases draws_run_liftExcept_bind.mp h with ⟨n, hn, h⟩ | ⟨e, hn, rfl, rfl⟩
      · obtain ⟨f, hf, rfl⟩ := draws_run_lift.mp h
        obtain ⟨u, hu, rfl⟩ := draws_map.mp hf
        obtain rfl := draws_fraction.mp hu
        exact .number hr ht hn
      · exact .range hr ht hn
  · exact .unread hr

theorem tokenDraws_of_fragment (h : (L.fragment token).run.Draws ds r) :
    L.TokenDraws token ds r := by
  rcases draws_run_bind.mp h with ⟨before, a, after, rfl, ha, h⟩ | ⟨e, he, -⟩
  · obtain ⟨a, ha, ⟨⟩⟩ := draws_run_lift.mp ha
    obtain ⟨i, rfl, rfl⟩ := draws_pick.mp ha
    exact .choice i (alternativeDraws_of_fulfil h)
  · obtain ⟨a, -, ⟨⟩⟩ := draws_run_lift.mp he

/-! What is done for an alternative, by what is read from it. -/

theorem fulfil_of_unread (h : Request.parse a = .error e) : L.fulfil a = throw e := by
  rw [fulfil, h]
  rfl

theorem fulfil_of_table {r : Request} (h : Request.parse a = .ok r) (ht : r.table? = some t) :
    L.fulfil a = L.draw t r.form := by
  rw [fulfil, h, Sampler.ok_bind]
  simp only [ht]

theorem fulfil_of_number {r : Request} (h : Request.parse a = .ok r) (ht : r.table? = none) :
    L.fulfil a = liftM (r.range a) >>= fun n => liftM n.sample := by
  rw [fulfil, h, Sampler.ok_bind]
  simp only [ht]

/-! The alternative that a source chooses. -/

variable {σ : Type} [RandomSource σ]

def choice (token : String) (x : σ) : Fin (alternatives token).length × σ :=
  RandomSource.choose _ (List.length_pos_iff.mpr (alternatives_ne_nil token)) x

theorem run_fragment (token : String) (x : σ) :
    (L.fragment token).run.run x =
      (L.fulfil ((alternatives token).get (choice token x).1)).run.run (choice token x).2 := by
  rw [fragment]
  exact run_bind_of_ok (run_lift (chooseAlternative token) x)

theorem choice_congr (token token' : String) (x : σ)
    (hlength : (alternatives token').length = (alternatives token).length) :
    (choice token' x).1.val = (choice token x).1.val ∧ (choice token' x).2 = (choice token x).2 := by
  have hchoose {n m : Nat} (h : n = m) (hn : 0 < n) (hm : 0 < m) :
      (RandomSource.choose n hn x).1.val = (RandomSource.choose m hm x).1.val ∧
        (RandomSource.choose n hn x).2 = (RandomSource.choose m hm x).2 := by
    subst h
    exact ⟨rfl, rfl⟩
  exact hchoose hlength _ _

theorem getElem?_choice (token : String) (x : σ) :
    (alternatives token)[(choice token x).1.val]? =
      some ((alternatives token).get (choice token x).1) :=
  List.getElem?_eq_getElem (choice token x).1.isLt

theorem exists_run_fragment (L : Lexicon) (token : String) (x : σ) :
    ∃ a, (alternatives token)[(choice token x).1.val]? = some a ∧
      (L.fragment token).run.run x = (L.fulfil a).run.run (choice token x).2 :=
  ⟨_, getElem?_choice token x, run_fragment token x⟩

theorem run_fragment_congr {token token' : String} (x : σ)
    (hlength : (alternatives token').length = (alternatives token).length)
    (hchosen : (alternatives token')[(choice token x).1.val]? =
      (alternatives token)[(choice token x).1.val]?) :
    (L.fragment token').run.run x = (L.fragment token).run.run x := by
  obtain ⟨hi, hsource⟩ := choice_congr token token' x hlength
  have hget : (alternatives token').get (choice token' x).1 =
      (alternatives token).get (choice token x).1 := by
    apply Option.some.inj
    rw [← getElem?_choice, ← getElem?_choice, hi, hchosen]
  rw [run_fragment, run_fragment, hget, hsource]

theorem exists_draws_fragment (L : Lexicon) (token : String) (x : Logged σ) :
    ∃ ds, ((L.fragment token).run.run x).2.draws =
        x.draws ++ .choice (alternatives token).length (choice token x).1 :: ds ∧
      L.AlternativeDraws ((alternatives token).get (choice token x).1) ds
        ((L.fragment token).run.run x).1 := by
  rw [run_fragment]
  obtain ⟨ds, hlog, hds⟩ := exists_draws_run
    (L.fulfil ((alternatives token).get (choice token x).1)).run (choice token x).2
  have hchoice : (choice token x).2.draws =
      x.draws ++ [.choice (alternatives token).length (choice token x).1] := x.draws_choose _
  rw [hchoice, List.append_assoc] at hlog
  exact ⟨ds, hlog, alternativeDraws_of_fulfil hds⟩

theorem AlternativeDraws.of_table {t : Table} (h : L.AlternativeDraws a ds q)
    (hr : Request.parse a = .ok r) (ht : r.table? = some t) :
    (∃ i : Fin (L.size t), ds = [.choice (L.size t) i] ∧
      q = .ok (t.kind.inflect r.form ((L.entries t).get i))) ∨
    L.entries t = [] ∧ ds = [] ∧ q = .error (.emptyTable t) := by
  cases h with
  | entry i hr' ht' =>
    cases hr.symm.trans hr'
    cases ht.symm.trans ht'
    exact .inl ⟨i, rfl, rfl⟩
  | number hr' ht' =>
    cases hr.symm.trans hr'
    cases ht.symm.trans ht'
  | unread hr' => cases hr.symm.trans hr'
  | empty hr' ht' he =>
    cases hr.symm.trans hr'
    cases ht.symm.trans ht'
    exact .inr ⟨he, rfl, rfl⟩
  | range hr' ht' =>
    cases hr.symm.trans hr'
    cases ht.symm.trans ht'

/-- A fragment from a table is drawn by one index below its size, and is the text that the table
lists for the entry at the index in the form asked for. -/
theorem fragment_position (L : Lexicon) (token : String) (x : Logged σ) (request : Request)
    (t : Table) (hr : Request.parse ((alternatives token).get (choice token x).1) = .ok request)
    (ht : request.table? = some t) :
    let outcome := (L.fragment token).run.run x
    let chosen := Draw.choice (alternatives token).length (choice token x).1
    (L.texts t).length = L.size t * t.kind.forms ∧
      (0 < L.size t → ∃ (i : Fin (L.size t)) (text : String),
        outcome.2.draws = x.draws ++ [chosen, .choice (L.size t) i] ∧
          (L.texts t)[t.kind.position request.form i]? = some text ∧ outcome.1 = .ok text) ∧
      (L.size t = 0 → outcome.2.draws = x.draws ++ [chosen] ∧ outcome.1 = .error (.emptyTable t)) := by
  intro outcome chosen
  obtain ⟨ds, hlog, hds⟩ := L.exists_draws_fragment token x
  rcases hds.of_table hr ht with ⟨i, rfl, hq⟩ | ⟨he, rfl, hq⟩
  · refine ⟨L.length_texts t, fun _ => ?_, fun hzero => absurd i.isLt (by omega)⟩
    exact ⟨i, _, hlog, L.getElem?_texts t request.form i, hq⟩
  · have hzero : L.size t = 0 := List.length_eq_zero_iff.mpr he
    exact ⟨L.length_texts t, fun hpos => absurd hzero (by omega), fun _ => ⟨hlog, hq⟩⟩

theorem fragment_position_plural :
    let L : Lexicon := ⟨fun
      | .personActions => ([⟨"ler", "lê", "leem"⟩, ⟨"rir", "ri", "riem"⟩] : List Action)
      | _ => []⟩
    let x : Logged FixedSource := { source := .ofPick .last }
    let token := "drug|action : plural , person"
    let request : Request := ⟨.action, .plural, [" person"]⟩
    let outcome := (L.fragment token).run.run x
    (Request.parse ((alternatives token).get (choice token x).1) = .ok request ∧
      request.table? = some .personActions ∧ 0 < L.size .personActions ∧
      (choice token x).1.val = 1 ∧ outcome.1 = .ok "riem" ∧
      ∃ (i : Fin (L.size .personActions)) (text : String),
        outcome.2.draws = [.choice _ (choice token x).1, .choice (L.size .personActions) i] ∧
          (L.texts .personActions)[3 * i.val + 2]? = some text ∧ outcome.1 = .ok text) ∧
    L.size .drugs = 0 ∧ ((L.fragment "drug").run.run x).1 = .error (.emptyTable .drugs) := by
  intro L x token request outcome
  have hr : Request.parse ((alternatives token).get (choice token x).1) = .ok request := by
    decide +kernel
  have hpos : 0 < L.size .personActions := by decide
  obtain ⟨-, hdrawn, -⟩ := L.fragment_position token x request .personActions hr rfl
  obtain ⟨-, -, hempty⟩ := L.fragment_position "drug" x ⟨.drug, .default, []⟩ .drugs
    (by decide +kernel) rfl
  exact ⟨⟨hr, rfl, hpos, by decide +kernel, by decide +kernel, hdrawn hpos⟩, rfl, (hempty rfl).2⟩

end Lexicon

end BillGrammar
