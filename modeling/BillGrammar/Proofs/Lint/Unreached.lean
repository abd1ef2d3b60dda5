import BillGrammar.Law.Generator
import BillGrammar.Proofs.Lint.Provenance
import BillGrammar.Source.Fixed
import BillGrammar.Source.Logged

namespace BillGrammar

open Template Sampler

namespace Lexicon

variable {L L' : Lexicon}

def Agrees (L L' : Lexicon) : Prop := ∀ t, L.Reached t → L'.entries t = L.entries t

theorem agrees_iff :
    L.Agrees L' ↔ ∀ t, .unreached t ∉ L.lint.warnings → L'.entries t = L.entries t := by
  simp only [Agrees, unreached_mem_warnings_iff, not_not]

theorem fulfil_congr
    (h : ∀ r t, Request.parse a = .ok r → r.table? = some t → L'.entries t = L.entries t) :
    L'.fulfil a = L.fulfil a := by
  refine bind_congr_of_yields_ok fun r hr => ?_
  have hr : Request.parse a = .ok r := (yields_run_liftExcept.mp hr).symm
  cases ht : r.table? with
  | none => rfl
  | some t => simp only [draw, h r t hr ht]

theorem Agrees.fragment_eq {t : Table} (h : L.Agrees L') (ht : L.Reached t)
    (hm : L.Mentions t token) : L'.fragment token = L.fragment token := by
  refine bind_congr_of_yields_ok fun a ha => ?_
  have ha : a ∈ alternatives token := by simpa [chooseAlternative] using ha
  refine fulfil_congr fun r u hr hu => h u (ht.step ?_)
  exact mem_references.mpr ⟨token, hm, a, ha, r, hr, hu⟩

theorem Agrees.pass_eq (h : L.Agrees L') {segments : List Segment}
    (hc : ∀ token, .placeholder token ∈ segments → ∃ t, L.Reached t ∧ L.Mentions t token) :
    L'.pass segments = L.pass segments := by
  induction segments with
  | nil => rw [pass_nil, pass_nil]
  | cons s segments ih =>
    have ih := ih fun token ht => hc token (List.mem_cons_of_mem _ ht)
    cases s with
    | literal text => rw [pass_literal, pass_literal, ih]
    | placeholder token =>
      obtain ⟨t, ht, hm⟩ := hc token List.mem_cons_self
      rw [pass_placeholder, pass_placeholder, ih, h.fragment_eq ht hm]

theorem Agrees.expandWith_eq (h : L.Agrees L') (hL : L.Scans) (hx : Template.Scans x)
    (hc : L.Covers L.Reached x) :
    L'.expandWith passes left x = L.expandWith passes left x := by
  -- Both runs hold the same text before each pass, and reached tables mention all its tokens.
  induction left generalizing x with
  | zero =>
    by_cases hp : Plain x
    · rw [expandWith_of_plain hp, expandWith_of_plain hp]
    · rw [expandWith_zero hp hx, expandWith_zero hp hx]
  | succ left ih =>
    obtain ⟨segments, hw, rfl⟩ := scans_iff.mp hx
    have hc (token : String) (ht : .placeholder token ∈ segments) :=
      exists_of_covers_render hw hc ht
    rw [expandWith_succ hw, expandWith_succ hw, h.pass_eq hc]
    refine bind_congr_of_yields_ok fun y hy => ?_
    exact ih (scans_of_yields_pass hL hw hy) (covers_of_pass hL (fun _ _ => Reached.step) hw hc hy)

theorem Agrees.law_eq (h : L.Agrees L') (hL : L.Scans) (passes : Nat) :
    L'.law passes = L.law passes := by
  rw [law, law, h .skeletons reached_skeletons]
  refine bind_congr_of_yields_ok fun x hx => ?_
  rw [yields_run_adapt_ok, Table.yields_pick_ok] at hx
  exact h.expandWith_eq hL (hL.skeleton hx)
    (covers_of_mem_texts (inflect_mem_texts hx .default) reached_skeletons)

theorem Agrees.laws_eq (h : L.Agrees L') (hL : L.Scans) (passes count : Nat) :
    L'.laws passes count = L.laws passes count := by
  rw [laws, laws, h.law_eq hL]

end Lexicon

namespace Generator

variable {σ : Type} [RandomSource σ]

/-- Whatever stands in the tables that lint reports as never reached, one law or several come out
alike, and the source is left alike with the same draws on record. -/
theorem unreached_irrelevant {L L' : Lexicon} (hL : L.Scans)
    (h : ∀ t, .unreached t ∉ L.lint.warnings → L'.entries t = L.entries t) (passes : Nat)
    (x : Logged σ) :
    let g : Generator (Logged σ) := ⟨L, passes, x⟩
    let g' : Generator (Logged σ) := ⟨L', passes, x⟩
    (g'.one.1 = g.one.1 ∧ g'.one.2.source = g.one.2.source) ∧
      ∀ count, (g'.many count).1 = (g.many count).1 ∧
        (g'.many count).2.source = (g.many count).2.source := by
  intro g g'
  have ha : L.Agrees L' := Lexicon.agrees_iff.mpr h
  have hlaw : g'.lexicon.law g'.passes = g.lexicon.law g.passes := ha.law_eq hL passes
  have hlaws (count : Nat) : g'.lexicon.laws g'.passes count = g.lexicon.laws g.passes count :=
    ha.laws_eq hL passes count
  refine ⟨?_, fun count => ?_⟩
  · simp only [one, perform, hlaw]
    exact ⟨rfl, rfl⟩
  · simp only [many, perform, hlaws]
    exact ⟨rfl, rfl⟩

theorem unreached_irrelevant_malformed :
    let L := Lexicon.ofPhrases ["\x7bpredicate\x7d"] ["ley \x7bnumber,2,6\x7d"] ["ok"]
    let L' := Lexicon.ofPhrases ["\x7bpredicate\x7d"] ["ley \x7bnumber,2,6\x7d"] ["\x7bbogus"]
    let x : Logged FixedSource := { source := .ofPick .first }
    let g : Generator (Logged FixedSource) := ⟨L, 2, x⟩
    let g' : Generator (Logged FixedSource) := ⟨L', 2, x⟩
    L.Scans ∧ (∀ t, .unreached t ∉ L.lint.warnings → L'.entries t = L.entries t) ∧
      ¬ L'.Scans ∧ g.one.1 = .ok "ley 4" ∧ g.one.2.source.draws.length = 5 ∧
      (g'.one.1 = g.one.1 ∧ g'.one.2.source = g.one.2.source) ∧
      ∀ count, (g'.many count).1 = (g.many count).1 ∧
        (g'.many count).2.source = (g.many count).2.source := by
  intro L L' x g g'
  have hL : L.Scans := by decide +kernel
  have hproblems : .unreached .problems ∈ L.lint.warnings := by decide +kernel
  have h (t : Table) (ht : .unreached t ∉ L.lint.warnings) : L'.entries t = L.entries t := by
    cases t with
    | problems => exact absurd hproblems ht
    | _ => rfl
  exact ⟨hL, h, by decide +kernel, by decide +kernel, by decide +kernel,
    unreached_irrelevant hL h 2 x⟩

end Generator

end BillGrammar
