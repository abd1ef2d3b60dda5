import BillGrammar.Law.Generator
import BillGrammar.Proofs.Law.Expansion
import BillGrammar.Source.Fixed
import BillGrammar.Source.Logged

namespace BillGrammar

open Template

namespace Sampler

variable {σ : Type} [RandomSource σ]

theorem log_suffix_run (p : Sampler α) (x : Logged σ) : x.log <:+ (p.run x).2.log := by
  induction p generalizing x with
  | done a => exact List.suffix_refl _
  | choose n pos next ih =>
    have h := ih (RandomSource.choose n pos x).1 (RandomSource.choose n pos x).2
    exact (List.suffix_cons _ x.log).trans h
  | unit next ih =>
    have h := ih (RandomSource.unit x).1 (RandomSource.unit x).2
    exact (List.suffix_cons _ x.log).trans h

theorem draws_prefix_run (p : Sampler α) (x : Logged σ) : x.draws <+: (p.run x).2.draws :=
  List.reverse_prefix.mpr (p.log_suffix_run x)

end Sampler

namespace Lexicon

open Sampler

variable {σ : Type} [RandomSource σ]

def runFrom (L : Lexicon) (passes left : Nat) (a : String × σ) :
    Except GenerationError String × σ :=
  (L.expandWith passes left a.1).run.run a.2

/-- `L.Passes k (t, s) (t', s')`: one after another `k` passes lead from the text `t` to `t'`, and
from the source `s` to `s'`.  Each is over a text with braces that scans, and none fails. -/
inductive Passes (L : Lexicon) : Nat → String × σ → String × σ → Prop
  | refl {a : String × σ} : Passes L 0 a a
  | step : ¬ Plain t → scan t = .ok segments → (L.pass segments).run.run s = (.ok t', s') →
      Passes L k (t', s') b → Passes L (k + 1) (t, s) b

inductive Turn (L : Lexicon) (a : String × σ) : Prop
  | ends (r : Except GenerationError String × σ) : (∀ k, r.1 ≠ .error (.depthExceeded k)) →
      (∀ passes left, L.runFrom passes left a = r) → Turn L a
  | fails (r : Except GenerationError String × σ) : ¬ Plain a.1 → Template.Scans a.1 →
      (∀ k, r.1 ≠ .error (.depthExceeded k)) →
      (∀ passes left, L.runFrom passes (left + 1) a = r) → Turn L a
  | goesOn (b : String × σ) : ¬ Plain a.1 → Template.Scans a.1 →
      (∀ {k c}, L.Passes k b c → L.Passes (k + 1) a c) →
      (∀ passes left, L.runFrom passes (left + 1) a = L.runFrom passes left b) → Turn L a

variable {L : Lexicon} {a b : String × σ} {s s' : σ}

theorem runFrom_succ_of_ok (hs : scan t = .ok segments)
    (h : (L.pass segments).run.run s = (.ok t', s')) (passes left : Nat) :
    L.runFrom passes (left + 1) (t, s) = L.runFrom passes left (t', s') := by
  rw [runFrom, expandWith_succ_of_scan hs, run_bind_of_ok h]
  rfl

theorem runFrom_succ_of_error (hs : scan t = .ok segments)
    (h : (L.pass segments).run.run s = (.error e, s')) (passes left : Nat) :
    L.runFrom passes (left + 1) (t, s) = (.error e, s') := by
  rw [runFrom, expandWith_succ_of_scan hs, run_bind_of_error h]

theorem runFrom_zero (hp : ¬ Plain a.1) (hs : Template.Scans a.1) (passes : Nat) :
    L.runFrom passes 0 a = (.error (.depthExceeded passes), a.2) := by
  rw [runFrom, expandWith_zero hp hs]
  rfl

theorem pass_error_ne {segments : List Segment}
    (h : (L.pass segments).run.run s = (.error e, s')) : e ≠ .depthExceeded k := by
  have hy := yields_run (U := fun _ => True) (fun _ => trivial) (L.pass segments).run s
  rw [h] at hy
  obtain ⟨_, _, _, rfl, _⟩ := exists_of_yields_pass_error hy
  nofun

theorem turn (L : Lexicon) (a : String × σ) : L.Turn a := by
  obtain ⟨t, s⟩ := a
  by_cases hp : Plain t
  · refine .ends (.ok t, s) nofun fun passes left => ?_
    rw [runFrom, expandWith_of_plain hp]
    rfl
  cases hs : scan t with
  | error e =>
    refine .ends (.error (.template e), s) nofun fun passes left => ?_
    rw [runFrom, expandWith_of_unreadable hs]
    rfl
  | ok segments =>
    rcases h : (L.pass segments).run.run s with ⟨e | t', s'⟩
    · refine .fails (.error e, s') hp ⟨_, hs⟩ (fun k he => ?_) (runFrom_succ_of_error hs h)
      exact pass_error_ne h (Except.error.inj he)
    · exact .goesOn (t', s') hp ⟨_, hs⟩ (.step hp hs h) (runFrom_succ_of_ok hs h)

theorem Passes.runFrom_add (h : L.Passes k a b) (passes left : Nat) :
    L.runFrom passes (left + k) a = L.runFrom passes left b := by
  induction h with
  | refl => rfl
  | step _ hs hpass _ ih => rw [← Nat.add_assoc, runFrom_succ_of_ok hs hpass, ih]

/-- Either the run ends within its budget, and more passes make no difference, or all of its passes
are made and the text still has braces. -/
theorem ends_or_exceeds (passes left : Nat) (a : String × σ) :
    ((∀ k, (L.runFrom passes left a).1 ≠ .error (.depthExceeded k)) ∧
      ∀ passes' more, L.runFrom passes' (left + more) a = L.runFrom passes left a) ∨
    ∃ b, L.Passes left a b ∧ ¬ Plain b.1 ∧ Template.Scans b.1 ∧
      L.runFrom passes left a = (.error (.depthExceeded passes), b.2) := by
  induction left generalizing a with
  | zero =>
    cases L.turn a with
    | ends r hne hr =>
      rw [hr]
      exact .inl ⟨hne, fun _ _ => hr _ _⟩
    | fails _ hp hs => exact .inr ⟨a, .refl, hp, hs, runFrom_zero hp hs passes⟩
    | goesOn _ hp hs => exact .inr ⟨a, .refl, hp, hs, runFrom_zero hp hs passes⟩
  | succ left ih =>
    simp only [Nat.add_right_comm left 1]
    cases L.turn a with
    | ends r hne hr =>
      rw [hr]
      exact .inl ⟨hne, fun _ _ => hr _ _⟩
    | fails r _ _ hne hr =>
      rw [hr]
      exact .inl ⟨hne, fun _ _ => hr _ _⟩
    | goesOn b hp hs hpass hr =>
      simp only [hr]
      rcases ih b with h | ⟨c, hc, hend⟩
      · exact .inl h
      · exact .inr ⟨c, hpass hc, hend⟩

end Lexicon

namespace Generator

variable {σ : Type} [RandomSource σ]

/-- A larger budget changes neither the outcome nor the draws, unless the passes run out.  Then all
of them were made over texts with braces, such a text is left, and the larger budget starts with the
same draws.  A text that does not scan is reported as such, also with no pass left. -/
theorem expand_budget (L : Lexicon) (x : Logged σ) (text : String) (h : m ≤ m') :
    let g (passes : Nat) : Generator (Logged σ) := ⟨L, passes, x⟩
    let r := (g m).expand text
    let r' := (g m').expand text
    ((∀ k, r.1 ≠ .error (.depthExceeded k)) → r'.1 = r.1 ∧ r'.2.source = r.2.source) ∧
      (∀ k, r.1 = .error (.depthExceeded k) →
        k = m ∧ r.2.source.draws <+: r'.2.source.draws ∧
          ∃ t, L.Passes m (text, x) (t, r.2.source) ∧ hasPlaceholders t ∧ Template.Scans t) ∧
      ∀ t y e, L.Passes m (text, x) (t, y) → scan t = .error e →
        r.1 = .error (.template e) ∧ r.2.source = y := by
  intro g r r'
  obtain ⟨more, rfl⟩ := Nat.exists_eq_add_of_le h
  have hrun (passes : Nat) : ((g passes).expand text).1 = (L.runFrom passes passes (text, x)).1 ∧
      ((g passes).expand text).2.source = (L.runFrom passes passes (text, x)).2 := ⟨rfl, rfl⟩
  simp only [r, r', hrun]
  refine ⟨fun hne => ?_, fun k hk => ?_, fun t y e hp he => ?_⟩
  · rcases L.ends_or_exceeds m m (text, x) with ⟨-, hmore⟩ | ⟨b, -, -, -, hr⟩
    · rw [hmore]
      exact ⟨rfl, rfl⟩
    · rw [hr] at hne
      exact absurd rfl (hne m)
  · rcases L.ends_or_exceeds m m (text, x) with ⟨hne, -⟩ | ⟨⟨t, y⟩, hp, hb, hs, hr⟩
    · exact absurd hk (hne k)
    · have hmore := hp.runFrom_add (m + more) more
      rw [Nat.add_comm more m] at hmore
      rw [hr] at hk ⊢
      cases hk
      refine ⟨rfl, ?_, t, hp, ?_, hs⟩
      · rw [hmore]
        exact Sampler.draws_prefix_run _ y
      · rwa [← Bool.not_eq_false, hasPlaceholders_eq_false_iff]
  · have hr := hp.runFrom_add m 0
    rw [Nat.zero_add] at hr
    rw [hr, Lexicon.runFrom, Lexicon.expandWith_of_unreadable he]
    exact ⟨rfl, rfl⟩

theorem expand_budget_nested :
    let L := Lexicon.ofPhrases [] ["\x7bproblem\x7d"] ["ley \x7bnumber,2,6\x7d"]
    let x : Logged FixedSource := { source := .ofPick .first }
    let text := "\x7bpredicate\x7d"
    let g (passes : Nat) : Generator (Logged FixedSource) := ⟨L, passes, x⟩
    let unclosed : Generator (Logged FixedSource) :=
      ⟨.ofPhrases [] ["\x7bproblem\x7d"] ["ley \x7b"], 2, x⟩
    (((g 2).expand text).1 = .error (.depthExceeded 2) ∧
      ((g 2).expand text).2.source.draws.length = 4 ∧
      ((g 2).expand text).2.source.draws <+: ((g 3).expand text).2.source.draws ∧
      ∃ t, L.Passes 2 (text, x) (t, ((g 2).expand text).2.source) ∧ hasPlaceholders t ∧
        Template.Scans t) ∧
      ((g 3).expand text).1 = .ok "ley 4" ∧
      ((g 64).expand text).1 = ((g 3).expand text).1 ∧
      ((g 64).expand text).2.source = ((g 3).expand text).2.source ∧
      (unclosed.expand text).1 = .error (.template (.unclosed 4)) := by
  intro L x text g unclosed
  have hexceeded : ((g 2).expand text).1 = .error (.depthExceeded 2) := by decide +kernel
  have hsettled : ((g 3).expand text).1 = .ok "ley 4" := by decide +kernel
  have hne (k : Nat) : ((g 3).expand text).1 ≠ .error (.depthExceeded k) := by
    rw [hsettled]
    nofun
  have htwo : 2 ≤ 3 := by decide
  have hthree : 3 ≤ 64 := by decide
  obtain ⟨-, hprefix, hpasses⟩ := (expand_budget L x text htwo).2.1 2 hexceeded
  obtain ⟨houtcome, hsource⟩ := (expand_budget L x text hthree).1 hne
  exact ⟨⟨hexceeded, by decide +kernel, hprefix, hpasses⟩, hsettled, houtcome, hsource,
    by decide +kernel⟩

end Generator

end BillGrammar
