import BillGrammar.Law.Generator
import BillGrammar.Proofs.Law.Expansion

/-!
A lexicon as a context-free grammar.  Expansion goes over the whole text pass by pass; derivations
go down one placeholder at a time.  Within `m` passes expansion can give exactly the texts that
have a derivation of height at most `m`.
-/

namespace BillGrammar

open Template Sampler

def Binary64.InUnit (u : Binary64) : Prop := 0 ≤ u ∧ u < 1

theorem Binary64.zero_inUnit : (0 : Binary64).InUnit := by
  unfold InUnit
  decide +kernel

namespace Lexicon

variable {L : Lexicon} {U : Binary64 → Prop}

/-- Some choice of an alternative, and of an entry or a fraction that satisfies `U`, puts `f` in
the place of the token. -/
def Offers (L : Lexicon) (U : Binary64 → Prop) (token f : String) : Prop :=
  (L.fragment token).run.Yields U (.ok f)

mutual

/-- `L.Derives U h t s`: the text `t` derives `s` with height `h`. -/
inductive Derives (L : Lexicon) (U : Binary64 → Prop) : Nat → String → String → Prop
  | plain : Plain t → Derives L U 0 t t
  | step : ¬ Plain t → scan t = .ok segments → DerivesAll L U h segments s →
      Derives L U (h + 1) t s

inductive DerivesAll (L : Lexicon) (U : Binary64 → Prop) : Nat → List Segment → String → Prop
  | nil : DerivesAll L U 0 [] ""
  | literal : DerivesAll L U h segments s → DerivesAll L U h (.literal x :: segments) (x ++ s)
  | placeholder : L.Offers U token f → Derives L U k f x → DerivesAll L U h segments s →
      DerivesAll L U (max k h) (.placeholder token :: segments) (x ++ s)

end

def DerivesIn (L : Lexicon) (U : Binary64 → Prop) (m : Nat) (t s : String) : Prop :=
  ∃ h ≤ m, L.Derives U h t s

def DerivesAllIn (L : Lexicon) (U : Binary64 → Prop) (m : Nat) (segments : List Segment)
    (s : String) : Prop :=
  ∃ h ≤ m, L.DerivesAll U h segments s

theorem DerivesIn.mono (hmn : m ≤ n) : L.DerivesIn U m t s → L.DerivesIn U n t s
  | ⟨h, hm, hd⟩ => ⟨h, Nat.le_trans hm hmn, hd⟩

theorem DerivesAllIn.mono {segments : List Segment} (hmn : m ≤ n) :
    L.DerivesAllIn U m segments s → L.DerivesAllIn U n segments s
  | ⟨h, hm, hd⟩ => ⟨h, Nat.le_trans hm hmn, hd⟩

theorem derivesAllIn_nil : L.DerivesAllIn U m [] s ↔ s = "" := by
  constructor
  · rintro ⟨h, -, hd⟩
    cases hd
    rfl
  · rintro rfl
    exact ⟨0, Nat.zero_le m, .nil⟩

theorem derivesAllIn_literal :
    L.DerivesAllIn U m (.literal x :: segments) s ↔
      ∃ r, s = x ++ r ∧ L.DerivesAllIn U m segments r := by
  constructor
  · rintro ⟨h, hm, hd⟩
    cases hd with
    | literal hd => exact ⟨_, rfl, h, hm, hd⟩
  · rintro ⟨r, rfl, h, hm, hd⟩
    exact ⟨h, hm, .literal hd⟩

theorem derivesAllIn_placeholder :
    L.DerivesAllIn U m (.placeholder token :: segments) s ↔
      ∃ f x r, s = x ++ r ∧ L.Offers U token f ∧ L.DerivesIn U m f x ∧
        L.DerivesAllIn U m segments r := by
  constructor
  · rintro ⟨h, hm, hd⟩
    cases hd with
    | placeholder hf hx hr =>
      obtain ⟨hk, hh⟩ := Nat.max_le.mp hm
      exact ⟨_, _, _, rfl, hf, ⟨_, hk, hx⟩, _, hh, hr⟩
  · rintro ⟨f, x, r, rfl, hf, ⟨k, hk, hx⟩, h, hh, hr⟩
    exact ⟨max k h, Nat.max_le.mpr ⟨hk, hh⟩, .placeholder hf hx hr⟩

theorem derivesAllIn_append {a b : List Segment} :
    L.DerivesAllIn U m (a ++ b) s ↔
      ∃ x y, s = x ++ y ∧ L.DerivesAllIn U m a x ∧ L.DerivesAllIn U m b y := by
  induction a generalizing s with
  | nil =>
    simp only [List.nil_append, derivesAllIn_nil]
    constructor
    · exact fun h => ⟨"", s, String.empty_append.symm, rfl, h⟩
    · rintro ⟨-, y, rfl, rfl, h⟩
      rwa [String.empty_append]
  | cons seg a ih =>
    cases seg with
    | literal x =>
      simp only [List.cons_append, derivesAllIn_literal, ih]
      constructor
      · rintro ⟨r, rfl, y, z, rfl, hy, hz⟩
        exact ⟨x ++ y, z, (String.append_assoc ..).symm, ⟨y, rfl, hy⟩, hz⟩
      · rintro ⟨-, z, rfl, ⟨y, rfl, hy⟩, hz⟩
        exact ⟨y ++ z, String.append_assoc .., y, z, rfl, hy, hz⟩
    | placeholder token =>
      simp only [List.cons_append, derivesAllIn_placeholder, ih]
      constructor
      · rintro ⟨f, x, r, rfl, hf, hx, y, z, rfl, hy, hz⟩
        exact ⟨x ++ y, z, (String.append_assoc ..).symm, ⟨f, x, y, rfl, hf, hx, hy⟩, hz⟩
      · rintro ⟨-, z, rfl, ⟨f, x, y, rfl, hf, hx, hy⟩, hz⟩
        exact ⟨f, x, y ++ z, String.append_assoc .., hf, hx, y, z, rfl, hy, hz⟩

theorem derivesAllIn_literal_chars {pending : List Char} :
    L.DerivesAllIn U m (Template.literal pending) s ↔ s = String.ofList pending.reverse := by
  unfold Template.literal
  split
  · simp_all [derivesAllIn_nil]
  · simp [derivesAllIn_literal, derivesAllIn_nil]

theorem derivesAllIn_joinLiterals {pending : List Char} {segments : List Segment} :
    L.DerivesAllIn U m (joinLiterals pending segments) s ↔
      ∃ r, s = String.ofList pending.reverse ++ r ∧ L.DerivesAllIn U m segments r := by
  induction segments generalizing pending s with
  | nil => simp [joinLiterals, derivesAllIn_literal_chars, derivesAllIn_nil]
  | cons seg segments ih =>
    cases seg with
    | literal x =>
      simp only [joinLiterals, ih, derivesAllIn_literal]
      constructor
      · rintro ⟨r, rfl, h⟩
        exact ⟨x ++ r, by simp [String.append_assoc], r, rfl, h⟩
      · rintro ⟨-, rfl, r, rfl, h⟩
        exact ⟨r, by simp [String.append_assoc], h⟩
    | placeholder token =>
      simp only [joinLiterals, derivesAllIn_append, derivesAllIn_literal_chars,
        derivesAllIn_placeholder, ih, List.reverse_nil, String.ofList_nil, String.empty_append,
        exists_eq_left']
      constructor
      · rintro ⟨-, y, rfl, rfl, h⟩
        exact ⟨y, rfl, h⟩
      · rintro ⟨y, rfl, h⟩
        exact ⟨_, y, rfl, rfl, h⟩

theorem derivesAllIn_of_plain {segments : List Segment} (hw : WellFormed segments)
    (h : Plain (render segments)) : L.DerivesAllIn U m segments s ↔ s = render segments := by
  rw [plain_render_iff hw] at h
  induction segments generalizing s with
  | nil => exact derivesAllIn_nil
  | cons seg segments ih =>
    cases seg with
    | literal x =>
      rw [wellFormed_cons] at hw
      have ih {r} := ih (s := r) hw.2 fun token ht => h token (List.mem_cons_of_mem _ ht)
      simp [derivesAllIn_literal, ih, Segment.render]
    | placeholder token => exact absurd List.mem_cons_self (h token)

theorem derivesIn_of_plain (h : Plain t) : L.DerivesIn U m t s ↔ s = t := by
  constructor
  · rintro ⟨k, -, hd⟩
    cases hd with
    | plain => rfl
    | step hn => exact absurd h hn
  · rintro rfl
    exact ⟨0, Nat.zero_le m, .plain h⟩

theorem derivesIn_zero : L.DerivesIn U 0 t s ↔ Plain t ∧ s = t := by
  constructor
  · rintro ⟨k, hk, hd⟩
    cases hd with
    | plain h => exact ⟨h, rfl⟩
    | step => omega
  · rintro ⟨h, rfl⟩
    exact ⟨0, Nat.le_refl 0, .plain h⟩

theorem derivesIn_succ {segments : List Segment} (hw : WellFormed segments) :
    L.DerivesIn U (m + 1) (render segments) s ↔ L.DerivesAllIn U m segments s := by
  by_cases h : Plain (render segments)
  · rw [derivesIn_of_plain h, derivesAllIn_of_plain hw h]
  · have hj : L.DerivesAllIn U m (joinLiterals [] segments) s ↔ L.DerivesAllIn U m segments s := by
      simp [derivesAllIn_joinLiterals]
    rw [← hj]
    constructor
    · rintro ⟨k, hk, hd⟩
      cases hd with
      | plain hp => exact absurd hp h
      | step _ hs hd =>
        rw [scan_render hw] at hs
        cases hs
        exact ⟨_, Nat.le_of_succ_le_succ hk, hd⟩
    · rintro ⟨k, hk, hd⟩
      exact ⟨k + 1, Nat.succ_le_succ hk, .step h (scan_render hw) hd⟩

theorem derivesIn_append {a b : String} (ha : Template.Scans a) (hb : Template.Scans b) :
    L.DerivesIn U m (a ++ b) s ↔ ∃ x y, s = x ++ y ∧ L.DerivesIn U m a x ∧ L.DerivesIn U m b y := by
  obtain ⟨as, hwa, rfl⟩ := scans_iff.mp ha
  obtain ⟨bs, hwb, rfl⟩ := scans_iff.mp hb
  rw [← render_append]
  have hw := wellFormed_append.mpr ⟨hwa, hwb⟩
  cases m with
  | zero =>
    simp only [derivesIn_zero, render_append, plain_append]
    constructor
    · rintro ⟨⟨ha, hb⟩, rfl⟩
      exact ⟨_, _, rfl, ⟨ha, rfl⟩, hb, rfl⟩
    · rintro ⟨-, -, rfl, ⟨ha, rfl⟩, hb, rfl⟩
      exact ⟨⟨ha, hb⟩, rfl⟩
  | succ m =>
    simp only [derivesIn_succ hwa, derivesIn_succ hwb, derivesIn_succ hw, derivesAllIn_append]

theorem derivesAllIn_iff_pass (hL : L.Scans) {segments : List Segment}
    (hw : WellFormed segments) :
    L.DerivesAllIn U m segments s ↔
      ∃ t, (L.pass segments).run.Yields U (.ok t) ∧ L.DerivesIn U m t s := by
  -- The first segment and the others are cut apart in the text that the pass gives, although it
  -- holds no trace of the cut; `derivesIn_append` says that any cut between texts that scan will do.
  induction segments generalizing s with
  | nil =>
    simp [yields_pass_nil, derivesAllIn_nil, derivesIn_of_plain (show Plain "" from nofun)]
  | cons seg segments ih =>
    rw [wellFormed_cons] at hw
    obtain ⟨hs, hw⟩ := hw
    cases seg with
    | literal x =>
      simp only [derivesAllIn_literal, yields_pass_literal, ih hw]
      constructor
      · rintro ⟨r, rfl, t, ht, hr⟩
        have hscan := (scans_of_yields_pass hL hw ht)
        exact ⟨x ++ t, ⟨t, rfl, ht⟩, (derivesIn_append (Plain.scans hs) hscan).mpr
          ⟨x, r, rfl, (derivesIn_of_plain hs).mpr rfl, hr⟩⟩
      · rintro ⟨-, ⟨t, rfl, ht⟩, h⟩
        have hscan := (scans_of_yields_pass hL hw ht)
        obtain ⟨y, r, rfl, hy, hr⟩ := (derivesIn_append (Plain.scans hs) hscan).mp h
        rw [derivesIn_of_plain hs] at hy
        exact ⟨r, by rw [hy], t, ht, hr⟩
    | placeholder token =>
      simp only [derivesAllIn_placeholder, yields_pass_placeholder, ih hw]
      constructor
      · rintro ⟨f, x, r, rfl, hf, hx, t, ht, hr⟩
        have hscan := (scans_of_yields_pass hL hw ht)
        exact ⟨f ++ t, ⟨f, t, rfl, hf, ht⟩, (derivesIn_append (scans_of_fragment hL hf) hscan).mpr
          ⟨x, r, rfl, hx, hr⟩⟩
      · rintro ⟨-, ⟨f, t, rfl, hf, ht⟩, h⟩
        have hscan := (scans_of_yields_pass hL hw ht)
        obtain ⟨x, r, rfl, hx, hr⟩ := (derivesIn_append (scans_of_fragment hL hf) hscan).mp h
        exact ⟨f, x, r, rfl, hf, hx, t, ht, hr⟩

theorem yields_expandWith_ok (hL : L.Scans) (ht : Template.Scans t) :
    (L.expandWith passes m t).run.Yields U (.ok s) ↔ L.DerivesIn U m t s := by
  induction m generalizing t with
  | zero =>
    rw [derivesIn_zero]
    by_cases h : Plain t
    · simp [expandWith_of_plain h, h]
    · simp [expandWith_zero h ht, h]
  | succ m ih =>
    obtain ⟨segments, hw, rfl⟩ := scans_iff.mp ht
    rw [expandWith_succ hw, derivesIn_succ hw, derivesAllIn_iff_pass hL hw, yields_run_bind]
    simp only [reduceCtorEq, and_false, exists_false, or_false]
    refine exists_congr fun t => and_congr_right fun h => ?_
    exact ih (scans_of_yields_pass hL hw h)

/-- Some source with fractions below one makes expansion succeed with `s` within `m` passes if and
only if `s` has a derivation of height at most `m`, from the template or from a skeleton. -/
theorem expand_ok_iff_derives (hL : L.Scans) (m : Nat) (s : String) :
    (∀ t, Template.Scans t →
      ((∃ (σ : Type) (_ : RandomSource σ) (x : σ), RandomSource.UnitsIn Binary64.InUnit σ ∧
          (Generator.expand ⟨L, m, x⟩ t).1 = .ok s) ↔
        ∃ h ≤ m, L.Derives Binary64.InUnit h t s)) ∧
    ((∃ (σ : Type) (_ : RandomSource σ) (x : σ), RandomSource.UnitsIn Binary64.InUnit σ ∧
        (Generator.one ⟨L, m, x⟩).1 = .ok s) ↔
      ∃ t ∈ L.entries .skeletons, ∃ h ≤ m, L.Derives Binary64.InUnit h t s) := by
  have hsource (p : Generation String) := exists_run_eq_iff ⟨0, Binary64.zero_inUnit⟩ (p := p.run)
    (a := .ok s)
  constructor
  · intro t ht
    exact (hsource (L.expand m t)).trans (yields_expandWith_ok hL ht)
  · refine (hsource (L.law m)).trans (yields_law.trans ?_)
    simp only [reduceCtorEq, and_false, or_false]
    refine exists_congr fun t => and_congr_right fun ht => ?_
    exact yields_expandWith_ok hL (hL.skeleton ht)

theorem derives_number_phrase :
    let L := ofPhrases ["\x7bpredicate\x7d"] ["em \x7bnumber,30,90\x7d dias"] []
    L.Scans ∧ Template.Scans "vale \x7bpredicate\x7d" ∧
      (∃ h ≤ 2, L.Derives Binary64.InUnit h "vale \x7bpredicate\x7d" "vale em 30 dias") ∧
      ∃ t ∈ L.entries .skeletons, ∃ h ≤ 2, L.Derives Binary64.InUnit h t "em 30 dias" := by
  intro L
  have hL : L.Scans := by decide +kernel
  have ht : Template.Scans "vale \x7bpredicate\x7d" := by decide +kernel
  let x : Answers Binary64.InUnit := ⟨[], [], 0, Binary64.zero_inUnit⟩
  refine ⟨hL, ht, ((expand_ok_iff_derives hL 2 _).1 _ ht).mp ⟨_, _, x, Answers.unitsIn, ?_⟩,
    (expand_ok_iff_derives hL 2 _).2.mp ⟨_, _, x, Answers.unitsIn, ?_⟩⟩
  all_goals decide +kernel

end Lexicon

end BillGrammar
