import BillGrammar.Proofs.Law.Budget
import BillGrammar.Proofs.Placeholder.Fixed
import Mathlib.Order.Interval.Finset.Nat
import Mathlib.Order.Lattice.Nat

/-!
Expansion over a source that always answers alike.  Each text needs a certain number of passes, or
never settles; a text that needs some draws a fragment that needs one less.
-/

namespace BillGrammar

open Template Sampler

namespace Lexicon

variable {L : Lexicon} {s : FixedSource}

def Settles (L : Lexicon) (s : FixedSource) (m : Nat) (t x : String) : Prop :=
  ∀ passes, s.result (L.expandWith passes m t) = .ok x

def SettlesIn (L : Lexicon) (s : FixedSource) (m : Nat) (t : String) : Prop :=
  ∃ x, L.Settles s m t x

theorem settles_of_result (h : s.result (L.expandWith passes m t) = .ok x) (hmn : m ≤ n) :
    L.Settles s n t x := by
  obtain ⟨more, rfl⟩ := Nat.exists_eq_add_of_le hmn
  rcases L.ends_or_exceeds passes m (t, s) with ⟨-, hr⟩ | ⟨b, -, -, -, hr⟩
  · intro passes'
    exact (congrArg Prod.fst (hr passes' more)).trans h
  · have he : s.result (L.expandWith passes m t) = .error (.depthExceeded passes) :=
      congrArg Prod.fst hr
    rw [he] at h
    cases h

theorem SettlesIn.mono (hmn : m ≤ n) : L.SettlesIn s m t → L.SettlesIn s n t
  | ⟨x, h⟩ => ⟨x, settles_of_result (h 0) hmn⟩

theorem settles_of_plain (h : Plain t) : L.Settles s m t x ↔ x = t := by
  simp [Settles, expandWith_of_plain h, eq_comm]

theorem settles_zero (ht : Template.Scans t) : L.Settles s 0 t x ↔ Plain t ∧ x = t := by
  by_cases h : Plain t
  · simp [settles_of_plain h, h]
  · simp [Settles, expandWith_zero h ht, h]

theorem settles_succ {segments : List Segment} (hw : WellFormed segments) :
    L.Settles s (m + 1) (render segments) x ↔
      ∃ t, s.result (L.pass segments) = .ok t ∧ L.Settles s m t x := by
  simp only [Settles, expandWith_succ hw, FixedSource.result_bind_eq_ok]
  constructor
  · intro h
    obtain ⟨t, ht, -⟩ := h 0
    refine ⟨t, ht, fun passes => ?_⟩
    obtain ⟨t', ht', h⟩ := h passes
    rw [ht] at ht'
    cases ht'
    exact h
  · rintro ⟨t, ht, h⟩ passes
    exact ⟨t, ht, h passes⟩

theorem result_pass_append {a b : List Segment} :
    s.result (L.pass (a ++ b)) = .ok t ↔
      ∃ u v, t = u ++ v ∧ s.result (L.pass a) = .ok u ∧ s.result (L.pass b) = .ok v := by
  simp only [pass_append, FixedSource.result_bind_eq_ok, FixedSource.result_map_eq_ok]
  constructor
  · rintro ⟨u, hu, v, hv, rfl⟩
    exact ⟨u, v, rfl, hu, hv⟩
  · rintro ⟨u, v, rfl, hu, hv⟩
    exact ⟨u, hu, v, hv, rfl⟩

theorem result_pass_placeholder :
    s.result (L.pass [.placeholder token]) = .ok f ↔ s.result (L.fragment token) = .ok f := by
  simp [pass_placeholder, pass_nil, FixedSource.result_adapt_eq_ok]

theorem scans_of_result_pass (hL : L.Scans) {segments : List Segment} (hw : WellFormed segments)
    (h : s.result (L.pass segments) = .ok t) : Template.Scans t :=
  scans_of_yields_pass hL hw (FixedSource.yields_of_result h)

theorem settles_append (hL : L.Scans) {a b : String} (ha : Template.Scans a)
    (hb : Template.Scans b) :
    L.Settles s m (a ++ b) z ↔ ∃ x y, z = x ++ y ∧ L.Settles s m a x ∧ L.Settles s m b y := by
  induction m generalizing a b z with
  | zero =>
    simp only [settles_zero ha, settles_zero hb, settles_zero (ha.append hb), plain_append]
    constructor
    · rintro ⟨⟨hpa, hpb⟩, rfl⟩
      exact ⟨a, b, rfl, ⟨hpa, rfl⟩, hpb, rfl⟩
    · rintro ⟨x, y, rfl, ⟨hpa, rfl⟩, hpb, rfl⟩
      exact ⟨⟨hpa, hpb⟩, rfl⟩
  | succ m ih =>
    obtain ⟨as, hwa, rfl⟩ := scans_iff.mp ha
    obtain ⟨bs, hwb, rfl⟩ := scans_iff.mp hb
    rw [← render_append]
    simp only [settles_succ hwa, settles_succ hwb, settles_succ (wellFormed_append.mpr ⟨hwa, hwb⟩),
      result_pass_append]
    constructor
    · rintro ⟨-, ⟨u, v, rfl, hu, hv⟩, h⟩
      obtain ⟨x, y, rfl, hx, hy⟩ :=
        (ih (scans_of_result_pass hL hwa hu) (scans_of_result_pass hL hwb hv)).mp h
      exact ⟨x, y, rfl, ⟨u, hu, hx⟩, v, hv, hy⟩
    · rintro ⟨x, y, rfl, ⟨u, hu, hx⟩, v, hv, hy⟩
      exact ⟨u ++ v, ⟨u, v, rfl, hu, hv⟩,
        (ih (scans_of_result_pass hL hwa hu) (scans_of_result_pass hL hwb hv)).mpr
          ⟨x, y, rfl, hx, hy⟩⟩

theorem settlesIn_append (hL : L.Scans) {a b : String} (ha : Template.Scans a)
    (hb : Template.Scans b) :
    L.SettlesIn s m (a ++ b) ↔ L.SettlesIn s m a ∧ L.SettlesIn s m b := by
  simp only [SettlesIn, settles_append hL ha hb]
  constructor
  · rintro ⟨-, x, y, rfl, hx, hy⟩
    exact ⟨⟨x, hx⟩, y, hy⟩
  · rintro ⟨⟨x, hx⟩, y, hy⟩
    exact ⟨_, x, y, rfl, hx, hy⟩

theorem settlesIn_succ (hL : L.Scans) {segments : List Segment} (hw : WellFormed segments) :
    L.SettlesIn s (m + 1) (render segments) ↔
      ∀ token, .placeholder token ∈ segments →
        ∃ f, s.result (L.fragment token) = .ok f ∧ L.SettlesIn s m f := by
  induction segments with
  | nil => simpa [SettlesIn] using ⟨"", (settles_of_plain (by simp [Plain])).mpr rfl⟩
  | cons seg segments ih =>
    obtain ⟨hseg, hws⟩ := wellFormed_cons.mp hw
    have hrest : Template.Scans (render segments) := scans_iff.mpr ⟨_, hws, rfl⟩
    rw [render_cons]
    cases seg with
    | literal text =>
      have htext : L.SettlesIn s (m + 1) text := ⟨text, (settles_of_plain hseg).mpr rfl⟩
      rw [Segment.render, settlesIn_append hL (Plain.scans hseg) hrest, ih hws]
      simp [htext]
    | placeholder token =>
      have hone : WellFormed [.placeholder token] := by simpa [WellFormed] using hseg
      have htoken : L.SettlesIn s (m + 1) (Segment.placeholder token).render ↔
          ∃ f, s.result (L.fragment token) = .ok f ∧ L.SettlesIn s m f := by
        have hrender : (Segment.placeholder token).render = render [.placeholder token] := by simp
        simp only [hrender, SettlesIn, settles_succ hone, result_pass_placeholder]
        constructor
        · rintro ⟨x, f, hf, hx⟩
          exact ⟨f, hf, x, hx⟩
        · rintro ⟨f, hf, x, hx⟩
          exact ⟨x, f, hf, hx⟩
      have hscan : Template.Scans (Segment.placeholder token).render :=
        scans_iff.mpr ⟨_, hone, by simp⟩
      rw [settlesIn_append hL hscan hrest, ih hws, htoken]
      simp

structure Needs (L : Lexicon) (s : FixedSource) (n : Nat) (t : String) : Prop where
  settlesIn : L.SettlesIn s n t
  least : ∀ m, L.SettlesIn s m t → n ≤ m

theorem SettlesIn.exists_needs (h : L.SettlesIn s m t) : ∃ n ≤ m, L.Needs s n t := by
  classical
  have hex : ∃ m, L.SettlesIn s m t := ⟨m, h⟩
  exact ⟨Nat.find hex, Nat.find_min' hex h, Nat.find_spec hex, fun k hk => Nat.find_min' hex hk⟩

theorem Needs.not_plain (h : L.Needs s (n + 1) t) : ¬ Plain t := by
  intro hp
  have hle : n + 1 ≤ 0 := h.least 0 ⟨t, (settles_of_plain hp).mpr rfl⟩
  omega

theorem Needs.exists_fragment (hL : L.Scans) (ht : Template.Scans t) (h : L.Needs s (n + 1) t) :
    ∃ token f, s.result (L.fragment token) = .ok f ∧ L.Needs s n f := by
  obtain ⟨segments, hw, rfl⟩ := scans_iff.mp ht
  by_contra hnone
  push Not at hnone
  have hless (token : String) (htoken : .placeholder token ∈ segments) :
      ∃ f, s.result (L.fragment token) = .ok f ∧ ∃ k < n, L.SettlesIn s k f := by
    obtain ⟨f, hf, hsettles⟩ := (settlesIn_succ hL hw).mp h.settlesIn token htoken
    obtain ⟨k, hk, hneeds⟩ := hsettles.exists_needs
    have hne : k ≠ n := fun he => hnone token f hf (he ▸ hneeds)
    exact ⟨f, hf, k, by omega, hneeds.settlesIn⟩
  cases n with
  | zero =>
    refine h.not_plain ((plain_render_iff hw).mpr fun token htoken => ?_)
    obtain ⟨_, _, k, hk, -⟩ := hless token htoken
    omega
  | succ n =>
    have hearly : L.SettlesIn s (n + 1) (render segments) := by
      refine (settlesIn_succ hL hw).mpr fun token htoken => ?_
      obtain ⟨f, hf, k, hk, hsettles⟩ := hless token htoken
      exact ⟨f, hf, hsettles.mono (Nat.le_of_lt_succ hk)⟩
    have hle : n + 1 + 1 ≤ n + 1 := h.least _ hearly
    omega

theorem Needs.exists_mem_fixedTexts (hL : L.Scans) (ht : Template.Scans t)
    (h : L.Needs s (n + 1) t) (hk : k + 1 ≤ n) : ∃ f ∈ L.fixedTexts s, L.Needs s (k + 1) f := by
  induction n generalizing t with
  | zero => omega
  | succ n ih =>
    obtain ⟨token, f, hf, hneeds⟩ := h.exists_fragment hL ht
    by_cases he : k = n
    · subst he
      exact ⟨f, (mem_fixedTexts_of_result hf).resolve_left hneeds.not_plain, hneeds⟩
    · have hfs : Template.Scans f := scans_of_fragment hL (FixedSource.yields_of_result hf)
      exact ih hfs hneeds (by omega)

/-- No two fragments need different numbers of passes, so there are no more numbers than fragments. -/
theorem Needs.le (hL : L.Scans) (ht : Template.Scans t) (h : L.Needs s n t) : n ≤ 18 := by
  cases n with
  | zero => omega
  | succ n =>
    let needed (f : String) : Nat := sInf {m | L.SettlesIn s m f}
    have hsub : Finset.Icc 1 n ⊆ (L.fixedTexts s).toFinset.image needed := by
      intro k hk
      obtain ⟨hk, hkn⟩ := Finset.mem_Icc.mp hk
      obtain ⟨k, rfl⟩ := Nat.exists_eq_add_of_le' hk
      obtain ⟨f, hf, hneeds⟩ := h.exists_mem_fixedTexts hL ht hkn
      have hleast : IsLeast {m | L.SettlesIn s m f} (k + 1) := ⟨hneeds.settlesIn, hneeds.least⟩
      exact Finset.mem_image.mpr ⟨f, List.mem_toFinset.mpr hf, hleast.csInf_eq⟩
    have hcard : n ≤ 17 := by
      calc n = (Finset.Icc 1 n).card := by simp
        _ ≤ ((L.fixedTexts s).toFinset.image needed).card := Finset.card_le_card hsub
        _ ≤ (L.fixedTexts s).toFinset.card := Finset.card_image_le
        _ ≤ (L.fixedTexts s).length := List.toFinset_card_le _
        _ ≤ 17 := length_fixedTexts
    omega

theorem Settles.within (hL : L.Scans) (ht : Template.Scans t) (h : L.Settles s m t x) :
    L.Settles s 18 t x := by
  obtain ⟨n, -, hneeds⟩ := SettlesIn.exists_needs ⟨x, h⟩
  obtain ⟨y, hy⟩ := SettlesIn.mono (hneeds.le hL ht) hneeds.settlesIn
  -- More passes would leave either text as it is.
  have hx' : L.Settles s (m + 18) t x := settles_of_result (h 0) (Nat.le_add_right ..)
  have hy' : L.Settles s (m + 18) t y := settles_of_result (hy 0) (Nat.le_add_left ..)
  cases (hx' 0).symm.trans (hy' 0)
  exact hy

theorem scans_of_result (h : s.result (L.expandWith passes m t) = .ok x) : Template.Scans t := by
  cases hs : scan t with
  | ok segments => exact ⟨segments, hs⟩
  | error e =>
    rw [expandWith_of_unreadable hs] at h
    cases h

/-- One entry in each table, and each of its forms refers to the next, the last to a number. -/
def ladder : Lexicon where
  entries
    | .skeletons => (["\x7bpredicate\x7d"] : List String)
    | .predicates => (["\x7bsubject:singular\x7d"] : List String)
    | .subjects => ([⟨"\x7bsubject\x7d", "\x7bobject:singular\x7d", .either⟩] : List Noun)
    | .objects =>
      ([⟨⟨"\x7bobject\x7d", "\x7bestablishment:singular\x7d", .either⟩, "o"⟩] : List ArticledNoun)
    | .establishments =>
      ([⟨⟨"\x7bestablishment\x7d", "\x7baction,person\x7d", .either⟩, "o"⟩] : List ArticledNoun)
    | .personActions =>
      ([⟨"\x7baction:thirdPerson,person\x7d", "\x7baction:plural,person\x7d", "\x7baction\x7d"⟩] :
        List Action)
    | .establishmentActions =>
      ([⟨"\x7baction:thirdPerson\x7d", "\x7baction:plural\x7d", "\x7bresource\x7d"⟩] : List Action)
    | .resources => (["\x7bproblem\x7d"] : List String)
    | .problems => (["\x7bdisease\x7d"] : List String)
    | .diseases => (["\x7bdrug\x7d"] : List String)
    | .drugs => (["\x7bnumber,2,6\x7d mg"] : List String)

end Lexicon

namespace Generator

/-- Over a source that always answers alike a text settles within eighteen passes or never: the
source draws at most seventeen different fragments, and a last pass may replace numbers. -/
theorem expand_settles (L : Lexicon) (hL : L.Scans) (x : FixedSource) (text : String) :
    (∀ m s, (Generator.expand ⟨L, m, x⟩ text).1 = .ok s →
      (Generator.expand ⟨L, 18, x⟩ text).1 = .ok s) ∧
    ∀ k, (Generator.expand ⟨L, defaultPasses, x⟩ text).1 = .error (.depthExceeded k) →
      ∀ m s, (Generator.expand ⟨L, m, x⟩ text).1 ≠ .ok s := by
  have hwithin {m : Nat} {s : String} (h : (Generator.expand ⟨L, m, x⟩ text).1 = .ok s) :
      L.Settles x 18 text s :=
    (Lexicon.settles_of_result h (Nat.le_refl m)).within hL (Lexicon.scans_of_result h)
  refine ⟨fun m s h => hwithin h 18, fun k hk m s h => ?_⟩
  have hle : 18 ≤ defaultPasses := by decide
  have hok : (Generator.expand ⟨L, defaultPasses, x⟩ text).1 = .ok s :=
    Lexicon.settles_of_result (hwithin h 18) hle defaultPasses
  rw [hok] at hk
  cases hk

/-- The bound is met: seventeen passes are not enough here. -/
theorem expand_settles_ladder :
    let text := "\x7bpredicate\x7d"
    let g (passes : Nat) : Generator FixedSource := ⟨.ladder, passes, .ofPick .first⟩
    let endless : Lexicon := .ofPhrases [] [text] []
    (Lexicon.ladder.Scans ∧ ((g 17).expand text).1 = .error (.depthExceeded 17) ∧
      ((g 64).expand text).1 = .ok "4 mg" ∧ ((g 18).expand text).1 = .ok "4 mg") ∧
      endless.Scans ∧ ∀ m s, (Generator.expand ⟨endless, m, FixedSource.ofPick .last⟩ text).1 ≠ .ok s := by
  intro text g endless
  have hladder : Lexicon.ladder.Scans := by decide +kernel
  have hendless : endless.Scans := by decide +kernel
  have hok : ((g 64).expand text).1 = .ok "4 mg" := by decide +kernel
  have hexceeded : (Generator.expand ⟨endless, defaultPasses, FixedSource.ofPick .last⟩ text).1 =
      .error (.depthExceeded 64) := by decide +kernel
  obtain ⟨hwithin, -⟩ := expand_settles .ladder hladder (.ofPick .first) text
  obtain ⟨-, hnever⟩ := expand_settles endless hendless (.ofPick .last) text
  exact ⟨⟨hladder, by decide +kernel, hok, hwithin 64 "4 mg" hok⟩, hendless, hnever 64 hexceeded⟩

/-- Over a source that always answers alike joined texts are expanded each by itself, all within the
same number of passes. -/
theorem expand_append (L : Lexicon) (hL : L.Scans) (x : FixedSource) (passes : Nat) (a b : String)
    (ha : Template.Scans a) (hb : Template.Scans b) (s : String) :
    (Generator.expand ⟨L, passes, x⟩ (a ++ b)).1 = .ok s ↔
      ∃ u v, s = u ++ v ∧ (Generator.expand ⟨L, passes, x⟩ a).1 = .ok u ∧
        (Generator.expand ⟨L, passes, x⟩ b).1 = .ok v := by
  have hsettles (t u : String) :
      (Generator.expand ⟨L, passes, x⟩ t).1 = .ok u ↔ L.Settles x passes t u :=
    ⟨fun h => Lexicon.settles_of_result h (Nat.le_refl passes), fun h => h passes⟩
  simp only [hsettles]
  exact Lexicon.settles_append hL ha hb

theorem expand_append_uneven :
    let L : Lexicon := .ofPhrases [] ["ley de \x7bproblem\x7d"] ["\x7bnumber,2,6\x7d"]
    let g (passes : Nat) : Generator FixedSource := ⟨L, passes, .ofPick .first⟩
    let a := "A \x7bpredicate\x7d, "
    let b := "\x7bnumber,2,6\x7d ley"
    L.Scans ∧ Template.Scans a ∧ Template.Scans b ∧
      ((g 3).expand a).1 = .ok "A ley de 4, " ∧ ((g 3).expand b).1 = .ok "4 ley" ∧
      ((g 3).expand (a ++ b)).1 = .ok ("A ley de 4, " ++ "4 ley") ∧
      ((g 2).expand b).1 = .ok "4 ley" ∧ ∀ s, ((g 2).expand (a ++ b)).1 ≠ .ok s := by
  intro L g a b
  have hL : L.Scans := by decide +kernel
  have ha : Template.Scans a := by decide +kernel
  have hb : Template.Scans b := by decide +kernel
  have hfirst : ((g 3).expand a).1 = .ok "A ley de 4, " := by decide +kernel
  have hsecond : ((g 3).expand b).1 = .ok "4 ley" := by decide +kernel
  have hexceeded : ((g 2).expand a).1 = .error (.depthExceeded 2) := by decide +kernel
  have hjoined := expand_append L hL (.ofPick .first) 3 a b ha hb ("A ley de 4, " ++ "4 ley")
  refine ⟨hL, ha, hb, hfirst, hsecond, hjoined.mpr ⟨_, _, rfl, hfirst, hsecond⟩,
    by decide +kernel, fun s h => ?_⟩
  obtain ⟨u, v, -, hu, -⟩ := (expand_append L hL (.ofPick .first) 2 a b ha hb s).mp h
  cases hexceeded.symm.trans hu

end Generator

end BillGrammar
