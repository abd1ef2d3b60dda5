import BillGrammar.Law.Settings
import Mathlib.Data.List.Induction

namespace BillGrammar

namespace Setting

def lexicon? : Setting → Option Lexicon
  | .lexicon L => some L
  | .overrides o => some (.ofOverride o)
  | _ => none

def passes? : Setting → Option Nat
  | .passes n => some n
  | .config c => some c.passes
  | _ => none

def seed? : Setting → Option (Option UInt64)
  | .seed n => some (some n)
  | .config c => some c.seed
  | _ => none

def isOfLexicon (c : Setting) : Bool := c.lexicon?.isSome

theorem ofOverrideFile_eq_ok {content : FileContent} : ofOverrideFile content = .ok c ↔
    ∃ o, Override.ofFile content = .ok o ∧ c = .overrides o := by
  rw [ofOverrideFile]
  cases Override.ofFile content <;> simp [Except.map, Except.mapError, eq_comm]

theorem ofConfigFile_eq_ok {content : FileContent} : ofConfigFile content = .ok c ↔
    ∃ v, Config.ofFile content = .ok v ∧ c = .config v := by
  rw [ofConfigFile]
  cases Config.ofFile content <;> simp [Except.map, Except.mapError, eq_comm]

end Setting

namespace Settings

variable {c : Setting} {s : Settings}

def last? (f : Setting → Option α) (cs : List Setting) : Option α := (cs.filterMap f).getLast?

theorem last?_append_singleton (f : Setting → Option α) (cs : List Setting) (c : Setting) :
    last? f (cs ++ [c]) = (f c).or (last? f cs) := by
  cases h : f c <;> simp [last?, List.filterMap_append, h]

theorem ofList_append_singleton (cs : List Setting) (c : Setting) :
    ofList (cs ++ [c]) = (ofList cs).set c := by
  rw [ofList, List.foldl_append]
  rfl

theorem lexicon_set (s : Settings) (c : Setting) :
    (s.set c).lexicon = c.lexicon?.getD s.lexicon := by
  cases c <;> rfl

theorem passes_set (s : Settings) (c : Setting) :
    (s.set c).config.passes = c.passes?.getD s.config.passes := by
  cases c <;> rfl

theorem seed_set (s : Settings) (c : Setting) :
    (s.set c).config.seed = c.seed?.getD s.config.seed := by
  cases c <;> rfl

theorem ofList_component (get : Settings → α) {f : Setting → Option α}
    (h : ∀ s c, get (s.set c) = (f c).getD (get s)) (cs : List Setting) :
    get (ofList cs) = (last? f cs).getD (get {}) := by
  induction cs using List.reverseRecOn with
  | nil => rfl
  | append_singleton cs c ih =>
    rw [ofList_append_singleton, last?_append_singleton, h, ih]
    cases f c <;> rfl

theorem lexicon_ofList (cs : List Setting) :
    (ofList cs).lexicon = (last? Setting.lexicon? cs).getD .builtin :=
  ofList_component lexicon lexicon_set cs

theorem passes_ofList (cs : List Setting) :
    (ofList cs).config.passes = (last? Setting.passes? cs).getD defaultPasses :=
  ofList_component (·.config.passes) passes_set cs

theorem seed_ofList (cs : List Setting) :
    (ofList cs).config.seed = (last? Setting.seed? cs).getD none :=
  ofList_component (·.config.seed) seed_set cs

theorem ext_of_components {s s' : Settings} (hL : s.lexicon = s'.lexicon)
    (hp : s.config.passes = s'.config.passes) (hs : s.config.seed = s'.config.seed) : s = s' := by
  obtain ⟨L, ⟨p, n⟩⟩ := s
  obtain ⟨L', ⟨p', n'⟩⟩ := s'
  dsimp only at hL hp hs
  rw [hL, hp, hs]

theorem last?_append (f : Setting → Option α) (cs ds : List Setting) :
    last? f (cs ++ ds) = (last? f ds).or (last? f cs) := by
  rw [last?, List.filterMap_append, List.getLast?_append]
  rfl

theorem last?_filter_of_imp {f : Setting → Option α} {p : Setting → Bool}
    (h : ∀ c, p c = false → f c = none) (cs : List Setting) :
    last? f (cs.filter p) = last? f cs := by
  rw [last?, List.filterMap_filter, last?]
  congr 2
  funext c
  cases hc : p c with
  | true => rfl
  | false => exact (h c hc).symm

theorem last?_eq_none {f : Setting → Option α} {cs : List Setting} (h : ∀ c ∈ cs, f c = none) :
    last? f cs = none := by
  rw [last?, List.getLast?_eq_none_iff, List.filterMap_eq_nil_iff]
  exact h

theorem last?_of_getLast? {f : Setting → Option α} {cs : List Setting} (h : cs.getLast? = some c)
    (hc : f c = some a) : last? f cs = some a := by
  obtain ⟨before, rfl⟩ := List.getLast?_eq_some_iff.mp h
  rw [last?_append_singleton, hc, Option.some_or]

theorem last?_lexicon?_filter (cs : List Setting) :
    last? Setting.lexicon? (cs.filter (·.isOfLexicon)) = last? Setting.lexicon? cs :=
  last?_filter_of_imp (fun c hc => by simpa [Setting.isOfLexicon] using hc) cs

theorem ofList_eq_ofList_filter (cs : List Setting) :
    ofList cs = ofList (cs.filter (·.isOfLexicon) ++ cs.filter (!·.isOfLexicon)) := by
  have hruns (c : Setting) (h : c.isOfLexicon = true) : c.passes? = none ∧ c.seed? = none := by
    cases c <;> first | exact ⟨rfl, rfl⟩ | cases h
  have hpasses : last? Setting.passes? (cs.filter (·.isOfLexicon)) = none :=
    last?_eq_none fun c hc => (hruns c (List.mem_filter.mp hc).2).1
  have hseed : last? Setting.seed? (cs.filter (·.isOfLexicon)) = none :=
    last?_eq_none fun c hc => (hruns c (List.mem_filter.mp hc).2).2
  have hrest : last? Setting.lexicon? (cs.filter (!·.isOfLexicon)) = none :=
    last?_eq_none fun c hc => by simpa [Setting.isOfLexicon] using (List.mem_filter.mp hc).2
  apply ext_of_components
  · rw [lexicon_ofList, lexicon_ofList, last?_append, hrest, Option.none_or,
      last?_lexicon?_filter]
  · rw [passes_ofList, passes_ofList, last?_append, hpasses, Option.or_none,
      last?_filter_of_imp fun c hc => (hruns c (by simpa using hc)).1]
  · rw [seed_ofList, seed_ofList, last?_append, hseed, Option.or_none,
      last?_filter_of_imp fun c hc => (hruns c (by simpa using hc)).2]

end Settings

theorem Lexicon.entries_ofOverride (o : Override) (t : Table) :
    (t ∈ o.tables ↔ o.entries? t = some ((ofOverride o).entries t)) ∧
      (t ∉ o.tables → (ofOverride o).entries t = t.builtin) := by
  have hmem : t ∈ o.tables ↔ (o.entries? t).isSome := by
    rw [Override.tables, List.mem_filter]
    exact and_iff_right t.mem_all
  have hentries : (ofOverride o).entries t = (o.entries? t).getD t.builtin := rfl
  rw [hmem, hentries]
  cases o.entries? t <;> simp

namespace Settings

/-- Of the lexicon, of the passes and of the seed the last setting counts, so those of the lexicon
may be made before the others.  Where an override counts, its tables stand in the generator as they
are, and the others are built in.  Files set what they hold. -/
theorem last_counts (cs : List Setting) :
    (∀ {σ : Type} (source : σ), (ofList cs).generator source =
        ⟨(last? Setting.lexicon? cs).getD .builtin,
          (last? Setting.passes? cs).getD defaultPasses, source⟩) ∧
      (ofList cs).config.seed = (last? Setting.seed? cs).getD none ∧
      ofList cs = ofList (cs.filter (·.isOfLexicon) ++ cs.filter (!·.isOfLexicon)) ∧
      (∀ o, (cs.filter (·.isOfLexicon)).getLast? = some (.overrides o) → ∀ t,
        (t ∈ o.tables ↔ o.entries? t = some ((ofList cs).lexicon.entries t)) ∧
          (t ∉ o.tables → (ofList cs).lexicon.entries t = t.builtin)) ∧
      ∀ content c, (Setting.ofOverrideFile content = .ok c ↔
          ∃ o, Override.ofFile content = .ok o ∧ c = .overrides o) ∧
        (Setting.ofConfigFile content = .ok c ↔
          ∃ v, Config.ofFile content = .ok v ∧ c = .config v) := by
  refine ⟨fun source => ?_, seed_ofList cs, ofList_eq_ofList_filter cs, fun o ho t => ?_,
    fun _ _ => ⟨Setting.ofOverrideFile_eq_ok, Setting.ofConfigFile_eq_ok⟩⟩
  · rw [generator, lexicon_ofList, passes_ofList]
  · have hlast := last?_of_getLast? (f := Setting.lexicon?) ho rfl
    rw [lexicon_ofList, ← last?_lexicon?_filter, hlast, Option.getD_some]
    exact Lexicon.entries_ofOverride o t

theorem last_counts_override :
    let drugs : Override := Override.empty.set .drugs ["café"]
    let skeletons : Override := Override.empty.set .skeletons []
    let cs : List Setting := [.seed 3, .overrides drugs, .passes 9, .overrides skeletons,
      .config { passes := 7 }, .passes 5]
    (cs.filter (·.isOfLexicon)).getLast? = some (.overrides skeletons) ∧
      (ofList cs).config.seed = none ∧
      ((ofList cs).generator ()).passes = 5 ∧
      ((ofList cs).generator ()).lexicon.entries .skeletons = [] ∧
      ((ofList cs).generator ()).lexicon.entries .drugs = Table.drugs.builtin := by
  intro drugs skeletons cs
  have hlast : (cs.filter (·.isOfLexicon)).getLast? = some (.overrides skeletons) := rfl
  obtain ⟨hgenerator, hseed, -, htables, -⟩ := last_counts cs
  have hskeletons := (htables skeletons hlast .skeletons).1.mp (by decide)
  rw [Override.entries?_set_self, Option.some.injEq] at hskeletons
  exact ⟨hlast, hseed, congrArg Generator.passes (hgenerator ()), hskeletons.symm,
    (htables skeletons hlast .drugs).2 (by decide)⟩

end Settings

end BillGrammar
