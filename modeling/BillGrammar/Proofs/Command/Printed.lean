import BillGrammar.Proofs.Command.Outcome
import BillGrammar.Proofs.Law.Characters
import BillGrammar.Proofs.Ron.Written

/-!
Reading printed laws back.  Over a lexicon without line breaks no law has one, so that blank lines
stand between laws only, and what is printed tells which laws there are.
-/

namespace BillGrammar

namespace Text

def SingleLine (s : String) : Prop := '\n' ∉ s.toList

instance (s : String) : Decidable (SingleLine s) := inferInstanceAs (Decidable (¬ _))

/-- What stands between two line breaks in a row, which are found from the left. -/
def splitParagraphs : List Char → List (List Char)
  | [] => [[]]
  | '\n' :: '\n' :: cs => [] :: splitParagraphs cs
  | c :: cs => (splitParagraphs cs).modifyHead (c :: ·)

def paragraphs (s : String) : List String := (splitParagraphs s.toList).map String.ofList

theorem splitParagraphs_cons {c : Char} (h : c ≠ '\n') (cs : List Char) :
    splitParagraphs (c :: cs) = (splitParagraphs cs).modifyHead (c :: ·) := by
  rw [splitParagraphs]
  rintro _ rfl
  exact absurd rfl h

theorem splitParagraphs_of_not_mem {cs : List Char} (h : '\n' ∉ cs) :
    splitParagraphs cs = [cs] := by
  induction cs with
  | nil => rfl
  | cons c cs ih =>
    obtain ⟨hc, h⟩ := not_or.mp (List.mem_cons.not.mp h)
    rw [splitParagraphs_cons (Ne.symm hc), ih h, List.modifyHead_cons]

theorem splitParagraphs_append {cs : List Char} (h : '\n' ∉ cs) (more : List Char) :
    splitParagraphs (cs ++ '\n' :: '\n' :: more) = cs :: splitParagraphs more := by
  induction cs with
  | nil => rfl
  | cons c cs ih =>
    obtain ⟨hc, h⟩ := not_or.mp (List.mem_cons.not.mp h)
    rw [List.cons_append, splitParagraphs_cons (Ne.symm hc), ih h, List.modifyHead_cons]

theorem paragraphs_intercalate {xs : List String} (hne : xs ≠ []) (h : ∀ x ∈ xs, SingleLine x) :
    paragraphs (String.intercalate "\n\n" xs) = xs := by
  induction xs with
  | nil => exact absurd rfl hne
  | cons x xs ih =>
    obtain ⟨hx, h⟩ := List.forall_mem_cons.mp h
    cases xs with
    | nil => simp [paragraphs, splitParagraphs_of_not_mem hx]
    | cons y ys =>
      have hcs : (String.intercalate "\n\n" (x :: y :: ys)).toList =
          x.toList ++ '\n' :: '\n' :: (String.intercalate "\n\n" (y :: ys)).toList := by
        simp [String.intercalate_cons_cons]
      rw [paragraphs, hcs, splitParagraphs_append hx, List.map_cons, String.ofList_toList]
      exact congrArg (x :: ·) (ih (List.cons_ne_nil _ _) h)

end Text

open Text

namespace LawCommand

open FlagValue

/-- How laws stand in a text: one alone in the first line, others as paragraphs behind a heading. -/
inductive Reads : String → List String → Prop
  | one : SingleLine law → Reads (law ++ "\n") [law]
  | several : (∀ law ∈ laws, SingleLine law) → laws.length ≠ 1 → paragraphs body = laws →
      Reads ("Novas leis geradas:\n\n" ++ body ++ "\n") laws

variable {laws : List String}

theorem reads_render (hne : laws ≠ []) (h : ∀ law ∈ laws, SingleLine law) :
    Reads (render laws ++ "\n") laws := by
  unfold render
  split
  case h_1 law => exact .one (h law List.mem_cons_self)
  case h_2 hlaws =>
    refine .several h (fun hlen => ?_) (paragraphs_intercalate hne h)
    obtain ⟨law, rfl⟩ := List.length_eq_one_iff.mp hlen
    exact hlaws law rfl

theorem not_singleLine_heading (body : String) :
    ¬ SingleLine ("Novas leis geradas:\n\n" ++ body) := by
  simp [SingleLine]

theorem Reads.eq (h : Reads text laws) (h' : Reads text' laws') (ht : text = text') :
    laws = laws' := by
  have hcancel {a b : String} (hab : a ++ "\n" = b ++ "\n") : a = b := by
    simpa [← String.toList_inj] using hab
  cases h with
  | one hlaw =>
    cases h' with
    | one => rw [hcancel ht]
    | several => exact absurd (hcancel ht ▸ hlaw) (not_singleLine_heading _)
  | several _ _ hbody =>
    cases h' with
    | one hlaw => exact absurd ((hcancel ht).symm ▸ hlaw) (not_singleLine_heading _)
    | several _ _ hbody' =>
      have hsame := hcancel ht
      rw [← String.toList_inj, String.toList_append, String.toList_append,
        List.append_cancel_left_eq, String.toList_inj] at hsame
      rw [← hbody, ← hbody', hsame]

theorem writtenIn_of_singleLine {L : Lexicon} (h : ∀ t, ∀ x ∈ L.texts t, SingleLine x) :
    L.WrittenIn (· ≠ '\n') :=
  fun t x hx _ hc heq => h t x hx (heq ▸ hc)

theorem ne_lineBreak_of_isNumberChar {c : Char} (h : IsNumberChar c) : c ≠ '\n' := by
  rintro rfl
  simp [IsNumberChar] at h

variable {σ : Type} [RandomSource σ] {ps : List FlagValue} {defaultLexicon : Option String}
  {files : Files} {source : Option UInt64 → σ}

theorem run_eq_success (hps : ∀ p ∈ ps, p.Readable)
    (h : run (arguments ps) defaultLexicon files source = .success text) :
    ∃ g laws, generator? files source (last? .config ps)
        ((lastNumber? .seed ps).map UInt64.ofNat) ((last? .lexicon ps).or defaultLexicon) = some g ∧
      (g.many (max 1 (requested ps))).1 = .ok laws ∧ text = render laws ++ "\n" := by
  simp only [run, read_arguments _ hps] at h
  split at h
  case h_1 laws hlaws =>
    cases h
    rw [options_eq, laws_eq_ok] at hlaws
    obtain ⟨count, g, hcount, hg, hlaws⟩ := hlaws
    have hmax : count = max 1 (requested ps) := by
      have hcount := checkedQuantity_eq_ok.mp hcount
      dsimp only at hcount
      omega
    exact ⟨g, laws, hg, hmax ▸ hlaws, rfl⟩
  case h_2 => cases h

theorem singleLine_of_one {g : Generator σ} (hL : ∀ t, ∀ x ∈ g.lexicon.texts t, SingleLine x)
    (h : g.one.1 = .ok law) : SingleLine law := fun hmem =>
  g.writtenIn_of_one (fun _ => ne_lineBreak_of_isNumberChar) (writtenIn_of_singleLine hL) h _ hmem
    rfl

theorem singleLine_of_many {g : Generator σ} (hL : ∀ t, ∀ x ∈ g.lexicon.texts t, SingleLine x)
    (h : (g.many count).1 = .ok laws) : ∀ law ∈ laws, SingleLine law := fun law hlaw hmem =>
  g.writtenIn_of_many (fun _ => ne_lineBreak_of_isNumberChar) (writtenIn_of_singleLine hL) h law
    hlaw _ hmem rfl

/-- Over a lexicon without line breaks laws have none.  What is printed of them can then be read in
one way only, and gives the laws back, the empty ones too. -/
theorem printed_laws_read :
    (∀ g : Generator σ, (∀ t, ∀ x ∈ g.lexicon.texts t, SingleLine x) →
      (∀ law, g.one.1 = .ok law → SingleLine law) ∧
        ∀ count laws, (g.many count).1 = .ok laws → ∀ law ∈ laws, SingleLine law) ∧
    (∀ (ps : List FlagValue) (defaultLexicon : Option String) (files : Files)
        (source : Option UInt64 → σ) (g : Generator σ), (∀ p ∈ ps, p.Readable) →
      generator? files source (last? .config ps) ((lastNumber? .seed ps).map UInt64.ofNat)
        ((last? .lexicon ps).or defaultLexicon) = some g →
      (∀ t, ∀ x ∈ g.lexicon.texts t, SingleLine x) →
      ∀ text, run (arguments ps) defaultLexicon files source = .success text →
        ∃ laws, (g.many (max 1 (requested ps))).1 = .ok laws ∧ Reads text laws ∧
          ∀ laws', Reads text laws' → laws' = laws) ∧
    ∀ laws laws' : List String, laws ≠ [] → laws' ≠ [] → (∀ law ∈ laws, SingleLine law) →
      (∀ law ∈ laws', SingleLine law) → render laws = render laws' → laws = laws' := by
  refine ⟨fun g hL => ⟨fun law => singleLine_of_one hL, fun count laws => singleLine_of_many hL⟩,
    fun ps defaultLexicon files source g hps hg hL text h => ?_,
    fun laws laws' hne hne' hlaws hlaws' h => ?_⟩
  · obtain ⟨g', laws, hg', hlaws, rfl⟩ := run_eq_success hps h
    cases hg.symm.trans hg'
    have hne : laws ≠ [] := by
      rintro rfl
      have hlen := Generator.length_of_many hlaws
      rw [List.length_nil] at hlen
      omega
    have hreads := reads_render hne (singleLine_of_many hL hlaws)
    exact ⟨laws, hlaws, hreads, fun laws' h' => h'.eq hreads rfl⟩
  · exact (reads_render hne hlaws).eq (reads_render hne' hlaws') (congrArg (· ++ "\n") h)

set_option maxRecDepth 10000 in
theorem printed_laws_read_empty :
    let lexicon := "(
      skeletons: Some([\"\", \"Ley \x7bnumber,2,6\x7d\"]), predicates: Some([]), subjects: Some([]),
      objects: Some([]), establishments: Some([]), person_actions: Some([]),
      establishment_actions: Some([]), resources: Some([]), problems: Some([]), diseases: Some([]),
      drugs: Some([]))"
    let files : Files := fun path => if path = "leis.ron" then some lexicon.toUTF8 else none
    let source (_ : Option UInt64) : ScriptedSource :=
      { choices := [0, 1, 0], units := [FixedSource.half] }
    let ps : List FlagValue := [⟨.quantity, "-n", "3", rfl⟩]
    let text := "Novas leis geradas:\n\n\n\nLey 4\n\n\n"
    let laws := ["", "Ley 4", ""]
    (∀ p ∈ ps, p.Readable) ∧
      (∃ g, generator? files source none none (some "leis.ron") = some g ∧
        (∀ t, ∀ x ∈ g.lexicon.texts t, SingleLine x) ∧ (g.many 3).1 = .ok laws ∧
        ∀ law ∈ laws, SingleLine law) ∧
      run (arguments ps) (some "leis.ron") files source = .success text ∧ Reads text laws ∧
      render laws ≠ render ["", "Ley 4"] := by
  intro lexicon files source ps text laws
  have hps : ∀ p ∈ ps, p.Readable := by decide +kernel
  have hrequested : requested ps = 3 := by decide +kernel
  have hcontent : files "leis.ron" = some lexicon.toUTF8 := if_pos rfl
  obtain ⟨o, ho, hdecide⟩ := Override.exists_ofFile_eq_ok
    (fun o => (∀ t ∈ Table.all, ∀ x ∈ (Lexicon.ofOverride o).texts t, SingleLine x) ∧
      ((⟨.ofOverride o, defaultPasses, source none⟩ : Generator _).many 3).1 = .ok laws)
    hcontent (by decide +kernel)
  obtain ⟨hL, hmany⟩ := of_decide_eq_true hdecide
  have hL (t) : ∀ x ∈ (Lexicon.ofOverride o).texts t, SingleLine x := hL t t.mem_all
  have hg : generator? files source none none (some "leis.ron") =
      some ⟨.ofOverride o, defaultPasses, source none⟩ := by
    simp only [generator?, lexicon?, ho]
    rfl
  have hprints : Prints (some "leis.ron") files source (arguments ps) (render laws ++ "\n") :=
    .laws hps (.inr (by rw [hrequested]; decide)) hg hmany rfl
  have hrun : run (arguments ps) (some "leis.ron") files source = .success text :=
    run_of_prints hprints
  obtain ⟨hsingle, hread, hrender⟩ := printed_laws_read (σ := ScriptedSource)
  obtain ⟨laws', hlaws', hreads, -⟩ := hread ps _ files source _ hps hg hL text hrun
  rw [hrequested] at hlaws'
  cases hlaws'.symm.trans hmany
  have hlaws := (hsingle _ hL).2 _ _ hmany
  refine ⟨hps, ⟨_, hg, hL, hmany, hlaws⟩, hrun, hreads, fun heq => ?_⟩
  have hsame := hrender laws ["", "Ley 4"] (List.cons_ne_nil _ _)
    (List.cons_ne_nil _ _) hlaws (by decide) heq
  exact absurd hsame (by decide)

end LawCommand

end BillGrammar
