import BillGrammar.Proofs.Law.Exit
import BillGrammar.Proofs.Lint.Soundness
import BillGrammar.Source.Fixed

/-!
Tables reported as endless.  Each of their texts refers to the table again, but a placeholder may
offer a way around it in another alternative.  Where none does, nothing drawn from the table settles.
-/

namespace BillGrammar

open Template Sampler

def drawnTable? (alternative : String) : Option Table :=
  (Request.parse alternative).toOption.bind Request.table?

theorem drawnTable?_eq_some_iff {t : Table} :
    drawnTable? a = some t ↔ ∃ r, Request.parse a = .ok r ∧ r.table? = some t := by
  unfold drawnTable?
  cases Request.parse a <;> simp [Except.toOption]

/-- Whatever alternative of the token is chosen, it draws from the table. -/
def Table.binds (t : Table) (token : String) : Bool :=
  (alternatives token).all (drawnTable? · == some t)

theorem Table.binds_iff {t : Table} :
    t.binds token ↔ ∀ a ∈ alternatives token, drawnTable? a = some t := by
  simp [binds]

namespace Lexicon

variable {L : Lexicon}

theorem mem_texts_of_mem_outcomes {t : Table} (ha : drawnTable? a = some t)
    (hx : x ∈ L.outcomes a) : x ∈ L.texts t := by
  obtain ⟨r, hr, ht⟩ := drawnTable?_eq_some_iff.mp ha
  rw [outcomes_of_table hr ht] at hx
  obtain ⟨e, he, rfl⟩ := List.mem_map.mp hx
  exact inflect_mem_texts he r.form

/-- The tokens in the texts of a table that lead back to it for certain. -/
def boundTokens (L : Lexicon) (t : Table) : List String :=
  ((L.texts t).flatMap tokens).filter t.binds

theorem mem_boundTokens {t : Table} :
    token ∈ L.boundTokens t ↔ L.Mentions t token ∧ t.binds token := by
  simp [boundTokens, mem_tokens, Mentions]

theorem isCaught_boundTokens {t : Table} (hx : x ∈ L.texts t)
    (h : ∃ token, Template.Mentions x token ∧ t.binds token) : isCaught (L.boundTokens t) x := by
  obtain ⟨token, hm, hb⟩ := h
  exact isCaught_iff.mpr ⟨token, mem_boundTokens.mpr ⟨⟨x, hx, hm⟩, hb⟩, hm⟩

theorem isTrap_boundTokens {t : Table}
    (h : ∀ x ∈ L.texts t, ∃ token, Template.Mentions x token ∧ t.binds token) :
    L.isTrap (L.boundTokens t) := by
  rw [isTrap_iff]
  intro token ht a ha x hx
  have hb := Table.binds_iff.mp (mem_boundTokens.mp ht).2
  have hx := mem_texts_of_mem_outcomes (hb a ha) hx
  exact isCaught_boundTokens hx (h x hx)

theorem not_exits_of_binds {t : Table}
    (h : ∀ x ∈ L.texts t, ∃ token, Template.Mentions x token ∧ t.binds token)
    (hb : t.binds token) : ¬ L.Exits [.placeholder token] := by
  intro hexits
  cases hexits with
  | placeholder ha hx hs hnested _ =>
    -- Whatever is drawn is a text of the table, and so mentions a token of the trap.
    have hx := mem_texts_of_mem_outcomes (Table.binds_iff.mp hb _ ha) hx
    obtain ⟨bound, hmem, hm⟩ := isCaught_iff.mp (isCaught_boundTokens hx (h _ hx))
    exact hnested.not_mem_of_isTrap (isTrap_boundTokens h) hmem ((mentions_iff hs).mp hm)

theorem exists_mentions_of_endless {t : Table} (h : .endless t ∈ L.lint.errors)
    (hx : x ∈ L.texts t) :
    ∃ token, Template.Mentions x token ∧ ∃ a ∈ alternatives token, drawnTable? a = some t := by
  have hendless := (endless_mem_errors_iff.mp h).2
  simp only [isEndless, Bool.and_eq_true, List.all_eq_true, List.contains_iff_mem] at hendless
  obtain ⟨token, hm, a, ha, hr⟩ := mem_tables.mp (hendless.2 x hx)
  exact ⟨token, hm, a, ha, drawnTable?_eq_some_iff.mpr hr⟩

/-- A placeholder that draws from a table reported as endless settles in some run if and only if it
has a way out; and it has none if the placeholders in the texts of the table that can lead back to
it always do. -/
theorem expand_ne_ok_of_endless {t : Table} (hL : L.Scans) (he : .endless t ∈ L.lint.errors)
    (hs : scan text = .ok [.placeholder a]) (ha : alternatives a = [a])
    (hd : drawnTable? a = some t) :
    ((∃ (σ : Type) (_ : RandomSource σ) (x : σ) (m : Nat) (s : String),
        (Generator.expand ⟨L, m, x⟩ text).1 = .ok s) ↔ L.Exits [.placeholder a]) ∧
      ((∀ x ∈ L.texts t, ∀ token, Template.Mentions x token →
          (∃ b ∈ alternatives token, drawnTable? b = some t) →
            ∀ b ∈ alternatives token, drawnTable? b = some t) →
        ∀ (σ : Type) [RandomSource σ] (x : σ) (m : Nat) (s : String),
          (Generator.expand ⟨L, m, x⟩ text).1 ≠ .ok s) := by
  have hexits {σ : Type} [RandomSource σ] {x : σ} {m : Nat} {s : String}
      (h : (Generator.expand ⟨L, m, x⟩ text).1 = .ok s) : L.Exits [.placeholder a] := by
    have hrun := (Generator.mk L m x).yields_perform (L.expand m text)
    exact exits_of_yields_expand hL hs (h ▸ hrun)
  refine ⟨⟨?_, fun h => ?_⟩, fun hall σ _ x m s h => ?_⟩
  · rintro ⟨σ, _, x, m, s, h⟩
    exact hexits h
  · obtain ⟨m, s, h⟩ := h.exists_yields_expand (U := fun _ => True) (u := 0) hL trivial hs
    obtain ⟨x, hx⟩ := h.exists_run ⟨0, trivial⟩
    exact ⟨_, _, x, m, s, hx⟩
  · have hbinds : ∀ y ∈ L.texts t, ∃ token, Template.Mentions y token ∧ t.binds token := by
      intro y hy
      obtain ⟨token, hm, hb⟩ := exists_mentions_of_endless he hy
      exact ⟨token, hm, Table.binds_iff.mpr (hall y hy token hm hb)⟩
    exact not_exits_of_binds hbinds (Table.binds_iff.mpr (by simpa [ha] using hd)) (hexits h)

theorem expand_ne_ok_of_endless_plural :
    let L := ofPhrases ["\x7bproblem\x7d"] []
      ["mais \x7bproblem\x7d", "\x7bnumber,2,6\x7d\x7bproblem:plural|problem\x7d"]
    let text := "\x7bproblem:plural\x7d"
    L.Scans ∧ .endless .problems ∈ L.lint.errors ∧
      scan text = .ok [.placeholder "problem:plural"] ∧
      alternatives "problem:plural" = ["problem:plural"] ∧
      drawnTable? "problem:plural" = some .problems ∧ ¬ L.Exits [.placeholder "problem:plural"] ∧
      ∀ (σ : Type) [RandomSource σ] (x : σ) (m : Nat) (s : String),
        (Generator.expand ⟨L, m, x⟩ text).1 ≠ .ok s := by
  intro L text
  have hL : L.Scans := by decide +kernel
  have he : .endless .problems ∈ L.lint.errors := by decide +kernel
  have hs : scan text = .ok [.placeholder "problem:plural"] := by decide +kernel
  have ha : alternatives "problem:plural" = ["problem:plural"] := by decide +kernel
  have hd : drawnTable? "problem:plural" = some .problems := by decide +kernel
  have hall : ∀ x ∈ L.texts .problems, ∀ token ∈ tokens x,
      (∃ b ∈ alternatives token, drawnTable? b = some .problems) →
        ∀ b ∈ alternatives token, drawnTable? b = some .problems := by
    decide +kernel
  obtain ⟨hiff, hne⟩ := expand_ne_ok_of_endless hL he hs ha hd
  have hne := hne fun x hx token hm => hall x hx token (mem_tokens.mpr hm)
  refine ⟨hL, he, hs, ha, hd, fun h => ?_, hne⟩
  obtain ⟨σ, _, x, m, s, h⟩ := hiff.mpr h
  exact hne σ x m s h

/-- The only problem refers to problems, and offers a number beside them. -/
theorem endless_with_exit :
    let L := ofPhrases ["\x7bproblem\x7d"] [] ["\x7bproblem|number,1,3\x7d"]
    let g : Generator FixedSource := ⟨L, 2, .ofPick .last⟩
    L.Scans ∧ L.lint.errors = [.endless .problems] ∧
      scan "\x7bproblem\x7d" = .ok [.placeholder "problem"] ∧
      alternatives "problem" = ["problem"] ∧ drawnTable? "problem" = some .problems ∧
      (g.expand "\x7bproblem\x7d").1 = .ok "2" ∧ g.one.1 = .ok "2" := by
  decide +kernel

end Lexicon

end BillGrammar
