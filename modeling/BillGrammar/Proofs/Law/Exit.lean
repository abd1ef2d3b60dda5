import BillGrammar.Proofs.Law.Derivation

/-!
Which lexicons can give a law at all, however many passes are made.  They are those with a way out;
the others have a trap, a list of tokens that always lead back to one of them.
-/

namespace BillGrammar

open Template Sampler

namespace Lexicon

variable {L : Lexicon} {U : Binary64 → Prop}

/-- The texts that an alternative can give.  The empty text stands for every number. -/
def outcomes (L : Lexicon) (a : String) : List String :=
  match Request.parse a with
  | .error _ => []
  | .ok r => match r.table? with
    | some t => (L.entries t).map (t.kind.inflect r.form)
    | none => if (r.range a).isOk then [""] else []

/-- Each placeholder has a way out: an alternative can give a text of which each placeholder has a
way out in turn. -/
inductive Exits (L : Lexicon) : List Segment → Prop
  | nil : Exits L []
  | literal : Exits L segments → Exits L (.literal x :: segments)
  | placeholder : a ∈ alternatives token → x ∈ L.outcomes a → scan x = .ok nested →
      Exits L nested → Exits L segments → Exits L (.placeholder token :: segments)

def HasExit (L : Lexicon) : Prop :=
  ∃ t ∈ L.entries .skeletons, ∃ segments, scan t = .ok segments ∧ L.Exits segments

theorem outcomes_of_table {t : Table} (hr : Request.parse a = .ok r) (ht : r.table? = some t) :
    L.outcomes a = (L.entries t).map (t.kind.inflect r.form) := by
  unfold outcomes
  generalize Request.parse a = q at hr
  subst hr
  simp only [ht]

theorem mem_outcomes_of_entry {t : Table} {e : t.Entry} (hr : Request.parse a = .ok r)
    (ht : r.table? = some t) (he : e ∈ L.entries t) :
    t.kind.inflect r.form e ∈ L.outcomes a := by
  rw [outcomes_of_table hr ht]
  exact List.mem_map_of_mem he

theorem mem_outcomes_of_number (hr : Request.parse a = .ok r) (ht : r.table? = none)
    (hn : r.range a = .ok n) : "" ∈ L.outcomes a := by
  unfold outcomes
  generalize Request.parse a = q at hr
  subst hr
  simp only [ht, hn]
  exact List.mem_singleton.mpr rfl

theorem cases_of_mem_outcomes (h : x ∈ L.outcomes a) :
    (L.Fulfils U a (.ok x) ∧ ∃ t, x ∈ L.texts t) ∨
      x = "" ∧ ∀ u, U u → ∃ n, L.Fulfils U a (.ok (NumberRange.render n u)) := by
  unfold outcomes at h
  cases hr : Request.parse a with
  | error e => simp [hr] at h
  | ok r =>
    simp only [hr] at h
    cases ht : r.table? with
    | some t =>
      simp only [ht] at h
      obtain ⟨e, he, rfl⟩ := List.mem_map.mp h
      exact .inl ⟨.entry hr ht he, t, inflect_mem_texts he _⟩
    | none =>
      cases hn : r.range a with
      | error e => simp [ht, hn, Except.isOk, Except.toBool] at h
      | ok n =>
        simp only [ht, hn] at h
        exact .inr ⟨List.mem_singleton.mp h, fun u hu => ⟨n, .number hr ht hn hu⟩⟩

theorem exits_literal_chars (pending : List Char) : L.Exits (Template.literal pending) := by
  unfold Template.literal
  split
  · exact .nil
  · exact .literal .nil

theorem exits_of_plain (h : Plain t) : ∃ segments, scan t = .ok segments ∧ L.Exits segments := by
  obtain ⟨hw, ht⟩ := h.exists_render
  exact ⟨_, ht ▸ scan_render hw, exits_literal_chars _⟩

theorem exits_of_derivesAllIn
    (ih : ∀ {t s}, L.DerivesIn U m t s → ∃ segments, scan t = .ok segments ∧ L.Exits segments)
    (h : L.DerivesAllIn U m segments s) : L.Exits segments := by
  induction segments generalizing s with
  | nil => exact .nil
  | cons seg segments ihs =>
    cases seg with
    | literal x =>
      obtain ⟨r, -, h⟩ := derivesAllIn_literal.mp h
      exact .literal (ihs h)
    | placeholder token =>
      obtain ⟨f, x, r, -, hf, hx, h⟩ := derivesAllIn_placeholder.mp h
      obtain ⟨a, ha, hf⟩ := yields_fragment.mp hf
      cases hf with
      | entry hr ht he =>
        obtain ⟨nested, hscan, hnested⟩ := ih hx
        exact .placeholder ha (mem_outcomes_of_entry hr ht he) hscan hnested (ihs h)
      | number hr ht hn => exact .placeholder ha (mem_outcomes_of_number hr ht hn) rfl .nil (ihs h)

theorem exits_of_derivesIn (h : L.DerivesIn U m t s) :
    ∃ segments, scan t = .ok segments ∧ L.Exits segments := by
  induction m generalizing t s with
  | zero => exact exits_of_plain (derivesIn_zero.mp h).1
  | succ m ih =>
    obtain ⟨k, hk, hd⟩ := h
    cases hd with
    | plain hp => exact exits_of_plain hp
    | step _ hs hd =>
      exact ⟨_, hs, exits_of_derivesAllIn ih ⟨_, Nat.le_of_succ_le_succ hk, hd⟩⟩

theorem exists_offers (hu : U u) (ha : a ∈ alternatives token) (hx : x ∈ L.outcomes a)
    (hd : L.DerivesIn U m x s) : ∃ f y, L.Offers U token f ∧ L.DerivesIn U m f y := by
  rcases cases_of_mem_outcomes hx with ⟨hf, -⟩ | ⟨-, hn⟩
  · exact ⟨x, s, yields_fragment.mpr ⟨a, ha, hf⟩, hd⟩
  · obtain ⟨n, hf⟩ := hn u hu
    refine ⟨n.render u, n.render u, yields_fragment.mpr ⟨a, ha, hf⟩, ?_⟩
    exact (derivesIn_of_plain (NumberRange.plain_render n u)).mpr rfl

theorem Exits.exists_derivesAllIn (hu : U u) {segments : List Segment} (h : L.Exits segments) :
    ∃ m s, L.DerivesAllIn U m segments s := by
  induction h with
  | nil => exact ⟨0, _, derivesAllIn_nil.mpr rfl⟩
  | literal _ ih =>
    obtain ⟨m, s, h⟩ := ih
    exact ⟨m, _, derivesAllIn_literal.mpr ⟨s, rfl, h⟩⟩
  | placeholder ha hx hscan _ _ ihnested ih =>
    -- The fragment takes one pass more than what is nested in it.
    obtain ⟨k, y, hy⟩ := ihnested
    obtain ⟨m, s, h⟩ := ih
    obtain ⟨hw, rfl⟩ := wellFormed_of_scan hscan
    obtain ⟨f, y, hf, hy⟩ := exists_offers hu ha hx ((derivesIn_succ hw).mpr hy)
    exact ⟨max (k + 1) m, _, derivesAllIn_placeholder.mpr
      ⟨f, y, s, rfl, hf, hy.mono (Nat.le_max_left ..), h.mono (Nat.le_max_right ..)⟩⟩

theorem exits_of_yields_expand (hL : L.Scans) (hs : scan t = .ok segments)
    (h : (L.expand m t).run.Yields U (.ok s)) : L.Exits segments := by
  obtain ⟨_, hs', hexits⟩ := exits_of_derivesIn ((yields_expandWith_ok hL ⟨_, hs⟩).mp h)
  rw [hs] at hs'
  cases hs'
  exact hexits

theorem Exits.exists_yields_expand (hL : L.Scans) (hu : U u) (hs : scan t = .ok segments)
    (h : L.Exits segments) : ∃ m s, (L.expand m t).run.Yields U (.ok s) := by
  obtain ⟨m, s, h⟩ := h.exists_derivesAllIn hu
  obtain ⟨hw, rfl⟩ := wellFormed_of_scan hs
  exact ⟨m + 1, s, (yields_expandWith_ok hL ⟨_, hs⟩).mpr ((derivesIn_succ hw).mpr h)⟩

theorem hasExit_of_yields_law (hL : L.Scans) (h : (L.law m).run.Yields U (.ok s)) :
    L.HasExit := by
  rcases yields_law.mp h with ⟨t, ht, h⟩ | ⟨-, h⟩
  · obtain ⟨segments, hs⟩ := hL.skeleton ht
    exact ⟨t, ht, segments, hs, exits_of_yields_expand hL hs h⟩
  · cases h

theorem HasExit.exists_yields_law (h : L.HasExit) (hL : L.Scans) (hu : U u) :
    ∃ m s, (L.law m).run.Yields U (.ok s) := by
  obtain ⟨t, ht, segments, hs, h⟩ := h
  obtain ⟨m, s, h⟩ := h.exists_yields_expand hL hu hs
  exact ⟨m, s, yields_law.mpr (.inl ⟨t, ht, h⟩)⟩

/-! Traps. -/

def isCaught (caught : List String) (text : String) : Bool :=
  (tokens text).any (caught.contains ·)

/-- Whatever the alternatives of these tokens give mentions one of them again. -/
def isTrap (L : Lexicon) (caught : List String) : Bool :=
  caught.all fun token => (alternatives token).all fun a => (L.outcomes a).all (isCaught caught)

theorem isCaught_iff : isCaught caught text ↔ ∃ token ∈ caught, Template.Mentions text token := by
  simp [isCaught, mem_tokens, and_comm]

theorem isTrap_iff :
    L.isTrap caught ↔ ∀ token ∈ caught, ∀ a ∈ alternatives token, ∀ x ∈ L.outcomes a,
      isCaught caught x := by
  simp [isTrap]

theorem Exits.not_mem_of_isTrap (hT : L.isTrap caught) {segments : List Segment}
    (h : L.Exits segments) (ht : token ∈ caught) : .placeholder token ∉ segments := by
  induction h generalizing token with
  | nil => simp
  | literal _ ih => simpa using ih ht
  | placeholder ha hx hs _ _ ihnested ih =>
    intro hm
    rcases List.mem_cons.mp hm with heq | hm
    · cases heq
      obtain ⟨token, ht, hm⟩ := isCaught_iff.mp (isTrap_iff.mp hT _ ht _ ha _ hx)
      exact ihnested ht ((mentions_iff hs).mp hm)
    · exact ih ht hm

theorem exits_iff {segments : List Segment} :
    L.Exits segments ↔ ∀ token, .placeholder token ∈ segments → L.Exits [.placeholder token] := by
  constructor
  · intro h
    induction h with
    | nil => simp
    | literal _ ih => simpa using ih
    | placeholder ha hx hs hnested _ _ ih =>
      intro token hm
      rcases List.mem_cons.mp hm with heq | hm
      · cases heq
        exact .placeholder ha hx hs hnested .nil
      · exact ih token hm
  · intro h
    induction segments with
    | nil => exact .nil
    | cons s segments ih =>
      have ih := ih fun token hm => h token (List.mem_cons_of_mem _ hm)
      cases s with
      | literal x => exact .literal ih
      | placeholder token =>
        cases h token List.mem_cons_self with
        | placeholder ha hx hs hnested _ => exact .placeholder ha hx hs hnested ih

noncomputable def stuckTokens (L : Lexicon) : List String :=
  open Classical in
  (Table.all.flatMap fun t => (L.texts t).flatMap tokens).filter fun token =>
    ¬ L.Exits [.placeholder token]

theorem mem_stuckTokens :
    token ∈ L.stuckTokens ↔
      (∃ t, ∃ x ∈ L.texts t, Template.Mentions x token) ∧ ¬ L.Exits [.placeholder token] := by
  simp [stuckTokens, mem_tokens, Table.mem_all]

theorem isCaught_stuckTokens {t : Table} (hx : x ∈ L.texts t) (hs : scan x = .ok segments)
    (h : ¬ L.Exits segments) : isCaught L.stuckTokens x := by
  rw [exits_iff] at h
  obtain ⟨token, h⟩ := Classical.not_forall.mp h
  obtain ⟨hm, h⟩ := Classical.not_imp.mp h
  have hm : Template.Mentions x token := ⟨segments, hs, hm⟩
  exact isCaught_iff.mpr ⟨token, mem_stuckTokens.mpr ⟨⟨t, x, hx, hm⟩, h⟩, hm⟩

theorem isTrap_stuckTokens (hL : L.Scans) : L.isTrap L.stuckTokens := by
  rw [isTrap_iff]
  intro token ht a ha x hx
  have hn := (mem_stuckTokens.mp ht).2
  rcases cases_of_mem_outcomes (U := fun _ => True) hx with ⟨-, t, hxt⟩ | ⟨rfl, -⟩
  · obtain ⟨nested, hs⟩ := hL t x hxt
    exact isCaught_stuckTokens hxt hs fun h => hn (.placeholder ha hx hs h .nil)
  · exact absurd (.placeholder ha hx rfl .nil .nil) hn

theorem not_hasExit_iff (hL : L.Scans) :
    ¬ L.HasExit ↔ ∃ caught, L.isTrap caught ∧ (L.entries .skeletons).all (isCaught caught) := by
  constructor
  · intro h
    refine ⟨L.stuckTokens, isTrap_stuckTokens hL, List.all_eq_true.mpr fun t ht => ?_⟩
    obtain ⟨segments, hs⟩ := hL.skeleton ht
    exact isCaught_stuckTokens (inflect_mem_texts ht .default) hs
      fun hexits => h ⟨t, ht, segments, hs, hexits⟩
  · rintro ⟨caught, hT, hall⟩ ⟨t, ht, segments, hs, h⟩
    obtain ⟨token, htoken, hm⟩ := isCaught_iff.mp (List.all_eq_true.mp hall t ht)
    exact h.not_mem_of_isTrap hT htoken ((mentions_iff hs).mp hm)

end Lexicon

end BillGrammar
