import BillGrammar.Proofs.Placeholder.Draws
import BillGrammar.Proofs.Text.Blank
import Mathlib.Data.List.Forall2

namespace BillGrammar

def Category.arity : Category → Nat
  | .number => 3
  | .action => 1
  | .predicate | .subject | .establishment | .object | .disease | .resource | .problem | .drug => 0

structure Fields where
  name : String
  tag : Option String
  parameters : List String
  deriving DecidableEq

namespace Fields

def ofText (a : String) : Fields where
  name := (Text.cutAt ':' (Text.headField ',' a).1).1
  tag := (Text.cutAt ':' (Text.headField ',' a).1).2
  parameters := (Text.headField ',' a).2

def main (f : Fields) : String :=
  match f.tag with
  | none => f.name
  | some tag => f.name ++ String.singleton ':' ++ tag

def text (f : Fields) : String :=
  String.intercalate (String.singleton ',') (f.main :: f.parameters)

def token (fs : List Fields) : String := String.intercalate (String.singleton '|') (fs.map text)

theorem parse_of_error (h : Category.parse (ofText a).name = .error e) :
    Request.parse a = .error e := by
  rw [Request.parse_eq]
  exact congrArg _ h

theorem parse_of_ok (h : Category.parse (ofText a).name = .ok c) :
    Request.parse a =
      .ok ⟨c, ((ofText a).tag.map Form.ofTag).getD .default, (ofText a).parameters⟩ := by
  rw [Request.parse_eq]
  exact congrArg _ h

def arity (f : Fields) : Nat :=
  match Category.parse f.name with
  | .ok c => c.arity
  | .error _ => 0

def IsField (s : String) : Prop := '|' ∉ s.toList ∧ ',' ∉ s.toList

instance (s : String) : Decidable (IsField s) := inferInstanceAs (Decidable (_ ∧ _))

structure WellFormed (f : Fields) : Prop where
  name : IsField f.name ∧ ':' ∉ f.name.toList
  tag : ∀ tag ∈ f.tag, IsField tag
  parameters : ∀ p ∈ f.parameters, IsField p

/-- White space is put around parameters, and more parameters follow once there are `n`. -/
inductive Extended : Nat → List String → List String → Prop
  | nil : Extended n [] []
  | padded : Text.Padded p q → Extended (n - 1) ps qs → Extended n (p :: ps) (q :: qs)
  | further : IsField q → Extended 0 ps qs → Extended 0 ps (q :: qs)

/-- `g` is `f` with white space around its fields, and with more parameters behind those that its
category reads. -/
structure Spaced (f g : Fields) : Prop where
  name : Text.Padded f.name g.name
  tag : Option.Rel Text.Padded f.tag g.tag
  parameters : Extended f.arity f.parameters g.parameters

/-! Fields are read back from what is written. -/

theorem WellFormed.isField_main {f : Fields} (h : f.WellFormed) : IsField f.main := by
  unfold main
  split
  case h_1 => exact h.name.1
  case h_2 tag htag =>
    obtain ⟨hbar, hcomma⟩ := h.tag tag htag
    simp [IsField, h.name.1.1, h.name.1.2, hbar, hcomma]

theorem WellFormed.main_cons_parameters {f : Fields} (h : f.WellFormed) :
    ∀ p ∈ f.main :: f.parameters, IsField p :=
  List.forall_mem_cons.mpr ⟨h.isField_main, h.parameters⟩

theorem ofText_text {f : Fields} (h : f.WellFormed) : ofText f.text = f := by
  have hfields : Text.headField ',' f.text = (f.main, f.parameters) := by
    simp only [Text.headField, text,
      Text.fields_intercalate (List.cons_ne_nil _ _) fun p hp => (h.main_cons_parameters p hp).2]
  have hcut : Text.cutAt ':' f.main = (f.name, f.tag) := by
    unfold main
    split
    case h_1 htag => rw [Text.cutAt_of_not_mem h.name.2, htag]
    case h_2 tag htag => rw [Text.cutAt_append h.name.2, htag]
  simp only [ofText, hfields, hcut]

theorem alternatives_token {fs : List Fields} (hne : fs ≠ []) (h : ∀ f ∈ fs, f.WellFormed) :
    alternatives (token fs) = fs.map text := by
  refine Text.fields_intercalate (by simpa using hne) (List.forall_mem_map.mpr fun f hf => ?_)
  exact Text.not_mem_intercalate (by simp) fun p hp => ((h f hf).main_cons_parameters p hp).1

theorem main_ofText (a : String) : (ofText a).main = (Text.headField ',' a).1 := by
  rcases hcut : Text.cutAt ':' (Text.headField ',' a).1 with ⟨name, tag⟩
  obtain ⟨-, hjoin⟩ := Text.eq_of_cutAt hcut
  simp only [main, ofText, hcut]
  cases tag with
  | none => exact hjoin.symm
  | some tag => exact hjoin.symm

theorem text_ofText (a : String) : (ofText a).text = a := by
  rw [text, main_ofText]
  change String.intercalate (String.singleton ',') (_ :: (Text.headField ',' a).2) = a
  rw [← Text.fields_eq_headField, Text.intercalate_fields]

theorem token_ofText (s : String) : token ((alternatives s).map ofText) = s := by
  rw [token, List.map_map]
  simp only [Function.comp_def, text_ofText, List.map_id']
  exact Text.intercalate_fields '|' s

theorem wellFormed_ofText {a : String} (h : '|' ∉ a.toList) : (ofText a).WellFormed := by
  have hfield : ∀ p ∈ Text.fields ',' a, IsField p := fun p hp =>
    ⟨fun hc => h (Text.mem_of_mem_fields hp hc), Text.not_mem_of_mem_fields hp⟩
  rw [Text.fields_eq_headField] at hfield
  obtain ⟨hmain, hparameters⟩ := List.forall_mem_cons.mp hfield
  rcases hcut : Text.cutAt ':' (Text.headField ',' a).1 with ⟨name, tag⟩
  obtain ⟨hname, hjoin⟩ := Text.eq_of_cutAt hcut
  have hpart {s : String} (hs : ∀ c ∈ s.toList, c ∈ (Text.headField ',' a).1.toList) : IsField s :=
    ⟨fun hc => hmain.1 (hs _ hc), fun hc => hmain.2 (hs _ hc)⟩
  constructor
  · simp only [ofText, hcut]
    refine ⟨hpart fun c hc => ?_, hname⟩
    rw [hjoin]
    cases tag <;> simp [hc]
  · simp only [ofText, hcut]
    rintro tag rfl
    refine hpart fun c hc => ?_
    rw [hjoin]
    simp [hc]
  · exact hparameters

/-! White space leaves fields what they are, and what is read of them. -/

theorem IsField.padded (h : Text.Padded s t) (hs : IsField s) : IsField t :=
  ⟨h.not_mem (by decide) hs.1, h.not_mem (by decide) hs.2⟩

theorem Extended.isField (h : Extended n ps qs) (hps : ∀ p ∈ ps, IsField p) :
    ∀ q ∈ qs, IsField q := by
  induction h with
  | nil => exact hps
  | padded hpad _ ih =>
    obtain ⟨hp, hps⟩ := List.forall_mem_cons.mp hps
    exact List.forall_mem_cons.mpr ⟨hp.padded hpad, ih hps⟩
  | further hq _ ih => exact List.forall_mem_cons.mpr ⟨hq, ih hps⟩

theorem Spaced.wellFormed (h : Spaced f g) (hf : f.WellFormed) : g.WellFormed where
  name := ⟨hf.name.1.padded h.name, h.name.not_mem (by decide) hf.name.2⟩
  tag := by
    have htag := h.tag
    intro tag hg
    rw [Option.mem_def.mp hg] at htag
    cases hftag : f.tag with
    | none => rw [hftag] at htag; cases htag
    | some tag' =>
      rw [hftag] at htag
      exact (hf.tag tag' hftag).padded (Option.rel_some_some.mp htag)
  parameters := h.parameters.isField hf.parameters

section Tokens

variable {token : String} {gs : List Fields}

theorem ne_nil_of_spaced (h : List.Forall₂ Spaced ((alternatives token).map ofText) gs) :
    gs ≠ [] := by
  rintro rfl
  exact alternatives_ne_nil token (List.map_eq_nil_iff.mp (List.forall₂_nil_right_iff.mp h))

theorem wellFormed_of_spaced (h : List.Forall₂ Spaced ((alternatives token).map ofText) gs) :
    ∀ g ∈ gs, g.WellFormed := by
  obtain ⟨hlength, hspaced⟩ := List.forall₂_iff_get.mp h
  intro g hg
  obtain ⟨i, hi, rfl⟩ := List.getElem_of_mem hg
  have hf := hspaced i (hlength ▸ hi) hi
  obtain ⟨a, ha, hfa⟩ := List.mem_map.mp (List.get_mem ((alternatives token).map ofText) ⟨i, _⟩)
  rw [← hfa] at hf
  exact hf.wellFormed (wellFormed_ofText (Text.not_mem_of_mem_fields ha))

end Tokens

theorem Extended.map_trim (h : Extended n ps qs) (hi : i < n) :
    qs[i]?.map Text.trim = ps[i]?.map Text.trim := by
  induction h generalizing i with
  | nil => rfl
  | padded hpad _ ih =>
    cases i with
    | zero => simp [hpad.trim_eq]
    | succ i => simpa using ih (by omega)
  | further => omega

theorem Spaced.parse_name (h : Spaced f g) : Category.parse g.name = Category.parse f.name := by
  simp only [Category.parse, h.name.trim_eq]

theorem Spaced.map_ofTag (h : Spaced f g) : g.tag.map Form.ofTag = f.tag.map Form.ofTag := by
  have htag := h.tag
  generalize g.tag = t at htag
  generalize f.tag = s at htag
  cases htag with
  | none => rfl
  | some hpad => simp only [Option.map_some, Form.ofTag, hpad.trim_eq]

end Fields

/-! A parameter is read without the white space around it. -/

theorem Actor.ofParameter_congr {p q : Option String} (h : q.map Text.trim = p.map Text.trim) :
    ofParameter q = ofParameter p := by
  cases p <;> cases q <;> simp_all [ofParameter]

namespace NumberRange

theorem readBound_congr {p q : Option String} (h : q.map Text.trim = p.map Text.trim) (b : Bound) :
    readBound b q = readBound b p := by
  simp only [readBound, h]

theorem readPrecision_congr {p q : Option String} (h : q.map Text.trim = p.map Text.trim) :
    readPrecision q = readPrecision p := by
  simp only [readPrecision, h]

theorem ofParameters_congr {ps qs : List String}
    (h : ∀ i < Category.number.arity, qs[i]?.map Text.trim = ps[i]?.map Text.trim) :
    ofParameters qs = ofParameters ps := by
  simp only [ofParameters, readBound_congr (h 0 (by decide)), readBound_congr (h 1 (by decide)),
    readPrecision_congr (h 2 (by decide))]

end NumberRange

theorem Request.table?_congr {r r' : Request} (hcategory : r'.category = r.category)
    (h : ∀ i < r.category.arity, r'.parameters[i]?.map Text.trim = r.parameters[i]?.map Text.trim) :
    r'.table? = r.table? := by
  unfold table?
  rw [hcategory]
  cases hc : r.category with
  | action =>
    rw [hc] at h
    simp only [List.head?_eq_getElem?, Actor.ofParameter_congr (h 0 (by decide))]
  | _ => rfl

def PlaceholderError.quoting (alternative : String) : PlaceholderError → PlaceholderError
  | .malformedNumber _ fault => .malformedNumber alternative fault
  | e => e

namespace Lexicon

variable {L : Lexicon}

theorem adapt_quoting_draw {t : Table} (a : String) :
    (L.draw t form).adapt (.quoting a) = L.draw t form := by
  rw [draw, Sampler.adapt_map]
  unfold Table.pick
  split
  case isTrue => rfl
  case isFalse => rw [Sampler.adapt_lift]

theorem range_quoting {r r' : Request} (h : NumberRange.ofParameters r'.parameters =
    NumberRange.ofParameters r.parameters) (a b : String) :
    r'.range b = (r.range a).mapError (.quoting b) := by
  unfold Request.range
  rw [h]
  cases NumberRange.ofParameters r.parameters <;> rfl

theorem fulfil_quoting {a b : String} {r r' : Request} (ha : Request.parse a = .ok r)
    (hb : Request.parse b = .ok r') (hcategory : r'.category = r.category) (hform : r'.form = r.form)
    (hread : ∀ i < r.category.arity,
      r'.parameters[i]?.map Text.trim = r.parameters[i]?.map Text.trim) :
    L.fulfil b = (L.fulfil a).adapt (.quoting b) := by
  have htable := Request.table?_congr hcategory hread
  cases ht : r.table? with
  | some t =>
    rw [fulfil_of_table ha ht, fulfil_of_table hb (htable.trans ht), hform, adapt_quoting_draw]
  | none =>
    rw [Request.table?_eq_none_iff.mp ht] at hread
    rw [fulfil_of_number ha ht, fulfil_of_number hb (htable.trans ht),
      range_quoting (NumberRange.ofParameters_congr hread) a b]
    cases r.range a <;> rfl

theorem fulfil_spaced {a b : String} (h : (Fields.ofText a).Spaced (Fields.ofText b)) :
    L.fulfil b = (L.fulfil a).adapt (.quoting b) := by
  cases hname : Category.parse (Fields.ofText a).name with
  | error e =>
    have ha := Fields.parse_of_error hname
    have hb := Fields.parse_of_error (h.parse_name.trans hname)
    obtain ⟨name, rfl⟩ := Request.exists_eq_of_parse_error ha
    rw [fulfil_of_unread ha, fulfil_of_unread hb]
    rfl
  | ok c =>
    have ha := Fields.parse_of_ok hname
    have hb := Fields.parse_of_ok (h.parse_name.trans hname)
    refine fulfil_quoting ha hb rfl (by rw [h.map_ofTag]) fun i hi => h.parameters.map_trim ?_
    rwa [Fields.arity, hname]

/-- White space around the fields of the alternatives of a token, and parameters behind those that
are read, make no difference to the draws, the text or the error, except that a malformed number is
quoted as it is written. -/
theorem fragment_spaced {σ : Type} [RandomSource σ] (L : Lexicon) (token : String) (gs : List Fields)
    (h : List.Forall₂ Fields.Spaced ((alternatives token).map Fields.ofText) gs) (x : Logged σ) :
    let outcome := (L.fragment token).run.run x
    let outcome' := (L.fragment (Fields.token gs)).run.run x
    ∃ chosen, (gs.map Fields.text)[(choice token x).1.val]? = some chosen ∧
      outcome'.2 = outcome.2 ∧ outcome'.1 = outcome.1.mapError (.quoting chosen) := by
  intro outcome outcome'
  obtain ⟨hlength, hspaced⟩ := List.forall₂_iff_get.mp h
  rw [List.length_map] at hlength
  have halternatives := Fields.alternatives_token (Fields.ne_nil_of_spaced h)
    (Fields.wellFormed_of_spaced h)
  obtain ⟨hi, hsource⟩ := choice_congr token (Fields.token gs) x
    (by rw [halternatives, List.length_map, hlength])
  obtain ⟨a, ha, hrun⟩ := L.exists_run_fragment token x
  obtain ⟨b, hb, hrun'⟩ := L.exists_run_fragment (Fields.token gs) x
  rw [hi, halternatives] at hb
  refine ⟨b, hb, ?_⟩
  rw [List.getElem?_map, Option.map_eq_some_iff] at hb
  obtain ⟨g, hg, rfl⟩ := hb
  have hab : (Fields.ofText a).Spaced (Fields.ofText g.text) := by
    rw [Fields.ofText_text (Fields.wellFormed_of_spaced h g (List.mem_of_getElem? hg))]
    obtain ⟨hi, rfl⟩ := List.getElem?_eq_some_iff.mp ha
    obtain ⟨hi', rfl⟩ := List.getElem?_eq_some_iff.mp hg
    simpa using hspaced _ (by rwa [List.length_map]) hi'
  have houtcome : (L.fragment (Fields.token gs)).run.run x =
      (((L.fragment token).run.run x).1.mapError (.quoting g.text),
        ((L.fragment token).run.run x).2) := by
    rw [hrun', hsource, fulfil_spaced hab, Sampler.run_adapt, ← hrun]
  obtain ⟨hresult, hlog⟩ := Prod.ext_iff.mp houtcome
  dsimp only at hresult hlog
  exact ⟨hlog, hresult⟩

theorem fragment_spaced_action :
    let L : Lexicon := ⟨fun
      | .personActions => ([⟨"ler", "lê", "leem"⟩, ⟨"rir", "ri", "riem"⟩] : List Action)
      | _ => []⟩
    let x : Logged FixedSource := { source := .ofPick .last }
    let token := "number,1|action:plural,person"
    let f : Fields := ⟨"number", none, ["1"]⟩
    let g : Fields := ⟨"\u2003action ", some "plural\u00a0", [" person", "2"]⟩
    let outcome := (L.fragment (Fields.token [f, g])).run.run x
    let error := (L.fragment (Fields.token [⟨"number", none, [" 1"]⟩])).run.run x
    (alternatives token).map Fields.ofText = [f, ⟨"action", some "plural", ["person"]⟩] ∧
      List.Forall₂ Fields.Spaced ((alternatives token).map Fields.ofText) [f, g] ∧
      Fields.token [f, g] = "number,1|\u2003action :plural\u00a0, person,2" ∧
      outcome.1 = .ok "riem" ∧ outcome.2 = ((L.fragment token).run.run x).2 ∧
      ((L.fragment "number,1").run.run x).1 = .error (.malformedNumber "number,1" (.missing .max)) ∧
      error.1 = .error (.malformedNumber "number, 1" (.missing .max)) := by
  intro L x token f g outcome error
  have hfields : (alternatives token).map Fields.ofText =
      [f, ⟨"action", some "plural", ["person"]⟩] := by decide +kernel
  have hblank : Text.Padded "1" " 1" := .of_all " " "" rfl rfl rfl
  have hspaced : List.Forall₂ Fields.Spaced ((alternatives token).map Fields.ofText) [f, g] := by
    rw [hfields]
    refine .cons ⟨.refl _, .none, .padded (.refl _) .nil⟩ (.cons ⟨?_, .some ?_, ?_⟩ .nil)
    · exact .of_all "\u2003" " " rfl rfl rfl
    · exact .of_all "" "\u00a0" rfl rfl rfl
    · exact .padded (.of_all " " "" rfl rfl rfl) (.further (by decide) .nil)
  have hnumber : List.Forall₂ Fields.Spaced ((alternatives "number,1").map Fields.ofText)
      [⟨"number", none, [" 1"]⟩] := by
    have hfields : (alternatives "number,1").map Fields.ofText = [f] := by decide +kernel
    rw [hfields]
    exact .cons ⟨.refl _, .none, .padded hblank .nil⟩ .nil
  obtain ⟨chosen, hchosen, hdraws, hresult⟩ := L.fragment_spaced token [f, g] hspaced x
  obtain ⟨chosen', hchosen', -, herror⟩ := L.fragment_spaced "number,1" _ hnumber x
  have hmissing : ((L.fragment "number,1").run.run x).1 =
      .error (.malformedNumber "number,1" (.missing .max)) := by decide +kernel
  have hplain : ((L.fragment token).run.run x).1 = .ok "riem" := by decide +kernel
  have hfirst : (choice "number,1" x).1.val = 0 := by decide +kernel
  rw [hfirst] at hchosen'
  have hquoted : chosen' = "number, 1" := (Option.some.inj hchosen').symm.trans (by decide +kernel)
  refine ⟨hfields, hspaced, by decide +kernel, ?_, hdraws, hmissing, ?_⟩
  · rw [hresult, hplain]
    rfl
  · rw [herror, hmissing, hquoted]
    rfl

end Lexicon

end BillGrammar
