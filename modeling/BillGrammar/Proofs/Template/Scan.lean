import BillGrammar.Template

/-!
Scanning and rendering.  A text scans if and only if it renders well-formed segments, and then the
scan gives these segments with neighbouring literals joined.
-/

namespace BillGrammar

namespace Template

def Plain (text : String) : Prop := ∀ c ∈ text.toList, c ≠ '{' ∧ c ≠ '}'

instance : Decidable (Plain text) := List.decidableBAll (fun c => c ≠ '{' ∧ c ≠ '}') text.toList

def Scans (text : String) : Prop := ∃ segments, scan text = .ok segments

instance : Decidable (Scans text) :=
  match h : scan text with
  | .ok segments => .isTrue ⟨segments, h⟩
  | .error _ => .isFalse fun ⟨_, hs⟩ => nomatch h.symm.trans hs

end Template

open Template

/-- Literals may be empty here, and in `WellFormed` lists they may follow each other. -/
def Segment.WellFormed : Segment → Prop
  | .literal text => Plain text
  | .placeholder token => token ≠ "" ∧ Plain token

namespace Template

def WellFormed (segments : List Segment) : Prop := ∀ s ∈ segments, s.WellFormed

/-- Every literal joined with those that follow it, and none of them empty.  The characters of the
first are `pending`, in reverse. -/
def joinLiterals (pending : List Char) : List Segment → List Segment
  | [] => literal pending
  | .literal text :: segments => joinLiterals (text.toList.reverse ++ pending) segments
  | .placeholder token :: segments =>
    literal pending ++ .placeholder token :: joinLiterals [] segments

theorem wellFormed_cons {s : Segment} {segments : List Segment} :
    WellFormed (s :: segments) ↔ s.WellFormed ∧ WellFormed segments := by
  simp [WellFormed]

theorem wellFormed_append {a b : List Segment} :
    WellFormed (a ++ b) ↔ WellFormed a ∧ WellFormed b := by
  simp [WellFormed, or_imp, forall_and]

@[simp] theorem render_nil : render [] = "" := rfl

@[simp] theorem render_cons (s : Segment) (segments : List Segment) :
    render (s :: segments) = s.render ++ render segments := by
  simp [render]

@[simp] theorem render_append (a b : List Segment) : render (a ++ b) = render a ++ render b := by
  simp [render]

theorem hasPlaceholders_eq_false_iff {text : String} :
    hasPlaceholders text = false ↔ Plain text := by
  simp [hasPlaceholders, isBrace, Plain]

theorem plain_append {a b : String} : Plain (a ++ b) ↔ Plain a ∧ Plain b := by
  simp only [Plain, String.toList_append, List.forall_mem_append]

theorem plain_render_iff {segments : List Segment} (h : WellFormed segments) :
    Plain (render segments) ↔ ∀ token, .placeholder token ∉ segments := by
  induction segments with
  | nil => simp [Plain]
  | cons s segments ih =>
    rw [wellFormed_cons] at h
    obtain ⟨hs, h⟩ := h
    cases s with
    | literal text =>
      simp only [render_cons, Segment.render, plain_append, ih h, List.mem_cons, reduceCtorEq,
        false_or]
      exact and_iff_right hs
    | placeholder token =>
      constructor
      · intro h
        simp [Plain, Segment.render] at h
      · intro h
        exact absurd List.mem_cons_self (h token)

/-! Characters without braces are moved to the pending ones. -/

def byteLength : List Char → Nat
  | [] => 0
  | c :: cs => c.utf8Size + byteLength cs

theorem scanFrom_outside_append {xs : List Char} (h : ∀ c ∈ xs, c ≠ '{' ∧ c ≠ '}')
    (position : Nat) (pending cs : List Char) :
    scanFrom position (.outside pending) (xs ++ cs) =
      scanFrom (position + byteLength xs) (.outside (xs.reverse ++ pending)) cs := by
  induction xs generalizing position pending with
  | nil => rfl
  | cons x xs ih =>
    obtain ⟨hx, h⟩ := List.forall_mem_cons.mp h
    simp [scanFrom, hx, ih h, byteLength, Nat.add_assoc]

theorem scanFrom_inside_append {xs : List Char} (h : ∀ c ∈ xs, c ≠ '{' ∧ c ≠ '}')
    (position start : Nat) (pending cs : List Char) :
    scanFrom position (.inside start pending) (xs ++ cs) =
      scanFrom (position + byteLength xs) (.inside start (xs.reverse ++ pending)) cs := by
  induction xs generalizing position pending with
  | nil => rfl
  | cons x xs ih =>
    obtain ⟨hx, h⟩ := List.forall_mem_cons.mp h
    simp [scanFrom, hx, ih h, byteLength, Nat.add_assoc]

theorem scanFrom_render {segments : List Segment} (h : WellFormed segments) (position : Nat)
    (pending : List Char) :
    scanFrom position (.outside pending) (render segments).toList =
      .ok (joinLiterals pending segments) := by
  induction segments generalizing position pending with
  | nil => rfl
  | cons s segments ih =>
    rw [wellFormed_cons] at h
    obtain ⟨hs, h⟩ := h
    cases s with
    | literal text =>
      rw [render_cons, Segment.render, String.toList_append, scanFrom_outside_append hs, ih h,
        joinLiterals]
    | placeholder token =>
      obtain ⟨hne, hs⟩ := hs
      have hcs : (render (.placeholder token :: segments)).toList =
          '{' :: (token.toList ++ '}' :: (render segments).toList) := by
        simp [Segment.render]
      rw [hcs, scanFrom, if_pos rfl, scanFrom_inside_append hs, scanFrom]
      simp only [List.append_nil, ↓reduceIte, List.isEmpty_iff, List.reverse_eq_nil_iff,
        String.toList_eq_nil_iff, hne, List.reverse_reverse, String.ofList_toList, ih h]
      rfl

theorem scan_render {segments : List Segment} (h : WellFormed segments) :
    scan (render segments) = .ok (joinLiterals [] segments) :=
  scanFrom_render h 0 []

theorem eq_ok_of_map_eq_ok {f : α → β} {x : Except ε α} (h : f <$> x = .ok b) :
    ∃ a, x = .ok a ∧ f a = b := by
  cases x with
  | error e => cases h
  | ok a =>
    cases h
    exact ⟨a, rfl, rfl⟩

/-! A scan that succeeds has cut the text into well-formed segments. -/

def Place.chars : Place → List Char
  | .outside pending => pending.reverse
  | .inside _ pending => '{' :: pending.reverse

def Place.Plain : Place → Prop
  | .outside pending | .inside _ pending => ∀ c ∈ pending, c ≠ '{' ∧ c ≠ '}'

theorem plain_ofList_reverse {cs : List Char} :
    Template.Plain (String.ofList cs.reverse) ↔ ∀ c ∈ cs, c ≠ '{' ∧ c ≠ '}' := by
  simp [Template.Plain]

theorem wellFormed_literal {pending : List Char} (h : ∀ c ∈ pending, c ≠ '{' ∧ c ≠ '}') :
    WellFormed (literal pending) := by
  unfold literal
  split
  · simp [WellFormed]
  · simpa [WellFormed, Segment.WellFormed] using plain_ofList_reverse.mpr h

theorem toList_render_literal (pending : List Char) :
    (render (literal pending)).toList = pending.reverse := by
  unfold literal
  split <;> simp_all [Segment.render]

theorem Place.plain_nil : (Place.outside []).Plain := by simp [Place.Plain]

theorem wellFormed_of_scanFrom {place : Place} (hp : place.Plain)
    (h : scanFrom position place cs = .ok segments) :
    WellFormed segments ∧ (render segments).toList = place.chars ++ cs := by
  induction cs generalizing position place segments with
  | nil =>
    cases place with
    | outside pending =>
      cases h
      exact ⟨wellFormed_literal hp, by simp [toList_render_literal, Place.chars]⟩
    | inside start pending => cases h
  | cons c cs ih =>
    cases place with
    | outside pending =>
      rw [scanFrom] at h
      split at h
      · obtain ⟨rest, hrest, rfl⟩ := eq_ok_of_map_eq_ok h
        have hinside : (Place.inside position []).Plain := by simp [Place.Plain]
        obtain ⟨hw, ht⟩ := ih hinside hrest
        refine ⟨wellFormed_append.mpr ⟨wellFormed_literal hp, hw⟩, ?_⟩
        simp_all [toList_render_literal, Place.chars]
      · split at h
        · cases h
        · have hnext : (Place.outside (c :: pending)).Plain := by simp_all [Place.Plain]
          obtain ⟨hw, ht⟩ := ih hnext h
          exact ⟨hw, by simp [ht, Place.chars]⟩
    | inside start pending =>
      rw [scanFrom] at h
      split at h
      · cases h
      · split at h
        · split at h
          · cases h
          · obtain ⟨rest, hrest, rfl⟩ := eq_ok_of_map_eq_ok h
            obtain ⟨hw, ht⟩ := ih Place.plain_nil hrest
            constructor
            · rw [wellFormed_cons]
              refine ⟨⟨?_, plain_ofList_reverse.mpr hp⟩, hw⟩
              simp_all
            · simp_all [Place.chars, Segment.render]
        · have hnext : (Place.inside start (c :: pending)).Plain := by simp_all [Place.Plain]
          obtain ⟨hw, ht⟩ := ih hnext h
          exact ⟨hw, by simp [ht, Place.chars]⟩

theorem wellFormed_of_scan (h : scan text = .ok segments) :
    WellFormed segments ∧ render segments = text := by
  obtain ⟨hw, ht⟩ := wellFormed_of_scanFrom Place.plain_nil h
  exact ⟨hw, String.toList_inj.mp (by simpa [Place.chars] using ht)⟩

theorem scans_iff {text : String} :
    Scans text ↔ ∃ segments, WellFormed segments ∧ render segments = text := by
  constructor
  · rintro ⟨segments, h⟩
    exact ⟨segments, wellFormed_of_scan h⟩
  · rintro ⟨segments, h, rfl⟩
    exact ⟨_, scan_render h⟩

theorem placeholder_mem_joinLiterals {segments : List Segment} {pending : List Char} :
    .placeholder token ∈ joinLiterals pending segments ↔ .placeholder token ∈ segments := by
  induction segments generalizing pending with
  | nil => simp [joinLiterals, literal]
  | cons s segments ih =>
    cases s with
    | literal text => simp [joinLiterals, ih]
    | placeholder token => simp [joinLiterals, ih, literal]

/-! Texts that scan may be put together. -/

def Mentions (text token : String) : Prop :=
  ∃ segments, scan text = .ok segments ∧ .placeholder token ∈ segments

theorem mentions_iff (h : scan text = .ok segments) :
    Mentions text token ↔ .placeholder token ∈ segments := by
  simp [Mentions, h]

def tokens (text : String) : List String :=
  match scan text with
  | .ok segments => segments.filterMap fun
    | .literal _ => none
    | .placeholder token => some token
  | .error _ => []

theorem mem_tokens : token ∈ tokens text ↔ Mentions text token := by
  unfold tokens Mentions
  cases scan text with
  | error e => simp
  | ok segments =>
    simp only [List.mem_filterMap, Except.ok.injEq, exists_eq_left']
    constructor
    · rintro ⟨s | s, hm, h⟩ <;> cases h
      exact hm
    · exact fun hm => ⟨_, hm, rfl⟩

theorem mentions_render {segments : List Segment} (h : WellFormed segments) :
    Mentions (render segments) token ↔ .placeholder token ∈ segments := by
  rw [mentions_iff (scan_render h), placeholder_mem_joinLiterals]

theorem Plain.exists_render {text : String} (h : Plain text) :
    WellFormed [.literal text] ∧ render [.literal text] = text := by
  simp [WellFormed, Segment.WellFormed, Segment.render, h]

theorem Plain.scans {text : String} (h : Plain text) : Scans text :=
  scans_iff.mpr ⟨_, h.exists_render⟩

theorem Scans.append {a b : String} (ha : Scans a) (hb : Scans b) : Scans (a ++ b) := by
  obtain ⟨as, hwa, rfl⟩ := scans_iff.mp ha
  obtain ⟨bs, hwb, rfl⟩ := scans_iff.mp hb
  exact scans_iff.mpr ⟨as ++ bs, wellFormed_append.mpr ⟨hwa, hwb⟩, render_append as bs⟩

theorem mentions_append {a b : String} (ha : Scans a) (hb : Scans b) :
    Mentions (a ++ b) token ↔ Mentions a token ∨ Mentions b token := by
  obtain ⟨as, hwa, rfl⟩ := scans_iff.mp ha
  obtain ⟨bs, hwb, rfl⟩ := scans_iff.mp hb
  rw [← render_append, mentions_render (wellFormed_append.mpr ⟨hwa, hwb⟩), mentions_render hwa,
    mentions_render hwb, List.mem_append]

theorem Scans.plain_iff {text : String} (h : Scans text) :
    Plain text ↔ ∀ token, ¬ Mentions text token := by
  obtain ⟨segments, hw, rfl⟩ := scans_iff.mp h
  simp [plain_render_iff hw, mentions_render hw]

end Template

end BillGrammar
