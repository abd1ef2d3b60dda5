import BillGrammar.Proofs.Placeholder.Fragment
import BillGrammar.Proofs.Template.Normal

namespace BillGrammar

open Template

theorem Category.parse_name (c : Category) : Category.parse c.name = .ok c := by
  cases c <;> rfl

theorem Category.isAlpha_of_mem_name (c : Category) : ∀ x ∈ c.name.toList, x.isAlpha := by
  cases c <;> exact List.all_eq_true.mp (by decide)

def Form.tag? : Form → Option String
  | .default => none
  | .singular => some "singular"
  | .plural => some "plural"
  | .infinitive => some "infinitive"
  | .thirdPerson => some "thirdPerson"

theorem Form.ofTag_tag? (f : Form) : (f.tag?.map Form.ofTag).getD .default = f := by
  cases f <;> rfl

theorem Form.isAlpha_of_mem_tag? (f : Form) : ∀ tag ∈ f.tag?, ∀ x ∈ tag.toList, x.isAlpha := by
  intro tag h
  cases f <;> cases h <;> exact List.all_eq_true.mp (by decide)

namespace Request

def head (r : Request) : String :=
  match r.form.tag? with
  | none => r.category.name
  | some tag => r.category.name ++ ":" ++ tag

def write (r : Request) : String := String.intercalate "," (r.head :: r.parameters)

def token (requests : List Request) : String := String.intercalate "|" (requests.map write)

def isDelimiter (c : Char) : Bool := c == ',' || c == '|' || isBrace c

def Writable (r : Request) : Prop := ∀ p ∈ r.parameters, ∀ c ∈ p.toList, ¬ isDelimiter c

instance (r : Request) : Decidable r.Writable :=
  decidable_of_iff (r.parameters.all fun p => p.toList.all (!isDelimiter ·)) (by simp [Writable])

theorem mem_head {r : Request} (h : c ∈ r.head.toList) : c.isAlpha ∨ c = ':' := by
  unfold head at h
  split at h
  · exact .inl (r.category.isAlpha_of_mem_name c h)
  case h_2 tag htag =>
    simp only [String.toList_append, List.mem_append] at h
    rcases h with (h | h) | h
    · exact .inl (r.category.isAlpha_of_mem_name c h)
    · exact .inr (by simpa using h)
    · exact .inl (r.form.isAlpha_of_mem_tag? tag htag c h)

theorem not_isDelimiter_of_mem_head {r : Request} (h : c ∈ r.head.toList) : ¬ isDelimiter c := by
  rcases mem_head h with h | rfl
  · simp only [isDelimiter, isBrace, Bool.or_eq_true, beq_iff_eq, not_or]
    refine ⟨⟨?_, ?_⟩, ?_, ?_⟩ <;> rintro rfl <;> simp at h
  · decide

theorem cutAt_head (r : Request) : Text.cutAt ':' r.head = (r.category.name, r.form.tag?) := by
  have hname : ':' ∉ r.category.name.toList := fun h => by
    simpa using r.category.isAlpha_of_mem_name ':' h
  unfold head
  split
  case h_1 htag => rw [Text.cutAt_of_not_mem hname, htag]
  case h_2 tag htag => rw [htag]; exact Text.cutAt_append hname tag

theorem fields_write {r : Request} (h : r.Writable) :
    Text.fields ',' r.write = r.head :: r.parameters := by
  refine Text.fields_intercalate (List.cons_ne_nil _ _) (List.forall_mem_cons.mpr ⟨?_, ?_⟩)
  · exact fun hc => not_isDelimiter_of_mem_head hc rfl
  · exact fun p hp hc => h p hp ',' hc rfl

theorem parse_write {r : Request} (h : r.Writable) : Request.parse r.write = .ok r := by
  have hhead : Text.headField ',' r.write = (r.head, r.parameters) := by
    simp only [Text.headField, fields_write h]
  rw [parse_eq, hhead, cutAt_head, Category.parse_name]
  simp [Except.map, Form.ofTag_tag?]

theorem eq_comma_of_mem_write {r : Request} (h : r.Writable) (hc : c ∈ r.write.toList)
    (hd : isDelimiter c) : c = ',' := by
  by_contra hne
  refine Text.not_mem_intercalate ?_ (List.forall_mem_cons.mpr ⟨?_, ?_⟩) hc
  · simpa using hne
  · exact fun hc => not_isDelimiter_of_mem_head hc hd
  · exact fun p hp hc => h p hp c hc hd

theorem write_ne_empty {r : Request} (h : r.Writable) : r.write ≠ "" := by
  intro he
  have hparse := parse_write h
  rw [he] at hparse
  cases hparse

theorem alternatives_token {requests : List Request} (hne : requests ≠ [])
    (h : ∀ r ∈ requests, r.Writable) : alternatives (token requests) = requests.map write := by
  refine Text.fields_intercalate (by simpa using hne) (List.forall_mem_map.mpr fun r hr hc => ?_)
  cases eq_comma_of_mem_write (h r hr) hc rfl

theorem token_ne_empty {requests : List Request} (hne : requests ≠ [])
    (h : ∀ r ∈ requests, r.Writable) : token requests ≠ "" := by
  intro he
  have hmap := alternatives_token hne h
  rw [he] at hmap
  have hmem : "" ∈ alternatives "" := by decide
  rw [hmap] at hmem
  obtain ⟨r, hr, hw⟩ := List.mem_map.mp hmem
  exact write_ne_empty (h r hr) hw

theorem plain_token {requests : List Request} (h : ∀ r ∈ requests, r.Writable) :
    Plain (token requests) := by
  have hnot {c : Char} (hbar : c ≠ '|') (hcomma : c ≠ ',') (hd : isDelimiter c) :
      c ∉ (token requests).toList :=
    Text.not_mem_intercalate (by simpa using hbar)
      (List.forall_mem_map.mpr fun r hr hc => hcomma (eq_comma_of_mem_write (h r hr) hc hd))
  refine fun c hc => ⟨?_, ?_⟩
  · rintro rfl
    exact hnot (by decide) (by decide) rfl hc
  · rintro rfl
    exact hnot (by decide) (by decide) rfl hc

end Request

inductive Part
  | literal (text : String)
  | placeholder (requests : List Request)

namespace Part

def segment : Part → Segment
  | .literal text => .literal text
  | .placeholder requests => .placeholder (Request.token requests)

def Writable : Part → Prop
  | .literal text => text ≠ "" ∧ Plain text
  | .placeholder requests => requests ≠ [] ∧ ∀ r ∈ requests, r.Writable

instance : (p : Part) → Decidable p.Writable
  | .literal text => inferInstanceAs (Decidable (text ≠ "" ∧ Plain text))
  | .placeholder requests =>
    inferInstanceAs (Decidable (requests ≠ [] ∧ ∀ r ∈ requests, r.Writable))

theorem Writable.normal {p : Part} (h : p.Writable) : p.segment.Normal := by
  cases p with
  | literal text => exact h
  | placeholder requests => exact ⟨Request.token_ne_empty h.1 h.2, Request.plain_token h.2⟩

end Part

/-- What is written from requests is read back: the same segments, as many alternatives for each
placeholder as it has requests, and from each alternative its request with all parameters. -/
theorem Template.scan_write {parts : List Part} (h : ∀ p ∈ parts, p.Writable)
    (hapart : parts.IsChain fun p q => ¬ (p.segment.isLiteral ∧ q.segment.isLiteral)) :
    scan (render (parts.map Part.segment)) = .ok (parts.map Part.segment) ∧
      ∀ requests, .placeholder requests ∈ parts →
        (BillGrammar.alternatives (Request.token requests)).map Request.parse = requests.map .ok := by
  constructor
  · refine scan_eq_ok_iff.mpr ⟨⟨List.forall_mem_map.mpr fun p hp => (h p hp).normal, ?_⟩, rfl⟩
    exact (List.isChain_map Part.segment).mpr hapart
  · intro requests hmem
    obtain ⟨hne, hw⟩ := h _ hmem
    rw [Request.alternatives_token hne hw, List.map_map]
    exact List.map_congr_left fun r hr => Request.parse_write (hw r hr)

theorem Template.scan_write_spaced :
    let action : Request := ⟨.action, .plural, [" person ", "", "a:b"]⟩
    let number : Request := ⟨.number, .default, ["1", " 2"]⟩
    let drug : Request := ⟨.drug, .thirdPerson, []⟩
    let parts : List Part := [.literal "já ", .placeholder [action, number], .placeholder [drug]]
    (∀ p ∈ parts, p.Writable) ∧
      (parts.IsChain fun p q => ¬ (p.segment.isLiteral ∧ q.segment.isLiteral)) ∧
      render (parts.map Part.segment) =
        "já \x7baction:plural, person ,,a:b|number,1, 2\x7d\x7bdrug:thirdPerson\x7d" ∧
      scan (render (parts.map Part.segment)) = .ok (parts.map Part.segment) ∧
      (BillGrammar.alternatives (Request.token [action, number])).map Request.parse =
        [.ok action, .ok number] := by
  intro action number drug parts
  have hw : ∀ p ∈ parts, p.Writable := by decide +kernel
  have hapart : parts.IsChain fun p q => ¬ (p.segment.isLiteral ∧ q.segment.isLiteral) := by
    simp [parts, Part.segment, Segment.isLiteral]
  obtain ⟨hscan, hparse⟩ := scan_write hw hapart
  exact ⟨hw, hapart, by decide +kernel, hscan, hparse _ (by simp [parts])⟩

end BillGrammar
