import BillGrammar.Lexicon.Basic

namespace BillGrammar

namespace EntryKind

def forms : EntryKind → Nat
  | .phrase => 1
  | .noun | .articledNoun => 2
  | .action => 3

/-- Where a table lists the form of its entry number `i`, if its entries are of the kind. -/
def position : EntryKind → Form → Nat → Nat
  | .phrase, _, i => i
  | .noun, .singular, i | .articledNoun, .singular, i => 2 * i
  | .noun, _, i | .articledNoun, _, i => 2 * i + 1
  | .action, .thirdPerson, i => 3 * i + 1
  | .action, .plural, i => 3 * i + 2
  | .action, _, i => 3 * i

theorem length_texts (k : EntryKind) (e : k.Entry) : (k.texts e).length = k.forms := by
  cases k <;> rfl

theorem position_zero_lt (k : EntryKind) (form : Form) : k.position form 0 < k.forms := by
  cases k <;> cases form <;> decide

theorem position_eq (k : EntryKind) (form : Form) (i : Nat) :
    k.position form i = k.forms * i + k.position form 0 := by
  cases k <;> cases form <;> simp [position, forms]

theorem getElem?_texts (k : EntryKind) (form : Form) (e : k.Entry) :
    (k.texts e)[k.position form 0]? = some (k.inflect form e) := by
  cases k <;> cases form <;> rfl

end EntryKind

theorem getElem?_flatMap_of_length {f : α → List β} (hf : ∀ a, (f a).length = n) (hj : j < n)
    (xs : List α) (i : Nat) : (xs.flatMap f)[n * i + j]? = xs[i]?.bind fun a => (f a)[j]? := by
  induction xs generalizing i with
  | nil => rfl
  | cons x xs ih =>
    cases i with
    | zero => simp [hf, hj, List.getElem?_append_left]
    | succ i =>
      have hi : n * (i + 1) + j = n + (n * i + j) := by rw [Nat.mul_succ]; omega
      rw [List.flatMap_cons, hi, List.getElem?_append_right (by simp [hf])]
      simpa [hf] using ih i

namespace Lexicon

theorem length_texts (L : Lexicon) (t : Table) :
    (L.texts t).length = L.size t * t.kind.forms := by
  simp [texts, size, EntryKind.length_texts, List.map_const']

theorem getElem?_texts (L : Lexicon) (t : Table) (form : Form) (i : Fin (L.size t)) :
    (L.texts t)[t.kind.position form i]? = some (t.kind.inflect form ((L.entries t).get i)) := by
  rw [texts, EntryKind.position_eq,
    getElem?_flatMap_of_length t.kind.length_texts (t.kind.position_zero_lt form),
    List.getElem?_eq_getElem i.isLt]
  exact t.kind.getElem?_texts form _

end Lexicon

end BillGrammar
