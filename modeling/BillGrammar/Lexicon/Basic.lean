import BillGrammar.Lexicon.Builtin

namespace BillGrammar

structure Lexicon where
  entries : (t : Table) → List t.Entry

/-- The tables that are given replace the built-in ones whole, also where they are empty. -/
structure Override where
  entries? : (t : Table) → Option (List t.Entry)

namespace Override

def empty : Override := ⟨fun _ => none⟩

def set (o : Override) (t : Table) (entries : List t.Entry) : Override where
  entries? u := if h : t = u then some (h ▸ entries) else o.entries? u

def tables (o : Override) : List Table := Table.all.filter fun t => (o.entries? t).isSome

@[simp] theorem entries?_set_self (o : Override) (t : Table) (entries : List t.Entry) :
    (o.set t entries).entries? t = some entries := by simp [set]

theorem entries?_set_of_ne (o : Override) {t u : Table} (h : t ≠ u) (entries : List t.Entry) :
    (o.set t entries).entries? u = o.entries? u := by simp [set, h]

end Override

namespace Lexicon

def ofOverride (o : Override) : Lexicon where
  entries t := (o.entries? t).getD t.builtin

def builtin : Lexicon := ofOverride .empty

def size (L : Lexicon) (t : Table) : Nat := (L.entries t).length

def texts (L : Lexicon) (t : Table) : List String := (L.entries t).flatMap t.kind.texts

end Lexicon

end BillGrammar
