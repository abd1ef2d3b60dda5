import BillGrammar.Lexicon.Basic
import BillGrammar.Placeholder.Request

namespace BillGrammar

def Table.pick (t : Table) (entries : List α) : ExceptT PlaceholderError Sampler α :=
  if h : entries = [] then throw (.emptyTable t) else liftM (Sampler.pick entries h)

/-- One of the alternatives of a token, also if there is only one. -/
def chooseAlternative (token : String) : Sampler String :=
  Sampler.pick (alternatives token) (alternatives_ne_nil token)

namespace Lexicon

def draw (L : Lexicon) (t : Table) (form : Form) : ExceptT PlaceholderError Sampler String :=
  t.kind.inflect form <$> t.pick (L.entries t)

def fulfil (L : Lexicon) (alternative : String) : ExceptT PlaceholderError Sampler String := do
  let request ← Request.parse alternative
  match request.table? with
  | some t => L.draw t request.form
  | none =>
    let range ← request.range alternative
    range.sample

/-- A fragment for a token: an alternative is chosen first, and the others are not read.  Fragments
may hold placeholders. -/
def fragment (L : Lexicon) (token : String) : ExceptT PlaceholderError Sampler String := do
  let alternative ← chooseAlternative token
  L.fulfil alternative

end Lexicon

end BillGrammar
