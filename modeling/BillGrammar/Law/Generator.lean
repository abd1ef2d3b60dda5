import BillGrammar.Law.Expansion

namespace BillGrammar

structure Generator (σ : Type) where
  lexicon : Lexicon
  passes : Nat := defaultPasses
  source : σ

namespace Generator

variable {σ : Type} [RandomSource σ]

def perform (g : Generator σ) (p : Generation α) : Except GenerationError α × Generator σ :=
  let (result, source) := p.run.run g.source
  (result, { g with source })

def one (g : Generator σ) : Except GenerationError String × Generator σ :=
  g.perform (g.lexicon.law g.passes)

def many (g : Generator σ) (count : Nat) : Except GenerationError (List String) × Generator σ :=
  g.perform (g.lexicon.laws g.passes count)

def expand (g : Generator σ) (text : String) : Except GenerationError String × Generator σ :=
  g.perform (g.lexicon.expand g.passes text)

end Generator

end BillGrammar
