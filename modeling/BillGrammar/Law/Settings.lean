import BillGrammar.Law.Config
import BillGrammar.Law.Generator
import BillGrammar.Lexicon.File

namespace BillGrammar

inductive Setting
  | lexicon (L : Lexicon)
  | overrides (o : Override)
  | config (c : Config)
  | passes (n : Nat)
  | seed (s : UInt64)

inductive SettingError
  | lexicon (f : FileFault)
  | config (f : FileFault)
  deriving DecidableEq

def SettingError.message : SettingError → String
  | .lexicon f => s!"lexicon error: {f.message}"
  | .config f => s!"config error: {f.message}"

namespace Setting

def ofOverrideFile (content : FileContent) : Except SettingError Setting :=
  ((Override.ofFile content).map .overrides).mapError .lexicon

def ofConfigFile (content : FileContent) : Except SettingError Setting :=
  ((Config.ofFile content).map .config).mapError .config

end Setting

structure Settings where
  lexicon : Lexicon := .builtin
  config : Config := {}

namespace Settings

/-- Later settings win.  An override counts from the built-in lexicon, not from the one before, and
a config sets the seed even if it has none. -/
def set (s : Settings) : Setting → Settings
  | .lexicon L => { s with lexicon := L }
  | .overrides o => { s with lexicon := .ofOverride o }
  | .config c => { s with config := c }
  | .passes n => { s with config.passes := n }
  | .seed n => { s with config.seed := some n }

def ofList (settings : List Setting) : Settings := settings.foldl set {}

def generator (s : Settings) (source : σ) : Generator σ := ⟨s.lexicon, s.config.passes, source⟩

end Settings

end BillGrammar
