import BillGrammar.Command.Outcome
import BillGrammar.Law.Settings
import BillGrammar.Text.Digits

namespace BillGrammar

namespace LawCommand

def usage : String :=
  "Usage: lei [--quantity <n>] [--seed <n>] [--lexicon <file.ron>] [--config <file.ron>]"

def maxQuantity : Nat := 10

inductive Flag
  | quantity
  | seed
  | lexicon
  | config
  deriving DecidableEq

inductive Argument
  | flag (f : Flag)
  | help
  | unknown

def Argument.ofString : String → Argument
  | "--quantity" | "-n" => .flag .quantity
  | "--seed" => .flag .seed
  | "--lexicon" => .flag .lexicon
  | "--config" => .flag .config
  | "--help" | "-h" => .help
  | _ => .unknown

structure Options where
  quantity : Nat := 1
  seed : Option UInt64 := none
  lexicon : Option String := none
  config : Option String := none
  deriving DecidableEq

inductive ArgumentError
  | missingValue (flag : String)
  | quantity
  | seed
  | unknown (argument : String)
  deriving DecidableEq

def ArgumentError.message : ArgumentError → String
  | .missingValue flag => s!"Error: {flag} requires a value\n{usage}\n"
  | .quantity => "Error: --quantity must be a positive integer\n"
  | .seed => "Error: --seed must be an unsigned integer\n"
  | .unknown a => s!"Unknown argument: {a}\n{usage}\n"

inductive Stop
  | help
  | invalid (e : ArgumentError)
  deriving DecidableEq

def Options.set (o : Options) (f : Flag) (value : String) : Except Stop Options :=
  match f with
  | .quantity => match Text.word64? value with
    | some n => .ok { o with quantity := n }
    | none => .error (.invalid .quantity)
  | .seed => match Text.word64? value with
    | some n => .ok { o with seed := some (.ofNat n) }
    | none => .error (.invalid .seed)
  | .lexicon => .ok { o with lexicon := some value }
  | .config => .ok { o with config := some value }

/-- Flags with their values from left to right, the later ones winning, up to the first argument
that is neither. -/
def Options.read (o : Options) : List String → Except Stop Options
  | [] => .ok o
  | [a] => match Argument.ofString a with
    | .flag _ => .error (.invalid (.missingValue a))
    | .help => .error .help
    | .unknown => .error (.invalid (.unknown a))
  | a :: value :: rest => match Argument.ofString a with
    | .flag f => match o.set f value with
      | .ok o => o.read rest
      | .error stop => .error stop
    | .help => .error .help
    | .unknown => .error (.invalid (.unknown a))

inductive Failure
  | tooMany
  | config (path : String) (e : SettingError)
  | lexicon (path : String) (e : SettingError)
  | generation (e : GenerationError)
  deriving DecidableEq

def Failure.message : Failure → String
  | .tooMany => s!"Não é possível gerar mais de {maxQuantity} leis de uma vez\n"
  | .config path e => s!"Error loading config '{path}': {e.message}\n"
  | .lexicon path e => s!"Error loading lexicon '{path}': {e.message}\n"
  | .generation e => s!"Desculpe o transtorno: {e.message}\n"

def checkedQuantity (requested : Nat) : Except Failure Nat :=
  if requested = 0 then .ok 1
  else if requested ≤ maxQuantity then .ok requested
  else .error .tooMany

/-- The settings: the config's, then the seed, then the lexicon's. -/
def Options.settings (o : Options) (files : Files) : Except Failure Settings := do
  let config ← o.config.toList.mapM fun path =>
    (Setting.ofConfigFile (files path)).mapError (.config path)
  let lexicon ← o.lexicon.toList.mapM fun path =>
    (Setting.ofOverrideFile (files path)).mapError (.lexicon path)
  return Settings.ofList (config ++ o.seed.toList.map .seed ++ lexicon)

def Options.laws [RandomSource σ] (o : Options) (files : Files) (source : Option UInt64 → σ) :
    Except Failure (List String) := do
  let quantity ← checkedQuantity o.quantity
  let settings ← o.settings files
  let generator := settings.generator (source settings.config.seed)
  (generator.many quantity).1.mapError .generation

def render : List String → String
  | [law] => law
  | laws => "Novas leis geradas:\n\n" ++ String.intercalate "\n\n" laws

/-- `defaultLexicon` is the path of the lexicon that is used if the arguments name none. -/
def run [RandomSource σ] (arguments : List String) (defaultLexicon : Option String) (files : Files)
    (source : Option UInt64 → σ) : CommandOutcome :=
  match Options.read { lexicon := defaultLexicon } arguments with
  | .error .help => .success (usage ++ "\n")
  | .error (.invalid e) => .failure e.message
  | .ok o => match o.laws files source with
    | .ok laws => .success (render laws ++ "\n")
    | .error e => .failure e.message

end LawCommand

end BillGrammar
