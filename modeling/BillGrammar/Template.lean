namespace BillGrammar

inductive Segment
  | literal (text : String)
  | placeholder (token : String)
  deriving DecidableEq

/-- Positions count bytes of UTF-8. -/
inductive TemplateError
  | unclosed (position : Nat)
  | unmatchedClose (position : Nat)
  | nested (position : Nat)
  | emptyPlaceholder (position : Nat)
  deriving DecidableEq

def TemplateError.message : TemplateError → String
  | .unclosed p => s!"unclosed placeholder starting at byte {p}"
  | .unmatchedClose p => s!"unmatched closing brace at byte {p}"
  | .nested p => s!"nested opening brace at byte {p}"
  | .emptyPlaceholder p => s!"empty placeholder at byte {p}"

def Segment.render : Segment → String
  | .literal text => text
  | .placeholder token => "\x7b" ++ token ++ "\x7d"

namespace Template

def isBrace (c : Char) : Bool := c == '{' || c == '}'

/-- Where a scan stands, with the characters since the last brace in reverse. -/
inductive Place
  | outside (literal : List Char)
  | inside (start : Nat) (token : List Char)

def literal (chars : List Char) : List Segment :=
  if chars.isEmpty then [] else [.literal (String.ofList chars.reverse)]

def scanFrom (position : Nat) (place : Place) : List Char → Except TemplateError (List Segment)
  | [] => match place with
    | .outside chars => .ok (literal chars)
    | .inside start _ => .error (.unclosed start)
  | c :: cs =>
    let next := position + c.utf8Size
    match place with
    | .outside chars =>
      if c = '{' then (literal chars ++ ·) <$> scanFrom next (.inside position []) cs
      else if c = '}' then .error (.unmatchedClose position)
      else scanFrom next (.outside (c :: chars)) cs
    | .inside start chars =>
      if c = '{' then .error (.nested position)
      else if c = '}' then
        if chars.isEmpty then .error (.emptyPlaceholder start)
        else (.placeholder (String.ofList chars.reverse) :: ·) <$> scanFrom next (.outside []) cs
      else scanFrom next (.inside start (c :: chars)) cs

def scan (text : String) : Except TemplateError (List Segment) :=
  scanFrom 0 (.outside []) text.toList

def hasPlaceholders (text : String) : Bool := text.toList.any isBrace

def render (segments : List Segment) : String := String.join (segments.map Segment.render)

end Template

end BillGrammar
