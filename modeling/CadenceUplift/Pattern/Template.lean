import CadenceUplift.Pattern.Parse
import CadenceUplift.Pattern.Match

namespace CadenceUplift.Pattern

/-- A piece of a replacement template. -/
inductive TemplatePart where
  | char (c : Char)
  | group (n : Nat)
deriving DecidableEq, Repr, Inhabited

/-- A reference to a group by number, refused when the pattern has fewer groups. -/
def groupPart (n pos : Nat) : Read TemplatePart := do
  if n ≤ (← get).groups then return .group n else faultAt (.noSuchGroup n) pos

/-- A reference to a group by name or number between angle brackets. -/
def readGroupReference : Read TemplatePart := do
  if !(← accept '<') then faultAt .noAngle (← tell)
  let pos ← tell
  let name ← takeGroupName '>'
  if Text.isName name.toList then
    match (← get).names.lookup name with
    | some n => return .group n
    | none => faultOverall (.templateNames name)
  else
    match groupNumber? name with
    | some n => groupPart n pos
    | none => faultAt (.badGroupName name) pos

def readTemplateEscape (t : Token) : Read (List TemplatePart) := do
  match t.char with
  | 'g' => return [← readGroupReference]
  | '0' =>
    let n := numberOf 8 (← takeWhile isOctal 2)
    return [.char (Char.ofNat (n % 256))]
  | c =>
    if c.isDigit then
      let (digits, octal) ← readDigits c
      if octal then return [.char (← octalEscape t digits)]
      else return [← groupPart (numberOf 10 digits) (t.pos + 1)]
    else
      match letterEscape? c with
      | some l => return [.char l]
      | none =>
        if c.isAlpha then faultAt (.badEscape t.text) t.pos
        else return [.char '\\', .char c]

/-- All pieces of a template; `fuel` bounds their number. -/
def readTemplate : Nat → Read (List TemplatePart)
  | 0 => return []
  | fuel + 1 => do
    match ← next with
    | none => return []
    | some t =>
      let parts ← if t.escaped then readTemplateEscape t else pure [.char t.char]
      return parts ++ (← readTemplate fuel)

def Compiled.parseTemplate (p : Compiled) (template : String) : Except PatternError (List TemplatePart) :=
  let chars := template.toList
  let (tokens, dangling) := tokenize 0 chars
  let start : Reader :=
    { source := chars, tokens := tokens, dangling := dangling, groups := p.groups, names := p.names }
  (do checkDangling; readTemplate (tokens.length + 1) : Read (List TemplatePart)).run' start

/-- The text that a template stands for at a match. -/
def expandParts (m : Match) (t : Array Char) (parts : List TemplatePart) : List Char :=
  parts.flatMap fun
    | .char c => [c]
    | .group n => m.groupText t n

/-- The text that replaces a match under a template. -/
def Compiled.expand (p : Compiled) (template : String) (m : Match) (t : Array Char) :
    Except PatternError (List Char) := do
  return expandParts m t (← p.parseTemplate template)

end CadenceUplift.Pattern
