import CadenceUplift.Data.Value
import CadenceUplift.Pattern.Template
import CadenceUplift.Literal.Replace
import CadenceUplift.Legacy.Shapes

namespace CadenceUplift

/-- The passes of an uplift; rules of one category make up a pass. -/
inductive Category where
  | accessModifier
  | interface
  | storage
  | function
  | imports
deriving DecidableEq, Repr, Inhabited

namespace Category

def ordered : List Category := [.accessModifier, .interface, .storage, .function, .imports]

def name : Category → String
  | .accessModifier => "access-modifier"
  | .interface => "interface"
  | .storage => "storage"
  | .function => "function"
  | .imports => "import"

/-- The names of all categories, for messages. -/
def names : String := ", ".intercalate (ordered.map name)

end Category

/-- What a match of a rule becomes. -/
inductive Replacement where
  /-- A template that may refer to groups, if it is a text. -/
  | template (v : Value)
  /-- What a function makes of the match in its text. -/
  | function (f : Match → Array Char → List Char)
deriving Inhabited

/-- An uplift rule; a part that is missing is null. -/
structure Rule where
  pattern : Value
  replacement : Replacement
  description : Value
  category : Value
deriving Inhabited

/-- Why a rule could not be used. -/
inductive UpliftError where
  /-- A pattern or a template is at fault. -/
  | pattern (e : PatternError)
  | notPattern (v : Value)
  | notTemplate (v : Value)
  /-- What tells rules apart can change. -/
  | notKey (v : Value)
deriving Repr, Inhabited

/-- The wording of a value that can change where one that cannot is needed. -/
def notKeyMessage (v : Value) : String := "unhashable type: '" ++ v.kindWord ++ "'"

/-- The wording of a pattern that is no text. -/
def notPatternMessage (v : Value) : String :=
  if v.isKey then "first argument must be string or compiled pattern" else notKeyMessage v

def UpliftError.message : UpliftError → String
  | .pattern e => e.message
  | .notPattern v => notPatternMessage v
  | .notTemplate v => "decoding to str: need a bytes-like object, " ++ v.kindWord ++ " found"
  | .notKey v => notKeyMessage v

def splitBetween (t : Array Char) : Nat → List Match → List (List Char)
  | last, [] => [(t.extract last t.size).toList]
  | last, m :: rest => (t.extract last m.start).toList :: splitBetween t m.stop rest

def conformanceNames (list : List Char) : List (List Char) :=
  let t := list.toArray
  splitBetween t 0 (Legacy.listSeparator.allMatches t)

def joinConformances (m : Match) (t : Array Char) : List Char :=
  m.groupText t 1 ++ Text.join [' ', '&', ' '] (conformanceNames (m.groupText t 2))

namespace Rule

def replace (p : Pattern.Compiled) (r : Replacement) (m : Match) (t : Array Char) :
    Except UpliftError (List Char) :=
  match r with
  | .template (.text template) => (p.expand template m t).mapError .pattern
  | .template v => .error (.notTemplate v)
  | .function f => .ok (f m t)

def compile [CharacterNames] (r : Rule) : Except UpliftError Pattern.Compiled :=
  match r.pattern with
  | .text source => (Pattern.parse source).mapError .pattern
  | v => .error (.notPattern v)

/-- Applies a rule in one pass from left to right. -/
def apply [CharacterNames] (r : Rule) (s : List Char) (skipLiterals : Bool) : Except UpliftError Replaced := do
  let p ← r.compile
  replaceInCode p.pattern (replace p r.replacement) s skipLiterals

end Rule

end CadenceUplift
