namespace CadenceUplift

/-- The names of characters. -/
class CharacterNames where
  /-- The one character of a name, if it names one. -/
  find? : String → Option Char

namespace Text

/-- The names of the letters of ASCII of one case. -/
def letterNames (case : String) : List String :=
  (List.range 26).map fun i => "LATIN " ++ case ++ " LETTER " ++ String.singleton (Char.ofNat ('A'.toNat + i))

/-- The names of the characters of ASCII from the space on, in the order of their codes. -/
def namesFromSpace : List String :=
  ["SPACE", "EXCLAMATION MARK", "QUOTATION MARK", "NUMBER SIGN", "DOLLAR SIGN", "PERCENT SIGN", "AMPERSAND",
    "APOSTROPHE", "LEFT PARENTHESIS", "RIGHT PARENTHESIS", "ASTERISK", "PLUS SIGN", "COMMA", "HYPHEN-MINUS",
    "FULL STOP", "SOLIDUS", "DIGIT ZERO", "DIGIT ONE", "DIGIT TWO", "DIGIT THREE", "DIGIT FOUR", "DIGIT FIVE",
    "DIGIT SIX", "DIGIT SEVEN", "DIGIT EIGHT", "DIGIT NINE", "COLON", "SEMICOLON", "LESS-THAN SIGN", "EQUALS SIGN",
    "GREATER-THAN SIGN", "QUESTION MARK", "COMMERCIAL AT"] ++ letterNames "CAPITAL" ++
  ["LEFT SQUARE BRACKET", "REVERSE SOLIDUS", "RIGHT SQUARE BRACKET", "CIRCUMFLEX ACCENT", "LOW LINE",
    "GRAVE ACCENT"] ++ letterNames "SMALL" ++
  ["LEFT CURLY BRACKET", "VERTICAL LINE", "RIGHT CURLY BRACKET", "TILDE"]

end Text

/-- The names of the printed characters of ASCII, in letters of either case. -/
instance asciiNames : CharacterNames where
  find? name := (Text.namesFromSpace.idxOf? name.toUpper).map fun i => Char.ofNat (' '.toNat + i)

end CadenceUplift
