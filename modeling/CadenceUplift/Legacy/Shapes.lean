import CadenceUplift.Pattern.Basic

namespace CadenceUplift.Legacy

open Pattern

/-- The characters of a text, one pattern each. -/
def chars (s : String) : List Pattern := s.toList.map .char

/-- One of several words. -/
def wordsOf (ws : List String) : Pattern := oneOf (ws.map fun w => all (chars w))

/-- The words that open a declaration after its access modifier. -/
def declarationKeywords : List String :=
  ["var", "let", "fun", "resource", "struct", "contract", "interface", "event"]

def declarationAhead : Pattern := .ahead false (all [wordsOf declarationKeywords, edge])

/-- A keyword that stands alone in front of a declaration, with the blanks after it. -/
def keyword (word : String) : Pattern := all (edge :: chars word ++ [many1 blank, declarationAhead])

def pubDeclaration : Pattern := keyword "pub"

/-- The keyword `pub(set)` in front of a declaration. -/
def pubSetDeclaration : Pattern := keyword "pub(set)"

/-- A character that opens a name. -/
def nameStart : Pattern := .member { items := [.range 'A' 'Z', .range 'a' 'z', .single '_'] }

/-- A name, possibly with dots inside. -/
def dottedName : List Pattern := [nameStart, many (.member { items := [.word, .single '.'] })]

def plainName : List Pattern := [nameStart, many word]

/-- The head of a type declaration with conformances, up to the blanks after its colon. -/
def conformanceHead : List Pattern :=
  [edge, wordsOf ["resource", "struct", "contract"], opt (all (many1 blank :: chars "interface")),
    many1 blank] ++ plainName ++ [many blank, .char ':', many blank]

/-- A separator of conformances among the given characters, with the blanks around it. -/
def separator (p : Pattern) : List Pattern := [many blank, p, many blank]

/-- A conformance list with at least one comma: names joined by ampersands, the first comma, and
then names joined by either. -/
def commaList : List Pattern :=
  dottedName ++ [many (all (separator (.char '&') ++ dottedName))] ++ separator (.char ',') ++
    dottedName ++ [many (all (separator (among ",&") ++ dottedName))]

/-- A conformance list with a comma in front of a body: group 1 is the head, group 2 the list. -/
def conformance : Pattern :=
  all [.group 1 (all conformanceHead), .group 2 (all commaList),
    .ahead false (all [many blank, .char '\x7b'])]

/-- A conformance list with a comma, up to the brace of the body. -/
def conformanceList : Pattern := all (conformanceHead ++ commaList ++ [many blank, .char '\x7b'])

def listSeparator : Pattern := all (separator (among ",&"))

/-- A space or a tab. -/
def gap : Pattern := among " \t"

/-- The words that a getter's name starts with. -/
def getterWords : List String := ["get", "read", "check", "is", "has", "can"]

/-- A getter with a return type and no view modifier: group 1 is the access modifier, group 2 the
signature. -/
def getter : Pattern :=
  all [
    .group 1 (all (edge :: chars "access(" ++ [many (except ")\n"), .char ')', many1 gap])),
    .group 2 (all (chars "fun" ++ [many1 gap, wordsOf getterWords,
      opt (all [.member { items := [.range 'A' 'Z', .range '0' '9', .single '_'] }, many word]),
      many gap, .char '(', many (except ")"), .char ')', many gap, .char ':']))]

/-- A call of `account.link`, up to its opening bracket. -/
def link : Pattern :=
  all (edge :: chars "account.link" ++
    [many blank, opt (all [.char '<', many (except ">\n"), .char '>', many blank]), .char '('])

/-- The start of a flat storage call on an account: the member, in front of type arguments or a
bracket. -/
def storageCallOf (member : List Pattern) : Pattern :=
  all (edge :: chars "account." ++ member ++ [edge, .ahead false (all [many blank, among "<("])])

/-- A flat storage call of one name. -/
def storageAccess (name : String) : Pattern := storageCallOf (chars name)

/-- A flat storage call of one of several names. -/
def storageCallAmong (names : List String) : Pattern := storageCallOf [wordsOf names]

/-- A member of an account that stands alone as a word. -/
def accountMember (name : String) : Pattern := all (edge :: chars "account." ++ chars name ++ [edge])

/-- A word that stands alone. -/
def lone (w : String) : Pattern := all (edge :: chars w ++ [edge])

def hexDigit : Pattern := .member { items := [.range 'a' 'f', .range 'A' 'F', .range '0' '9'] }

def importFromAddress : Pattern :=
  all (edge :: chars "import" ++ [many1 blank, .member { items := [.range 'A' 'Z'] }, many word, many1 blank] ++
    chars "from" ++ [many1 blank] ++ chars "0x" ++ [.loop hexDigit 16 (some 16) true, edge])

/-- An import of any name from an address. -/
def importFromAnyAddress : Pattern :=
  all (edge :: chars "import" ++ [many1 blank, many1 word, many1 blank] ++ chars "from" ++
    [many1 blank] ++ chars "0x" ++ [many1 hexDigit])

/-- The keyword `pub` and the blanks after it, anywhere. -/
def pubWord : Pattern := all (edge :: chars "pub" ++ [many1 blank])

/-- The keyword `pub(set)` anywhere. -/
def pubSetWord : Pattern := all (edge :: chars "pub(set)")

/-- The keyword `pub(set)` and the blanks after it, anywhere. -/
def pubSetBlanks : Pattern := all (edge :: chars "pub(set)" ++ [many blank])

def pubEither : Pattern :=
  all (edge :: chars "pub" ++ [.alt (many1 blank) (all (chars "(set)"))])

def copyCall : Pattern := all (chars ".copy()")

/-- A panic whose message says nothing. -/
def genericPanic : Pattern :=
  all (chars "panic" ++ [many blank, .char '(', many blank, .char '"',
    opt (wordsOf ["error", "failed", "panic"]), .char '"', many blank, .char ')'])

end CadenceUplift.Legacy
