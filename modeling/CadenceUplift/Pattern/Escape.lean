import CadenceUplift.Pattern.Token
import CadenceUplift.Text.Name

namespace CadenceUplift.Pattern

/-- How an item behaves under a quantifier. -/
inductive ItemKind where
  /-- A place in the text: there is nothing to repeat. -/
  | place
  /-- Already repeated. -/
  | repeated
  | plain
deriving DecidableEq, Repr, Inhabited

/-- One read item of a sequence, with its offset. -/
structure Item where
  start : Nat
  kind : ItemKind
  pattern : Pattern
deriving Repr, Inhabited

/-- The classes that a letter escape names. -/
def classEscape? (ascii : Bool) : Char → Option CharItem
  | 'd' => some (if ascii then .asciiDecimal false else .decimal)
  | 'D' => some (if ascii then .asciiDecimal true else .nonDecimal)
  | 's' => some (if ascii then .asciiBlank false else .blank)
  | 'S' => some (if ascii then .asciiBlank true else .nonBlank)
  | 'w' => some (if ascii then .asciiWord false else .word)
  | 'W' => some (if ascii then .asciiWord true else .nonWord)
  | _ => none

/-- Which letters count as the same under the flags. -/
def Flags.fold (f : Flags) : CaseFold :=
  if f.ignoreCase then if f.ascii then .ascii else .all else .none

/-- One given character under the flags. -/
def Flags.char (f : Flags) (c : Char) : Pattern :=
  if f.ignoreCase then .member { items := [.single c], fold := f.fold } else .char c

/-- Reads the digits of a numbered character escape that has a fixed number of hexadecimal digits. -/
def readHexEscape (t : Token) (count : Nat) : Read Char := do
  let digits ← takeWhile isHex count
  let code := numberOf 16 digits
  if digits.length ≠ count then faultAt (.shortEscape (t.text ++ String.ofList digits)) t.pos
  else if 0x110000 ≤ code then faultAt (.badEscape (t.text ++ String.ofList digits)) t.pos
  else return Text.ofCode code

/-- The character of a name; one with half a pair in it cannot be looked up. -/
def lookUpName (t : Token) (name : String) : Read Char := do
  if name.toList.any Text.isHalf then faultAt (.badEscape t.text) ((← tell) - t.text.length)
  match (← get).characters.lookup name with
  | some c => return c
  | none => faultAt (.unknownCharacterName name) t.pos

def readNamedEscape (t : Token) : Read Char := do
  if !(← accept '{') then faultAt .noBrace (← tell)
  lookUpName t (← takeName '}' .noCharacterName ((← get).tokens.length + 1) "")

/-- An octal character escape, given its digits. -/
def octalEscape (t : Token) (digits : List Char) : Read Char := do
  let n := numberOf 8 digits
  if n ≤ 255 then return Char.ofNat n
  else faultAt (.octalTooLarge (String.ofList ('\\' :: digits))) t.pos

/-- An escape that stands for itself, unless it is a letter or a digit. -/
def selfEscape (t : Token) : Read Char := do
  if t.char.isAlphanum then faultAt (.badEscape t.text) t.pos else return t.char

/-- The digits of a group number or of an octal escape: one or two more plain digits may follow, and
three octal digits make an octal escape. -/
def readDigits (first : Char) : Read (List Char × Bool) := do
  match ← takeWhile Char.isDigit 1 with
  | [second] =>
    if isOctal first && isOctal second then
      match ← takeWhile isOctal 1 with
      | [third] => return ([first, second, third], true)
      | _ => return ([first, second], false)
    else return ([first, second], false)
  | _ => return ([first], false)

/-- Refuses a reference, inside a look behind, to a group that is not complete before it. -/
def checkBehind (n : Nat) : Read Unit := do
  let r ← get
  match r.behind with
  | none => return ()
  | some before =>
    if !r.isClosed n then faultAt .groupStillOpen (← tell)
    else if before < n then faultAt .groupInSameBehind (← tell)

/-- A reference to a group by its number; the number starts at `pos`. -/
def backReference (n pos : Nat) : Read Pattern := do
  let r ← get
  if r.groups < n then faultAt (.noSuchGroup n) pos
  else if !r.isClosed n then faultAt .groupStillOpen (pos - 1)
  else
    checkBehind n
    return .sameAs n r.flags.fold

def readEscape (t : Token) : Read Item := do
  let flags := (← get).flags
  let char (c : Char) : Item := ⟨t.pos, .plain, flags.char c⟩
  match t.char with
  | 'A' => return ⟨t.pos, .place, .textStart⟩
  | 'Z' => return ⟨t.pos, .place, .textEnd⟩
  | 'b' => return ⟨t.pos, .place, .wordEdge false flags.ascii⟩
  | 'B' => return ⟨t.pos, .place, .wordEdge true flags.ascii⟩
  | 'x' => return char (← readHexEscape t 2)
  | 'u' => return char (← readHexEscape t 4)
  | 'U' => return char (← readHexEscape t 8)
  | 'N' => return char (← readNamedEscape t)
  | '0' => return char (← octalEscape t ('0' :: (← takeWhile isOctal 2)))
  | c =>
    match classEscape? flags.ascii c, letterEscape? c with
    | some item, _ => return ⟨t.pos, .plain, .member { items := [item] }⟩
    | none, some l => return char l
    | none, none =>
      if c.isDigit then
        let (digits, octal) ← readDigits c
        if octal then return char (← octalEscape t digits)
        else return ⟨t.pos, .plain, ← backReference (numberOf 10 digits) (t.pos + 1)⟩
      else return char (← selfEscape t)

def readSetEscape (t : Token) : Read CharItem := do
  match t.char with
  | 'x' => return .single (← readHexEscape t 2)
  | 'u' => return .single (← readHexEscape t 4)
  | 'U' => return .single (← readHexEscape t 8)
  | 'N' => return .single (← readNamedEscape t)
  | c =>
    match letterEscape? c, classEscape? (← get).flags.ascii c with
    | some l, _ => return .single l
    | none, some item => return item
    | none, none =>
      if isOctal c then return .single (← octalEscape t (c :: (← takeWhile isOctal 2)))
      else return .single (← selfEscape t)

/-- One end of a range between brackets. -/
def readSetItem (t : Token) : Read CharItem :=
  if t.escaped then readSetEscape t else return .single t.char

/-- The members for a range of codes. Halves of pairs lie between other characters by their codes, and
behind all of them in texts. -/
def codeRange (lo hi : Nat) : List CharItem :=
  if hi < 0xd800 ∨ 0xe000 ≤ lo then [.range (Text.ofCode lo) (Text.ofCode hi)]
  else
    (if lo < 0xd800 then [.range (Text.ofCode lo) (Text.ofCode 0xd7ff)] else []) ++
      [.range (Text.ofCode (max lo 0xd800)) (Text.ofCode (min hi 0xdfff))] ++
      (if 0xe000 ≤ hi then [.range (Text.ofCode 0xe000) (Text.ofCode hi)] else [])

/-- Refuses a range; its place is counted back from here by the tokens of its ends. -/
def refuseRange (lo hi : Token) : Read (List CharItem) := do
  faultAt (.badRange lo.text hi.text) ((← tell) - (lo.text.length + 1 + hi.text.length))

/-- The members of a bracketed set up to its closing bracket; `start` is the offset of the opening
one. -/
def readSet (start : Nat) : Nat → List CharItem → Read (List CharItem)
  | 0, _ => faultAt .unclosedSet start
  | fuel + 1, items => do
    match ← next with
    | none => faultAt .unclosedSet start
    | some t =>
      if t.isPlain ']' && !items.isEmpty then return items.reverse
      else
        let lo ← readSetItem t
        if ← accept '-' then
          match ← next with
          | none => faultAt .unclosedSet start
          | some u =>
            if u.isPlain ']' then return (.single '-' :: lo :: items).reverse
            else
              let hi ← readSetItem u
              match lo, hi with
              | .single a, .single b =>
                let lo := Text.codeOf a
                let hi := Text.codeOf b
                if lo ≤ hi then readSet start fuel ((codeRange lo hi).reverse ++ items)
                else refuseRange t u
              | _, _ => refuseRange t u
        else readSet start fuel (lo :: items)

end CadenceUplift.Pattern
