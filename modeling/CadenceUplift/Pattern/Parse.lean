import CadenceUplift.Pattern.Escape
import CadenceUplift.Pattern.Flags
import CadenceUplift.Text.CharacterNames

namespace CadenceUplift.Pattern

/-- The first number of copies that is too great. -/
def copyLimit : Nat := 4294967295

/-- The first group number that is too great. -/
def groupLimit : Nat := 1073741823

/-- Gives up with a fault that has no place. -/
def faultOverall {α : Type} (fault : PatternFault) : Read α := do
  throw ⟨fault, (← get).source, none⟩

/-- The number of copies that digits write. -/
def copyCount (digits : List Char) : Read Nat := do
  if maxDigits < digits.length then faultOverall (.whole (.tooLong digits.length))
  let n := numberOf 10 digits
  if copyLimit ≤ n then faultOverall .tooManyCopies else return n

/-- The bounds of a quantifier that starts with the given character, or nothing when an opening brace
turns out to stand for itself. -/
def readBounds (t : Token) : Read (Option (Nat × Option Nat)) := do
  match t.char with
  | '?' => return some (0, some 1)
  | '*' => return some (0, none)
  | '+' => return some (1, none)
  | _ =>
    let saved ← get
    match ← peek with
    | some u =>
      if u.isPlain '}' then return none
    | none => pure ()
    let room := saved.tokens.length
    let lo ← takeWhile Char.isDigit room
    let hi ← (do
      if ← accept ',' then takeWhile Char.isDigit room else return lo)
    if ← accept '}' then
      let least ← copyCount lo
      if hi.isEmpty then return some (least, none)
      else
        let most ← copyCount hi
        if most < least then faultAt .boundsReversed (t.pos + 1)
        else return some (least, some most)
    else
      set saved
      return none

/-- Puts off a fault until the whole text has been read. Of several the one that starts first counts, and of
those that start together the last, which is about what holds the others. -/
def putOff (start : Nat) (fault : PatternFault) : Read Unit :=
  modify fun r => { r with later := (r.later.filter (·.1 < start)).or (some (start, fault)) }

/-- How many copies a quantifier takes when it has the choice. -/
inductive Greed where
  | greedy
  | reluctant
  | possessive
deriving DecidableEq, Repr, Inhabited

/-- The mark after a quantifier. -/
def readGreed : Read Greed := do
  if ← accept '?' then return .reluctant
  else if ← accept '+' then return .possessive
  else return .greedy

def Greed.word : Greed → String
  | .greedy => "MAX_REPEAT"
  | .reluctant => "MIN_REPEAT"
  | .possessive => "POSSESSIVE_REPEAT"

def Greed.copies (g : Greed) (p : Pattern) (bounds : Nat × Option Nat) : Pattern :=
  match g with
  | .greedy => .loop p bounds.1 bounds.2 true
  | .reluctant => .loop p bounds.1 bounds.2 false
  | .possessive => .once (.loop p bounds.1 bounds.2 true)

/-- Applies a quantifier to the last item of a sequence. -/
def quantify (t : Token) (bounds : Nat × Option Nat) : List Item → Read (List Item)
  | [] => faultAt .nothingToRepeat t.pos
  | last :: earlier => do
    match last.kind with
    | .place => faultAt .nothingToRepeat t.pos
    | .repeated => faultAt .repeatedTwice t.pos
    | .plain =>
      let greed ← readGreed
      if (← get).flags.noRepetition then putOff last.start (.repetitionOff greed.word)
      return ⟨last.start, .repeated, greed.copies last.pattern bounds⟩ :: earlier

/-- What an opening bracket introduces. -/
inductive GroupHead where
  | capture (name : Option (String × Nat))
  | plain
  | once
  | ahead (negated : Bool)
  | behind (negated : Bool)
  /-- A reference by name, complete in itself. -/
  | same (p : Pattern)
  /-- A choice that hangs on a group. -/
  | ifTaken (n : Nat)
  | flags (head : FlagsHead)
  | comment
deriving Repr, Inhabited

def skipComment (start : Nat) : Nat → Read Unit
  | 0 => faultAt .unclosedComment start
  | fuel + 1 => do
    match ← next with
    | none => faultAt .unclosedComment start
    | some t => if t.isPlain ')' then return () else skipComment start fuel

def readNamedReference : Read GroupHead := do
  let pos ← tell
  let name ← takeGroupName ')'
  if !Text.isName name.toList then faultAt (.badGroupName name) pos
  let r ← get
  match r.names.lookup name with
  | none => faultAt (.noSuchGroupName name) pos
  | some n => if r.isClosed n then return .same (← backReference n pos) else faultAt .groupStillOpen pos

/-- The group that a choice hangs on, by name or number; a number may be that of a later group. -/
def readCondition : Read GroupHead := do
  let pos ← tell
  let name ← takeGroupName ')'
  let r ← get
  let n ← (do
    if Text.isName name.toList then
      match r.names.lookup name with
      | none => faultAt (.noSuchGroupName name) pos
      | some n => return n
    else
      match groupNumber? name with
      | none => faultAt (.badGroupName name) pos
      | some 0 => faultAt .badGroupNumber pos
      | some n =>
        if groupLimit ≤ n then faultAt (.noSuchGroup n) pos
        modify fun r => { r with conditions := r.conditions ++ [(n, pos)] }
        return n)
  checkBehind n
  return .ifTaken n

/-- Reads what follows an opening bracket at `start`, as far as it tells the kind of group. -/
def readGroupHead (start : Nat) : Read GroupHead := do
  if !(← accept '?') then return .capture none
  match ← next with
  | none => faultAt .endsEarly (← tell)
  | some t =>
    if t.isPlain 'P' then
      if ← accept '<' then
        let pos ← tell
        let name ← takeGroupName '>'
        if Text.isName name.toList then return .capture (some (name, pos))
        else faultAt (.badGroupName name) pos
      else if ← accept '=' then readNamedReference
      else
        match ← next with
        | none => faultAt .endsEarly (← tell)
        | some u => faultAt (.unknownExtension ("?P" ++ u.text)) (t.pos - 1)
    else if t.isPlain ':' then return .plain
    else if t.isPlain '#' then
      skipComment start ((← get).tokens.length + 1)
      return .comment
    else if t.isPlain '=' then return .ahead false
    else if t.isPlain '!' then return .ahead true
    else if t.isPlain '>' then return .once
    else if t.isPlain '(' then readCondition
    else if t.isPlain '<' then
      match ← next with
      | none => faultAt .endsEarly (← tell)
      | some u =>
        if u.isPlain '=' then return .behind false
        else if u.isPlain '!' then return .behind true
        else faultAt (.unknownExtension ("?<" ++ u.text)) (t.pos - 1)
    else if !t.escaped && (t.char = '-' || Flags.isLetter t.char) then return .flags (← readFlags t)
    else faultAt (.unknownExtension ("?" ++ t.text)) (t.pos - 1)

def openGroup (name : Option (String × Nat)) : Read Nat := do
  let r ← get
  let n := r.groups + 1
  match name with
  | none => if groupLimit ≤ n then faultOverall .tooManyUnnamed else set { r with groups := n }
  | some (s, pos) =>
    if groupLimit ≤ n then faultAt .tooManyGroups pos
    match r.names.lookup s with
    | some old => faultAt (.groupRedefined s n old) pos
    | none => set { r with groups := n, names := r.names ++ [(s, n)] }
  return n

/-- Takes the bracket that closes the group opened at `start`. -/
def closeGroup (start : Nat) : Read Unit := do
  if !(← accept ')') then faultAt .unclosedGroup start

/-- Looks behind with a pattern, which must always span the same number of characters, and not too many. -/
def behindOf (start : Nat) (negated : Bool) (p : Pattern) : Read Pattern := do
  let w := p.width (← get).groupWidth
  if copyLimit < w.1 then putOff start .tooFarBehind
  else if w.2 ≠ some w.1 then putOff start .unevenBehind
  return .behind negated w.1 p

/-- Runs a reading step in which other flags are in force. -/
def withFlags {α : Type} (flags : Flags) (step : Read α) : Read α := do
  let outer := (← get).flags
  modify fun r => { r with flags := flags }
  let a ← step
  modify fun r => { r with flags := outer }
  return a

/-- Runs a reading step inside a look behind. -/
def withinBehind {α : Type} (step : Read α) : Read α := do
  let outer := (← get).behind
  modify fun r => { r with behind := outer.or (some r.groups) }
  let a ← step
  modify fun r => { r with behind := outer }
  return a

def skipLine : Nat → Read Unit
  | 0 => return ()
  | fuel + 1 => do
    match ← next with
    | none => return ()
    | some t => if t.isPlain '\n' then return () else skipLine fuel

/-- A character that verbose patterns leave out. -/
def isFiller (t : Token) : Bool := !t.escaped && decide (t.char.toNat < 128) && Text.isSpace t.char

def Flags.lineStart (f : Flags) : Pattern :=
  if f.multiline then .alt .textStart (.behind false 1 (.char '\n')) else .textStart

def Flags.lineEnd (f : Flags) : Pattern :=
  if f.multiline then .alt .textEnd (.ahead false (.char '\n')) else .lineEnd

/-- Any character under the flags. -/
def Flags.any (f : Flags) : Pattern := if f.dotAll then .member { negated := true, items := [] } else .any

mutual

/-- Alternatives up to a closing bracket or the end; `top` tells that nothing stands before them. -/
def readAlternatives : Nat → Bool → Read Pattern
  | 0, _ => do faultAt .endsEarly (← tell)
  | fuel + 1, top => do
    let first ← readSequence fuel top []
    if ← accept '|' then return .alt first (← readAlternatives fuel false) else return first

/-- A sequence of items; those already read come in `items`, last first. -/
def readSequence : Nat → Bool → List Item → Read Pattern
  | 0, _, _ => do faultAt .endsEarly (← tell)
  | fuel + 1, top, items => do
    match ← peek with
    | none => return all (items.reverse.map (·.pattern))
    | some t =>
      if t.isPlain '|' || t.isPlain ')' then return all (items.reverse.map (·.pattern))
      else
        let _ ← next
        let flags := (← get).flags
        if flags.verbose && isFiller t then readSequence fuel top items
        else if flags.verbose && t.isPlain '#' then
          skipLine ((← get).tokens.length + 1)
          readSequence fuel top items
        else if t.escaped then readSequence fuel top ((← readEscape t) :: items)
        else
          match t.char with
          | '.' => readSequence fuel top (⟨t.pos, .plain, flags.any⟩ :: items)
          | '^' => readSequence fuel top (⟨t.pos, .place, flags.lineStart⟩ :: items)
          | '$' => readSequence fuel top (⟨t.pos, .place, flags.lineEnd⟩ :: items)
          | '[' =>
            let negated ← accept '^'
            let members ← readSet t.pos ((← get).tokens.length + 1) []
            readSequence fuel top (⟨t.pos, .plain, .member ⟨negated, members, flags.fold⟩⟩ :: items)
          | '(' =>
            match ← readGroup fuel (top && items.isEmpty) t.pos with
            | some p => readSequence fuel top (⟨t.pos, .plain, p⟩ :: items)
            | none => readSequence fuel top items
          | c =>
            if c = '*' || c = '+' || c = '?' || c = '{' then
              match ← readBounds t with
              | some bounds => readSequence fuel top (← quantify t bounds items)
              | none => readSequence fuel top (⟨t.pos, .plain, flags.char c⟩ :: items)
            else readSequence fuel top (⟨t.pos, .plain, flags.char c⟩ :: items)

/-- The group whose opening bracket stands at `start`; comments and flags for the whole pattern, which
only the `top` allows, give nothing. -/
def readGroup : Nat → Bool → Nat → Read (Option Pattern)
  | 0, _, _ => do faultAt .endsEarly (← tell)
  | fuel + 1, top, start => do
    let body : Read Pattern := do
      let p ← readAlternatives fuel false
      closeGroup start
      return p
    match ← readGroupHead start with
    | .comment => return none
    | .same p => return some p
    | .plain => return some (← body)
    | .once => return some (.once (← body))
    | .ahead negated => return some (.ahead negated (← body))
    | .behind negated =>
      let p ← withinBehind (readAlternatives fuel false)
      closeGroup start
      return some (← behindOf start negated p)
    | .capture name =>
      let n ← openGroup name
      let p ← body
      modify fun r => { r with closed := (n, p.width r.groupWidth) :: r.closed }
      return some (.group n p)
    | .ifTaken n =>
      let yes ← readSequence fuel false []
      let no ← (do
        if ← accept '|' then
          let no ← readSequence fuel false []
          match ← peek with
          | some t => if t.isPlain '|' then faultAt .thirdBranch t.pos else return no
          | none => return no
        else return .empty)
      closeGroup start
      return some (.ifTaken n yes no)
    | .flags (.whole added) =>
      if !top then faultAt .flagsNotFirst start
      modify fun r => { r with flags := r.flags.union added }
      return none
    | .flags (.scoped added removed) =>
      let flags := (← get).flags
      return some (← withFlags (flags.inside added removed) body)

end

/-- A pattern read from its text: the tree, how many groups it has, and the numbers of the named
ones. -/
structure Compiled where
  pattern : Pattern
  groups : Nat
  names : List (String × Nat)
deriving DecidableEq, Repr, Inhabited

/-- Faults that show only when the whole text has been read. -/
def checkWhole : Read Unit := do
  let r ← get
  match r.conditions.find? fun c => decide (r.groups < c.1) with
  | some (n, pos) => faultAt (.noSuchGroup n) pos
  | none => pure ()
  match r.later with
  | some (_, fault) => faultOverall fault
  | none => pure ()

def readWhole (room : Nat) : Read Pattern := do
  checkDangling
  let p ← readAlternatives room true
  let flags := (← get).flags
  if flags.ascii && flags.unicode then faultOverall .twoAlphabets
  match ← peek with
  | some t => faultAt .unopenedGroup t.pos
  | none =>
    checkWhole
    return p

/-- The names that escapes among the tokens give, each up to its closing brace. -/
def namesAmong : List Token → List String
  | [] => []
  | t :: rest =>
    if t.escaped && t.char == 'N' then
      String.join (((rest.drop 1).takeWhile fun u => !u.isPlain '}').map (·.text)) :: namesAmong rest
    else namesAmong rest

/-- Reads a pattern in which names stand for these characters. -/
def parseNamed (characters : List (String × Char)) (source : List Char) : Except PatternError Compiled :=
  let (tokens, dangling) := tokenize 0 source
  let start : Reader := { source := source, tokens := tokens, dangling := dangling, characters := characters }
  match (readWhole (3 * tokens.length + 3)).run start with
  | .ok (p, r) => .ok ⟨p, r.groups, r.names⟩
  | .error e => .error e

/-- The characters of the names in a text. -/
def charactersIn [CharacterNames] (source : List Char) : List (String × Char) :=
  (namesAmong (tokenize 0 source).1).filterMap fun name => (CharacterNames.find? name).map (name, ·)

def parseChars [CharacterNames] (source : List Char) : Except PatternError Compiled :=
  parseNamed (charactersIn source) source

def parse [CharacterNames] (source : String) : Except PatternError Compiled := parseChars source.toList

/-- A pattern that names no characters reads the same whatever their names are. -/
theorem parse_eq_ok [CharacterNames] {source : String} {cs : List Char} {p : Compiled} (hcs : source.toList = cs)
    (hread : namesAmong (tokenize 0 cs).1 = [] ∧ (parseNamed [] cs).toOption = some p) : parse source = .ok p := by
  obtain ⟨hnames, hread⟩ := hread
  rw [parse, parseChars, hcs, charactersIn, hnames, List.filterMap_nil]
  cases hp : parseNamed [] cs with
  | error e =>
    rw [hp] at hread
    cases hread
  | ok q =>
    rw [hp] at hread
    rw [Option.some.inj hread]

end CadenceUplift.Pattern
