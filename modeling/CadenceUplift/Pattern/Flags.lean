import CadenceUplift.Pattern.Token
import CadenceUplift.Text.Name

namespace CadenceUplift.Pattern

namespace Flags

def ofLetter? : Char → Option Flags
  | 'i' => some { ignoreCase := true }
  | 'm' => some { multiline := true }
  | 's' => some { dotAll := true }
  | 'x' => some { verbose := true }
  | 'a' => some { ascii := true }
  | 'u' => some { unicode := true }
  | 't' => some { noRepetition := true }
  | _ => none

/-- A letter of a flag, of which one is never allowed. -/
def isLetter (c : Char) : Bool := c == 'L' || (ofLetter? c).isSome

/-- The flags of both. -/
def union (a b : Flags) : Flags where
  ignoreCase := a.ignoreCase || b.ignoreCase
  multiline := a.multiline || b.multiline
  dotAll := a.dotAll || b.dotAll
  verbose := a.verbose || b.verbose
  ascii := a.ascii || b.ascii
  unicode := a.unicode || b.unicode
  noRepetition := a.noRepetition || b.noRepetition

/-- The flags of the first without those of the second. -/
def minus (a b : Flags) : Flags where
  ignoreCase := a.ignoreCase && !b.ignoreCase
  multiline := a.multiline && !b.multiline
  dotAll := a.dotAll && !b.dotAll
  verbose := a.verbose && !b.verbose
  ascii := a.ascii && !b.ascii
  unicode := a.unicode && !b.unicode
  noRepetition := a.noRepetition && !b.noRepetition

def hasAlphabet (f : Flags) : Bool := f.ascii || f.unicode

/-- The flags inside a bracket that turns some on and some off; an alphabet replaces the one before. -/
def inside (outer added removed : Flags) : Flags :=
  let base := if added.hasAlphabet then { outer with ascii := false, unicode := false } else outer
  (base.union added).minus removed

end Flags

/-- What a bracket of flags says. -/
inductive FlagsHead where
  /-- For the whole pattern. -/
  | whole (added : Flags)
  /-- For what follows in the bracket. -/
  | scoped (added removed : Flags)
deriving Repr, Inhabited

/-- A letter of any script, as far as it starts names. -/
def isLetterToken (t : Token) : Bool := !t.escaped && Text.isNameStart t.char && t.char != '_'

/-- Refuses a token that is no flag; `expected` is the fault of one that is no letter either. -/
def badFlag {α : Type} (t : Token) (expected : PatternFault) : Read α :=
  faultAt (if isLetterToken t then .unknownFlag else expected) t.pos

/-- The flag of a token, for the flags to be turned on. -/
def readFlagOn (t : Token) (added : Flags) : Read Flags := do
  match Flags.ofLetter? t.char with
  | none => faultAt .localeFlag (← tell)
  | some f =>
    let all := added.union f
    if all.ascii && all.unicode then faultAt .alphabetsClash (← tell) else return all

/-- Flags to be turned on from a first one on, and the character that ends them; `fuel` bounds their
number. -/
def readFlagsOn : Nat → Token → Flags → Read (Flags × Char)
  | 0, t, _ => faultAt .flagsUnfinished t.pos
  | fuel + 1, t, added => do
    let all ← readFlagOn t added
    match ← next with
    | none => faultAt .flagsUnfinished (← tell)
    | some u =>
      if u.isPlain ')' || u.isPlain '-' || u.isPlain ':' then return (all, u.char)
      else if !u.escaped && Flags.isLetter u.char then readFlagsOn fuel u all
      else badFlag u .flagsUnfinished

/-- Flags to be turned off from a first one on, up to the colon; `fuel` bounds their number. -/
def readFlagsOff : Nat → Token → Flags → Read Flags
  | 0, t, _ => faultAt .noColon t.pos
  | fuel + 1, t, removed => do
    match Flags.ofLetter? t.char with
    | none => faultAt .alphabetOff (← tell)
    | some f =>
      if f.hasAlphabet then faultAt .alphabetOff (← tell)
      let all := removed.union f
      match ← next with
      | none => faultAt .noColon (← tell)
      | some u =>
        if u.isPlain ':' then return all
        else if !u.escaped && Flags.isLetter u.char then readFlagsOff fuel u all
        else badFlag u .noColon

/-- Checks the flags of a bracket that holds something. -/
def scopedFlags (added removed : Flags) : Read FlagsHead := do
  let before := (← tell) - 1
  if removed.noRepetition then faultAt .wholeFlagOff before
  else if (added.minus removed) ≠ added then faultAt .flagOnAndOff before
  else return .scoped added removed

/-- Reads flags from a first token on, which is a flag or a minus. -/
def readFlags (t : Token) : Read FlagsHead := do
  let room := (← get).tokens.length + 1
  let (added, closer) ← if t.char = '-' then pure ({}, '-') else readFlagsOn room t {}
  if closer = ')' then return .whole added
  if added.noRepetition then faultAt .wholeFlagOn ((← tell) - 1)
  if closer = ':' then scopedFlags added {}
  else
    match ← next with
    | none => faultAt .noFlag (← tell)
    | some u =>
      if !u.escaped && Flags.isLetter u.char then scopedFlags added (← readFlagsOff room u {})
      else badFlag u .noFlag

end CadenceUplift.Pattern
