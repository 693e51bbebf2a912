import CadenceUplift.Number.Whole

namespace CadenceUplift

/-- A fault in the text of a pattern or of a replacement template. -/
inductive PatternFault where
  | unclosedGroup
  | unclosedComment
  | unclosedSet
  | nothingToRepeat
  | repeatedTwice
  | unopenedGroup
  | danglingEscape
  | badEscape (text : String)
  | shortEscape (text : String)
  | octalTooLarge (text : String)
  | endsEarly
  | tooManyGroups
  | groupRedefined (name : String) (new old : Nat)
  | boundsReversed
  | badRange (lo hi : String)
  | noSuchGroup (n : Nat)
  | groupStillOpen
  | noSuchGroupName (name : String)
  | noGroupName
  | badGroupNumber
  | thirdBranch
  | groupInSameBehind
  | noAngle
  | noBrace
  | noCharacterName
  | unknownCharacterName (name : String)
  | unclosedName (closer : Char)
  | badGroupName (name : String)
  | unknownExtension (text : String)
  | tooFarBehind
  | unevenBehind
  | flagsNotFirst
  | unknownFlag
  | flagsUnfinished
  | noFlag
  | noColon
  | localeFlag
  | alphabetsClash
  | alphabetOff
  | wholeFlagOn
  | wholeFlagOff
  | flagOnAndOff
  /-- Flags at the start ask for two alphabets. -/
  | twoAlphabets
  /-- A flag at the start rules repetition out. -/
  | repetitionOff (word : String)
  | tooManyCopies
  /-- A group without a name is one too many, and its name is asked for to say so. -/
  | tooManyUnnamed
  | whole (e : WholeFault)
  /-- A template names a group that the pattern does not have. -/
  | templateNames (name : String)
deriving DecidableEq, Repr, Inhabited

def PatternFault.wording : PatternFault → String
  | .unclosedGroup => "missing ), unterminated subpattern"
  | .unclosedComment => "missing ), unterminated comment"
  | .unclosedSet => "unterminated character set"
  | .nothingToRepeat => "nothing to repeat"
  | .repeatedTwice => "multiple repeat"
  | .unopenedGroup => "unbalanced parenthesis"
  | .danglingEscape => "bad escape (end of pattern)"
  | .badEscape text => "bad escape " ++ text
  | .shortEscape text => "incomplete escape " ++ text
  | .octalTooLarge text => "octal escape value " ++ text ++ " outside of range 0-0o377"
  | .endsEarly => "unexpected end of pattern"
  | .tooManyGroups => "too many groups"
  | .groupRedefined name new old =>
    "redefinition of group name " ++ Text.quotedString name ++ " as group " ++ toString new ++
      "; was group " ++ toString old
  | .boundsReversed => "min repeat greater than max repeat"
  | .badRange lo hi => "bad character range " ++ lo ++ "-" ++ hi
  | .noSuchGroup n => "invalid group reference " ++ toString n
  | .groupStillOpen => "cannot refer to an open group"
  | .noSuchGroupName name => "unknown group name " ++ Text.quotedString name
  | .noGroupName => "missing group name"
  | .badGroupNumber => "bad group number"
  | .thirdBranch => "conditional backref with more than two branches"
  | .groupInSameBehind => "cannot refer to group defined in the same lookbehind subpattern"
  | .noAngle => "missing <"
  | .noBrace => "missing \x7b"
  | .noCharacterName => "missing character name"
  | .unknownCharacterName name => "undefined character name " ++ Text.quotedString name
  | .unclosedName closer => "missing " ++ String.singleton closer ++ ", unterminated name"
  | .badGroupName name => "bad character in group name " ++ Text.quotedString name
  | .unknownExtension text => "unknown extension " ++ text
  | .tooFarBehind => "looks too much behind"
  | .unevenBehind => "look-behind requires fixed-width pattern"
  | .flagsNotFirst => "global flags not at the start of the expression"
  | .unknownFlag => "unknown flag"
  | .flagsUnfinished => "missing -, : or )"
  | .noFlag => "missing flag"
  | .noColon => "missing :"
  | .localeFlag => "bad inline flags: cannot use 'L' flag with a str pattern"
  | .alphabetsClash => "bad inline flags: flags 'a', 'u' and 'L' are incompatible"
  | .alphabetOff => "bad inline flags: cannot turn off flags 'a', 'u' and 'L'"
  | .wholeFlagOn => "bad inline flags: cannot turn on global flag"
  | .wholeFlagOff => "bad inline flags: cannot turn off global flag"
  | .flagOnAndOff => "bad inline flags: flag turned on and off"
  | .twoAlphabets => "ASCII and UNICODE flags are incompatible"
  | .repetitionOff word => "internal: unsupported template operator " ++ word
  | .tooManyCopies => "the repetition number is too large"
  | .tooManyUnnamed => "object of type 'NoneType' has no len()"
  | .whole e => e.message
  | .templateNames name => "unknown group name " ++ Text.quotedString name

/-- The fault lies in the form of a pattern or template; other faults are limits of numbers, contradictory
flags and names of groups that only the pattern can tell. -/
def PatternFault.isFormal : PatternFault → Bool
  | .twoAlphabets | .tooManyCopies | .tooManyUnnamed | .whole _ | .templateNames _ => false
  | _ => true

/-- A fault together with the text it is in and, where it has one, its place there. -/
structure PatternError where
  fault : PatternFault
  source : List Char
  place : Option Nat
deriving DecidableEq, Repr, Inhabited

/-- The wording of the fault, followed by its place; a text of several lines also gets line and
column. -/
def PatternError.message (e : PatternError) : String :=
  match e.place with
  | none => e.fault.wording
  | some pos =>
    let before := e.source.take pos
    let line := before.count '\n' + 1
    let column := (before.reverse.takeWhile (· != '\n')).length + 1
    e.fault.wording ++ " at position " ++ toString pos ++
      (if e.source.contains '\n' then
        " (line " ++ toString line ++ ", column " ++ toString column ++ ")"
      else "")

end CadenceUplift
