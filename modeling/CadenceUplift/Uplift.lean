import CadenceUplift.Number.Whole
import CadenceUplift.Rule.RuleSet

namespace CadenceUplift

/-- A construct that needs a manual step, by its line. -/
structure Note where
  line : Nat
  message : String
deriving DecidableEq, Repr, Inhabited

/-- A text after all passes. -/
structure Uplifted where
  text : List Char
  /-- The number of replacements of each pass, in order. -/
  counts : List (Category × Nat)
  notes : List Note
deriving DecidableEq, Repr, Inhabited

namespace Uplifted

/-- The number of replacements of all passes. -/
def total (r : Uplifted) : Nat := sumOf (r.counts.map (·.2))

/-- The passes that replaced something. -/
def activePasses (r : Uplifted) : List Category :=
  (r.counts.filter fun c => decide (0 < c.2)).map (·.1)

end Uplifted

/-- Applies rules one after another and adds up their replacements. -/
def applyRules [CharacterNames] (skipLiterals : Bool) : List Rule → Replaced → Except UpliftError Replaced
  | [], done => .ok done
  | r :: rest, done => do
    let next ← r.apply done.text skipLiterals
    applyRules skipLiterals rest ⟨next.text, done.count + next.count⟩

def linkNote : String :=
  "account.link() requires manual migration to capability controllers " ++
    "(account.capabilities.storage.issue + account.capabilities.publish)"

/-- Notes on the calls that cannot be changed mechanically. -/
def manualSteps (s : List Char) : List Note :=
  let starts := (Text.lineOffsets s).toArray
  (matchesOutside Legacy.link s.toArray (literalIndex s)).map fun m =>
    ⟨(Text.positionAt starts m.start).line, linkNote⟩

namespace RuleSet

variable [CharacterNames]

/-- Runs the rules of one category. -/
def upliftPass (r : RuleSet) (category : Value) (s : List Char) : Except UpliftError Replaced :=
  applyRules r.options.preserves (r.byCategory category) ⟨s, 0⟩

/-- Runs the passes of the given categories in order, and counts the replacements of each. -/
def runPasses (r : RuleSet) :
    List Category → List Char → Except UpliftError (List Char × List (Category × Nat))
  | [], s => .ok (s, [])
  | c :: rest, s => do
    let once ← r.upliftPass (.text c.name) s
    let (final, counts) ← runPasses r rest once.text
    return (final, (c, once.count) :: counts)

/-- Runs every pass in order. -/
def uplift (r : RuleSet) (s : List Char) : Except UpliftError Uplifted := do
  let (final, counts) ← r.runPasses Category.ordered s
  return ⟨final, counts, manualSteps s⟩

end RuleSet

/-- How an uplift changed the lines of a text. -/
structure LineStats where
  oldLines : Nat
  newLines : Nat
  changedLines : Nat
  differs : Bool
deriving DecidableEq, Repr, Inhabited

/-- Compares two texts line by line; lines that only one of them has count as changed. -/
def lineStats (old new : List Char) : LineStats :=
  let a := Text.lines old
  let b := Text.lines new
  let changed := ((a.zip b).filter fun p => p.1 != p.2).length
  { oldLines := a.length
    newLines := b.length
    changedLines := changed + ((a.length - b.length) + (b.length - a.length))
    differs := old != new }

end CadenceUplift
