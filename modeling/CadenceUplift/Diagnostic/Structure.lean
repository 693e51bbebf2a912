import CadenceUplift.Diagnostic.Function

namespace CadenceUplift

open Pattern Legacy

/-- A declaration by the given word: group 1 is the word `interface` if present, group 2 the name. -/
def typePattern (word : String) : Pattern :=
  all (edge :: chars word ++ [many1 blank, opt (.group 1 (all (chars "interface" ++ [many1 blank]))),
    .group 2 (all plainName)])

def contractPattern : Pattern := typePattern "contract"

def resourcePattern : Pattern := typePattern "resource"

def initPattern : Pattern := all (edge :: chars "init" ++ [many blank, .char '('])

def destroyPattern : Pattern := all (edge :: chars "destroy" ++ [many blank, .char '('])

/-- How many lines from its declaration on a resource is searched for a destructor. -/
def destroyLookahead : Nat := 50

/-- The kinds of type declarations that are checked. -/
inductive TypeKind where
  | contract
  | resource
deriving DecidableEq, Repr, Inhabited

/-- What is wrong with a type declaration. -/
inductive StructureFault where
  | missingAccess (kind : TypeKind)
  | missingDestroy
  /-- No initializer; a body closed on its own line is only warned about. -/
  | missingInit (inline : Bool)
deriving DecidableEq, Repr, Inhabited

/-- A fault of the type declared at the given place. -/
structure StructureError where
  line : Nat
  column : Nat
  name : String
  fault : StructureFault
deriving DecidableEq, Repr, Inhabited

/-- Whether a destructor stands in the segments before the braces that open there balance. -/
def destroys : Int → Bool → List (List Char) → Bool
  | _, _, [] => false
  | depth, opened, segment :: rest =>
    let opened := opened || segment.contains '\x7b'
    if opened && destroyPattern.occursIn segment then true
    else
      let depth := depth + braceBalance segment
      if opened && decide (depth ≤ 0) then false else destroys depth opened rest

/-- The braces of a text open and balance again before it ends. -/
def closesInline : Int → Bool → List Char → Bool
  | _, _, [] => false
  | depth, opened, c :: r =>
    if c = '\x7b' then closesInline (depth + 1) true r
    else if c = '\x7d' then
      if opened && decide (depth - 1 = 0) then true else closesInline (depth - 1) opened r
    else closesInline depth opened r

/-- An access modifier stands before an offset of a line. -/
def accessBefore (line : List Char) (offset : Nat) : Bool :=
  Text.hasText (line.take offset) "access(".toList

def typeName (line : List Char) (m : Match) : String := String.ofList (m.groupText line.toArray 2)

def declaresInterface (m : Match) : Bool := (m.capture? 1).isSome

/-- The faults of the declarations on one line, given the lines after it. -/
def structureErrorsAt (index : Nat) (line : List Char) (rest : List (List Char)) : List StructureError :=
  (match contractPattern.search line.toArray with
    | none => []
    | some m =>
      if accessBefore line m.start then []
      else [⟨index, m.start + 1, typeName line m, .missingAccess .contract⟩]) ++
    (match resourcePattern.search line.toArray with
      | none => []
      | some m =>
        (if accessBefore line m.start then []
          else [⟨index, m.start + 1, typeName line m, .missingAccess .resource⟩]) ++
          (if declaresInterface m || destroys 0 false (line.drop m.stop :: rest.take (destroyLookahead - 1))
            then []
          else [⟨index, m.start + 1, typeName line m, .missingDestroy⟩]))

/-- The faults of the declarations from line `index` on, the initializer apart. -/
def structureErrorsFrom : Nat → List (List Char) → List StructureError
  | _, [] => []
  | index, line :: rest => structureErrorsAt index line rest ++ structureErrorsFrom (index + 1) rest

/-- The fault that the first contract would have without an initializer. -/
def firstContractFrom : Nat → List (List Char) → Option StructureError
  | _, [] => none
  | index, line :: rest =>
    match contractPattern.search line.toArray with
    | some m =>
      if declaresInterface m then firstContractFrom (index + 1) rest
      else
        some ⟨index, m.start + 1, typeName line m, .missingInit (closesInline 0 false (line.drop m.stop))⟩
    | none => firstContractFrom (index + 1) rest

/-- The faults of contract and resource declarations in blanked lines. -/
def structureErrors (ls : List (List Char)) : List StructureError :=
  structureErrorsFrom 1 ls ++
    (if ls.any initPattern.occursIn then [] else (firstContractFrom 1 ls).toList)

def StructureFault.kind : StructureFault → String
  | .missingAccess _ => "invalid-access-modifier"
  | .missingDestroy => "invalid-resource-structure"
  | .missingInit _ => "missing-init"

/-- The fault makes a text invalid; otherwise it is only warned about. -/
def StructureFault.blocking : StructureFault → Bool
  | .missingAccess _ => true
  | .missingDestroy => false
  | .missingInit inline => !inline

def StructureFault.message (name : String) : StructureFault → String
  | .missingAccess .contract => "Contract '" ++ name ++ "' is missing access modifier"
  | .missingAccess .resource => "Resource '" ++ name ++ "' is missing access modifier"
  | .missingDestroy => "Resource '" ++ name ++ "' is missing destroy() function"
  | .missingInit _ => "Contract '" ++ name ++ "' is missing init() function"

def StructureFault.suggestion : StructureFault → String
  | .missingAccess .contract => "Add access modifier like \"access(all)\" before contract keyword"
  | .missingAccess .resource => "Add access modifier like \"access(all)\" before resource keyword"
  | .missingDestroy => "Add destroy() function to properly handle resource cleanup"
  | .missingInit _ => "Add init() function to initialize contract state"

/-- A structure error as a diagnostic. -/
def StructureError.issue (e : StructureError) : Issue where
  kind := e.fault.kind
  mark := { line := e.line, column := e.column }
  message := e.fault.message e.name
  suggestion := e.fault.suggestion

end CadenceUplift
