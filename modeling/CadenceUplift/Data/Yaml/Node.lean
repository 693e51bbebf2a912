import CadenceUplift.Data.Yaml.Tag
import CadenceUplift.Data.Yaml.Token

namespace CadenceUplift.Yaml

/-- A node of a document. -/
inductive Node where
  | scalar (tag : Tag) (text : String)
  | sequence (tag : Tag) (items : List Node)
  | mapping (tag : Tag) (entries : List (Node × Node))
deriving Repr, Inhabited

def Node.tag : Node → Tag
  | .scalar t _ | .sequence t _ | .mapping t _ => t

/-- The empty node. -/
def Node.empty : Node := .scalar .null ""

/-- What is known while nodes are read: the tokens to come, what handles of tags stand for, and the nodes
with anchors. -/
structure NodeReader where
  tokens : List Token
  handles : List (String × String) := [("!", "!"), ("!!", Tag.standard)]
  anchors : List (String × Node) := []
deriving Repr, Inhabited

/-- Steps that read nodes. -/
abbrev ReadNode := StateT NodeReader (Except Fault)

/-- What stands before a node: an anchor and the full name of a tag, if any. -/
structure Properties where
  anchor : Option String := none
  tag : Option String := none
deriving Repr, Inhabited

namespace ReadNode

def peek : ReadNode (Option Token) := do return (← get).tokens.head?

def pass : ReadNode Unit := modify fun r => { r with tokens := r.tokens.tail }

/-- Passes over a token if it comes next. -/
def accept (t : Token) : ReadNode Bool := do
  if (← peek) == some t then
    pass
    return true
  else return false

/-- One of the tokens comes next. -/
def comes (ts : List Token) : ReadNode Bool := do
  match ← peek with
  | some t => return ts.contains t
  | none => return false

def tagName (handle : Option String) (rest : String) : ReadNode String := do
  match handle with
  | none => return rest
  | some h =>
    match (← get).handles.lookup h with
    | some start => return start ++ rest
    | none => throw .malformed

/-- An anchor, if one comes next. -/
def anchor? : ReadNode (Option String) := do
  match ← peek with
  | some (.anchor name) =>
    pass
    return some name
  | _ => return none

/-- A tag, if one comes next. -/
def tag? : ReadNode (Option String) := do
  match ← peek with
  | some (.tag handle rest) =>
    pass
    return some (← tagName handle rest)
  | _ => return none

/-- An anchor and a tag in either order; no anchor may be given twice. -/
def properties : ReadNode Properties := do
  let first ← anchor?
  let tag ← tag?
  let anchor ← if first.isNone then anchor? else pure first
  match anchor with
  | some a => if ((← get).anchors.lookup a).isSome then throw .malformed
  | none => pure ()
  return ⟨anchor, tag⟩

/-- Names a node by the anchor before it. -/
def keep (p : Properties) (n : Node) : ReadNode Node := do
  match p.anchor with
  | some a => modify fun r => { r with anchors := (a, n) :: r.anchors }
  | none => pure ()
  return n

def partsTag (p : Properties) (untagged : Tag) : Tag :=
  match p.tag with
  | none => untagged
  | some t => if t == "!" then untagged else .ofName t

/-- The tag of a scalar: one without a tag is a text unless it is plain. -/
def scalarTag (p : Properties) (text : String) (plain : Bool) : Tag :=
  match p.tag with
  | none => if plain then .ofPlain text.toList else .text
  | some t => if t == "!" then .ofPlain text.toList else .ofName t

/-- A node of which there is nothing but an anchor or a tag. -/
def bare (p : Properties) : ReadNode Node := do
  if p.anchor.isNone && p.tag.isNone then throw .malformed
  keep p (.scalar (scalarTag p "" true) "")

/-- The comma between two items. -/
def separator : ReadNode Unit := do
  if !(← accept .comma) then throw .malformed

mutual

/-- A node; `block` tells that it may be laid out as a block, and `flush` that its items may start in the
column of the block around it. -/
def node : Nat → (block flush : Bool) → ReadNode Node
  | 0, _, _ => throw .malformed
  | fuel + 1, block, flush => do
    match ← peek with
    | some (.reference name) =>
      pass
      match (← get).anchors.lookup name with
      | some n => return n
      | none => throw .malformed
    | _ =>
      let p ← properties
      let listTag := partsTag p .sequence
      let mapTag := partsTag p .mapping
      match ← peek with
      | some (.scalar text plain) =>
        pass
        keep p (.scalar (scalarTag p text plain) text)
      | some .flowSequence =>
        pass
        let _ ← keep p (.sequence listTag [])
        keep p (.sequence listTag (← flowItems fuel true))
      | some .flowMapping =>
        pass
        let _ ← keep p (.mapping mapTag [])
        keep p (.mapping mapTag (← flowEntries fuel true))
      | some .dash =>
        if flush then
          let _ ← keep p (.sequence listTag [])
          keep p (.sequence listTag (← flushItems fuel))
        else bare p
      | some .blockSequence =>
        if block then
          pass
          let _ ← keep p (.sequence listTag [])
          keep p (.sequence listTag (← blockItems fuel))
        else bare p
      | some .blockMapping =>
        if block then
          pass
          let _ ← keep p (.mapping mapTag [])
          keep p (.mapping mapTag (← blockEntries fuel))
        else bare p
      | _ => bare p

/-- A node, or the empty node before one of the tokens. -/
def nodeUnless : Nat → List Token → (block flush : Bool) → ReadNode Node
  | 0, _, _, _ => throw .malformed
  | fuel + 1, stops, block, flush => do
    if ← comes stops then return .empty else node fuel block flush

/-- The value of an entry, which may be missing. -/
def valueUnless : Nat → List Token → (block : Bool) → ReadNode Node
  | 0, _, _ => throw .malformed
  | fuel + 1, stops, block => do
    if ← accept .value then nodeUnless fuel stops block block else return .empty

def blockItems : Nat → ReadNode (List Node)
  | 0 => throw .malformed
  | fuel + 1 => do
    if ← accept .dash then
      let n ← nodeUnless fuel [.dash, .blockEnd] true false
      return n :: (← blockItems fuel)
    else if ← accept .blockEnd then return []
    else throw .malformed

def flushItems : Nat → ReadNode (List Node)
  | 0 => throw .malformed
  | fuel + 1 => do
    if ← accept .dash then
      let n ← nodeUnless fuel [.dash, .key, .value, .blockEnd] true false
      return n :: (← flushItems fuel)
    else return []

def blockEntries : Nat → ReadNode (List (Node × Node))
  | 0 => throw .malformed
  | fuel + 1 => do
    if ← accept .key then
      let k ← nodeUnless fuel [.key, .value, .blockEnd] true true
      let v ← valueUnless fuel [.key, .value, .blockEnd] true
      return (k, v) :: (← blockEntries fuel)
    else if ← accept .blockEnd then return []
    else throw .malformed

/-- The items of a sequence up to its closing bracket; each but the first comes after a comma, and a key
makes a mapping of one entry. -/
def flowItems : Nat → Bool → ReadNode (List Node)
  | 0, _ => throw .malformed
  | fuel + 1, first => do
    if ← accept .flowSequenceEnd then return []
    if !first then separator
    if ← accept .key then
      let k ← nodeUnless fuel [.value, .comma, .flowSequenceEnd] false false
      let v ← valueUnless fuel [.comma, .flowSequenceEnd] false
      return .mapping .mapping [(k, v)] :: (← flowItems fuel false)
    else if ← accept .flowSequenceEnd then return []
    else
      let n ← node fuel false false
      return n :: (← flowItems fuel false)

/-- The entries of a mapping up to its closing bracket; each but the first comes after a comma, and a
node without a colon has the empty value. -/
def flowEntries : Nat → Bool → ReadNode (List (Node × Node))
  | 0, _ => throw .malformed
  | fuel + 1, first => do
    if ← accept .flowMappingEnd then return []
    if !first then separator
    if ← accept .key then
      let k ← nodeUnless fuel [.value, .comma, .flowMappingEnd] false false
      let v ← valueUnless fuel [.comma, .flowMappingEnd] false
      return (k, v) :: (← flowEntries fuel false)
    else if ← accept .flowMappingEnd then return []
    else
      let n ← node fuel false false
      return (n, .empty) :: (← flowEntries fuel false)

end

/-- Directions before a document: at most one version, whose major number is one, and each handle at most
once. `given` holds the handles met so far. -/
def directives (versioned : Bool) (given : List (String × String)) : Nat → ReadNode Unit
  | 0 => throw .malformed
  | fuel + 1 => do
    match ← peek with
    | some (.directive d) =>
      pass
      match d with
      | .version major =>
        if versioned || major != 1 then throw .malformed
        directives true given fuel
      | .handle name expansion =>
        if (given.lookup name).isSome then throw .malformed
        directives versioned ((name, expansion) :: given) fuel
      | .other => directives versioned given fuel
    | _ => modify fun r => { r with handles := given ++ r.handles }

/-- A document with its bounds, and nothing after it. -/
def document (room : Nat) : ReadNode Node := do
  let start ← peek
  let n ← match start with
    | none => pure Node.empty
    | some (.directive _) | some .documentStart =>
      directives false [] room
      if !(← accept .documentStart) then throw .malformed
      match ← peek with
      | none | some (.directive _) | some .documentStart | some .documentEnd => pure Node.empty
      | _ => node room true false
    | _ => node room true false
  let rest := (← get).tokens.dropWhile (· == .documentEnd)
  if rest.isEmpty then return n else throw .malformed

end ReadNode

/-- Reads a text of one document. -/
def Node.parse (s : List Char) : Except Fault Node := do
  if !s.all isPrintable then .error .malformed
  else
    let ts ← tokens s
    (ReadNode.document (3 * ts.length + 4)).run' { tokens := ts }

end CadenceUplift.Yaml
