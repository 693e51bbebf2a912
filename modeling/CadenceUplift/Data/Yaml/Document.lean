import CadenceUplift.Data.Yaml.Meaning
import CadenceUplift.Data.Yaml.Node

namespace CadenceUplift.Yaml

namespace Node

/-- The text of a node that is to be a scalar: its own, or that of the entry which stands for its whole
mapping. -/
def scalarText : Node → Except Fault (List Char)
  | .scalar _ s => .ok s.toList
  | .sequence .. => .error .malformed
  | .mapping _ entries => defaultText entries
where
  defaultText : List (Node × Node) → Except Fault (List Char)
    | [] => .error .malformed
    | (k, v) :: rest => if k.tag == .default then scalarText v else defaultText rest

def hasParts (n : Node) : Bool :=
  [Tag.sequence, .mapping, .set, .orderedMap, .pairs].contains n.tag

def atom (n : Node) : Except Fault Value :=
  match n.tag with
  | .time =>
    match n with
    | .scalar _ s => timeOf s.toList
    | _ => .error .malformed
  | .unknown | .merge | .default => .error .malformed
  | tag => do tag.meaning (← n.scalarText)

def items : Node → Except Fault (List Node)
  | .sequence _ items => .ok items
  | _ => .error .malformed

/-- A key that stands for its whole mapping is a text where that is not asked for. -/
def plainKey : Node → Node
  | .scalar .default s => .scalar .text s
  | n => n

mutual

/-- The entries of a mapping, those merged into it first. -/
def entries : Node → Except Fault (List (Node × Node))
  | .mapping _ es => do
    let (merged, own) ← mergedEntries es
    return merged ++ own
  | _ => .error .malformed

/-- The entries that some entries merge, and those that they make themselves. -/
def mergedEntries : List (Node × Node) → Except Fault (List (Node × Node) × List (Node × Node))
  | [] => .ok ([], [])
  | (k, v) :: rest =>
    if k.tag == .merge then do
      let here ← mergeSource v
      let (merged, own) ← mergedEntries rest
      return (here ++ merged, own)
    else do
      let (merged, own) ← mergedEntries rest
      return (merged, (k.plainKey, v) :: own)

/-- The entries that the value of a merge brings in: those of one mapping, or of several, of which the
first counts most. -/
def mergeSource : Node → Except Fault (List (Node × Node))
  | .mapping t es => entries (.mapping t es)
  | .sequence _ ns => mergeAll ns
  | .scalar .. => .error .malformed

/-- The entries of several mappings, last mapping first. -/
def mergeAll : List Node → Except Fault (List (Node × Node))
  | [] => .ok []
  | .mapping t es :: rest => do
    let here ← entries (.mapping t es)
    return (← mergeAll rest) ++ here
  | _ :: _ => .error .malformed

end

/-- The one entry of a mapping. -/
def onlyEntry : Node → Except Fault (Node × Node)
  | .mapping _ [e] => .ok e
  | _ => .error .malformed

/-- A node without parts stands for something; nodes with parts are looked into later. -/
def check (n : Node) : Except Fault Unit :=
  if n.hasParts then .ok () else n.atom.map fun _ => ()

/-- Checks the entries of a mapping: a key must not have parts. -/
def checkEntries : List (Node × Node) → Except Fault Unit
  | [] => .ok ()
  | (k, v) :: rest => do
    k.check
    if k.hasParts then .error .malformed
    v.check
    checkEntries rest

/-- The nodes right inside a node with parts, after checks of all of them. -/
def inside (n : Node) : Except Fault (List Node) :=
  match n.tag with
  | .sequence => do
    let ns ← n.items
    ns.forM check
    return ns
  | .mapping | .set => do
    let es ← n.entries
    checkEntries es
    return es.flatMap fun e => [e.1, e.2]
  | _ => do
    let es ← (← n.items).mapM fun i => do
      let e ← i.onlyEntry
      e.1.check
      e.2.check
      return e
    return es.flatMap fun e => [e.1, e.2]

/-- Checks nodes with parts level by level; `fuel` bounds the depth. -/
def checkLevels : Nat → List Node → Except Fault Unit
  | 0, _ => .ok ()
  | fuel + 1, level => do
    let next ← (level.filter hasParts).mapM inside
    match next.flatten with
    | [] => return ()
    | ns => checkLevels fuel ns

/-- What a node stands for; `fuel` bounds the depth. -/
def value : Nat → Node → Except Fault Value
  | 0, _ => .error .malformed
  | fuel + 1, n => do
    let pairs (es : List (Node × Node)) : Except Fault (List (Value × Value)) :=
      es.mapM fun e => do return (← value fuel e.1, ← value fuel e.2)
    match n.tag with
    | .sequence => return .list (← (← n.items).mapM (value fuel))
    | .mapping => return .ofEntries (← pairs (← n.entries))
    | .set =>
      match Value.ofEntries (← pairs (← n.entries)) with
      | .object es => return .set (es.map (·.1))
      | _ => return .set []
    | .orderedMap | .pairs =>
      let es ← pairs (← (← n.items).mapM onlyEntry)
      return .list (es.map fun e => .tuple [e.1, e.2])
    | _ => n.atom

end Node

/-- Reads a text of one document; an empty text is null. -/
def parse (s : List Char) : Except Fault Value := do
  let n ← Node.parse s
  let room := s.length + 2
  n.check
  Node.checkLevels room [n]
  n.value room

end CadenceUplift.Yaml
