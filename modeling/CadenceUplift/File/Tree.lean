import CadenceUplift.File.Path

namespace CadenceUplift

/-- An entry of a directory. -/
inductive Node where
  | file (content : List UInt8)
  | link (target : String)
  | dir (entries : List (String × Node))
deriving Repr, Inhabited

namespace Node

/-- Sets an entry, keeping the order of names. -/
def setEntry (name : String) (n : Node) : List (String × Node) → List (String × Node)
  | [] => [(name, n)]
  | e :: rest =>
    if e.1 = name then (name, n) :: rest
    else if name < e.1 then (name, n) :: e :: rest
    else e :: setEntry name n rest

/-- Sets the node at a path of names; directories on the way are made as needed. -/
def setAt (n : Node) : List String → List (String × Node) → List (String × Node)
  | [], entries => entries
  | [name], entries => setEntry name n entries
  | name :: rest, entries =>
    let inner := match entries.lookup name with
      | some (.dir es) => es
      | _ => []
    setEntry name (.dir (setAt n rest inner)) entries

mutual

/-- Every directory at a node lists its entries by name. -/
def Ordered : Node → Prop
  | .file _ => True
  | .link _ => True
  | .dir entries => EntriesOrdered entries

/-- Entries stand in ascending order of names, each name once, and so do those inside them. -/
def EntriesOrdered : List (String × Node) → Prop
  | [] => True
  | (name, n) :: rest => Ordered n ∧ (∀ e ∈ rest, name < e.1) ∧ EntriesOrdered rest

end

mutual

/-- Whether the directories at a node are in order. -/
def decideOrdered : (n : Node) → Decidable n.Ordered
  | .file _ => .isTrue trivial
  | .link _ => .isTrue trivial
  | .dir entries => decideEntriesOrdered entries

/-- Whether entries are in order. -/
def decideEntriesOrdered : (entries : List (String × Node)) → Decidable (EntriesOrdered entries)
  | [] => .isTrue trivial
  | (name, n) :: rest =>
    have := decideOrdered n
    have := decideEntriesOrdered rest
    inferInstanceAs (Decidable (n.Ordered ∧ (∀ e ∈ rest, name < e.1) ∧ EntriesOrdered rest))

end

instance (entries : List (String × Node)) : Decidable (EntriesOrdered entries) := decideEntriesOrdered entries

section Order

variable {entries : List (String × Node)} {name : String} {n : Node}

theorem EntriesOrdered.of_mem (h : EntriesOrdered entries) (hn : (name, n) ∈ entries) : n.Ordered := by
  induction entries with
  | nil => cases hn
  | cons e rest ih =>
    obtain ⟨hfirst, _, hrest⟩ := h
    rcases List.mem_cons.mp hn with rfl | hn
    · exact hfirst
    · exact ih hrest hn

theorem mem_of_lookup (h : entries.lookup name = some n) : (name, n) ∈ entries := by
  obtain ⟨before, after, rfl, _⟩ := List.lookup_eq_some_iff.mp h
  simp

theorem mem_setEntry {e : String × Node} (h : e ∈ setEntry name n entries) : e = (name, n) ∨ e ∈ entries := by
  fun_induction setEntry name n entries with
  | case1 => exact .inl (List.mem_singleton.mp h)
  | case2 e' rest hname =>
    rcases List.mem_cons.mp h with h | h
    · exact .inl h
    · exact .inr (List.mem_cons_of_mem _ h)
  | case3 e' rest hname hlt => exact List.mem_cons.mp h
  | case4 e' rest hname hlt ih =>
    rcases List.mem_cons.mp h with rfl | h
    · exact .inr List.mem_cons_self
    · exact (ih h).imp_right (List.mem_cons_of_mem _)

theorem EntriesOrdered.setEntry (h : EntriesOrdered entries) (hn : n.Ordered) :
    EntriesOrdered (setEntry name n entries) := by
  fun_induction Node.setEntry name n entries with
  | case1 => exact ⟨hn, by simp, trivial⟩
  | case2 e rest hname =>
    obtain ⟨_, hbehind, hrest⟩ := h
    exact ⟨hn, hname ▸ hbehind, hrest⟩
  | case3 e rest hname hlt =>
    have hbehind := h.2.1
    refine ⟨hn, ?_, h⟩
    intro e' he'
    rcases List.mem_cons.mp he' with rfl | he'
    · exact hlt
    · exact String.lt_trans hlt (hbehind e' he')
  | case4 e rest hname hlt ih =>
    obtain ⟨hfirst, hbehind, hrest⟩ := h
    refine ⟨hfirst, ?_, ih hrest⟩
    intro e' he'
    rcases mem_setEntry he' with rfl | he'
    · exact Decidable.not_not.mp fun hle => hname (String.le_antisymm (String.not_lt.mp hlt) (String.not_lt.mp hle))
    · exact hbehind e' he'

/-- Writing keeps the order. -/
theorem EntriesOrdered.setAt {path : List String} (h : EntriesOrdered entries) (hn : n.Ordered) :
    EntriesOrdered (setAt n path entries) := by
  fun_induction Node.setAt n path entries with
  | case1 => exact h
  | case2 entries name => exact h.setEntry hn
  | case3 entries name rest hrest inner ih =>
    refine h.setEntry (ih ?_)
    unfold inner
    split
    next es hes => exact h.of_mem (mem_of_lookup hes)
    next => trivial

end Order

mutual

/-- The files among the entries of a directory, each with its path; links are left out. -/
def filesOf (above : List String) : List (String × Node) → List (String × List UInt8)
  | [] => []
  | (name, n) :: rest => filesAt (above ++ [name]) n ++ filesOf above rest

def filesAt (path : List String) : Node → List (String × List UInt8)
  | .file content => [("/".intercalate path, content)]
  | .link _ => []
  | .dir entries => filesOf path entries

end

def entriesAt? : List String → List (String × Node) → Option (List (String × Node))
  | [], entries => some entries
  | name :: rest, entries =>
    match entries.lookup name with
    | some (.dir es) => entriesAt? rest es
    | _ => none

end Node

/-- A tree: the entries of its top directory, and the path of the working directory from there. -/
structure FileTree where
  entries : List (String × Node) := []
  cwd : List String := []
  ordered : Node.EntriesOrdered entries := by decide
deriving Repr

instance : Inhabited FileTree := ⟨{}⟩

/-- What a path leads to. -/
inductive Located where
  /-- A file or a directory, and its path without links. -/
  | found (real : List String) (node : Node)
  /-- Nothing, but its directory exists: the path it would have. -/
  | absent (real : List String)
  | noParent
  | notDirectory
  | tooManyLinks
  | nameTooLong
  /-- The text is no path at all. -/
  | notPath
deriving Repr, Inhabited

def maxLinks : Nat := 40

def maxNameSize : Nat := 255

def maxPathSize : Nat := 4095

namespace FileTree

/-- The steps that a path text asks for; a dot asks for a directory, and so does a slash at the end. -/
def steps (path : String) : List String :=
  (Path.pieces path).filter (· != "") ++ if path.endsWith "/" then ["."] else []

/-- The directory that a path text starts from, by its real path. -/
def origin (path : String) (here : List String) : List String := if path.startsWith "/" then [] else here

/-- Follows steps from a directory given by its real path; `onLink` goes on when the next step is a link,
with the directory that the link's target starts from and the steps from there. -/
def walk (t : FileTree) (onLink : List String → List String → Located) (real : List String) :
    List String → Located
  | [] =>
    match Node.entriesAt? real t.entries with
    | none => .notDirectory
    | some entries => .found real (.dir entries)
  | name :: rest =>
    match Node.entriesAt? real t.entries with
    | none => .notDirectory
    | some entries =>
      if name = "." then walk t onLink real rest
      else if name = ".." then walk t onLink real.dropLast rest
      else if maxNameSize < name.utf8ByteSize then .nameTooLong
      else
        match entries.lookup name with
        | none => if rest.isEmpty then .absent (real ++ [name]) else .noParent
        | some (.file content) =>
          if rest.isEmpty then .found (real ++ [name]) (.file content) else .notDirectory
        | some (.dir _) => walk t onLink (real ++ [name]) rest
        | some (.link target) => onLink (origin target real) (steps target ++ rest)

/-- Follows steps from a directory, through as many links as are allowed. -/
def follow (t : FileTree) : Nat → List String → List String → Located
  | 0 => t.walk fun _ _ => .tooManyLinks
  | links + 1 => t.walk (follow t links)

/-- The text can be a path at all. -/
def isPathText (path : String) : Bool := !(path.toList.contains (Char.ofNat 0))

/-- What a path text leads to; the empty text leads nowhere. -/
def locate (t : FileTree) (path : String) : Located :=
  if path.isEmpty then .noParent
  else if !isPathText path then .notPath
  else if maxPathSize < path.utf8ByteSize then .nameTooLong
  else t.follow maxLinks (origin path t.cwd) (steps path)

def locatePath (t : FileTree) (p : Path) : Located := t.locate p.text

def isDirectory (t : FileTree) (p : Path) : Bool :=
  match t.locatePath p with
  | .found _ (.dir _) => true
  | _ => false

theorem isDirectory_iff {t : FileTree} {p : Path} :
    t.isDirectory p = true ↔ ∃ real entries, t.locatePath p = .found real (.dir entries) := by
  rw [isDirectory]
  split
  next real entries hfound => simp [hfound]
  next hother => simpa using hother

def isFile (t : FileTree) (p : Path) : Bool :=
  match t.locatePath p with
  | .found _ (.file _) => true
  | _ => false

def setNode (t : FileTree) (real : List String) (n : Node) (hn : n.Ordered := by trivial) : FileTree :=
  { t with entries := Node.setAt n real t.entries, ordered := t.ordered.setAt hn }

def put (t : FileTree) (path : String) (n : Node) (hn : n.Ordered := by trivial) : FileTree :=
  t.setNode (t.cwd ++ (Path.ofString path).parts) n hn

/-- The files under the working directory, each with its path from there. -/
def files (t : FileTree) : List (String × List UInt8) :=
  match Node.entriesAt? t.cwd t.entries with
  | some entries => Node.filesOf [] entries
  | none => []

/-- The files of a later tree that are new or have new content. -/
def changedFiles (old new : FileTree) : List (String × List UInt8) :=
  let before := old.files
  new.files.filter fun f => before.lookup f.1 != some f.2

end FileTree

end CadenceUplift
