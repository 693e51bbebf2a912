import CadenceUplift.Scan.Plan
import CadenceUplift.Proofs.File.Order
import Mathlib.Data.List.Lex

namespace CadenceUplift

open Node (At EntriesOrdered at_cons_iff not_at_nil)

/-- No directory on the way to an entry, the root left out, has an excluded fragment in its name. -/
def Open (excluded path : List String) : Prop :=
  ∀ dir ∈ path.dropLast, ∀ fragment ∈ excluded, ¬fragment.toList <:+: dir.toList

theorem open_cons {excluded path : List String} {name : String} (hne : path ≠ []) :
    Open excluded (name :: path) ↔ hasFragment name excluded = false ∧ Open excluded path := by
  rw [Open, List.dropLast_cons_of_ne_nil hne, List.forall_mem_cons, hasFragment_eq_false_iff, Open]

section Walk

variable (excluded : List String)

mutual

/-- A walk through a directory meets what stands at open paths. -/
theorem mem_metAmong (relative : List String) : (entries : List (String × Node)) → ∀ {p : List String} {m : Node},
    (p, m) ∈ ScanPlan.metAmong excluded relative entries ↔
      ∃ path, p = relative ++ path ∧ At entries path m ∧ Open excluded path
  | [], p, m => by simp [ScanPlan.metAmong, not_at_nil]
  | (name, n) :: rest, p, m => by
    rw [ScanPlan.metAmong, List.mem_append, mem_metAt (relative ++ [name]) name n, mem_metAmong relative rest]
    constructor
    · rintro ((⟨rfl, rfl⟩ | ⟨inner, path, rfl, hname, rfl, hat, hopen⟩) | ⟨path, rfl, hat, hopen⟩)
      · exact ⟨[name], rfl, at_cons_iff.mpr (.inl ⟨rfl, rfl⟩), by simp [Open]⟩
      · refine ⟨name :: path, by simp, at_cons_iff.mpr (.inr (.inl ⟨inner, path, rfl, rfl, hat⟩)), ?_⟩
        exact (open_cons hat.ne_nil).mpr ⟨hname, hopen⟩
      · exact ⟨path, rfl, at_cons_iff.mpr (.inr (.inr hat)), hopen⟩
    · rintro ⟨path, rfl, hat, hopen⟩
      rcases at_cons_iff.mp hat with ⟨rfl, rfl⟩ | ⟨inner, tail, rfl, rfl, hin⟩ | hbehind
      · exact .inl (.inl ⟨rfl, rfl⟩)
      · obtain ⟨hname, hopen⟩ := (open_cons hin.ne_nil).mp hopen
        exact .inl (.inr ⟨inner, tail, rfl, hname, by simp, hin, hopen⟩)
      · exact .inr ⟨path, rfl, hbehind, hopen⟩

theorem mem_metAt (relative : List String) (name : String) : (n : Node) → ∀ {p : List String} {m : Node},
    (p, m) ∈ ScanPlan.metAt excluded relative name n ↔
      p = relative ∧ m = n ∨
        ∃ inner path, n = .dir inner ∧ hasFragment name excluded = false ∧ p = relative ++ path ∧ At inner path m ∧
          Open excluded path
  | .file content, p, m => by simp [ScanPlan.metAt]
  | .link target, p, m => by simp [ScanPlan.metAt]
  | .dir entries, p, m => by
    rw [ScanPlan.metAt, List.mem_cons, Prod.mk.injEq]
    refine or_congr Iff.rfl ?_
    cases hname : hasFragment name excluded with
    | true => simp
    | false =>
      rw [if_neg Bool.false_ne_true, mem_metAmong relative entries]
      simp

end

mutual

/-- A walk through ordered directories meets its entries in the order of their paths: by name in a directory, and a
directory before what is in it. -/
theorem pairwise_metAmong (relative : List String) : (entries : List (String × Node)) → EntriesOrdered entries →
    (ScanPlan.metAmong excluded relative entries).Pairwise fun a b => a.1 < b.1
  | [], _ => by simp [ScanPlan.metAmong]
  | (name, n) :: rest, h => by
    obtain ⟨hn, hbehind, hrest⟩ := h
    rw [ScanPlan.metAmong, List.pairwise_append]
    refine ⟨pairwise_metAt (relative ++ [name]) name n hn, pairwise_metAmong relative rest hrest, ?_⟩
    rintro ⟨p, m⟩ hp ⟨q, m'⟩ hq
    obtain ⟨path, rfl, hat, _⟩ := (mem_metAmong excluded relative rest).mp hq
    obtain ⟨e, he, tail, rfl⟩ := hat.exists_name
    have hlater : ∀ within, relative ++ [name] ++ within < relative ++ e.1 :: tail := by
      intro within
      rw [List.append_assoc]
      exact List.Lex.append_left _ (List.Lex.rel (hbehind e he)) relative
    rcases (mem_metAt excluded (relative ++ [name]) name n).mp hp with ⟨rfl, rfl⟩ | ⟨_, within, _, _, rfl, _⟩
    · simpa using hlater []
    · exact hlater within

theorem pairwise_metAt (relative : List String) (name : String) : (n : Node) → n.Ordered →
    (ScanPlan.metAt excluded relative name n).Pairwise fun a b => a.1 < b.1
  | .file content, _ => by simp [ScanPlan.metAt]
  | .link target, _ => by simp [ScanPlan.metAt]
  | .dir entries, h => by
    rw [ScanPlan.metAt, List.pairwise_cons]
    split
    · simp
    · refine ⟨?_, pairwise_metAmong relative entries h⟩
      rintro ⟨p, m⟩ hp
      obtain ⟨path, rfl, hat, _⟩ := (mem_metAmong excluded relative entries).mp hp
      obtain ⟨e, _, tail, rfl⟩ := hat.exists_name
      have hbelow : relative ++ [] < relative ++ e.1 :: tail := List.Lex.append_left _ List.Lex.nil relative
      rwa [List.append_nil] at hbelow

end

end Walk

section Order

variable {l : List (List String × Node)}

/-- Of what is met in the order of paths, the first that fails is the one with the least path. -/
theorem findSome?_eq_some_iff_of_pairwise (h : l.Pairwise fun a b => a.1 < b.1)
    {fault? : List String × Node → Option FileError} {e : FileError} :
    l.findSome? fault? = some e ↔ ∃ a ∈ l, fault? a = some e ∧ ∀ b ∈ l, b.1 < a.1 → fault? b = none := by
  rw [List.findSome?_eq_some_iff]
  constructor
  · rintro ⟨before, a, behind, rfl, ha, hbefore⟩
    refine ⟨a, by simp, ha, ?_⟩
    intro b hb hlt
    obtain ⟨_, hbehind, _⟩ := List.pairwise_append.mp h
    rcases List.mem_append.mp hb with hb | hb
    · exact hbefore b hb
    · rcases List.mem_cons.mp hb with rfl | hb
      · exact absurd hlt (lt_irrefl _)
      · exact absurd hlt (lt_asymm ((List.pairwise_cons.mp hbehind).1 b hb))
  · rintro ⟨a, hmem, ha, hleast⟩
    obtain ⟨before, behind, rfl⟩ := List.append_of_mem hmem
    refine ⟨before, a, behind, rfl, ha, ?_⟩
    intro b hb
    exact hleast b (List.mem_append_left _ hb) ((List.pairwise_append.mp h).2.2 b hb a List.mem_cons_self)

end Order

namespace ScanPlan

/-- A walk from a directory with these entries comes to what stands at a path. -/
def Meets (sc : ScanPlan) (entries : List (String × Node)) (path : List String) (n : Node) : Prop :=
  At entries path n ∧ Open sc.excludeDirs path

/-- The entry at a path from the scanned root is a file, or a link to one, that a walk comes to, with one of the suffixes
and without an excluded fragment in its path. -/
structure Selects (sc : ScanPlan) (t : FileTree) (root : Path) (entries : List (String × Node))
    (path : List String) : Prop where
  file : ∃ n, sc.Meets entries path n ∧
    ((∃ content, n = .file content) ∨ (∃ target, n = .link target) ∧ t.isFile (entryPath root path) = true)
  suffix : Path.suffixOf (path.getLastD "") ∈ sc.extensions
  path : ∀ fragment ∈ sc.excludePaths, ¬fragment.toList <:+: ("/".intercalate path).toList

section Outcome

variable {sc : ScanPlan} {t : FileTree} {root : Path}

theorem walk_eq_ok (h : sc.fault? t root = none) : sc.walk t root = .ok (sc.collect t root) := by
  rw [walk, h]

theorem walk_eq_error_iff {e : FileError} : sc.walk t root = .error e ↔ sc.fault? t root = some e := by
  rw [walk]
  cases sc.fault? t root <;> simp

end Outcome

section Selection

variable {sc : ScanPlan} {t : FileTree} {root : Path} {real : List String} {entries : List (String × Node)}

theorem met_eq (h : t.locatePath root = .found real (.dir entries)) :
    sc.met t root = metAmong sc.excludeDirs [] entries := by
  rw [met, h]

theorem mem_met (h : t.locatePath root = .found real (.dir entries)) {path : List String} {n : Node} :
    (path, n) ∈ sc.met t root ↔ sc.Meets entries path n := by
  rw [met_eq h, mem_metAmong]
  simp [Meets]

theorem wants_iff {path : List String} : sc.wants path = true ↔ Path.suffixOf (path.getLastD "") ∈ sc.extensions ∧
    ∀ fragment ∈ sc.excludePaths, ¬fragment.toList <:+: ("/".intercalate path).toList := by
  rw [wants, Bool.and_eq_true, List.contains_iff_mem, Bool.not_eq_true', hasFragment_eq_false_iff]

theorem picks_iff {path : List String} {n : Node} : sc.picks t root path n = true ↔
    ((∃ content, n = .file content) ∨ (∃ target, n = .link target) ∧ t.isFile (entryPath root path) = true) ∧
      sc.wants path = true := by
  cases n <;> simp [picks]

theorem mem_collect (h : t.locatePath root = .found real (.dir entries)) {path : List String} :
    path ∈ sc.collect t root ↔ sc.Selects t root entries path := by
  rw [collect, List.mem_map]
  constructor
  · rintro ⟨⟨path, n⟩, hpath, rfl⟩
    obtain ⟨hmet, hpicks⟩ := List.mem_filter.mp hpath
    obtain ⟨hfile, hwants⟩ := picks_iff.mp hpicks
    obtain ⟨hsuffix, hfree⟩ := wants_iff.mp hwants
    exact ⟨⟨n, (mem_met h).mp hmet, hfile⟩, hsuffix, hfree⟩
  · rintro ⟨⟨n, hmeets, hfile⟩, hsuffix, hfree⟩
    have hpicks := picks_iff.mpr ⟨hfile, wants_iff.mpr ⟨hsuffix, hfree⟩⟩
    exact ⟨(path, n), List.mem_filter.mpr ⟨(mem_met h).mpr hmeets, hpicks⟩, rfl⟩

end Selection

end ScanPlan

/-- A walk from a directory gives the files to be read, each once, in the order of their paths, unless an entry that it
meets cannot be looked up. Then it breaks off, with the error of the first such entry. -/
theorem walk_exact (sc : ScanPlan) {t : FileTree} {root : Path} (hroot : t.isDirectory root = true) :
    ∃ real entries, t.locatePath root = .found real (.dir entries) ∧
      ((∀ path n, sc.Meets entries path n → t.lookUpFault? (ScanPlan.entryPath root path) = none) →
        ∃ files, sc.walk t root = .ok files ∧ files.Pairwise (· < ·) ∧
          ∀ path, path ∈ files ↔ sc.Selects t root entries path) ∧
      ∀ e, sc.walk t root = .error e ↔
        ∃ path n, sc.Meets entries path n ∧ t.lookUpFault? (ScanPlan.entryPath root path) = some e ∧
          ∀ earlier m, sc.Meets entries earlier m → earlier < path →
            t.lookUpFault? (ScanPlan.entryPath root earlier) = none := by
  obtain ⟨real, entries, hfound⟩ := FileTree.isDirectory_iff.mp hroot
  have hsorted : (sc.met t root).Pairwise fun a b => a.1 < b.1 :=
    ScanPlan.met_eq hfound ▸ pairwise_metAmong sc.excludeDirs [] entries (FileTree.entriesOrdered_of_locatePath hfound)
  have hmet {path : List String} {n : Node} : (path, n) ∈ sc.met t root ↔ sc.Meets entries path n :=
    ScanPlan.mem_met hfound
  refine ⟨real, entries, hfound, ?_, ?_⟩
  · intro hlook
    have hfault : sc.fault? t root = none := by
      refine List.findSome?_eq_none_iff.mpr ?_
      rintro ⟨path, n⟩ hpath
      exact hlook path n (hmet.mp hpath)
    refine ⟨sc.collect t root, ScanPlan.walk_eq_ok hfault, ?_, fun path => ScanPlan.mem_collect hfound⟩
    exact List.pairwise_map.mpr (hsorted.sublist List.filter_sublist)
  · intro e
    rw [ScanPlan.walk_eq_error_iff, ScanPlan.fault?, findSome?_eq_some_iff_of_pairwise hsorted]
    constructor
    · rintro ⟨⟨path, n⟩, hpath, he, hleast⟩
      exact ⟨path, n, hmet.mp hpath, he, fun earlier m hearlier hlt => hleast (earlier, m) (hmet.mpr hearlier) hlt⟩
    · rintro ⟨path, n, hpath, he, hleast⟩
      exact ⟨(path, n), hmet.mpr hpath, he, fun b hb hlt => hleast b.1 b.2 (hmet.mp hb) hlt⟩

/-- Two links that lead to each other, a link to a file, one to a directory, and a directory that is not entered. -/
def linkedTree : FileTree :=
  { entries := [("a.cdc", .link "lib/x.cdc"), ("dist", .dir [("y.cdc", .file [])]), ("left.cdc", .link "right.cdc"),
      ("lib", .dir [("deep", .dir [("z.cdc", .file [])]), ("notes", .file []), ("x.cdc", .file [])]),
      ("more", .link "lib"), ("right.cdc", .link "left.cdc")] }

theorem walk_exact_linked :
    linkedTree.isDirectory (Path.ofString ".") = true ∧
      ∃ files, ({} : ScanPlan).walk linkedTree (Path.ofString ".") = .ok files ∧ files.Pairwise (· < ·) ∧
        files = [["a.cdc"], ["lib", "deep", "z.cdc"], ["lib", "x.cdc"]] := by
  have hroot : linkedTree.isDirectory (Path.ofString ".") = true := by decide +kernel
  have hfault : ({} : ScanPlan).fault? linkedTree (Path.ofString ".") = none := by decide +kernel
  obtain ⟨real, entries, hfound, hok, _⟩ := walk_exact {} hroot
  have hlook : ∀ path n, ({} : ScanPlan).Meets entries path n →
      linkedTree.lookUpFault? (ScanPlan.entryPath (Path.ofString ".") path) = none := by
    intro path n hmeets
    exact List.findSome?_eq_none_iff.mp hfault (path, n) ((ScanPlan.mem_met hfound).mpr hmeets)
  obtain ⟨files, hfiles, hsorted, _⟩ := hok hlook
  refine ⟨hroot, files, hfiles, hsorted, ?_⟩
  have hwalk : ({} : ScanPlan).walk linkedTree (Path.ofString ".") =
      .ok [["a.cdc"], ["lib", "deep", "z.cdc"], ["lib", "x.cdc"]] := by decide +kernel
  exact Except.ok.inj (hfiles.symm.trans hwalk)

/-- A file and a link beside it. -/
def linkBeside (target : String) : FileTree :=
  { entries := [("a.cdc", .file []), ("l.cdc", .link target)]
    ordered := ⟨trivial, List.forall_mem_singleton.mpr (show "a.cdc" < "l.cdc" by decide), trivial, by simp, trivial⟩ }

section LongLink

/-- A text without slashes asks for one step, to the name that it is. -/
theorem steps_ofList {cs : List Char} (hslash : '/' ∉ cs) (hends : (String.ofList cs).endsWith "/" = false)
    (hne : String.ofList cs ≠ "") : FileTree.steps (String.ofList cs) = [String.ofList cs] := by
  have hpieces : cs.splitOn '/' = [cs] :=
    List.splitOnP_eq_singleton fun c hc => by simpa using fun hcs : c = '/' => hslash (hcs ▸ hc)
  rw [FileTree.steps, Path.pieces, String.toList_ofList, hpieces, hends]
  simp [hne]

theorem locate_long_link {target : String} (hsteps : FileTree.steps target = [target])
    (horigin : FileTree.origin target [] = []) (hlong : maxNameSize < target.utf8ByteSize) :
    (linkBeside target).locate "l.cdc" = .nameTooLong := by
  have hself : target ≠ "." := by
    rintro rfl
    exact absurd hlong (by decide)
  have habove : target ≠ ".." := by
    rintro rfl
    exact absurd hlong (by decide)
  have hlink : FileTree.steps "l.cdc" = ["l.cdc"] := by decide +kernel
  have hfrom : FileTree.origin "l.cdc" [] = [] := by decide +kernel
  rw [FileTree.locate, if_neg (by decide), if_neg (by decide), if_neg (by decide), hlink, linkBeside, hfrom]
  change FileTree.follow _ 39 (FileTree.origin target []) (FileTree.steps target ++ []) = _
  rw [horigin, hsteps]
  change (if target = "." then _ else if target = ".." then _ else if maxNameSize < target.utf8ByteSize then _ else _) = _
  rw [if_neg hself, if_neg habove, if_pos hlong]

theorem lookUpFault?_eq_some {t : FileTree} {p : Path} (h : t.locate p.text = .nameTooLong) :
    t.lookUpFault? p = some (.nameTooLong p.text) := by
  rw [FileTree.lookUpFault?, FileTree.locatePath, h]

/-- A walk breaks off at the second of two entries if nothing is wrong with the first. -/
theorem fault?_eq_second {sc : ScanPlan} {t : FileTree} {root : Path} {path path' : List String} {e : FileError}
    (hpaths : (sc.met t root).map (·.1) = [path, path'])
    (hfirst : t.lookUpFault? (ScanPlan.entryPath root path) = none)
    (hsecond : t.lookUpFault? (ScanPlan.entryPath root path') = some e) : sc.fault? t root = some e := by
  have hfault : sc.fault? t root =
      ((sc.met t root).map (·.1)).findSome? fun path => t.lookUpFault? (ScanPlan.entryPath root path) := by
    rw [List.findSome?_map]
    rfl
  rw [hfault, hpaths, List.findSome?_cons, hfirst, List.findSome?_cons, hsecond]

/-- A link to a name that is too long keeps the file beside it from being given. -/
theorem walk_fails_at_long_link :
    let t := linkBeside (String.ofList (List.replicate 256 'n'))
    t.isDirectory (Path.ofString ".") = true ∧
      ({} : ScanPlan).Selects t (Path.ofString ".") t.entries ["a.cdc"] ∧
      ({} : ScanPlan).walk t (Path.ofString ".") = .error (.nameTooLong "l.cdc") := by
  intro t
  have hroot : t.isDirectory (Path.ofString ".") = true := by decide +kernel
  have hfile : ({} : ScanPlan).Meets t.entries ["a.cdc"] (.file []) := ⟨.here List.mem_cons_self, by simp [Open]⟩
  have hlong : t.locate "l.cdc" = .nameTooLong :=
    locate_long_link (steps_ofList (by decide +kernel) (by decide +kernel) (by decide +kernel)) (by decide +kernel)
      (by decide +kernel)
  have htext : (ScanPlan.entryPath (Path.ofString ".") ["l.cdc"]).text = "l.cdc" := by decide +kernel
  have hlink : t.lookUpFault? (ScanPlan.entryPath (Path.ofString ".") ["l.cdc"]) = some (.nameTooLong "l.cdc") := by
    have hfault : t.lookUpFault? (ScanPlan.entryPath (Path.ofString ".") ["l.cdc"]) = some (.nameTooLong _) :=
      lookUpFault?_eq_some (by rw [htext]; exact hlong)
    rwa [htext] at hfault
  have hpaths : (({} : ScanPlan).met t (Path.ofString ".")).map (·.1) = [["a.cdc"], ["l.cdc"]] := by decide +kernel
  have hwalk : ({} : ScanPlan).walk t (Path.ofString ".") = .error (.nameTooLong "l.cdc") :=
    ScanPlan.walk_eq_error_iff.mpr (fault?_eq_second hpaths (by decide +kernel) hlink)
  exact ⟨hroot, ⟨⟨.file [], hfile, .inl ⟨[], rfl⟩⟩, by decide +kernel, by simp⟩, hwalk⟩

end LongLink

end CadenceUplift
