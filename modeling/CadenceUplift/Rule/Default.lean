import CadenceUplift.Rule.Basic

namespace CadenceUplift.Rule

/-- The text of a pattern for a keyword in front of a declaration; `word` is written as a pattern. -/
def keywordSource (word : String) : String :=
  "\\b" ++ word ++ "\\s+(?=(?:" ++ "|".intercalate Legacy.declarationKeywords ++ ")\\b)"

def dottedNameSource : String := "[A-Za-z_][\\w.]*"

/-- The text of a pattern for the head of a declaration with conformances. -/
def headSource : String :=
  "\\b(?:resource|struct|contract)(?:\\s+interface)?\\s+[A-Za-z_]\\w*\\s*:\\s*"

def commaListSource : String :=
  dottedNameSource ++ "(?:\\s*&\\s*" ++ dottedNameSource ++ ")*\\s*,\\s*" ++ dottedNameSource ++
    "(?:\\s*[,&]\\s*" ++ dottedNameSource ++ ")*"

def conformanceSource : String := "(" ++ headSource ++ ")(" ++ commaListSource ++ ")(?=\\s*\\\x7b)"

def storageCallSource (name : String) : String := "\\baccount\\." ++ name ++ "\\b(?=\\s*[<(])"

def getterSource : String :=
  "(\\baccess\\([^)\\n]*\\)[ \\t]+)" ++
    "(fun[ \\t]+(?:get|read|check|is|has|can)(?:[A-Z0-9_]\\w*)?[ \\t]*\\([^)]*\\)[ \\t]*:)"

def make (pattern template description : String) (category : Category) : Rule where
  pattern := .text pattern
  replacement := .template (.text template)
  description := .text description
  category := .text category.name

/-- The rule that moves a flat storage call under `account.storage`. -/
def moveStorageCall (name : String) : Rule :=
  make (storageCallSource name) ("account.storage." ++ name)
    ("Replace account." ++ name ++ "() with account.storage." ++ name ++ "()") .storage

/-- The rules that every rule set starts with. -/
def defaults : List Rule := [
  make (keywordSource "pub\\(set\\)") "access(all) " "Replace pub(set) with access(all)" .accessModifier,
  make (keywordSource "pub") "access(all) " "Replace pub with access(all)" .accessModifier,
  { pattern := .text conformanceSource
    replacement := .function joinConformances
    description := .text "Replace comma-separated interface conformance with &"
    category := .text Category.interface.name },
  moveStorageCall "save",
  moveStorageCall "load",
  moveStorageCall "borrow",
  moveStorageCall "copy",
  make "\\baccount\\.getCapability\\b" "account.capabilities.get"
    "Replace account.getCapability with account.capabilities.get" .storage,
  make getterSource "\\1view \\2" "Add view modifier to getter functions" .function]

theorem toList_keywordSource (word : String) : (keywordSource word).toList = "\\b".toList ++ word.toList ++
    "\\s+(?=(?:".toList ++ "|".toList.intercalate (Legacy.declarationKeywords.map String.toList) ++ ")\\b)".toList := by
  simp only [keywordSource, String.toList_append, String.toList_intercalate]

theorem toList_storageCallSource (name : String) : (storageCallSource name).toList =
    "\\baccount\\.".toList ++ name.toList ++ "\\b(?=\\s*[<(])".toList := by
  simp only [storageCallSource, String.toList_append]

theorem toList_conformanceSource : conformanceSource.toList = "(".toList ++ headSource.toList ++ ")(".toList ++
    (dottedNameSource.toList ++ "(?:\\s*&\\s*".toList ++ dottedNameSource.toList ++ ")*\\s*,\\s*".toList ++
      dottedNameSource.toList ++ "(?:\\s*[,&]\\s*".toList ++ dottedNameSource.toList ++ ")*".toList) ++
    ")(?=\\s*\\\x7b)".toList := by
  simp only [conformanceSource, commaListSource, String.toList_append]

section Reading

variable [CharacterNames]

theorem parse_pubSet : Pattern.parse (keywordSource "pub\\(set\\)") = .ok ⟨Legacy.pubSetDeclaration, 0, []⟩ :=
  Pattern.parse_eq_ok (toList_keywordSource _) (by decide +kernel)

theorem parse_pub : Pattern.parse (keywordSource "pub") = .ok ⟨Legacy.pubDeclaration, 0, []⟩ :=
  Pattern.parse_eq_ok (toList_keywordSource _) (by decide +kernel)

theorem parse_conformance : Pattern.parse conformanceSource = .ok ⟨Legacy.conformance, 2, []⟩ := by
  have hhead : headSource.toList = _ := String.toList_ofList
  have hconformance := toList_conformanceSource
  rw [hhead] at hconformance
  exact Pattern.parse_eq_ok hconformance (by decide +kernel)

theorem parse_storageCall (name : String) (h : name ∈ ["save", "load", "borrow", "copy"]) :
    Pattern.parse (storageCallSource name) = .ok ⟨Legacy.storageAccess name, 0, []⟩ := by
  refine Pattern.parse_eq_ok (toList_storageCallSource name) ?_
  simp only [List.mem_cons, List.not_mem_nil, or_false] at h
  rcases h with rfl | rfl | rfl | rfl <;> decide +kernel

theorem parse_getCapability : Pattern.parse "\\baccount\\.getCapability\\b" =
    .ok ⟨Legacy.accountMember "getCapability", 0, []⟩ :=
  Pattern.parse_eq_ok String.toList_ofList (by decide +kernel)

theorem parse_getter : Pattern.parse getterSource = .ok ⟨Legacy.getter, 2, []⟩ := by
  have hgetter : getterSource.toList = _ := String.toList_append
  rw [String.toList_ofList, String.toList_ofList] at hgetter
  exact Pattern.parse_eq_ok hgetter (by decide +kernel)

theorem compile_of_parse {r : Rule} {source : String} {p : Pattern.Compiled} (hr : r.pattern = .text source)
    (hp : Pattern.parse source = .ok p) : r.compile = .ok p := by
  rw [compile, hr]
  dsimp only
  rw [hp]
  rfl

/-- The texts of the starting rules read as the patterns of the catalog. -/
theorem defaults_compile : defaults.map compile =
    [(Legacy.pubSetDeclaration, 0), (Legacy.pubDeclaration, 0), (Legacy.conformance, 2),
      (Legacy.storageAccess "save", 0), (Legacy.storageAccess "load", 0), (Legacy.storageAccess "borrow", 0),
      (Legacy.storageAccess "copy", 0), (Legacy.accountMember "getCapability", 0), (Legacy.getter, 2)].map
        fun p => .ok ⟨p.1, p.2, []⟩ := by
  simp only [defaults, List.map_cons, List.map_nil, moveStorageCall]
  rw [compile_of_parse rfl parse_pubSet, compile_of_parse rfl parse_pub, compile_of_parse rfl parse_conformance,
    compile_of_parse rfl (parse_storageCall "save" (by decide)),
    compile_of_parse rfl (parse_storageCall "load" (by decide)),
    compile_of_parse rfl (parse_storageCall "borrow" (by decide)),
    compile_of_parse rfl (parse_storageCall "copy" (by decide)),
    compile_of_parse rfl parse_getCapability, compile_of_parse rfl parse_getter]

end Reading

end CadenceUplift.Rule
