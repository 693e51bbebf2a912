import CadenceUplift.File.Tree
import Mathlib.Data.String.Basic

namespace CadenceUplift

namespace Node

/-- What stands at a path of names; all names but the last are those of directories, not of links to them. -/
inductive At : List (String × Node) → List String → Node → Prop
  | here {entries : List (String × Node)} {name : String} {n : Node} : (name, n) ∈ entries → At entries [name] n
  | inside {entries inner : List (String × Node)} {name : String} {path : List String} {n : Node} :
      (name, .dir inner) ∈ entries → At inner path n → At entries (name :: path) n

section Paths

variable {entries rest : List (String × Node)} {e : String × Node} {name : String} {n m : Node} {path : List String}

theorem At.ne_nil (h : At entries path n) : path ≠ [] := by
  cases h <;> simp

theorem At.exists_name (h : At entries path n) : ∃ e ∈ entries, ∃ tail, path = e.1 :: tail := by
  cases h with
  | here hmem => exact ⟨_, hmem, [], rfl⟩
  | inside hmem _ => exact ⟨_, hmem, _, rfl⟩

theorem not_at_nil : ¬At [] path n := by
  intro h
  obtain ⟨_, hmem, _⟩ := h.exists_name
  cases hmem

theorem At.behind (h : At rest path n) : At (e :: rest) path n := by
  cases h with
  | here hmem => exact .here (List.mem_cons_of_mem _ hmem)
  | inside hmem hin => exact .inside (List.mem_cons_of_mem _ hmem) hin

/-- What stands at a path stands at the first entry, inside it, or behind it. -/
theorem at_cons_iff : At ((name, n) :: rest) path m ↔
    path = [name] ∧ m = n ∨ (∃ inner tail, n = .dir inner ∧ path = name :: tail ∧ At inner tail m) ∨ At rest path m := by
  constructor
  · intro h
    cases h with
    | here hmem =>
      rcases List.mem_cons.mp hmem with heq | hmem
      · obtain ⟨rfl, rfl⟩ := Prod.mk.inj heq
        exact .inl ⟨rfl, rfl⟩
      · exact .inr (.inr (.here hmem))
    | inside hmem hin =>
      rcases List.mem_cons.mp hmem with heq | hmem
      · obtain ⟨rfl, rfl⟩ := Prod.mk.inj heq
        exact .inr (.inl ⟨_, _, rfl, rfl, hin⟩)
      · exact .inr (.inr (.inside hmem hin))
  · rintro (⟨rfl, rfl⟩ | ⟨inner, tail, rfl, rfl, hin⟩ | h)
    · exact .here List.mem_cons_self
    · exact .inside List.mem_cons_self hin
    · exact h.behind

end Paths

section Order

variable {entries inner : List (String × Node)}

theorem EntriesOrdered.entriesAt? {path : List String} (h : EntriesOrdered entries)
    (hat : Node.entriesAt? path entries = some inner) : EntriesOrdered inner := by
  induction path generalizing entries with
  | nil =>
    obtain rfl := Option.some.inj hat
    exact h
  | cons name path ih =>
    rw [Node.entriesAt?] at hat
    split at hat
    next es hes => exact ih (h.of_mem (mem_of_lookup hes)) hat
    next => cases hat

end Order

end Node

namespace FileTree

variable {t : FileTree}

section Located

variable {real steps : List String} {entries : List (String × Node)}

/-- A directory that steps lead to is one of the tree's. -/
theorem entriesAt?_of_walk {onLink : List String → List String → Located}
    (hlink : ∀ from_ rest, onLink from_ rest = .found real (.dir entries) →
      Node.entriesAt? real t.entries = some entries)
    {start : List String} (h : t.walk onLink start steps = .found real (.dir entries)) :
    Node.entriesAt? real t.entries = some entries := by
  fun_induction walk t onLink start steps with
  | case1 => cases h
  | case2 start es hes =>
    obtain ⟨rfl, hdir⟩ := Located.found.inj h
    obtain rfl := Node.dir.inj hdir
    exact hes
  | case3 => cases h
  | case4 start rest es hes ih => exact ih h
  | case5 start rest es hes hdot ih => exact ih h
  | case6 => cases h
  | case7 => cases h
  | case8 => cases h
  | case9 => cases h
  | case10 => cases h
  | case11 start name rest es hes hdot hup hsize sub hlookup ih => exact ih h
  | case12 => exact hlink _ _ h

theorem entriesAt?_of_follow {links : Nat} {start : List String}
    (h : t.follow links start steps = .found real (.dir entries)) : Node.entriesAt? real t.entries = some entries := by
  induction links generalizing start steps with
  | zero =>
    rw [follow] at h
    refine entriesAt?_of_walk ?_ h
    intro _ _ hlink
    cases hlink
  | succ links ih =>
    rw [follow] at h
    exact entriesAt?_of_walk (fun _ _ hlink => ih hlink) h

/-- A directory that a path leads to lists its entries by name. -/
theorem entriesOrdered_of_locatePath {p : Path} (hp : t.locatePath p = .found real (.dir entries)) :
    Node.EntriesOrdered entries := by
  unfold FileTree.locatePath locate at hp
  split at hp
  · cases hp
  · split at hp
    · cases hp
    · split at hp
      · cases hp
      · exact t.ordered.entriesAt? (entriesAt?_of_follow hp)

end Located

end FileTree

end CadenceUplift
