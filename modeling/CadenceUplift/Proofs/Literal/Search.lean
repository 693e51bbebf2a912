import CadenceUplift.Proofs.Literal.Reader

namespace CadenceUplift

variable {s : List Char} {ls ls' : List Literal}

/-- The literals that are left stay in order and apart when others are left out. -/
theorem Ordered.sublist {lo : Nat} (h : Ordered lo ls) (hsub : ls'.Sublist ls) : Ordered lo ls' := by
  induction hsub generalizing lo with
  | slnil => trivial
  | cons l _ ih =>
    obtain ⟨hlo, hl, hls⟩ := h
    exact ih (hls.mono (Nat.le_trans hlo hl))
  | cons_cons l _ ih =>
    obtain ⟨hlo, hl, hls⟩ := h
    exact ⟨hlo, hl, ih hls⟩

theorem covers_of_sublist (h : ls.Sublist (literals s)) (offset : Nat) :
    (LiteralIndex.ofList ls).covers offset = true ↔ Covered offset ls :=
  covers_ofList ((ordered_literals s).sublist h) offset

/-- In any of the literals of a text, an offset is found exactly if one of them has it, whether their first offsets are
laid out for the look-up or have been before. -/
theorem covers_exact (h : ls.Sublist (literals s)) (offset : Nat) :
    ((LiteralIndex.ofList ls).covers offset = true ↔ ∃ l ∈ ls, l.start ≤ offset ∧ offset < l.stop) ∧
      ∀ starts : Array Nat, starts.toList = ls.map (·.start) →
        (LiteralIndex.covers ⟨ls.toArray, starts⟩ offset = true ↔ ∃ l ∈ ls, l.start ≤ offset ∧ offset < l.stop) := by
  refine ⟨covers_of_sublist h offset, ?_⟩
  intro starts hstarts
  have hindex : LiteralIndex.mk ls.toArray starts = .ofList ls := by
    rw [LiteralIndex.ofList, ← hstarts]
  rw [hindex]
  exact covers_of_sublist h offset

/-- The comments alone of a text that also has strings, one right behind a comment. -/
theorem covers_exact_comments :
    let s := "/* a */\"b\"// c".toList
    let ls := (literals s).filter (·.kind == .comment)
    ls.Sublist (literals s) ∧ (ls.map (·.start)).toArray.toList = ls.map (·.start) ∧
      (LiteralIndex.covers ⟨ls.toArray, (ls.map (·.start)).toArray⟩ 8 = true ↔
        ∃ l ∈ ls, l.start ≤ 8 ∧ 8 < l.stop) := by
  intro s ls
  exact ⟨List.filter_sublist, rfl, (covers_exact List.filter_sublist 8).2 _ rfl⟩

end CadenceUplift
