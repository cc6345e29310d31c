import SymbolMap.Text.Position

/-! Rows of offsets. The row of an offset is the number of line feeds before
it, so rows never go down as offsets go up. -/
namespace SymbolMap.Text

theorem line_advance (pos : Position) (s : List Char) :
    (pos.advance s).line = pos.line + s.count '\n' := by
  induction s generalizing pos with
  | nil => rfl
  | cons c s ih =>
      rw [Position.advance]
      split
      · rename_i hBreak
        rw [ih, hBreak, List.count_cons_self]
        show pos.line + 1 + s.count '\n' = pos.line + (s.count '\n' + 1)
        omega
      · rename_i hOther
        rw [ih, List.count_cons_of_ne hOther]

/-- The row of an offset is the number of line feeds before it. -/
theorem line_positionAt (s : List Char) (offset : Nat) :
    (positionAt s offset).line = (takeOctets offset s).count '\n' := by
  rw [positionAt, line_advance, Nat.zero_add]

theorem takeOctets_isPrefix (s : List Char) {first second : Nat} (hLe : first ≤ second) :
    takeOctets first s <+: takeOctets second s := by
  induction s generalizing first second with
  | nil => cases first <;> cases second <;> simp [takeOctets]
  | cons c s ih =>
      cases first with
      | zero =>
          rw [takeOctets]
          exact List.nil_prefix
      | succ first =>
          obtain ⟨second, rfl⟩ : ∃ more, second = more + 1 := ⟨second - 1, by omega⟩
          rw [takeOctets, takeOctets, List.cons_prefix_cons]
          exact ⟨rfl, ih (by omega)⟩

/-- A later offset is on the same row or on a later one. -/
theorem line_positionAt_le (s : List Char) {first second : Nat} (hLe : first ≤ second) :
    (positionAt s first).line ≤ (positionAt s second).line := by
  rw [line_positionAt, line_positionAt]
  exact (takeOctets_isPrefix s hLe).sublist.count_le '\n'

end SymbolMap.Text
