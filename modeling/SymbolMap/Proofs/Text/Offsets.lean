import Mathlib
import SymbolMap.Proofs.Path.Segments
import SymbolMap.Proofs.Text.OctetOrder
import SymbolMap.Proofs.Text.Rows

/-! Offsets into a text, the places at these offsets, and the rows of the
text. An offset cuts a text in two, and one of its rows with it. The place of
the offset has the number of that row, and as its column the octets of the row
before the cut. -/
namespace SymbolMap.Text

section Octets

theorem takeOctets_append_dropOctets (offset : Nat) (s : List Char) :
    takeOctets offset s ++ dropOctets offset s = s := by
  induction s generalizing offset with
  | nil => cases offset <;> rfl
  | cons c s ih =>
      cases offset with
      | zero => rfl
      | succ offset => rw [takeOctets, dropOctets, List.cons_append, ih]

theorem octetLength_append (first second : List Char) :
    octetLength (first ++ second) = octetLength first + octetLength second := by
  induction first with
  | nil => rw [List.nil_append, octetLength, Nat.zero_add]
  | cons c first ih => rw [List.cons_append, octetLength, octetLength, ih, Nat.add_assoc]

/-- An offset at which a character of a text ends, or the text begins. -/
def IsBoundary (s : List Char) (offset : Nat) : Prop :=
  ∃ front back, s = front ++ back ∧ octetLength front = offset

theorem takeOctets_of_append (front back : List Char) :
    takeOctets (octetLength front) (front ++ back) = front := by
  induction front with
  | nil => rw [octetLength, takeOctets]
  | cons c front ih =>
      obtain ⟨size, hSize⟩ : ∃ size, octetLength (c :: front) = size + 1 :=
        ⟨octetLength (c :: front) - 1, by
          have hPos := c.utf8Size_pos
          rw [octetLength]
          omega⟩
      have hRest : size + 1 - c.utf8Size = octetLength front := by
        rw [octetLength] at hSize
        omega
      rw [hSize, List.cons_append, takeOctets, hRest, ih]

theorem isBoundary_iff (s : List Char) (offset : Nat) :
    IsBoundary s offset ↔ octetLength (takeOctets offset s) = offset := by
  constructor
  · rintro ⟨front, back, rfl, rfl⟩
    rw [takeOctets_of_append]
  · intro hLength
    exact ⟨_, _, (takeOctets_append_dropOctets offset s).symm, hLength⟩

instance (s : List Char) (offset : Nat) : Decidable (IsBoundary s offset) :=
  decidable_of_iff _ (isBoundary_iff s offset).symm

theorem length_encodeChar (c : Char) : (encodeChar c).length = c.utf8Size := by
  have hVal : c.val.toNat = c.toNat := rfl
  simp only [encodeChar, Char.utf8Size, UInt32.le_iff_toNat_le, UInt32.toNat_ofNatLT, hVal]
  generalize c.toNat = n
  split_ifs <;> simp only [List.length_cons, List.length_nil] <;> omega

theorem length_encode (s : List Char) : (encode s).length = octetLength s := by
  induction s with
  | nil => rfl
  | cons c s ih => rw [encode_cons, List.length_append, length_encodeChar, ih, octetLength]

end Octets

section Order

/-- Places in the order in which they come in a text. -/
instance : Preorder Position where
  le a b := a.line < b.line ∨ (a.line = b.line ∧ a.column ≤ b.column)
  le_refl _ := Or.inr ⟨rfl, Nat.le_refl _⟩
  le_trans a b c := by omega

theorem Position.advance_append (pos : Position) (first second : List Char) :
    pos.advance (first ++ second) = (pos.advance first).advance second := by
  induction first generalizing pos with
  | nil => rfl
  | cons c first ih =>
      rw [List.cons_append, Position.advance, Position.advance]
      split <;> exact ih _

theorem Position.le_advance (pos : Position) (s : List Char) : pos ≤ pos.advance s := by
  induction s generalizing pos with
  | nil => exact le_refl pos
  | cons c s ih =>
      rw [Position.advance]
      split
      · have hStep : pos ≤ ⟨pos.line + 1, 0⟩ := Or.inl (Nat.lt_succ_self pos.line)
        exact le_trans hStep (ih _)
      · have hStep : pos ≤ ⟨pos.line, pos.column + c.utf8Size⟩ := Or.inr ⟨rfl, by simp⟩
        exact le_trans hStep (ih _)

/-- A later offset is at the same place or at a later one. -/
theorem positionAt_le (s : List Char) {first second : Nat} (hLe : first ≤ second) :
    positionAt s first ≤ positionAt s second := by
  obtain ⟨more, hMore⟩ := takeOctets_isPrefix s hLe
  rw [positionAt, positionAt, ← hMore, Position.advance_append]
  exact Position.le_advance _ more

end Order

section Rows

variable {sep : Char} {s row next front back head tail : List Char}
variable {rows earlier later : List (List Char)}

theorem not_mem_of_mem_splitAt (hPiece : row ∈ splitAt sep s) : sep ∉ row := by
  intro hSep
  simpa using (mem_piece_of_mem_splitWhere hPiece hSep).2

theorem eq_of_splitAt_singleton (hRows : splitAt sep s = [row]) : s = row ∧ sep ∉ row := by
  have hText := joinWith_splitAt sep s
  rw [hRows] at hText
  exact ⟨hText.symm, not_mem_of_mem_splitAt (hRows ▸ List.mem_singleton_self row)⟩

/-- A text of several rows goes on behind the first of them. -/
theorem exists_of_splitAt_cons (hRows : splitAt sep s = row :: rows) (hMore : rows ≠ []) :
    ∃ rest, s = row ++ sep :: rest ∧ sep ∉ row ∧ splitAt sep rest = rows := by
  obtain ⟨next, rows, rfl⟩ := List.exists_cons_of_ne_nil hMore
  have hRow : sep ∉ row := not_mem_of_mem_splitAt (hRows ▸ List.mem_cons_self)
  have hText : s = row ++ sep :: joinWith sep (next :: rows) := by
    rw [← joinWith_splitAt sep s, hRows]
    rfl
  rw [hText, splitAt_append_cons hRow] at hRows
  exact ⟨_, hText, hRow, (List.cons.inj hRows).2⟩

theorem splitAt_append_of_not_mem (hTail : sep ∉ tail)
    (hBack : splitAt sep back = head :: later) :
    splitAt sep (tail ++ back) = (tail ++ head) :: later := by
  have hFree : sep ∉ head → sep ∉ tail ++ head := fun hHead hSep =>
    (List.mem_append.mp hSep).elim hTail hHead
  by_cases hLater : later = []
  · subst hLater
    obtain ⟨rfl, hHead⟩ := eq_of_splitAt_singleton hBack
    exact splitAt_of_not_mem (hFree hHead)
  · obtain ⟨rest, rfl, hHead, hRest⟩ := exists_of_splitAt_cons hBack hLater
    rw [← List.append_assoc, splitAt_append_cons (hFree hHead), hRest]

/-- Two texts put together share the row in which they meet. -/
theorem splitAt_append_text (hFront : splitAt sep front = earlier ++ [tail])
    (hBack : splitAt sep back = head :: later) :
    splitAt sep (front ++ back) = earlier ++ (tail ++ head) :: later := by
  induction earlier generalizing front with
  | nil =>
      obtain ⟨rfl, hTail⟩ := eq_of_splitAt_singleton hFront
      exact splitAt_append_of_not_mem hTail hBack
  | cons row earlier ih =>
      obtain ⟨rest, rfl, hRow, hRest⟩ := exists_of_splitAt_cons hFront (by simp)
      rw [List.append_assoc, List.cons_append, splitAt_append_cons hRow, ih hRest,
        List.cons_append]

theorem Position.advance_of_not_mem (pos : Position) (hRow : '\n' ∉ row) :
    pos.advance row = ⟨pos.line, pos.column + octetLength row⟩ := by
  induction row generalizing pos with
  | nil => rfl
  | cons c row ih =>
      obtain ⟨hChar, hRest⟩ := not_or.mp fun h => hRow (List.mem_cons.mpr h)
      rw [Position.advance, if_neg (Ne.symm hChar), ih _ hRest, octetLength, Nat.add_assoc]

/-- Behind a text one is in its last row, after the octets of that row. -/
theorem Position.advance_of_splitAt (hRows : splitAt '\n' s = earlier ++ [tail]) (line : Nat) :
    Position.advance ⟨line, 0⟩ s = ⟨line + earlier.length, octetLength tail⟩ := by
  induction earlier generalizing s line with
  | nil =>
      obtain ⟨rfl, hTail⟩ := eq_of_splitAt_singleton hRows
      rw [Position.advance_of_not_mem _ hTail]
      simp
  | cons row earlier ih =>
      obtain ⟨rest, rfl, hRow, hRest⟩ := exists_of_splitAt_cons hRows (by simp)
      rw [Position.advance_append, Position.advance_of_not_mem _ hRow, Position.advance,
        if_pos rfl, ih hRest, List.length_cons, Nat.add_assoc, Nat.add_comm 1]

/-- The octets of a text are those of its rows, and a line feed behind each
but the last. -/
theorem octetLength_of_splitAt (hRows : splitAt '\n' s = earlier ++ [tail]) :
    octetLength s = (earlier.map fun row => octetLength row + 1).sum + octetLength tail := by
  induction earlier generalizing s with
  | nil =>
      obtain ⟨rfl, _⟩ := eq_of_splitAt_singleton hRows
      simp
  | cons row earlier ih =>
      obtain ⟨rest, rfl, _, hRest⟩ := exists_of_splitAt_cons hRows (by simp)
      have hBreak : '\n'.utf8Size = 1 := by decide
      rw [octetLength_append, octetLength, hBreak, ih hRest, List.map_cons, List.sum_cons]
      omega

/-- An offset cuts a text, and one of its rows: the one with the number of the
place, after as many octets as the column says. -/
theorem exists_cut (s : List Char) (offset : Nat) :
    ∃ earlier tail head later,
      splitAt '\n' (takeOctets offset s) = earlier ++ [tail] ∧
      splitAt '\n' (dropOctets offset s) = head :: later ∧
      splitAt '\n' s = earlier ++ (tail ++ head) :: later ∧
      positionAt s offset = ⟨earlier.length, octetLength tail⟩ := by
  obtain ⟨earlier, tail, hFront⟩ :=
    (List.eq_nil_or_concat' (splitAt '\n' (takeOctets offset s))).resolve_left
      (splitWhere_ne_nil _ _)
  obtain ⟨head, later, hBack⟩ :=
    List.exists_cons_of_ne_nil (splitWhere_ne_nil (· == '\n') (dropOctets offset s))
  have hRows := splitAt_append_text hFront hBack
  rw [takeOctets_append_dropOctets] at hRows
  refine ⟨earlier, tail, head, later, hFront, hBack, hRows, ?_⟩
  rw [positionAt, Position.advance_of_splitAt hFront, Nat.zero_add]

/-- The row of an offset is one of the rows of the text. -/
theorem line_positionAt_lt (s : List Char) (offset : Nat) :
    (positionAt s offset).line < (splitAt '\n' s).length := by
  obtain ⟨earlier, tail, head, later, _, _, hRows, hPlace⟩ := exists_cut s offset
  rw [hRows, hPlace, List.length_append, List.length_cons]
  show earlier.length < earlier.length + (later.length + 1)
  omega

end Rows

end SymbolMap.Text
