import SymbolMap.Text.Utf8

/-! Places in a text by line and column. -/
namespace SymbolMap.Text

/-- A line and a column, both counted from zero. Columns count octets. -/
structure Position where
  line : Nat
  column : Nat
deriving Repr, DecidableEq

/-- The place after some text that begins at a place. -/
def Position.advance (pos : Position) : List Char → Position
  | [] => pos
  | c :: cs =>
    if c = '\n' then Position.advance ⟨pos.line + 1, 0⟩ cs
    else Position.advance ⟨pos.line, pos.column + c.utf8Size⟩ cs

/-- The place of an offset into a text. -/
def positionAt (s : List Char) (offset : Nat) : Position :=
  Position.advance ⟨0, 0⟩ (takeOctets offset s)

/-- The part of a text from one place up to another. -/
structure Range where
  start : Position
  stop : Position
deriving Repr, DecidableEq

/-- The range between two lines, from the start of each. -/
def Range.ofLines (first last : Nat) : Range := ⟨⟨first, 0⟩, ⟨last, 0⟩⟩

end SymbolMap.Text
