import SymbolMap.Text.Split

/-! Blank characters are those with the White_Space property. Words are the
longest runs of other characters. -/
namespace SymbolMap.Text

/-- The White_Space property: tab to carriage return, space, next line,
no-break space and the spaces and separators beyond Latin-1. -/
def isBlank (c : Char) : Bool :=
  let n := c.toNat
  (0x09 ≤ n && n ≤ 0x0D) || n == 0x20 || n == 0x85 || n == 0xA0 || n == 0x1680 ||
    (0x2000 ≤ n && n ≤ 0x200A) || n == 0x2028 || n == 0x2029 || n == 0x202F ||
    n == 0x205F || n == 0x3000

/-- A text without blanks at its end. -/
def trimEnd (s : List Char) : List Char := dropEndWhile isBlank s

/-- A text without blanks at either end. -/
def trim (s : List Char) : List Char := stripWhere isBlank s

/-- The words of a text: its pieces between blanks that are not empty. -/
def words (s : List Char) : List (List Char) :=
  (splitWhere isBlank s).filter (!·.isEmpty)

/-- The words of a text with one space between neighbours. -/
def collapse (s : List Char) : List Char := joinWith ' ' (words s)

/-- A collapsed text without the trailing marks that satisfy `p` and the
blanks before them: what is left of a declaration once its body or value is
cut off. -/
def collapseUpTo (p : Char → Bool) (s : List Char) : List Char :=
  trimEnd (dropEndWhile p (collapse s))

end SymbolMap.Text
